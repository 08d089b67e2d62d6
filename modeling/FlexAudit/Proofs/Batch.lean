import FlexAudit.Cli.Run
import FlexAudit.Proofs.Report

/-!
# Batches

The workers of a scan finish their files in an order of their own, and five channels tell what was
found: the summary, the list of paths, the report for machines, the text for people, and the exit
status. Each decides by itself which files are vulnerable. Proved here:

* `Backend.scanInOrder_eq`: once every file is finished, in whatever order, each place holds the
  outcome of its own path;
* `ScanSummary.ofOutcomes_append`, `ScanSummary.ofOutcomes_perm`, `ScanSummary.ofOutcomes_balanced`:
  a summary adds up over batches, does not see their order, and counts every outcome once;
* `batch_channels_agree`: the channels agree on every batch. Only the text for people can show the
  issue for a file that is not vulnerable, and it does exactly where the path or the message of the
  disassembler quotes the issue (`issue_shown_by_message`).
-/

namespace FlexAudit

open Text

/-! ## Workers -/

namespace Backend

/-- One file is finished: its outcome goes to its place. -/
def finishFile (b : Backend) (paths : List Path) (places : List (Option ScanOutcome)) (i : Nat) :
    List (Option ScanOutcome) :=
  places.set i (paths[i]?.map fun p => (b.scanFile p).1)

/-- The places after the files with these numbers are finished, one after the other. -/
def scanInOrder (b : Backend) (paths : List Path) (order : List Nat) : List (Option ScanOutcome) :=
  order.foldl (b.finishFile paths) (List.replicate paths.length none)

theorem getElem?_finishFile (b : Backend) (paths : List Path) (places : List (Option ScanOutcome))
    (i k : Nat) : (b.finishFile paths places k)[i]? =
      if i = k ∧ i < places.length then some (paths[i]?.map fun p => (b.scanFile p).1)
      else places[i]? := by
  rw [finishFile, List.getElem?_set]
  by_cases hik : k = i
  · subst hik
    by_cases hlt : k < places.length
    · simp [hlt]
    · simp [hlt]
  · simp [hik, Ne.symm hik]

/-- A place is filled once its file is among the finished ones; no other file touches it. -/
theorem getElem?_foldl_finishFile (b : Backend) (paths : List Path) (order : List Nat)
    (places : List (Option ScanOutcome)) (i : Nat) :
    (order.foldl (b.finishFile paths) places)[i]? =
      if i ∈ order ∧ i < places.length then some (paths[i]?.map fun p => (b.scanFile p).1)
      else places[i]? := by
  induction order generalizing places with
  | nil => simp
  | cons k order ih =>
    have hlength : (b.finishFile paths places k).length = places.length := by simp [finishFile]
    rw [List.foldl_cons, ih, getElem?_finishFile, hlength]
    by_cases hlt : i < places.length
    · by_cases hmem : i ∈ order
      · simp [hlt, hmem]
      · simp [hlt, hmem]
    · simp [hlt]

/-- **Any order of completion.** -/
theorem scanInOrder_eq (b : Backend) {paths : List Path} {order : List Nat}
    (h : ∀ i < paths.length, i ∈ order) :
    b.scanInOrder paths order = (b.scanAll paths).map some := by
  apply List.ext_getElem?
  intro i
  rw [scanInOrder, getElem?_foldl_finishFile, List.length_replicate]
  by_cases hlt : i < paths.length
  · simp [h i hlt, hlt, scanAll]
  · simp [hlt, scanAll]

end Backend

/-! ## Summaries -/

namespace ScanSummary

/-- Field by field. -/
instance : Add ScanSummary where
  add s t := {
    scanned := s.scanned + t.scanned
    vulnerable := s.vulnerable + t.vulnerable
    notVulnerable := s.notVulnerable + t.notVulnerable
    indeterminate := s.indeterminate + t.indeterminate
    errors := s.errors + t.errors }

theorem ofOutcomes_append (xs ys : List ScanOutcome) :
    ofOutcomes (xs ++ ys) = ofOutcomes xs + ofOutcomes ys := by
  have hcount (k : Option Verdict.Kind) : count (xs ++ ys) k = count xs k + count ys k :=
    List.countP_append
  simp only [ofOutcomes, hcount, List.length_append]
  rfl

theorem ofOutcomes_perm {xs ys : List ScanOutcome} (h : xs.Perm ys) :
    ofOutcomes xs = ofOutcomes ys := by
  have hcount (k : Option Verdict.Kind) : count xs k = count ys k := h.countP_eq _
  simp only [ofOutcomes, hcount, h.length_eq]

/-- Every outcome is counted once. -/
def Balanced (s : ScanSummary) : Prop :=
  s.vulnerable + s.notVulnerable + s.indeterminate + s.errors = s.scanned

theorem Balanced.add {s t : ScanSummary} (hs : s.Balanced) (ht : t.Balanced) :
    (s + t).Balanced := by
  change s.vulnerable + t.vulnerable + (s.notVulnerable + t.notVulnerable)
    + (s.indeterminate + t.indeterminate) + (s.errors + t.errors) = s.scanned + t.scanned
  unfold Balanced at hs ht
  omega

theorem balanced_singleton (o : ScanOutcome) : (ofOutcomes [o]).Balanced := by
  unfold Balanced ofOutcomes count
  cases hverdict : o.verdict? with
  | none => simp [hverdict]
  | some v =>
    cases hkind : v.kind with
    | vulnerable => simp [hverdict, hkind]
    | notVulnerable => simp [hverdict, hkind]
    | indeterminate => simp [hverdict, hkind]

theorem ofOutcomes_balanced (outcomes : List ScanOutcome) : (ofOutcomes outcomes).Balanced := by
  induction outcomes with
  | nil => rfl
  | cons o rest ih =>
    rw [← List.singleton_append, ofOutcomes_append]
    exact (balanced_singleton o).add ih

theorem vulnerable_ofOutcomes (outcomes : List ScanOutcome) :
    (ofOutcomes outcomes).vulnerable = outcomes.countP ScanOutcome.isVulnerable := by
  refine List.countP_congr fun o _ => ?_
  rw [ScanOutcome.isVulnerable]
  cases o.verdict? with
  | none => simp
  | some v => simp [Verdict.isVulnerable]

end ScanSummary

/-! ## Channels -/

theorem length_vulnerablePaths (outcomes : List ScanOutcome) :
    (vulnerablePaths outcomes).length = (ScanSummary.ofOutcomes outcomes).vulnerable := by
  rw [ScanSummary.vulnerable_ofOutcomes, List.countP_eq_length_filter, vulnerablePaths,
    List.length_map]

theorem ScanReport.countP_issue (h : Host) (outcomes : List ScanOutcome) :
    (ScanReport.ofOutcomes h outcomes).files.countP (fun r => r.issue.isSome) =
      (ScanSummary.ofOutcomes outcomes).vulnerable := by
  rw [ScanSummary.vulnerable_ofOutcomes, ofOutcomes, List.countP_map]
  refine List.countP_congr fun o _ => ?_
  cases hvulnerable : o.isVulnerable <;> simp [FileReport.ofOutcome, hvulnerable]

/-- Whether the text shows the issue only because the path or the message quotes it. -/
def ScanOutcome.onlyQuotesIssue (o : ScanOutcome) : Bool :=
  !o.isVulnerable && o.quotesIssue

theorem countP_showsIssue {outcomes : List ScanOutcome}
    (h : ∀ o ∈ outcomes, o.showsIssue = true ↔ o.isVulnerable = true ∨ o.quotesIssue = true) :
    outcomes.countP ScanOutcome.showsIssue =
      (ScanSummary.ofOutcomes outcomes).vulnerable
        + outcomes.countP ScanOutcome.onlyQuotesIssue := by
  rw [ScanSummary.vulnerable_ofOutcomes]
  induction outcomes with
  | nil => rfl
  | cons o rest ih =>
    have hrest := ih fun x hx => h x (List.mem_cons_of_mem o hx)
    have ho : o.showsIssue = (o.isVulnerable || o.quotesIssue) := by
      rw [Bool.eq_iff_iff, Bool.or_eq_true]
      exact h o List.mem_cons_self
    rw [List.countP_cons, List.countP_cons, List.countP_cons, hrest, ho,
      ScanOutcome.onlyQuotesIssue]
    cases o.isVulnerable <;> cases o.quotesIssue <;> simp <;> omega

theorem exitOf_ofOutcomes (outcomes : List ScanOutcome) :
    Cli.exitOf (.ofOutcomes outcomes) = if vulnerablePaths outcomes = [] then 0 else 2 := by
  have hiff : (ScanSummary.ofOutcomes outcomes).anyVulnerable = true ↔
      vulnerablePaths outcomes ≠ [] := by
    rw [ScanSummary.anyVulnerable, ← length_vulnerablePaths, decide_eq_true_iff,
      List.length_pos_iff]
  rw [Cli.exitOf]
  by_cases hempty : vulnerablePaths outcomes = []
  · rw [if_pos hempty, if_neg (fun hany => hiff.mp hany hempty)]
  · rw [if_neg hempty, if_pos (hiff.mpr hempty), Cli.exitVulnerable]

namespace Cli

/-- The exit status of a command is told by its result alone. -/
theorem exit_finish {α : Type} {r : CommandRun α} {a : α} (hr : r.result = .ok a)
    (filter : Log.Filter) (tree : FileTree) (exit : α → Nat) :
    (finish filter tree exit r).exit = exit a := by
  rw [finish, hr]

/-- The action scans these files with this backend and these workers. -/
def Action.Scans (h : Host) (b : Backend) (paths : List Path) (jobs : Option UInt64) :
    Action → Prop
  | .scan o => h.prepareScan o = .ok (b, paths, jobs)
  | .analyzeDump inputs recursive _ =>
    h.tree.candidates h.cwd Host.dumpExtensions recursive inputs = .ok paths ∧
      b = h.dumpFile ∧ jobs = none
  | .disassemblers .. => False
  | .initConfig .. => False

theorem exit_runAction {h : Host} {b : Backend} {paths : List Path} {jobs : Option UInt64}
    {outcomes : List ScanOutcome} (hbatch : h.scanBatch b paths jobs = .ok outcomes)
    {action : Action} (hscans : action.Scans h b paths jobs) (filter : Log.Filter) :
    (runAction h filter action).exit = exitOf (.ofOutcomes outcomes) := by
  have hresult (o : OutputOptions) :
      (h.scanAndPrint b paths jobs o).result = .ok (.ofOutcomes outcomes) := by
    rw [Host.scanAndPrint, hbatch]
  cases action with
  | scan o =>
    have hprepare : h.prepareScan o = .ok (b, paths, jobs) := hscans
    refine exit_finish ?_ filter h.tree exitOf
    rw [Host.scan, hprepare]
    exact hresult o.output
  | analyzeDump inputs recursive o =>
    obtain ⟨hpaths, rfl, rfl⟩ := hscans
    refine exit_finish ?_ filter h.tree exitOf
    rw [Host.analyzeDump, hpaths]
    exact hresult o
  | disassemblers config json => exact hscans.elim
  | initConfig path format force => exact hscans.elim

end Cli

/-- What all channels about a batch tell. -/
structure ChannelsAgree (h : Host) (b : Backend) (paths : List Path) (jobs : Option UInt64)
    (outcomes : List ScanOutcome) : Prop where
  /-- One outcome for each path, in the order of the paths. -/
  inOrder : outcomes.map ScanOutcome.path = paths
  /-- The workers may finish the files in any order. -/
  anyOrder : ∀ order : List Nat, (∀ i < paths.length, i ∈ order) →
    b.scanInOrder paths order = outcomes.map some
  /-- Either an analysis or an error. -/
  oneAnswer : ∀ o ∈ outcomes, o.analysis.isSome = !o.error.isSome
  balanced : (ScanSummary.ofOutcomes outcomes).Balanced
  scanned : (ScanSummary.ofOutcomes outcomes).scanned = paths.length
  listed : (vulnerablePaths outcomes).length = (ScanSummary.ofOutcomes outcomes).vulnerable
  reported : (ScanReport.ofOutcomes h outcomes).files.countP (fun r => r.issue.isSome) =
    (ScanSummary.ofOutcomes outcomes).vulnerable
  rendered : outcomes.countP ScanOutcome.showsIssue =
    (ScanSummary.ofOutcomes outcomes).vulnerable + outcomes.countP ScanOutcome.onlyQuotesIssue
  /-- The end of a command that prints the batch. -/
  exit : ∀ filter tree output,
    (Cli.finish filter tree Cli.exitOf (h.scanAndPrint b paths jobs output)).exit =
      if vulnerablePaths outcomes = [] then 0 else 2
  /-- The program, run with arguments that ask for the batch. -/
  exitStatus : ∀ directives args action verbosity,
    Cli.readRequest 0 args = .run action verbosity → action.Scans h b paths jobs →
      (Cli.run h directives args).exit = if vulnerablePaths outcomes = [] then 0 else 2

theorem Host.scanBatch_eq {h : Host} {jobs : Option UInt64}
    (hworkers : h.gatherWorkers jobs = .ok ()) (b : Backend) (paths : List Path) :
    h.scanBatch b paths jobs = .ok (b.scanAll paths) := by
  rw [scanBatch, hworkers]
  rfl

theorem Backend.mem_scanAll {b : Backend} {paths : List Path} {o : ScanOutcome}
    (ho : o ∈ b.scanAll paths) : ∃ p, o = (b.scanFile p).1 := by
  obtain ⟨p, -, rfl⟩ := List.mem_map.mp ho
  exact ⟨p, rfl⟩

theorem Host.scanAll_channelsAgree {h : Host} {jobs : Option UInt64}
    (hworkers : h.gatherWorkers jobs = .ok ()) (b : Backend) (paths : List Path) :
    ChannelsAgree h b paths jobs (b.scanAll paths) where
  inOrder := by
    have hpath (p : Path) : (b.scanFile p).1.path = p := by
      obtain ⟨t, -, heq⟩ | ⟨e, -, heq⟩ := b.scanFile_cases p <;> rw [heq]
    simp [Backend.scanAll, Function.comp_def, hpath]
  anyOrder order horder := b.scanInOrder_eq horder
  oneAnswer := by
    intro o ho
    obtain ⟨p, rfl⟩ := Backend.mem_scanAll ho
    obtain ⟨t, -, heq⟩ | ⟨e, -, heq⟩ := b.scanFile_cases p <;> rw [heq] <;> rfl
  balanced := ScanSummary.ofOutcomes_balanced _
  scanned := List.length_map _
  listed := length_vulnerablePaths _
  reported := ScanReport.countP_issue h _
  rendered := by
    refine countP_showsIssue fun o ho => ?_
    obtain ⟨p, rfl⟩ := Backend.mem_scanAll ho
    exact b.showsIssue_scanFile_iff p
  exit := by
    intro filter tree output
    rw [← exitOf_ofOutcomes]
    refine Cli.exit_finish ?_ filter tree Cli.exitOf
    rw [scanAndPrint, scanBatch_eq hworkers]
  exitStatus := by
    intro directives args action verbosity hrequest hscans
    rw [← exitOf_ofOutcomes, Cli.run, hrequest]
    exact Cli.exit_runAction (scanBatch_eq hworkers b paths) hscans _

theorem Host.scanBatch_append {h : Host} {jobs : Option UInt64} {b : Backend}
    {paths others : List Path} {xs ys : List ScanOutcome}
    (hxs : h.scanBatch b paths jobs = .ok xs) (hys : h.scanBatch b others jobs = .ok ys) :
    h.scanBatch b (paths ++ others) jobs = .ok (xs ++ ys) := by
  cases hworkers : h.gatherWorkers jobs with
  | error e =>
    rw [scanBatch, hworkers] at hxs
    cases hxs
  | ok _ =>
    rw [scanBatch_eq hworkers] at hxs hys ⊢
    cases hxs
    cases hys
    rw [Backend.scanAll, List.map_append]
    rfl

/-- **All channels agree.** Wherever the workers can be had, a batch of any files through any
backend gives outcomes on which all channels agree. Batches add up, in their outcomes and field by
field in their summaries, and a summary does not see the order of the outcomes. -/
theorem batch_channels_agree (h : Host) (b : Backend) (jobs : Option UInt64)
    (hworkers : h.gatherWorkers jobs = .ok ()) :
    (∀ paths, ∃ outcomes,
      h.scanBatch b paths jobs = .ok outcomes ∧ ChannelsAgree h b paths jobs outcomes) ∧
    (∀ paths others xs ys,
      h.scanBatch b paths jobs = .ok xs → h.scanBatch b others jobs = .ok ys →
        h.scanBatch b (paths ++ others) jobs = .ok (xs ++ ys)) ∧
    (∀ xs ys, ScanSummary.ofOutcomes (xs ++ ys) = .ofOutcomes xs + .ofOutcomes ys) ∧
    ∀ xs ys : List ScanOutcome, xs.Perm ys →
      ScanSummary.ofOutcomes xs = ScanSummary.ofOutcomes ys := by
  refine ⟨fun paths => ⟨b.scanAll paths, ?_, ?_⟩, ?_, ?_, ?_⟩
  · exact Host.scanBatch_eq hworkers b paths
  · exact Host.scanAll_channelsAgree hworkers b paths
  · exact fun _ _ _ _ hxs hys => Host.scanBatch_append hxs hys
  · exact ScanSummary.ofOutcomes_append
  · exact fun _ _ hperm => ScanSummary.ofOutcomes_perm hperm

/-- Three files for four workers on a host that can start eight: a vulnerable one, one that cannot
be disassembled, and one that is no Flex application. -/
theorem batch_channels_agree_mixed :
    let h : Host := { tree := { entries := [], nodup := by simp }
                      cwd := [], run := fun _ _ => .error .notFound
                      startWorkers := fun n => if n ≤ 8 then .ok () else .error .exhausted }
    let b : Backend := ⟨"memory", fun p => ⟨
      if p.text = "old" then .ok "resourceModuleURLs\n<ProductInfo version='3.5.0'"
      else if p.text = "gone" then .error (.missingBinary p) else .ok "", []⟩⟩
    h.gatherWorkers (some 4) = .ok () ∧
    ∃ outcomes, h.scanBatch b [⟨"old"⟩, ⟨"gone"⟩, ⟨"plain"⟩] (some 4) = .ok outcomes ∧
      ScanSummary.ofOutcomes outcomes = ⟨3, 1, 1, 0, 1⟩ ∧
      (vulnerablePaths outcomes).length = 1 ∧
      b.scanInOrder [⟨"old"⟩, ⟨"gone"⟩, ⟨"plain"⟩] [2, 0, 1] = outcomes.map some ∧
      ∀ filter output, (Cli.finish filter h.tree Cli.exitOf (h.scanAndPrint b
        [⟨"old"⟩, ⟨"gone"⟩, ⟨"plain"⟩] (some 4) output)).exit = 2 := by
  intro h b
  have hworkers : h.gatherWorkers (some 4) = .ok () := rfl
  obtain ⟨outcomes, hbatch, hagree⟩ :=
    (batch_channels_agree h b (some 4) hworkers).1 [⟨"old"⟩, ⟨"gone"⟩, ⟨"plain"⟩]
  have hsummary : ScanSummary.ofOutcomes outcomes = ⟨3, 1, 1, 0, 1⟩ := by
    rw [Host.scanBatch_eq hworkers] at hbatch
    cases hbatch
    decide +kernel
  have hlisted : (vulnerablePaths outcomes).length = 1 := by rw [hagree.listed, hsummary]
  refine ⟨hworkers, outcomes, hbatch, hsummary, hlisted, ?_, ?_⟩
  · exact hagree.anyOrder [2, 0, 1] (by decide)
  · intro filter output
    rw [hagree.exit, if_neg]
    intro hempty
    simp [hempty] at hlisted

theorem dropLast_joinLines {lines : List (List Char)} (h : lines ≠ []) :
    (joinLines lines).dropLast ++ ['\n'] = joinLines lines := by
  obtain ⟨front, last, rfl⟩ : ∃ front last, lines = front ++ [last] :=
    ⟨_, _, (List.dropLast_append_getLast h).symm⟩
  have hend : joinLines (front ++ [last]) = joinLines front ++ last ++ ['\n'] := by
    simp [joinLines]
  rw [hend, List.dropLast_concat]

/-- A disassembler that fails and prints the lines of the issue, but for the last feed, which the
report brings: the text for people shows them, and no file is vulnerable. -/
theorem issue_shown_by_message :
    let printed := "cannot read:\n" ++ String.ofList Issue.resourceModules.render.toList.dropLast
    let b : Backend := ⟨"swfdump", fun _ => ⟨.error (.failed "sh" 1 printed), []⟩⟩
    (ScanSummary.ofOutcomes (b.scanAll [⟨"a.swf"⟩])).vulnerable = 0 ∧
      (b.scanAll [⟨"a.swf"⟩]).countP ScanOutcome.showsIssue = 1 := by
  intro printed b
  refine ⟨rfl, ?_⟩
  have hclosed : Issue.resourceModules.render.toList.dropLast ++ ['\n']
      = Issue.resourceModules.render.toList := by
    rw [Issue.toList_render]
    exact dropLast_joinLines (by simp [Issue.lines])
  have hline : Issue.resourceModules.render.toList <:+:
      (ScanOutcome.errorLine (DisassemblyError.failed "sh" 1 printed).message).toList := by
    change _ <:+: ("[!] " ++ ("sh" ++ " exited with exit status: " ++ toString 1 ++ ": "
      ++ ("cannot read:\n" ++ String.ofList Issue.resourceModules.render.toList.dropLast))
      ++ "\n").toList
    simp only [String.toList_append, String.toList_ofList, List.append_assoc, toList_feed, hclosed]
    simp only [← List.append_assoc]
    exact (List.suffix_append _ _).isInfix
  have hshows : (b.scanFile ⟨"a.swf"⟩).1.showsIssue = true := by
    rw [ScanOutcome.showsIssue, occursIn_iff]
    exact (ScanOutcome.infix_render_of_error Issue.not_bracket_infix rfl).mpr (.inr hline)
  rw [Backend.scanAll, List.map_singleton, List.countP_singleton, hshows]
  rfl

end FlexAudit
