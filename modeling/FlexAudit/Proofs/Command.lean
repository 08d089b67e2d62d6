import FlexAudit.Proofs.Batch
import FlexAudit.Proofs.FileTree.Canonical

/-!
# Commands that judge files

A request names inputs, and settings that come from options and a configuration. It either fails
before anything is printed, or its outcomes are printed and tallied. Proved here:

* `ScanOptions.eq_apply_iff`: an option wins over the configuration, and what no option is about
  stays as it is configured;
* `ScanRequest.run_of_planned`, `ScanRequest.run_of_not_planned`: all that a request can come to;
* `ScanSummary.tallies_scanAll`: the summary counts the verdicts on the texts that the backend
  gives;
* `Backend.AgreeOff.scanAll_eq`, `ScanRequest.Planned.of_agree`: a backend, and a host, that behave
  differently on one file alone change the outcome of that file alone;
* `scan_commands_safe`: these together, for each request on each host.
-/

namespace FlexAudit

/-! ## Requests -/

/-- A request to judge files, with all of its arguments. -/
inductive ScanRequest where
  /-- Files to disassemble. -/
  | files (o : ScanOptions)
  /-- Disassembly that was saved ahead of time. -/
  | dumps (inputs : List String) (recursive : Bool) (output : OutputOptions)

namespace ScanRequest

def inputs : ScanRequest → List String
  | files o => o.inputs
  | dumps inputs _ _ => inputs

def output : ScanRequest → OutputOptions
  | files o => o.output
  | dumps _ _ output => output

/-- The settings that a request comes with. Those for saved text come from no file. -/
def settings (h : Host) : ScanRequest → Except ConfigError ScanConfig
  | files o => (ScanConfig.loadOrDefault h.tree h.cwd o.config).map o.apply
  | dumps _ recursive _ => .ok {
      disassembler := { backend := "dump-file" }
      extensions := Host.dumpExtensions
      recursive := recursive }

/-- Runs the command that is asked for. -/
def run (h : Host) : ScanRequest → CommandRun ScanSummary
  | files o => h.scan o
  | dumps inputs recursive output => h.analyzeDump inputs recursive output

def action : ScanRequest → Cli.Action
  | files o => .scan o
  | dumps inputs recursive output => .analyzeDump inputs recursive output

/-- The request with another number of workers, which saved text has no use for, and another
output. -/
def withOptions (jobs : Option UInt64) (output : OutputOptions) : ScanRequest → ScanRequest
  | files o => files { o with jobs := jobs, output := output }
  | dumps inputs recursive _ => dumps inputs recursive output

/-- The settings, the backend and the candidates of a request. -/
structure Planned (h : Host) (r : ScanRequest) (c : ScanConfig) (b : Backend)
    (paths : List Path) : Prop where
  settings : r.settings h = .ok c
  backend : (h.registry c.disassembler).resolve c.disassembler.backend = .ok b
  candidates : h.tree.candidates h.cwd c.extensions c.recursive r.inputs = .ok paths

/-- A configuration that cannot be loaded, a backend that does not exist, or an input, anywhere
among the others, that leads to nothing. -/
def Faulty (h : Host) (r : ScanRequest) : Prop :=
  (∃ e, r.settings h = .error e) ∨
  ∃ c, r.settings h = .ok c ∧
    ((∃ e, (h.registry c.disassembler).resolve c.disassembler.backend = .error e) ∨
      ∃ input ∈ r.inputs, h.tree.isMissing h.cwd (h.tree.canonicalOr h.cwd ⟨input⟩) = true)

/-- The workers that a request asks for can be had. -/
def HasWorkers (h : Host) (r : ScanRequest) : Prop :=
  ∀ c, r.settings h = .ok c → h.gatherWorkers c.jobs = .ok ()

end ScanRequest

/-! ## Options and the configuration -/

/-- A configuration that says what the options say and, where they say nothing, what another one
says. The search of inner directories can be turned on and not off. -/
structure ScanOptions.Overrides (o : ScanOptions) (base c : ScanConfig) : Prop where
  backend : ∀ name ∈ o.backend, c.disassembler.backend = name
  program : ∀ program ∈ o.disassembler, c.disassembler.program = some program
  recursive : o.recursive = true → c.recursive = true
  jobs : ∀ n ∈ o.jobs, c.jobs = some n
  backend_kept : o.backend = none → c.disassembler.backend = base.disassembler.backend
  program_kept : o.disassembler = none → c.disassembler.program = base.disassembler.program
  recursive_kept : o.recursive = false → c.recursive = base.recursive
  jobs_kept : o.jobs = none → c.jobs = base.jobs
  args_kept : c.disassembler.args = base.disassembler.args
  extensions_kept : c.extensions = base.extensions

theorem eq_orElse_iff {α : Type} {x y z : Option α} :
    z = (x <|> y) ↔ (∀ a ∈ x, z = some a) ∧ (x = none → z = y) := by
  cases x <;> simp

/-- **Options win over the configuration**, each over what it is about. -/
theorem ScanOptions.eq_apply_iff {o : ScanOptions} {base c : ScanConfig} :
    c = o.apply base ↔ o.Overrides base c := by
  constructor
  · rintro rfl
    obtain ⟨hprogram, hprogram_kept⟩ := eq_orElse_iff.mp
      (rfl : (o.apply base).disassembler.program = (o.disassembler <|> base.disassembler.program))
    obtain ⟨hjobs, hjobs_kept⟩ := eq_orElse_iff.mp
      (rfl : (o.apply base).jobs = (o.jobs <|> base.jobs))
    exact {
      backend := by
        intro name hname
        simp [apply, Option.mem_def.mp hname]
      program := hprogram
      recursive := by
        intro hrecursive
        simp [apply, hrecursive]
      jobs := hjobs
      backend_kept := by
        intro hnone
        simp [apply, hnone]
      program_kept := hprogram_kept
      recursive_kept := by
        intro hrecursive
        simp [apply, hrecursive]
      jobs_kept := hjobs_kept
      args_kept := rfl
      extensions_kept := rfl }
  · intro h
    have hbackend : c.disassembler.backend = o.backend.getD base.disassembler.backend := by
      cases hb : o.backend with
      | none => exact h.backend_kept hb
      | some name => exact h.backend name hb
    have hrecursive : c.recursive = (o.recursive || base.recursive) := by
      cases hr : o.recursive with
      | true => exact h.recursive hr
      | false => exact h.recursive_kept hr
    obtain ⟨⟨backend, program, args⟩, extensions, recursive, jobs⟩ := c
    simp only [apply, ScanConfig.mk.injEq, DisassemblerConfig.mk.injEq]
    exact ⟨⟨hbackend, eq_orElse_iff.mpr ⟨h.program, h.program_kept⟩, h.args_kept⟩,
      h.extensions_kept, hrecursive, eq_orElse_iff.mpr ⟨h.jobs, h.jobs_kept⟩⟩

/-! ## What a request comes to -/

theorem mapError_eq_ok_iff {ε ε' α : Type} (f : ε → ε') (x : Except ε α) (a : α) :
    x.mapError f = .ok a ↔ x = .ok a := by
  cases x <;> simp [Except.mapError]

theorem map_eq_ok_iff {ε α β : Type} (f : α → β) (x : Except ε α) (b : β) :
    x.map f = .ok b ↔ ∃ a, x = .ok a ∧ f a = b := by
  cases x <;> simp [Except.map]

theorem Host.backends_registry (h : Host) (c : DisassemblerConfig) :
    (h.registry c).backends = [h.dumpFile, h.swfdump c] := by
  have hlt : "dump-file" < "swfdump" := by decide
  simp [registry, Registry.register, Registry.insert, dumpFile, swfdump, hlt]

/-- There are two backends. -/
theorem Host.resolve_eq_ok_iff (h : Host) (c : DisassemblerConfig) (name : String) (b : Backend) :
    (h.registry c).resolve name = .ok b ↔
      (name = "dump-file" ∧ b = h.dumpFile) ∨ (name = "swfdump" ∧ b = h.swfdump c) := by
  rw [Registry.resolve, Registry.get?, backends_registry]
  by_cases hdump : name = "dump-file"
  · subst hdump
    simp [dumpFile, eq_comm]
  by_cases hswf : name = "swfdump"
  · subst hswf
    simp [dumpFile, swfdump, eq_comm]
  · simp [dumpFile, swfdump, hdump, hswf, Ne.symm hdump, Ne.symm hswf]

namespace ScanRequest

variable {h : Host} {r : ScanRequest} {c : ScanConfig} {b : Backend} {paths : List Path}

theorem prepareScan_eq_ok_iff {o : ScanOptions} {jobs : Option UInt64} :
    h.prepareScan o = .ok (b, paths, jobs) ↔
      ∃ c, (files o).Planned h c b paths ∧ jobs = c.jobs := by
  simp only [Host.prepareScan, SdkVersion.bind_eq_ok_iff, mapError_eq_ok_iff]
  constructor
  · rintro ⟨c, hload, _, hbackend, _, hpaths, hdone⟩
    cases hdone
    refine ⟨o.apply c, ⟨?_, hbackend, hpaths⟩, rfl⟩
    exact (map_eq_ok_iff ..).mpr ⟨c, hload, rfl⟩
  · rintro ⟨_, ⟨hsettings, hbackend, hpaths⟩, rfl⟩
    obtain ⟨c, hload, rfl⟩ := (map_eq_ok_iff ..).mp hsettings
    exact ⟨c, hload, b, hbackend, paths, hpaths, rfl⟩

/-- The options of a scan win over the configuration that it loads. -/
theorem Planned.overrides {o : ScanOptions} (hplan : (files o).Planned h c b paths) :
    ∃ base, ScanConfig.loadOrDefault h.tree h.cwd o.config = .ok base ∧ o.Overrides base c := by
  obtain ⟨base, hload, hc⟩ := (map_eq_ok_iff ..).mp hplan.settings
  exact ⟨base, hload, ScanOptions.eq_apply_iff.mp hc.symm⟩

/-- A scan with a backend that is asked for uses no other one. -/
theorem Planned.name_eq {o : ScanOptions} (hplan : (files o).Planned h c b paths) {name : String}
    (hname : o.backend = some name) : b.name = name := by
  obtain ⟨base, -, hover⟩ := hplan.overrides
  rw [← hover.backend name hname]
  obtain ⟨hdump, rfl⟩ | ⟨hswf, rfl⟩ := (Host.resolve_eq_ok_iff ..).mp hplan.backend
  · exact hdump.symm
  · exact hswf.symm

/-- A request with candidates scans them and prints. -/
theorem run_of_planned (hplan : r.Planned h c b paths) :
    (r.run h).result = (h.scanAndPrint b paths c.jobs r.output).result ∧
      (r.run h).stdout = (h.scanAndPrint b paths c.jobs r.output).stdout := by
  cases r with
  | files o =>
    have hprepare : h.prepareScan o = .ok (b, paths, c.jobs) :=
      prepareScan_eq_ok_iff.mpr ⟨c, hplan, rfl⟩
    simp only [run, Host.scan, hprepare, output, and_self]
  | dumps inputs recursive out =>
    obtain ⟨hsettings, hbackend, hpaths⟩ := hplan
    cases hsettings
    obtain ⟨-, rfl⟩ | ⟨hname, -⟩ := (Host.resolve_eq_ok_iff ..).mp hbackend
    · have hcandidates : h.tree.candidates h.cwd Host.dumpExtensions recursive inputs = .ok paths :=
        hpaths
      simp only [run, Host.analyzeDump, hcandidates, output, and_self]
    · exact absurd (show "dump-file" = "swfdump" from hname) (by decide)

/-- A request without candidates fails. -/
theorem run_of_not_planned (hnone : ¬ ∃ c b paths, r.Planned h c b paths) :
    ∃ e, r.run h = .fail e := by
  cases r with
  | files o =>
    cases hprepare : h.prepareScan o with
    | error e => exact ⟨e, by simp only [run, Host.scan, hprepare]⟩
    | ok plan =>
      obtain ⟨b, paths, jobs⟩ := plan
      obtain ⟨c, hplan, -⟩ := prepareScan_eq_ok_iff.mp hprepare
      exact absurd ⟨c, b, paths, hplan⟩ hnone
  | dumps inputs recursive out =>
    cases hpaths : h.tree.candidates h.cwd Host.dumpExtensions recursive inputs with
    | error p => exact ⟨.missingInput p, by simp only [run, Host.analyzeDump, hpaths]⟩
    | ok paths =>
      refine absurd ⟨_, h.dumpFile, paths, rfl, ?_, hpaths⟩ hnone
      exact (Host.resolve_eq_ok_iff ..).mpr (.inl ⟨rfl, rfl⟩)

theorem Planned.not_faulty (hplan : r.Planned h c b paths) : ¬ r.Faulty h := by
  obtain ⟨hsettings, hbackend, hpaths⟩ := hplan
  rintro (⟨e, herror⟩ | ⟨c', hc', ⟨e, herror⟩ | ⟨input, hinput, hmissing⟩⟩)
  · rw [hsettings] at herror
    cases herror
  · rw [hsettings] at hc'
    cases hc'
    rw [hbackend] at herror
    cases herror
  · -- the first input that leads to nothing would end the collection
    have hsome : ((r.inputs.map fun i => h.tree.canonicalOr h.cwd ⟨i⟩).find?
        (h.tree.isMissing h.cwd)).isSome = true := by
      rw [List.find?_isSome]
      exact ⟨_, List.mem_map_of_mem hinput, hmissing⟩
    obtain ⟨p, hp⟩ := Option.isSome_iff_exists.mp hsome
    rw [← h.tree.candidates_error_iff h.cwd c.extensions c.recursive, hpaths] at hp
    cases hp

end ScanRequest

/-! ## The tally -/

/-- The kind of the verdict on the text that a backend gives for a file, if it gives one. -/
def Backend.kindOf? (b : Backend) (p : Path) : Option Verdict.Kind :=
  match (b.disassemble p).result with
  | .ok text => some (Dump.ofText text).analyze.verdict.kind
  | .error _ => none

theorem Backend.kind_scanFile (b : Backend) (p : Path) :
    (b.scanFile p).1.verdict?.map Verdict.kind = b.kindOf? p := by
  obtain ⟨t, ht, heq⟩ | ⟨e, he, heq⟩ := b.scanFile_cases p
  · simp [heq, kindOf?, ht, ScanOutcome.verdict?]
  · simp [heq, kindOf?, he, ScanOutcome.verdict?]

/-- A summary that counts how often each kind of verdict is given, and how often none. -/
structure ScanSummary.Tallies (s : ScanSummary) (kinds : List (Option Verdict.Kind)) : Prop where
  scanned : s.scanned = kinds.length
  vulnerable : s.vulnerable = kinds.count (some .vulnerable)
  notVulnerable : s.notVulnerable = kinds.count (some .notVulnerable)
  indeterminate : s.indeterminate = kinds.count (some .indeterminate)
  errors : s.errors = kinds.count none

theorem ScanSummary.tallies_scanAll (b : Backend) (paths : List Path) :
    (ScanSummary.ofOutcomes (b.scanAll paths)).Tallies (paths.map b.kindOf?) := by
  have hcount (k : Option Verdict.Kind) :
      count (b.scanAll paths) k = (paths.map b.kindOf?).count k := by
    rw [count, Backend.scanAll, List.countP_map, List.count, List.countP_map]
    refine List.countP_congr fun p _ => ?_
    rw [Function.comp_apply, Function.comp_apply, b.kind_scanFile]
  exact ⟨by simp [ofOutcomes, Backend.scanAll], hcount _, hcount _, hcount _, hcount _⟩

/-- A scan prints nothing and fails, or it prints its outcomes and returns their tally. -/
theorem Host.scanAndPrint_cases (h : Host) (b : Backend) (paths : List Path) (jobs : Option UInt64)
    (o : OutputOptions) :
    (∃ e, h.gatherWorkers jobs = .error e ∧
      h.scanAndPrint b paths jobs o = .fail (.noWorkers e)) ∨
    (h.gatherWorkers jobs = .ok () ∧
      (h.scanAndPrint b paths jobs o).result = .ok (.ofOutcomes (b.scanAll paths)) ∧
      (h.scanAndPrint b paths jobs o).stdout = h.printed (b.scanAll paths) o) := by
  cases hworkers : h.gatherWorkers jobs with
  | error e => exact .inl ⟨e, rfl, by rw [scanAndPrint, scanBatch, hworkers]; rfl⟩
  | ok _ =>
    have hbatch := scanBatch_eq hworkers b paths
    exact .inr ⟨rfl, by rw [scanAndPrint, hbatch], by rw [scanAndPrint, hbatch]⟩

/-! ## A fault on one file -/

/-- Two backends of one name that behave in the same way on every file but one. -/
def Backend.AgreeOff (b b' : Backend) (p : Path) : Prop :=
  b'.name = b.name ∧ ∀ q, q ≠ p → b'.disassemble q = b.disassemble q

theorem Backend.path_scanFile (b : Backend) (p : Path) : (b.scanFile p).1.path = p := by
  obtain ⟨t, -, heq⟩ | ⟨e, -, heq⟩ := b.scanFile_cases p <;> rw [heq]

theorem Backend.AgreeOff.scanAll_eq {b b' : Backend} {p : Path} (hagree : b.AgreeOff b' p)
    (paths : List Path) : b'.scanAll paths =
      (b.scanAll paths).map fun o => if o.path = p then (b'.scanFile p).1 else o := by
  rw [scanAll, scanAll, List.map_map]
  refine List.map_congr_left fun q _ => ?_
  rw [Function.comp_apply, b.path_scanFile]
  by_cases hq : q = p
  · rw [if_pos hq, hq]
  · rw [if_neg hq, scanFile, scanFile, hagree.1, hagree.2 q hq]

theorem Backend.AgreeOff.scanFile_of_error {b b' : Backend} {p : Path} (hagree : b.AgreeOff b' p)
    {e : DisassemblyError} (he : (b'.disassemble p).result = .error e) :
    (b'.scanFile p).1 = ⟨p, b.name, none, some e.message⟩ := by
  simp only [scanFile, he, hagree.1]

/-- Programs that run differently on one file make a backend that differs on that file alone. -/
theorem ScanRequest.Planned.of_agree {h : Host} {r : ScanRequest} {c : ScanConfig} {b : Backend}
    {paths : List Path} (hplan : r.Planned h c b paths) {p : Path}
    {run : String → List String → Except OsError Completed}
    (hrun : ∀ program args, args.getLast? ≠ some p.text → run program args = h.run program args) :
    ∃ b', r.Planned { h with run := run } c b' paths ∧ b.AgreeOff b' p := by
  obtain ⟨hsettings, hbackend, hpaths⟩ := hplan
  have hsettings' : r.settings { h with run := run } = .ok c := by
    cases r <;> exact hsettings
  obtain ⟨hname, rfl⟩ | ⟨hname, rfl⟩ := (Host.resolve_eq_ok_iff ..).mp hbackend
  · refine ⟨_, ⟨hsettings', (Host.resolve_eq_ok_iff ..).mpr (.inl ⟨hname, rfl⟩), hpaths⟩, rfl, ?_⟩
    exact fun q _ => rfl
  · refine ⟨_, ⟨hsettings', (Host.resolve_eq_ok_iff ..).mpr (.inr ⟨hname, rfl⟩), hpaths⟩, rfl, ?_⟩
    intro q hq
    have hsame (program : String) (args : List String) :
        run program (args ++ [q.text]) = h.run program (args ++ [q.text]) := by
      refine hrun program _ ?_
      rw [List.getLast?_concat]
      intro htext
      exact hq (congrArg Path.mk (Option.some.inj htext))
    simp only [Host.swfdump, Host.runDisassembler, hsame]

/-! ## Safety -/

namespace ScanRequest

/-- What can be relied on when a host is asked to judge files. -/
structure Safe (h : Host) (r : ScanRequest) : Prop where
  /-- A command that fails has printed nothing. -/
  silent : ∀ e, (r.run h).result = .error e → (r.run h).stdout = ""
  /-- So has the program that runs it. -/
  silentProgram : ∀ directives args verbosity, Cli.readRequest 0 args = .run r.action verbosity →
    (Cli.run h directives args).exit = 1 → (Cli.run h directives args).stdout = ""
  /-- One fault in the arguments is enough to fail. -/
  refused : r.Faulty h → ∃ e, (r.run h).result = .error e
  /-- A command that succeeds prints the outcomes of its candidates and returns the tally of the
  verdicts on them. -/
  tallied : ∀ s, (r.run h).result = .ok s → ∃ c b paths, r.Planned h c b paths ∧
    s.Tallies (paths.map b.kindOf?) ∧ (r.run h).stdout = h.printed (b.scanAll paths) r.output
  /-- It succeeds if it finds its candidates and its workers. -/
  succeeds : ∀ c b paths, r.Planned h c b paths → h.gatherWorkers c.jobs = .ok () →
    ∃ s, (r.run h).result = .ok s
  /-- Neither the output nor the number of workers changes the tally. -/
  sameTally : ∀ jobs output s, (r.run h).result = .ok s → (r.withOptions jobs output).HasWorkers h →
    ((r.withOptions jobs output).run h).result = .ok s
  /-- Where programs run differently on one file, only the outcome of that file is another. -/
  isolated : ∀ run p,
    (∀ program args, args.getLast? ≠ some p.text → run program args = h.run program args) →
    ∀ c b paths, r.Planned h c b paths →
      ∃ b', r.Planned { h with run := run } c b' paths ∧ b.AgreeOff b' p ∧
        b'.scanAll paths =
          (b.scanAll paths).map fun o => if o.path = p then (b'.scanFile p).1 else o

variable {h : Host} {r : ScanRequest}

/-- A run that returns a summary has a plan, and the workers for it. -/
theorem exists_planned_of_ok {s : ScanSummary} (hs : (r.run h).result = .ok s) :
    ∃ c b paths, r.Planned h c b paths ∧ s = .ofOutcomes (b.scanAll paths) ∧
      (r.run h).stdout = h.printed (b.scanAll paths) r.output := by
  by_cases hplan : ∃ c b paths, r.Planned h c b paths
  · obtain ⟨c, b, paths, hplan⟩ := hplan
    obtain ⟨hresult, hstdout⟩ := run_of_planned hplan
    refine ⟨c, b, paths, hplan, ?_⟩
    rw [hresult] at hs
    rw [hstdout]
    obtain ⟨e, -, hfail⟩ | ⟨-, hok, hprinted⟩ := h.scanAndPrint_cases b paths c.jobs r.output
    · rw [hfail] at hs
      cases hs
    · rw [hok] at hs
      cases hs
      exact ⟨rfl, hprinted⟩
  · obtain ⟨e, hfail⟩ := run_of_not_planned hplan
    rw [hfail] at hs
    cases hs

theorem stdout_of_error {e : CommandError} (he : (r.run h).result = .error e) :
    (r.run h).stdout = "" := by
  by_cases hplan : ∃ c b paths, r.Planned h c b paths
  · obtain ⟨c, b, paths, hplan⟩ := hplan
    obtain ⟨hresult, hstdout⟩ := run_of_planned hplan
    rw [hresult] at he
    rw [hstdout]
    obtain ⟨_, -, hfail⟩ | ⟨-, hok, -⟩ := h.scanAndPrint_cases b paths c.jobs r.output
    · rw [hfail]
      rfl
    · rw [hok] at he
      cases he
  · obtain ⟨_, hfail⟩ := run_of_not_planned hplan
    rw [hfail]
    rfl

theorem Planned.result_eq {c : ScanConfig} {b : Backend} {paths : List Path}
    (hplan : r.Planned h c b paths) (hworkers : h.gatherWorkers c.jobs = .ok ()) :
    (r.run h).result = .ok (.ofOutcomes (b.scanAll paths)) := by
  rw [(run_of_planned hplan).1]
  obtain ⟨e, herror, -⟩ | ⟨-, hok, -⟩ := h.scanAndPrint_cases b paths c.jobs r.output
  · rw [hworkers] at herror
    cases herror
  · exact hok

/-- The options of the output and of the workers leave the backend and the candidates alone. -/
theorem Planned.withOptions {c : ScanConfig} {b : Backend} {paths : List Path}
    (hplan : r.Planned h c b paths) (jobs : Option UInt64) (output : OutputOptions) :
    ∃ c', (r.withOptions jobs output).Planned h c' b paths := by
  cases r with
  | files o =>
    obtain ⟨hsettings, hbackend, hpaths⟩ := hplan
    obtain ⟨loaded, hload, rfl⟩ := (map_eq_ok_iff ..).mp hsettings
    let c' : ScanConfig := { o.apply loaded with jobs := jobs <|> loaded.jobs }
    have hsettings' : (withOptions jobs output (files o)).settings h = .ok c' :=
      (map_eq_ok_iff ..).mpr ⟨loaded, hload, rfl⟩
    exact ⟨c', hsettings', hbackend, hpaths⟩
  | dumps inputs recursive out => exact ⟨c, hplan.settings, hplan.backend, hplan.candidates⟩

theorem stdout_program {directives : Option String} {args : List String} {verbosity : Nat}
    (hargs : Cli.readRequest 0 args = .run r.action verbosity)
    (hexit : (Cli.run h directives args).exit = 1) :
    (Cli.run h directives args).stdout = "" := by
  have hrun : ∃ filter, Cli.run h directives args =
      Cli.finish filter h.tree Cli.exitOf (r.run h) := by
    rw [Cli.run, hargs]
    cases r <;> exact ⟨_, rfl⟩
  obtain ⟨filter, hrun⟩ := hrun
  rw [hrun] at hexit ⊢
  cases hresult : (r.run h).result with
  | error e =>
    rw [Cli.finish, hresult]
    exact stdout_of_error hresult
  | ok s =>
    rw [Cli.exit_finish hresult, Cli.exitOf, Cli.exitVulnerable] at hexit
    split at hexit <;> cases hexit

theorem safe (h : Host) (r : ScanRequest) : r.Safe h where
  silent _ he := stdout_of_error he
  silentProgram _ _ _ hargs hexit := stdout_program hargs hexit
  refused hfaulty := by
    obtain ⟨e, hfail⟩ := run_of_not_planned fun ⟨_, _, _, hplan⟩ => hplan.not_faulty hfaulty
    exact ⟨e, by rw [hfail]; rfl⟩
  tallied s hs := by
    obtain ⟨c, b, paths, hplan, rfl, hstdout⟩ := exists_planned_of_ok hs
    exact ⟨c, b, paths, hplan, ScanSummary.tallies_scanAll b paths, hstdout⟩
  succeeds _ _ _ hplan hworkers := ⟨_, hplan.result_eq hworkers⟩
  sameTally jobs output s hs hworkers := by
    obtain ⟨c, b, paths, hplan, rfl, -⟩ := exists_planned_of_ok hs
    obtain ⟨c', hplan'⟩ := hplan.withOptions jobs output
    exact hplan'.result_eq (hworkers c' hplan'.settings)
  isolated run p hrun c b paths hplan := by
    obtain ⟨b', hplan', hagree⟩ := hplan.of_agree hrun
    exact ⟨b', hplan', hagree, hagree.scanAll_eq paths⟩

end ScanRequest

/-- **Commands that judge files are safe**, for every file tree, every request and whatever the
programs do; and so is every scan with any backend at all. -/
theorem scan_commands_safe (h : Host) :
    (∀ r : ScanRequest, r.Safe h) ∧
    (∀ b paths jobs output,
      (∀ e, (h.scanAndPrint b paths jobs output).result = .error e →
        (h.scanAndPrint b paths jobs output).stdout = "") ∧
      (∀ s, (h.scanAndPrint b paths jobs output).result = .ok s →
        s.Tallies (paths.map b.kindOf?)) ∧
      (h.gatherWorkers jobs = .ok () → (h.scanAndPrint b paths jobs output).result =
        .ok (.ofOutcomes (b.scanAll paths)))) ∧
    (∀ (b b' : Backend) p e, b.AgreeOff b' p → (b'.disassemble p).result = .error e → ∀ paths,
      b'.scanAll paths =
        (b.scanAll paths).map fun o =>
          if o.path = p then ⟨p, b.name, none, some e.message⟩ else o) := by
  refine ⟨ScanRequest.safe h, fun b paths jobs output => ?_, ?_⟩
  · obtain ⟨e, herror, hfail⟩ | ⟨-, hok, -⟩ := h.scanAndPrint_cases b paths jobs output
    · rw [hfail, herror]
      refine ⟨fun _ _ => rfl, ?_, ?_⟩
      · rintro _ ⟨⟩
      · rintro ⟨⟩
    · rw [hok]
      refine ⟨?_, ?_, fun _ => rfl⟩
      · rintro _ ⟨⟩
      · rintro _ ⟨⟩
        exact ScanSummary.tallies_scanAll b paths
  · intro b b' p e hagree he paths
    rw [hagree.scanAll_eq, hagree.scanFile_of_error he]

/-- Two files on a host with eight workers, with and without a disassembler that cannot be started
on the second one. -/
theorem scan_commands_safe_two_files :
    let h : Host := {
      tree := { entries := [(["a"], .file [] false), (["b"], .file [] false)], nodup := by simp }
      cwd := [], run := fun _ _ => .ok {}
      startWorkers := fun n => if n ≤ 8 then .ok () else .error .exhausted }
    let failing : String → List String → Except OsError Completed := fun program args =>
      if args.getLast? = some "/b" then .error .notFound else h.run program args
    let r : ScanRequest := .files { inputs := ["a", "b"] }
    ∃ c b s, r.Planned h c b [⟨"/a"⟩, ⟨"/b"⟩] ∧ (r.run h).result = .ok s ∧
      ((r.withOptions (some 4) { json := true }).run h).result = .ok s ∧
      ∃ b', r.Planned { h with run := failing } c b' [⟨"/a"⟩, ⟨"/b"⟩] ∧
        b'.scanAll [⟨"/a"⟩, ⟨"/b"⟩] = (b.scanAll [⟨"/a"⟩, ⟨"/b"⟩]).map fun o =>
          if o.path = ⟨"/b"⟩ then (b'.scanFile ⟨"/b"⟩).1 else o := by
  intro h failing r
  have hpaths : h.tree.candidates h.cwd ["swf"] false ["a", "b"] = .ok [⟨"/a"⟩, ⟨"/b"⟩] := by
    have ht : h.tree.WellFormed h.cwd := ⟨by decide, by decide, rfl⟩
    have ha : h.tree.locate h.cwd ⟨"a"⟩ = .ok ["a"] :=
      FileTree.locate_name rfl (by decide) rfl rfl
    have hb : h.tree.locate h.cwd ⟨"b"⟩ = .ok ["b"] :=
      FileTree.locate_name rfl (by decide) rfl rfl
    rw [FileTree.candidates_cons, ht.candidatesOf_eq ha, FileTree.candidates_singleton,
      ht.candidatesOf_eq hb]
    decide +kernel
  have hplan : r.Planned h {} (h.swfdump {}) [⟨"/a"⟩, ⟨"/b"⟩] :=
    ⟨rfl, (Host.resolve_eq_ok_iff ..).mpr (.inr ⟨rfl, rfl⟩), hpaths⟩
  have hsafe := (scan_commands_safe h).1 r
  obtain ⟨s, hs⟩ := hsafe.succeeds _ _ _ hplan rfl
  have hworkers : (r.withOptions (some 4) { json := true }).HasWorkers h := by
    rintro c ⟨⟩
    rfl
  have hfailing : ∀ program args, args.getLast? ≠ some "/b" →
      failing program args = h.run program args := fun _ _ hargs => if_neg hargs
  obtain ⟨b', hplan', -, houtcomes⟩ := hsafe.isolated failing ⟨"/b"⟩ hfailing _ _ _ hplan
  exact ⟨_, _, s, hplan, hs, hsafe.sameTally _ _ s hs hworkers, b', hplan', houtcomes⟩

end FlexAudit
