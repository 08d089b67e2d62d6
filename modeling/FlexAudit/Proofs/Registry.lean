import FlexAudit.Host
import FlexAudit.Proofs.Text.Encoding
import Mathlib.Data.List.Induction
import Mathlib.Data.List.Nodup

/-!
# Registries over whole runs

Backends are registered one after the other, and the last one of a name counts. Proved here:

* `get?_register`, `Increasing.register`: what one registration does;
* `Tracks.registerAll`: after every run the registry is in order and answers by the last
  registration of each name;
* `Tracks.eq`: so it is settled by these last registrations alone;
* `registry_over_runs`: names, look-ups, refusals and independence of order, for runs from either
  start.
-/

namespace FlexAudit.Registry

/-! ## One registration -/

/-- The names are in strictly increasing order. -/
def Increasing (r : Registry) : Prop :=
  r.backends.Pairwise fun a b => a.name < b.name

theorem mem_of_mem_insert {b a : Backend} {l : List Backend} (h : a ∈ insert b l) :
    a = b ∨ a ∈ l := by
  induction l with
  | nil => exact .inl (List.mem_singleton.mp h)
  | cons first l ih =>
    rw [insert] at h
    split_ifs at h with hbefore hbehind
    · exact List.mem_cons.mp h
    · rcases List.mem_cons.mp h with rfl | h
      · exact .inr List.mem_cons_self
      · exact (ih h).imp_right (List.mem_cons_of_mem first)
    · exact (List.mem_cons.mp h).imp_right (List.mem_cons_of_mem first)

/-- Names of which neither is smaller are one name. -/
theorem name_eq_of_not_lt {m n : String} (h : ¬ m < n) (h' : ¬ n < m) : m = n :=
  String.le_antisymm (String.not_lt.mp h') (String.not_lt.mp h)

theorem Increasing.register {r : Registry} (h : r.Increasing) (b : Backend) :
    (r.register b).Increasing := by
  obtain ⟨l⟩ := r
  change (insert b l).Pairwise _
  change l.Pairwise _ at h
  induction l with
  | nil => exact List.pairwise_singleton _ _
  | cons first l ih =>
    obtain ⟨hfirst, hrest⟩ := List.pairwise_cons.mp h
    rw [insert]
    split_ifs with hbefore hbehind
    · refine List.pairwise_cons.mpr ⟨?_, h⟩
      intro a ha
      rcases List.mem_cons.mp ha with rfl | ha
      · exact hbefore
      · exact String.lt_trans hbefore (hfirst a ha)
    · refine List.pairwise_cons.mpr ⟨?_, ih hrest⟩
      intro a ha
      rcases mem_of_mem_insert ha with rfl | ha
      · exact hbehind
      · exact hfirst a ha
    · refine List.pairwise_cons.mpr ⟨?_, hrest⟩
      rwa [name_eq_of_not_lt hbefore hbehind]

/-- A registration changes the answer for its own name only. -/
theorem get?_register (r : Registry) (b : Backend) (n : String) :
    (r.register b).get? n = if b.name = n then some b else r.get? n := by
  obtain ⟨l⟩ := r
  change (insert b l).find? (·.name == n) = if b.name = n then some b else l.find? (·.name == n)
  induction l with
  | nil => by_cases hn : b.name = n <;> simp [insert, hn]
  | cons first l ih =>
    rw [insert]
    split_ifs with hbefore hn hbehind hn hn
    · simp [hn]
    · simp [hn]
    · have hfirst : first.name ≠ n := by
        rintro rfl
        exact String.lt_irrefl _ (hn ▸ hbehind)
      rw [List.find?_cons_of_neg (by simpa using hfirst), ih, if_pos hn]
    · rw [List.find?_cons, List.find?_cons, ih, if_neg hn]
    · simp [hn]
    · have hfirst : first.name ≠ n := fun heq => hn ((name_eq_of_not_lt hbefore hbehind).trans heq)
      simp [hn, hfirst]

/-! ## Runs -/

/-- Registers backends one after the other. -/
def registerAll (r : Registry) (bs : List Backend) : Registry :=
  bs.foldl register r

/-- `b` is what was registered last under a name. -/
def LastNamed (history : List Backend) (n : String) (b : Backend) : Prop :=
  b.name = n ∧ ∃ before after, history = before ++ b :: after ∧ ∀ a ∈ after, a.name ≠ n

theorem lastNamed_nil (n : String) (b : Backend) : ¬ LastNamed [] n b := by
  rintro ⟨-, before, after, heq, -⟩
  simp at heq

theorem lastNamed_append_iff (first bs : List Backend) (n : String) (b : Backend) :
    LastNamed (first ++ bs) n b ↔
      LastNamed bs n b ∨ (∀ a ∈ bs, a.name ≠ n) ∧ LastNamed first n b := by
  constructor
  · rintro ⟨hname, before, after, heq, hafter⟩
    rcases List.append_eq_append_iff.mp heq with ⟨mid, rfl, rfl⟩ | ⟨mid, rfl, hmid⟩
    · exact .inl ⟨hname, mid, after, rfl, hafter⟩
    · cases mid with
      | nil => exact .inl ⟨hname, [], after, by simpa using hmid.symm, hafter⟩
      | cons c mid =>
        obtain ⟨rfl, rfl⟩ := List.cons.inj hmid
        have hmid' : ∀ a ∈ mid, a.name ≠ n := fun a ha => hafter a (List.mem_append_left bs ha)
        have hbs : ∀ a ∈ bs, a.name ≠ n := fun a ha => hafter a (List.mem_append_right mid ha)
        exact .inr ⟨hbs, hname, before, mid, rfl, hmid'⟩
  · rintro (⟨hname, before, after, rfl, hafter⟩ | ⟨hbs, hname, before, after, rfl, hafter⟩)
    · exact ⟨hname, first ++ before, after, by simp, hafter⟩
    · refine ⟨hname, before, after ++ bs, by simp, ?_⟩
      intro a ha
      rcases List.mem_append.mp ha with ha | ha
      · exact hafter a ha
      · exact hbs a ha

theorem lastNamed_singleton_iff (c : Backend) (n : String) (b : Backend) :
    LastNamed [c] n b ↔ c.name = n ∧ b = c := by
  constructor
  · rintro ⟨hname, before, after, heq, -⟩
    cases before with
    | nil =>
      obtain ⟨rfl, -⟩ := List.cons.inj heq
      exact ⟨hname, rfl⟩
    | cons => simp at heq
  · rintro ⟨hname, rfl⟩
    exact ⟨hname, [], [], rfl, by simp⟩

theorem exists_lastNamed_iff (history : List Backend) (n : String) :
    (∃ b, LastNamed history n b) ↔ ∃ b ∈ history, b.name = n := by
  constructor
  · rintro ⟨b, hname, before, after, rfl, -⟩
    exact ⟨b, by simp, hname⟩
  · rintro ⟨b, hb, hname⟩
    induction history using List.reverseRecOn with
    | nil => cases hb
    | append_singleton history c ih =>
      simp only [lastNamed_append_iff, lastNamed_singleton_iff]
      by_cases hc : c.name = n
      · exact ⟨c, .inl ⟨hc, rfl⟩⟩
      · have hb : b ∈ history := by
          rcases List.mem_append.mp hb with hb | hb
          · exact hb
          · exact absurd (List.mem_singleton.mp hb ▸ hname) hc
        obtain ⟨a, ha⟩ := ih hb
        exact ⟨a, .inr ⟨by simpa using hc, ha⟩⟩

/-- The registry is in order and answers by the last registrations. -/
structure Tracks (r : Registry) (history : List Backend) : Prop where
  increasing : r.Increasing
  get?_eq_some_iff : ∀ n b, r.get? n = some b ↔ LastNamed history n b

theorem Tracks.empty : Tracks {} [] where
  increasing := List.Pairwise.nil
  get?_eq_some_iff n b := iff_of_false (by simp [get?]) (lastNamed_nil n b)

theorem Tracks.register {r : Registry} {history : List Backend} (h : r.Tracks history)
    (b : Backend) : (r.register b).Tracks (history ++ [b]) where
  increasing := h.increasing.register b
  get?_eq_some_iff n c := by
    rw [get?_register, lastNamed_append_iff, lastNamed_singleton_iff, ← h.get?_eq_some_iff]
    by_cases hn : b.name = n
    · simp [hn, eq_comm]
    · simp [hn]

theorem Tracks.registerAll {r : Registry} {history : List Backend} (h : r.Tracks history)
    (bs : List Backend) : (r.registerAll bs).Tracks (history ++ bs) := by
  induction bs generalizing r history with
  | nil => simpa [Registry.registerAll] using h
  | cons b bs ih =>
    have hrest := ih (h.register b)
    rwa [List.append_assoc] at hrest

/-! ## What a run leaves -/

theorem Increasing.nodup_names {r : Registry} (h : r.Increasing) :
    (r.backends.map Backend.name).Nodup := by
  refine List.pairwise_map.mpr (List.Pairwise.imp (fun {a b} hlt heq => ?_) h)
  rw [heq] at hlt
  exact String.lt_irrefl _ hlt

/-- Where no name stands twice, a search finds what has the name, in whatever order. -/
theorem find?_name_eq_some_iff {l : List Backend} (h : (l.map Backend.name).Nodup) (n : String)
    (b : Backend) : l.find? (fun a => a.name == n) = some b ↔ b ∈ l ∧ b.name = n := by
  constructor
  · intro hb
    have hname := List.find?_some hb
    exact ⟨List.mem_of_find?_eq_some hb, beq_iff_eq.mp hname⟩
  · rintro ⟨hb, rfl⟩
    have hsome : (l.find? (fun a => a.name == b.name)).isSome :=
      List.find?_isSome.mpr ⟨b, hb, beq_self_eq_true _⟩
    obtain ⟨a, ha⟩ := Option.isSome_iff_exists.mp hsome
    have hname := List.find?_some ha
    rw [ha, List.inj_on_of_nodup_map h (List.mem_of_find?_eq_some ha) hb (beq_iff_eq.mp hname)]

theorem Increasing.get?_eq_some_iff {r : Registry} (h : r.Increasing) (n : String) (b : Backend) :
    r.get? n = some b ↔ b ∈ r.backends ∧ b.name = n :=
  find?_name_eq_some_iff h.nodup_names n b

theorem Increasing.mem_names_iff {r : Registry} (h : r.Increasing) (n : String) :
    n ∈ r.names ↔ ∃ b, r.get? n = some b := by
  simp only [h.get?_eq_some_iff]
  exact List.mem_map

/-- Two runs with the same last registrations leave the same registry. -/
theorem Tracks.eq {r r' : Registry} {history history' : List Backend} (h : r.Tracks history)
    (h' : r'.Tracks history') (hlast : ∀ n b, LastNamed history n b ↔ LastNamed history' n b) :
    r = r' := by
  have hmem (b : Backend) : b ∈ r.backends ↔ b ∈ r'.backends := by
    have hget := h.increasing.get?_eq_some_iff b.name b
    have hget' := h'.increasing.get?_eq_some_iff b.name b
    rw [h.get?_eq_some_iff, hlast, ← h'.get?_eq_some_iff, hget'] at hget
    simpa using hget.symm
  have hperm : r.backends.Perm r'.backends :=
    (List.perm_ext_iff_of_nodup (.of_map _ h.increasing.nodup_names)
      (.of_map _ h'.increasing.nodup_names)).mpr hmem
  have hlists := hperm.eq_of_pairwise
    (fun _ _ _ _ hab hba => absurd hba (String.lt_asymm hab)) h.increasing h'.increasing
  obtain ⟨l⟩ := r
  obtain ⟨l'⟩ := r'
  exact congrArg Registry.mk hlists

/-- The order of the names, as a test. -/
def notAfter (m n : String) : Bool := !decide (n < m)

theorem notAfter_iff (m n : String) : notAfter m n = true ↔ m ≤ n := by
  rw [notAfter, Bool.not_eq_true', decide_eq_false_iff_not, String.not_lt]

/-- Whatever order the entries are kept in, sorting their names and searching among them gives the
same answers. -/
theorem Increasing.of_perm {r : Registry} (h : r.Increasing) {entries : List Backend}
    (hperm : entries.Perm r.backends) :
    (entries.map Backend.name).mergeSort notAfter = r.names ∧
      ∀ n, entries.find? (fun a => a.name == n) = r.get? n := by
  have hnames : (entries.map Backend.name).Perm r.names := hperm.map Backend.name
  constructor
  · have hsorted : ((entries.map Backend.name).mergeSort notAfter).Pairwise
        (fun m n => notAfter m n = true) := by
      apply List.pairwise_mergeSort
      · intro a b c hab hbc
        rw [notAfter_iff] at hab hbc ⊢
        exact String.le_trans hab hbc
      · intro a b
        rw [Bool.or_eq_true, notAfter_iff, notAfter_iff]
        exact String.le_total a b
    have hincreasing : r.names.Pairwise (fun m n => notAfter m n = true) := by
      refine List.pairwise_map.mpr (List.Pairwise.imp (fun {a b} hlt => ?_) h)
      rw [notAfter_iff]
      exact String.not_lt.mp (String.lt_asymm hlt)
    refine List.Perm.eq_of_pairwise ?_ hsorted hincreasing
      ((List.mergeSort_perm _ _).trans hnames)
    intro a b _ _ hab hba
    exact String.le_antisymm ((notAfter_iff a b).mp hab) ((notAfter_iff b a).mp hba)
  · intro n
    have hnodup : (entries.map Backend.name).Nodup := hnames.nodup_iff.mpr h.nodup_names
    ext b
    rw [find?_name_eq_some_iff hnodup, h.get?_eq_some_iff, hperm.mem_iff]

/-- What a registry answers after a history of registrations. -/
structure AnswersFor (r : Registry) (history : List Backend) : Prop where
  names_increase : r.names.Pairwise fun m n => Utf8.encode m.toList < Utf8.encode n.toList
  mem_names_iff : ∀ n, n ∈ r.names ↔ ∃ b ∈ history, b.name = n
  get?_eq_some_iff : ∀ n b, r.get? n = some b ↔ LastNamed history n b
  get?_eq_none_iff : ∀ n, r.get? n = none ↔ ∀ b ∈ history, b.name ≠ n
  resolve_eq_ok_iff : ∀ n b, r.resolve n = .ok b ↔ r.get? n = some b
  resolve_eq_error_iff : ∀ n e,
    r.resolve n = .error e ↔ n ∉ r.names ∧ e = .missingBackend n r.names
  /-- A refusal lists the name and all names that there are. -/
  message_eq : ∀ n e, r.resolve n = .error e →
    e.message =
      "Disassembler not found: " ++ n ++ " (available: " ++ ", ".intercalate r.names ++ ")"
  /-- The order in which entries are kept does not show. -/
  any_order : ∀ entries : List Backend, entries.Perm r.backends →
    (entries.map Backend.name).mergeSort notAfter = r.names ∧
      ∀ n, entries.find? (fun a => a.name == n) = r.get? n

theorem Tracks.answersFor {r : Registry} {history : List Backend} (h : r.Tracks history) :
    r.AnswersFor history := by
  have hnames (n : String) : n ∈ r.names ↔ ∃ b ∈ history, b.name = n := by
    rw [h.increasing.mem_names_iff, ← exists_lastNamed_iff]
    exact exists_congr (h.get?_eq_some_iff n)
  have hnone (n : String) : r.get? n = none ↔ n ∉ r.names := by
    rw [h.increasing.mem_names_iff, Option.eq_none_iff_forall_ne_some, not_exists]
  have herror (n : String) (e : DisassemblyError) :
      r.resolve n = .error e ↔ n ∉ r.names ∧ e = .missingBackend n r.names := by
    rw [← hnone, resolve]
    cases r.get? n <;> simp [eq_comm]
  refine ⟨?_, hnames, h.get?_eq_some_iff, ?_, ?_, herror, ?_, fun _ => h.increasing.of_perm⟩
  · refine List.pairwise_map.mpr (List.Pairwise.imp (fun {a b} hlt => ?_) h.increasing)
    rw [Utf8.encode_lt_encode_iff]
    exact String.lt_iff.mp hlt
  · intro n
    rw [hnone, hnames]
    simp
  · intro n b
    rw [resolve]
    cases r.get? n <;> simp
  · intro n e he
    rw [((herror n e).mp he).2]
    rfl

/-- How a run starts, with what is registered by then. -/
inductive Starts : Registry → List Backend → Prop
  | empty : Starts {} []
  | standard (h : Host) (c : DisassemblerConfig) : Starts (h.registry c) [h.swfdump c, h.dumpFile]

theorem Starts.tracks {r : Registry} {first : List Backend} (h : Starts r first) :
    r.Tracks first := by
  cases h with
  | empty => exact .empty
  | standard h c => exact Tracks.empty.registerAll [h.swfdump c, h.dumpFile]

/-- The last registrations of a run and those before it give the last ones of all. -/
theorem lastNamed_append_congr {bs others : List Backend}
    (h : ∀ n b, LastNamed bs n b ↔ LastNamed others n b) (first : List Backend) (n : String)
    (b : Backend) : LastNamed (first ++ bs) n b ↔ LastNamed (first ++ others) n b := by
  have hnamed : (∃ a ∈ bs, a.name = n) ↔ ∃ a ∈ others, a.name = n := by
    rw [← exists_lastNamed_iff, ← exists_lastNamed_iff]
    exact exists_congr (h n)
  have hunnamed : (∀ a ∈ bs, a.name ≠ n) ↔ ∀ a ∈ others, a.name ≠ n := by
    simpa using not_congr hnamed
  rw [lastNamed_append_iff, lastNamed_append_iff, h, hunnamed]

/-- The two cannot be told apart. -/
structure SameAnswers (r r' : Registry) : Prop where
  names_eq : r.names = r'.names
  get?_eq : ∀ n, r.get? n = r'.get? n
  resolve_eq : ∀ n, r.resolve n = r'.resolve n

/-- After every run of registrations, from either start, a registry answers by the last registration
of each name; so two runs that agree on these leave registries with the same answers. -/
theorem registry_over_runs {start : Registry} {first : List Backend} (hstart : Starts start first)
    (bs : List Backend) :
    (start.registerAll bs).AnswersFor (first ++ bs) ∧
    (∀ others : List Backend, (∀ n b, LastNamed bs n b ↔ LastNamed others n b) →
      SameAnswers (start.registerAll bs) (start.registerAll others)) ∧
    ∀ (start' : Registry) (first' others : List Backend), Starts start' first' →
      (∀ n b, LastNamed (first ++ bs) n b ↔ LastNamed (first' ++ others) n b) →
      SameAnswers (start.registerAll bs) (start'.registerAll others) := by
  have htracks := hstart.tracks.registerAll bs
  refine ⟨htracks.answersFor, ?_, ?_⟩
  · intro others hlast
    rw [htracks.eq (hstart.tracks.registerAll others) (lastNamed_append_congr hlast first)]
    exact ⟨rfl, fun _ => rfl, fun _ => rfl⟩
  · intro start' first' others hstart' hlast
    rw [htracks.eq (hstart'.tracks.registerAll others) hlast]
    exact ⟨rfl, fun _ => rfl, fun _ => rfl⟩

/-- A backend that always gives the same text. -/
def fixedText (name text : String) : Backend :=
  ⟨name, fun _ => ⟨.ok text, []⟩⟩

/-- A name is registered twice, a standard one is replaced, and the order is another. -/
theorem registry_over_runs_replaced :
    let h : Host := { tree := {}, cwd := [], run := fun _ _ => .error .notFound }
    let a := fixedText "flasm" "a"
    let b := fixedText "flasm" "b"
    let c := fixedText "swfdump" "c"
    Starts (h.registry {}) [h.swfdump {}, h.dumpFile] ∧
    (∀ n d, LastNamed [a, c, b] n d ↔ LastNamed [b, c] n d) ∧
    SameAnswers ((h.registry {}).registerAll [a, c, b]) ((h.registry {}).registerAll [b, c]) := by
  intro h a b c
  have hstart : Starts (h.registry {}) [h.swfdump {}, h.dumpFile] := .standard h {}
  have hlast (n : String) (d : Backend) : LastNamed [a, c, b] n d ↔ LastNamed [b, c] n d := by
    have hne : "swfdump" ≠ "flasm" := by decide
    change LastNamed ([a] ++ ([c] ++ [b])) n d ↔ LastNamed ([b] ++ [c]) n d
    simp only [lastNamed_append_iff, lastNamed_singleton_iff, List.forall_mem_append,
      List.forall_mem_singleton, a, b, c, fixedText]
    grind
  exact ⟨hstart, hlast, (registry_over_runs hstart [a, c, b]).2.1 [b, c] hlast⟩

end FlexAudit.Registry
