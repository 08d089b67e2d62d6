import FlexAudit.Analysis.Json
import FlexAudit.Config.Json
import FlexAudit.Proofs.Record

/-!
# Records as JSON values

A value that is encoded and decoded again is the same. Proved here:

* `slots?_ofMembers`: the slots of a record are the members that it was built from;
* `Inverts.list`, `Inverts.withDefault`: lists and optional fields follow what they hold;
* an `Inverts` theorem for each type that has a JSON form.
-/

namespace FlexAudit

namespace Json

/-- Decoding gives back what was encoded. -/
def Inverts {α : Type} (decode : Json → Option α) (encode : α → Json) : Prop :=
  ∀ a, decode (encode a) = some a

/-! ## Slots -/

theorem ofMembers_eq (members : List (String × Option Json)) :
    ofMembers members = .obj ((present members).map fun m => (some m.1, m.2)) := by
  simp [ofMembers, present, List.map_filterMap, Function.comp_def]

theorem member?_present {members : List (String × Option Json)}
    (hnodup : (members.map Prod.fst).Nodup) {m : String × Option Json} (hm : m ∈ members) :
    member? ((present members).map fun n => (some n.1, n.2)) m.1 = some m.2 := by
  have hfilter := filter_present hnodup hm
  simp only [member?, List.filter_map, Function.comp_def, Option.some_beq_some, hfilter]
  cases m.2 <;> rfl

theorem slots?_ofMembers (names : List String) (values : List (Option Json))
    (hlength : names.length = values.length) (hnodup : names.Nodup) :
    slots? names (ofMembers (names.zip values)) = some values := by
  have hnames : (names.zip values).map Prod.fst = names := List.map_fst_zip (Nat.le_of_eq hlength)
  have hvalues : (names.zip values).map Prod.snd = values :=
    List.map_snd_zip (Nat.le_of_eq hlength.symm)
  have hmap : ((names.zip values).map Prod.fst).mapM
      (member? ((present (names.zip values)).map fun n => (some n.1, n.2))) =
        some ((names.zip values).map Prod.snd) :=
    mapM_map_eq_some fun m hm => member?_present (by rwa [hnames]) hm
  rw [hnames, hvalues] at hmap
  rw [ofMembers_eq, slots?, if_pos (by simp), hmap]

/-! ## Fields -/

@[simp]
theorem required_some {α : Type} (decode : Json → Option α) (j : Json) :
    required decode (some j) = decode j := rfl

@[simp]
theorem withDefault_some {α : Type} (fallback : α) (decode : Json → Option α) (j : Json) :
    withDefault fallback decode (some j) = decode j := rfl

theorem Inverts.text : Inverts text? text := fun _ => rfl

theorem Inverts.list {α : Type} {decode : Json → Option α} {encode : α → Json}
    (h : Inverts decode encode) : Inverts (list? decode) (fun as => .arr (as.map encode)) := by
  intro as
  have hmap : (as.map encode).mapM decode = some (as.map id) := mapM_map_eq_some fun a _ => h a
  rwa [List.map_id] at hmap

/-- An optional field is left out where it has no value. -/
theorem Inverts.withDefault {α : Type} {decode : Json → Option α} {encode : α → Json}
    (h : Inverts decode encode) (hnull : ∀ a, encode a ≠ .null) (o : Option α) :
    Json.withDefault none (option? decode) (o.map encode) = some o := by
  cases o with
  | none => rfl
  | some a =>
    change option? decode (encode a) = _
    rw [option?, h a]
    · rfl
    · exact hnull a

end Json

open Json

/-! ## Configurations -/

theorem DisassemblerConfig.inverts :
    Inverts DisassemblerConfig.ofJson? DisassemblerConfig.toJson := by
  intro c
  have hslots : slots? ["backend", "program", "args"] c.toJson =
      some [some (text c.backend), c.program.map text, some (texts c.args)] :=
    slots?_ofMembers _ [_, _, _] rfl (by decide)
  have hprogram : withDefault none (option? text?) (c.program.map text) = some c.program :=
    Inverts.text.withDefault (fun _ => by simp [text]) c.program
  have hargs : list? text? (texts c.args) = some c.args := Inverts.text.list c.args
  rw [ofJson?, hslots]
  simp [hprogram, hargs, Inverts.text c.backend]

theorem ScanConfig.jobs_inverts : Inverts ScanConfig.jobs? fun n => .nat n.toNat := by
  intro n
  have hn : n.toNat < UInt64.size := n.toNat_lt
  simp [jobs?, natBelow?, hn]

theorem ScanConfig.inverts : Inverts ScanConfig.ofJson? ScanConfig.toJson := by
  intro c
  have hslots : slots? ["disassembler", "extensions", "recursive", "jobs"] c.toJson =
      some [some c.disassembler.toJson, some (texts c.extensions), some (.bool c.recursive),
        c.jobs.map fun n => .nat n.toNat] :=
    slots?_ofMembers _ [_, _, _, _] rfl (by decide)
  have hjobs : withDefault none (option? jobs?) (c.jobs.map fun n => .nat n.toNat) = some c.jobs :=
    jobs_inverts.withDefault (fun _ => by simp) c.jobs
  have hextensions : list? text? (texts c.extensions) = some c.extensions :=
    Inverts.text.list c.extensions
  rw [ofJson?, hslots]
  simp [hjobs, hextensions, DisassemblerConfig.inverts c.disassembler, bool?]

/-! ## Analyses -/

namespace Verdict

theorem Kind.inverts : Inverts Kind.ofJson? Kind.toJson := by
  intro k
  cases k <;> decide

theorem Basis.inverts : Inverts Basis.ofJson? Basis.toJson := by
  intro b
  cases b <;> decide

theorem Anomaly.inverts : Inverts Anomaly.ofJson? Anomaly.toJson := by
  intro a
  cases a <;> rfl

theorem inverts : Inverts Verdict.ofJson? Verdict.toJson := by
  intro v
  have hslots : slots? ["kind", "basis", "rationale", "anomaly"] v.toJson =
      some [some v.kind.toJson, some v.basis.toJson, some (text v.rationale),
        v.anomaly.map Anomaly.toJson] :=
    slots?_ofMembers _ [_, _, _, _] rfl (by decide)
  have hanomaly : withDefault none (option? Anomaly.ofJson?) (v.anomaly.map Anomaly.toJson) =
      some v.anomaly :=
    Anomaly.inverts.withDefault (fun a => by cases a <;> simp [Anomaly.toJson, text]) v.anomaly
  rw [ofJson?, hslots]
  simp [hanomaly, Kind.inverts v.kind, Basis.inverts v.basis, Inverts.text v.rationale]

end Verdict

namespace Trace

theorem Level.inverts : Inverts Level.ofJson? Level.toJson := by
  intro l
  cases l <;> rfl

theorem Entry.inverts : Inverts Entry.ofJson? Entry.toJson := by
  intro e
  have hslots : slots? ["level", "message"] e.toJson =
      some [some e.level.toJson, some (text e.message)] :=
    slots?_ofMembers _ [_, _] rfl (by decide)
  rw [ofJson?, hslots]
  simp [Level.inverts e.level, Inverts.text e.message]

theorem inverts : Inverts Trace.ofJson? Trace.toJson :=
  Entry.inverts.list

end Trace

theorem Analysis.inverts : Inverts Analysis.ofJson? Analysis.toJson := by
  intro a
  have hslots : slots? ["verdict", "trace"] a.toJson =
      some [some a.verdict.toJson, some (Trace.toJson a.trace)] :=
    slots?_ofMembers _ [_, _] rfl (by decide)
  rw [ofJson?, hslots]
  simp [Verdict.inverts a.verdict, Trace.inverts a.trace]

/-! ## Versions -/

theorem SdkVersion.part_inverts : Inverts SdkVersion.part? fun n => .nat n.toNat := by
  intro n
  have hn : n.toNat < UInt32.size := n.toNat_lt
  simp [part?, natBelow?, hn]

theorem SdkVersion.inverts : Inverts SdkVersion.ofJson? SdkVersion.toJson := by
  intro v
  have hslots : slots? ["major", "minor", "patch"] v.toJson =
      some [some (.nat v.major.toNat), some (.nat v.minor.toNat), some (.nat v.patch.toNat)] :=
    slots?_ofMembers _ [_, _, _] rfl (by decide)
  rw [ofJson?, hslots]
  simp [part_inverts v.major, part_inverts v.minor, part_inverts v.patch]

end FlexAudit
