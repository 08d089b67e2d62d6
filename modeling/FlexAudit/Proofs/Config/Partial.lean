import FlexAudit.Proofs.Config.File
import FlexAudit.Proofs.Json.Printer
import FlexAudit.Proofs.Json.Record

/-!
# Configurations with fields left out

A configuration file may leave out any field, give the others in any order and hold members that
nobody knows. Proved here:

* `slots?_revised`: the slots of a record are its members less the removed ones, whatever else the
  object holds, unless the name of a member is no text;
* `DisassemblerConfig.ofJson?_revised`, `ScanConfig.ofJson?_revised`: removed fields, and only
  those, take their defaults;
* `partial_config_loads`: so does a file with any text of such an object.
-/

namespace FlexAudit

namespace Json

/-! ## Objects with members removed, added and moved -/

/-- The members of an object. -/
def memberList : Json → List (Option String × Json)
  | .obj ms => ms
  | _ => []

/-- Members with another value for a name. -/
def putMember (name : String) (v : Json) (ms : List (Option String × Json)) :
    List (Option String × Json) :=
  ms.map fun m => if m.1 = some name then (m.1, v) else m

/-- Members less those with a removed name, with others whose names are not known, in any order. -/
structure Revised (known removed : List String) (extra before after : List (Option String × Json)) :
    Prop where
  unknown : ∀ m ∈ extra, ∀ name ∈ known, m.1 ≠ some name
  perm : after.Perm (before.filter (fun m => m.1 ∉ removed.map some) ++ extra)

/-- All names are texts: no surrogate stands alone in one. -/
def TextNames (ms : List (Option String × Json)) : Prop :=
  ∀ m ∈ ms, m.1.isSome = true

instance (ms : List (Option String × Json)) : Decidable (TextNames ms) :=
  inferInstanceAs (Decidable (∀ m ∈ ms, m.1.isSome = true))

theorem member?_perm {ms ms' : List (Option String × Json)} (h : ms.Perm ms') (name : String) :
    member? ms name = member? ms' name := by
  have hfilter := h.filter fun m => m.1 == some name
  unfold member?
  revert hfilter
  generalize ms.filter (fun m => m.1 == some name) = l
  generalize ms'.filter (fun m => m.1 == some name) = l'
  intro hperm
  match l, l', hperm.length_eq with
  | [], [], _ => rfl
  | [m], [m'], _ => rw [List.perm_singleton.mp hperm]
  | _ :: _ :: _, _ :: _ :: _, _ => rfl

theorem member?_append {ms extra : List (Option String × Json)} {name : String}
    (h : ∀ m ∈ extra, m.1 ≠ some name) : member? (ms ++ extra) name = member? ms name := by
  have hextra : extra.filter (fun m => m.1 == some name) = [] := by
    rw [List.filter_eq_nil_iff]
    intro m hm
    simpa using h m hm
  rw [member?, List.filter_append, hextra, List.append_nil, member?]

/-- Members of a record without those that are removed. -/
def withheld (removed : List String) (members : List (String × Option Json)) :
    List (String × Option Json) :=
  members.map fun m => (m.1, if m.1 ∈ removed then none else m.2)

theorem filter_memberList (removed : List String) (members : List (String × Option Json)) :
    (ofMembers members).memberList.filter (fun m => m.1 ∉ removed.map some) =
      (ofMembers (withheld removed members)).memberList := by
  rw [ofMembers_eq, ofMembers_eq, memberList, memberList]
  induction members with
  | nil => rfl
  | cons m members ih =>
    obtain ⟨name, value⟩ := m
    rw [withheld, List.map_cons, present_cons, present_cons, List.map_append, List.map_append,
      List.filter_append, ih]
    congr 1
    have hmem : some name ∈ removed.map some ↔ name ∈ removed := by simp
    cases value with
    | none => simp
    | some v => by_cases hname : name ∈ removed <;> simp [hmem, hname, -List.mem_map]

theorem slots?_revised {names removed : List String} {values : List (Option Json)}
    {extra ms : List (Option String × Json)} (hlength : names.length = values.length)
    (hnodup : names.Nodup)
    (h : Revised names removed extra (ofMembers (names.zip values)).memberList ms) :
    slots? names (.obj ms) =
      if TextNames extra then
        some ((names.zip values).map fun m => if m.1 ∈ removed then none else m.2)
      else none := by
  have hnames : (names.zip values).map Prod.fst = names := List.map_fst_zip (Nat.le_of_eq hlength)
  have hkept : ((withheld removed (names.zip values)).map Prod.fst).Nodup := by
    have hfst : (withheld removed (names.zip values)).map Prod.fst = names := by
      rw [withheld, List.map_map]
      exact hnames
    rwa [hfst]
  have hperm := h.perm
  rw [filter_memberList, ofMembers_eq, memberList] at hperm
  have htext : ms.all (fun m => m.1.isSome) = true ↔ TextNames extra := by
    rw [List.all_eq_true, TextNames]
    simp only [hperm.mem_iff, List.forall_mem_append, List.forall_mem_map, Option.isSome_some,
      implies_true, true_and]
  have hmembers : names.mapM (member? ms) =
      some ((names.zip values).map fun m => if m.1 ∈ removed then none else m.2) := by
    have hmap : ((names.zip values).map Prod.fst).mapM (member? ms) =
        some ((names.zip values).map fun m => if m.1 ∈ removed then none else m.2) := by
      refine mapM_map_eq_some fun m hm => ?_
      have hname : m.1 ∈ names := hnames ▸ List.mem_map_of_mem hm
      rw [member?_perm hperm, member?_append fun e he => h.unknown e he m.1 hname]
      exact member?_present hkept (List.mem_map_of_mem hm)
    rwa [hnames] at hmap
  rw [slots?, hmembers]
  exact if_congr htext rfl rfl

/-- A field that is removed takes its default. -/
theorem withDefault_removed {α : Type} {fallback value : α} {decode : Json → Option α}
    {slot : Option Json} (h : withDefault fallback decode slot = some value) (gone : Prop)
    [Decidable gone] :
    withDefault fallback decode (if gone then none else slot) =
      some (if gone then fallback else value) := by
  by_cases hgone : gone
  · rw [if_pos hgone, if_pos hgone, withDefault]
  · rw [if_neg hgone, if_neg hgone, h]

end Json

open Json

/-! ## Configurations -/

namespace DisassemblerConfig

def fieldNames : List String := ["backend", "program", "args"]

/-- The configuration with the removed fields at their defaults. -/
def without (c : DisassemblerConfig) (removed : List String) : DisassemblerConfig :=
  let base : DisassemblerConfig := {}
  { backend := if "backend" ∈ removed then base.backend else c.backend
    program := if "program" ∈ removed then base.program else c.program
    args := if "args" ∈ removed then base.args else c.args }

theorem ofJson?_revised {c : DisassemblerConfig} {removed : List String}
    {extra ms : List (Option String × Json)}
    (h : Revised fieldNames removed extra c.toJson.memberList ms) :
    ofJson? (.obj ms) = if TextNames extra then some (c.without removed) else none := by
  have hfields : Revised fieldNames removed extra (ofMembers (fieldNames.zip
      [some (text c.backend), c.program.map text, some (texts c.args)])).memberList ms := h
  have hslots : slots? ["backend", "program", "args"] (.obj ms) = _ :=
    slots?_revised rfl (by decide) hfields
  have hbackend : withDefault "swfdump" text? (some (text c.backend)) = some c.backend := rfl
  have hprogram : withDefault none (option? text?) (c.program.map text) = some c.program :=
    Inverts.text.withDefault (fun _ => by simp [text]) c.program
  have hargs : withDefault ["-abc"] (list? text?) (some (texts c.args)) = some c.args :=
    Inverts.text.list c.args
  rw [ofJson?, hslots]
  by_cases htext : TextNames extra
  · simp [htext, withDefault_removed hbackend, withDefault_removed hprogram,
      withDefault_removed hargs, without]
  · simp [htext]

end DisassemblerConfig

namespace ScanConfig

def fieldNames : List String := ["disassembler", "extensions", "recursive", "jobs"]

/-- The configuration with the removed fields, its own and those of its disassembler, at their
defaults. -/
def without (c : ScanConfig) (removed removedInside : List String) : ScanConfig :=
  let base : ScanConfig := {}
  { disassembler := if "disassembler" ∈ removed then base.disassembler else
      c.disassembler.without removedInside
    extensions := if "extensions" ∈ removed then base.extensions else c.extensions
    recursive := if "recursive" ∈ removed then base.recursive else c.recursive
    jobs := if "jobs" ∈ removed then base.jobs else c.jobs }

theorem putMember_disassembler (c : ScanConfig) (j : Json) :
    putMember "disassembler" j c.toJson.memberList =
      (ofMembers (fieldNames.zip [some j, some (texts c.extensions), some (.bool c.recursive),
        c.jobs.map fun n => .nat n.toNat])).memberList := by
  cases hjobs : c.jobs <;> simp [putMember, toJson, ofMembers, memberList, fieldNames, hjobs]

theorem ofJson?_revised {c : ScanConfig} {removed removedInside : List String}
    {extra extraInside inside ms : List (Option String × Json)}
    (hinside : Revised DisassemblerConfig.fieldNames removedInside extraInside
      c.disassembler.toJson.memberList inside)
    (h : Revised fieldNames removed extra
      (putMember "disassembler" (.obj inside) c.toJson.memberList) ms) :
    ofJson? (.obj ms) =
      if TextNames extra ∧ ("disassembler" ∈ removed ∨ TextNames extraInside) then
        some (c.without removed removedInside)
      else none := by
  rw [putMember_disassembler] at h
  have hslots : slots? ["disassembler", "extensions", "recursive", "jobs"] (.obj ms) = _ :=
    slots?_revised rfl (by decide) h
  have hextensions : withDefault ["swf"] (list? text?) (some (texts c.extensions)) =
      some c.extensions := Inverts.text.list c.extensions
  have hrecursive : withDefault false bool? (some (.bool c.recursive)) = some c.recursive := rfl
  have hjobs : withDefault none (option? jobs?) (c.jobs.map fun n => .nat n.toNat) = some c.jobs :=
    jobs_inverts.withDefault (fun _ => by simp) c.jobs
  have hdisassembler : withDefault {} DisassemblerConfig.ofJson?
      (if "disassembler" ∈ removed then none else some (.obj inside)) =
        if "disassembler" ∈ removed ∨ TextNames extraInside then
          some (if "disassembler" ∈ removed then {} else c.disassembler.without removedInside)
        else none := by
    by_cases hgone : "disassembler" ∈ removed
    · simp [hgone, withDefault]
    · simp [hgone, DisassemblerConfig.ofJson?_revised hinside]
  rw [ofJson?, hslots]
  by_cases htext : TextNames extra
  · by_cases hreads : "disassembler" ∈ removed ∨ TextNames extraInside
    · simp [htext, hreads, hdisassembler, withDefault_removed hextensions,
        withDefault_removed hrecursive, withDefault_removed hjobs, without]
    · simp [htext, hreads, hdisassembler]
  · simp [htext]

theorem load_of_document {t : FileTree} {cwd : Location} {p : Path} {extension text : String}
    {j : Json} (hextension : p.extension? = some extension) (hlower : Path.lower extension = "json")
    (hholds : t.Holds cwd p text) (hdocument : Document j text.toList) :
    load t cwd p = (ofJson? j).elim (.error (.malformed p .json)) .ok := by
  have hformat : ConfigFormat.ofPath? p = some .json := by
    rw [ConfigFormat.ofPath?_of_extension hextension, ConfigFormat.ofName?, hlower]
    rfl
  have hparse : parse? .json text = ofJson? j := by
    rw [parse?, Json.parse?, hdocument.parseChars?_eq, Option.bind_some]
  simp only [load, hformat, hholds.readText, hparse]
  cases ofJson? j <;> rfl

end ScanConfig

/-- Whichever members of a configuration are removed, at both levels, however the others are moved
and whatever else is added to them, every text of the result is loaded as the configuration with
exactly the removed fields at their defaults; only an added name that is no text makes the file
malformed, and one inside of a removed disassembler does not count. -/
theorem partial_config_loads (c : ScanConfig) (t : FileTree) (cwd : Location) (p : Path)
    (extension text : String) (removed removedInside : List String)
    (extra extraInside inside ms : List (Option String × Json))
    (hextension : p.extension? = some extension) (hlower : Path.lower extension = "json")
    (hinside : Revised DisassemblerConfig.fieldNames removedInside extraInside
      c.disassembler.toJson.memberList inside)
    (hmembers : Revised ScanConfig.fieldNames removed extra
      (putMember "disassembler" (.obj inside) c.toJson.memberList) ms)
    (hdocument : Document (.obj ms) text.toList) (hholds : t.Holds cwd p text) :
    ScanConfig.load t cwd p =
      if TextNames extra ∧ ("disassembler" ∈ removed ∨ TextNames extraInside) then
        .ok (c.without removed removedInside)
      else .error (.malformed p .json) := by
  rw [ScanConfig.load_of_document hextension hlower hholds hdocument,
    ScanConfig.ofJson?_revised hinside hmembers]
  split <;> rfl

/-- A configuration without defaults. -/
def settledConfig : ScanConfig where
  disassembler := { backend := "dump-file", program := some "swfdump2", args := [] }
  extensions := ["abc"]
  recursive := true
  jobs := some 3

/-- The program and the extensions are removed, the other members stand in reverse order, and a
value that is skipped may hold what a name may not. -/
theorem partial_config_loads_reversed :
    let p := Location.path ["audit.json"]
    let extra := [(some "Jobs", Json.obj [(none, .otherNumber)]), (some "note", .str none)]
    let inside := [(some "", .null), (some "args", texts []), (some "backend", text "dump-file")]
    let ms := extra.reverse ++ [(some "jobs", .nat 3), (some "recursive", .bool true),
      (some "disassembler", .obj inside)]
    let t := FileTree.ofFile "audit.json" (pretty (.obj ms))
    Revised DisassemblerConfig.fieldNames ["program"] [(some "", .null)]
        settledConfig.disassembler.toJson.memberList inside ∧
      Revised ScanConfig.fieldNames ["extensions"] extra
        (putMember "disassembler" (.obj inside) settledConfig.toJson.memberList) ms ∧
      Document (.obj ms) (pretty (.obj ms)).toList ∧
      ScanConfig.load t [] p = .ok { settledConfig with
        disassembler := { settledConfig.disassembler with program := none }
        extensions := ["swf"] } := by
  intro p extra inside ms t
  have hextension : p.extension? = some "json" := by decide
  have hlower : Path.lower "json" = "json" := by decide
  have hinside : Revised DisassemblerConfig.fieldNames ["program"] [(some "", .null)]
      settledConfig.disassembler.toJson.memberList inside :=
    ⟨by simp [DisassemblerConfig.fieldNames], List.reverse_perm [_, _, _]⟩
  have hmembers : Revised ScanConfig.fieldNames ["extensions"] extra
      (putMember "disassembler" (.obj inside) settledConfig.toJson.memberList) ms :=
    ⟨by simp [extra, ScanConfig.fieldNames], List.reverse_perm [_, _, _, _, _]⟩
  have hdocument : Document (.obj ms) (pretty (.obj ms)).toList := by
    rw [pretty, String.toList_ofList]
    exact (spells_prettyChars 0 _).document
  have hholds : t.Holds [] p (pretty (.obj ms)) := FileTree.holds_ofFile (by decide) _
  refine ⟨hinside, hmembers, hdocument, ?_⟩
  rw [partial_config_loads settledConfig t [] p "json" _ _ _ _ _ _ _ hextension hlower hinside
    hmembers hdocument hholds]
  decide

/-- A member that no field is named after is refused where its name has an unpaired surrogate. -/
theorem unpaired_name_refused :
    let p := Location.path ["audit.json"]
    let text := "\x7b\"\\ud800\":1\x7d"
    let extra := [(none, Json.nat 1)]
    Revised ScanConfig.fieldNames ScanConfig.fieldNames extra
        ({} : ScanConfig).toJson.memberList extra ∧
      Document (.obj extra) text.toList ∧
      ScanConfig.load (FileTree.ofFile "audit.json" text) [] p = .error (.malformed p .json) := by
  intro p text extra
  have hrevised : Revised ScanConfig.fieldNames ScanConfig.fieldNames extra
      ({} : ScanConfig).toJson.memberList extra :=
    ⟨by simp [extra], List.Perm.refl _⟩
  have htext : text.toList = compactChars (.obj extra) := by decide +kernel
  have hdocument : Document (.obj extra) text.toList :=
    htext ▸ (spells_compactChars (.obj extra)).document
  have hextension : p.extension? = some "json" := by decide
  have hholds : (FileTree.ofFile "audit.json" text).Holds [] p text :=
    FileTree.holds_ofFile (by decide) text
  refine ⟨hrevised, hdocument, ?_⟩
  rw [ScanConfig.load_of_document hextension (by decide) hholds hdocument]
  rfl

end FlexAudit
