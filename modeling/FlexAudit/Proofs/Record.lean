import Mathlib.Data.List.Nodup

/-!
# Records with optional members

A member that has no value is left out when a record is written, and found missing when it is read.
Proved here:

* `filter_present`: a name leads to the value that was given for it;
* `mapM_map_eq_some`: a list is read back from what its items were turned into.
-/

namespace FlexAudit

/-- The members that have a value. -/
def present {α : Type} (members : List (String × Option α)) : List (String × α) :=
  members.filterMap fun (name, value) => value.map fun v => (name, v)

theorem present_cons {α : Type} (name : String) (value : Option α)
    (members : List (String × Option α)) :
    present ((name, value) :: members) =
      (value.map fun v => (name, v)).toList ++ present members := by
  cases value <;> rfl

theorem present_map {α β : Type} (f : α → β) (members : List (String × Option α)) :
    (present members).map (fun m => (m.1, f m.2)) =
      present (members.map fun m => (m.1, m.2.map f)) := by
  simp [present, List.map_filterMap, List.filterMap_map, Function.comp_def]

theorem name_mem_of_mem_present {α : Type} {members : List (String × Option α)} {m : String × α}
    (hm : m ∈ present members) : m.1 ∈ members.map Prod.fst := by
  obtain ⟨⟨name, value⟩, hmember, heq⟩ := List.mem_filterMap.1 hm
  obtain ⟨v, -, rfl⟩ := Option.map_eq_some_iff.1 heq
  exact List.mem_map_of_mem hmember

theorem filter_present_of_notMem {α : Type} {members : List (String × Option α)} {name : String}
    (h : name ∉ members.map Prod.fst) : (present members).filter (fun m => m.1 == name) = [] := by
  rw [List.filter_eq_nil_iff]
  intro m hm
  rw [beq_iff_eq]
  rintro rfl
  exact h (name_mem_of_mem_present hm)

theorem filter_present {α : Type} {members : List (String × Option α)}
    (hnodup : (members.map Prod.fst).Nodup) {m : String × Option α} (hm : m ∈ members) :
    (present members).filter (fun n => n.1 == m.1) = (m.2.map fun v => (m.1, v)).toList := by
  induction members with
  | nil => cases hm
  | cons first members ih =>
    obtain ⟨key, value⟩ := first
    obtain ⟨hkey, hnodup⟩ := List.nodup_cons.1 hnodup
    rw [present_cons, List.filter_append]
    rcases List.mem_cons.1 hm with rfl | hrest
    · rw [filter_present_of_notMem hkey]
      cases value <;> simp
    · have hne : key ≠ m.1 := by
        rintro rfl
        exact hkey (List.mem_map.2 ⟨m, hrest, rfl⟩)
      rw [ih hnodup hrest]
      cases value <;> simp [hne]

theorem mapM_map_eq_some {α β γ : Type} {f : β → Option γ} {g : α → β} {h : α → γ} {as : List α}
    (hf : ∀ a ∈ as, f (g a) = some (h a)) : (as.map g).mapM f = some (as.map h) := by
  induction as with
  | nil => rfl
  | cons a as ih =>
    have hhead := hf a List.mem_cons_self
    have htail := ih fun b hb => hf b (List.mem_cons_of_mem a hb)
    simp [List.mapM_cons, hhead, htail]

end FlexAudit
