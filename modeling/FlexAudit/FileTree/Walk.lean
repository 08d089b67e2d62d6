import FlexAudit.FileTree.Basic

/-! # Walks

A walk of a directory meets what the directory holds, one name after the other. What a directory
that it meets holds comes right behind that directory. Links are met and not followed. -/

namespace FlexAudit.FileTree

def Entry.isFile : Entry → Bool
  | file _ _ => true
  | _ => false

/-- The name that a location has in a directory, if it lies directly in it. -/
def nameIn? (directory l : Location) : Option String :=
  if l.dropLast = directory then l.getLast? else none

/-- What a directory holds, in the order of the names. Names are compared character by character,
which for text is the order of its bytes. -/
def children (t : FileTree) (directory : Location) : List (String × Entry) :=
  (t.entries.filterMap fun e => (nameIn? directory e.1).map fun name => (name, e.2)).mergeSort
    fun a b => !decide (b.1 < a.1)

/-- The number of names that lead to the deepest entry. -/
def height (t : FileTree) : Nat :=
  t.entries.foldr (fun e n => max e.1.length n) 0

theorem nameIn?_eq_some_iff (d l : Location) (name : String) :
    nameIn? d l = some name ↔ l = d ++ [name] := by
  unfold nameIn?
  constructor
  · intro h
    obtain ⟨rfl, hlast⟩ := Option.ite_none_right_eq_some.mp h
    obtain ⟨front, rfl⟩ := List.getLast?_eq_some_iff.mp hlast
    rw [List.dropLast_concat]
  · rintro rfl
    simp

theorem mem_children_iff_mem_entries (t : FileTree) (d : Location) (name : String) (e : Entry) :
    (name, e) ∈ t.children d ↔ (d ++ [name], e) ∈ t.entries := by
  rw [children, List.mem_mergeSort, List.mem_filterMap]
  constructor
  · rintro ⟨⟨l, e'⟩, hmem, hmap⟩
    obtain ⟨name', hname, heq⟩ := Option.map_eq_some_iff.mp hmap
    cases heq
    rwa [← (nameIn?_eq_some_iff d l name).mp hname]
  · intro hmem
    refine ⟨_, hmem, ?_⟩
    rw [(nameIn?_eq_some_iff d _ name).mpr rfl]
    rfl

theorem length_le_height {t : FileTree} {e : Location × Entry} (h : e ∈ t.entries) :
    e.1.length ≤ t.height := by
  unfold height
  generalize t.entries = entries at h
  induction entries with
  | nil => cases h
  | cons first rest ih =>
    rw [List.foldr_cons]
    rcases List.mem_cons.mp h with rfl | hrest
    · exact Nat.le_max_left _ _
    · exact Nat.le_trans (ih hrest) (Nat.le_max_right _ _)

/-- What a walk meets: its path, which is made by joining names, and what is there. -/
structure Visit where
  path : Path
  entry : Entry

/-- What is met below a directory with this path, at most `limit` names deep. -/
def walk (t : FileTree) (limit : Option Nat) (directory : Location) (path : Path) : List Visit :=
  if limit = some 0 then []
  else
    (t.children directory).attach.flatMap fun ⟨(name, entry), _⟩ =>
      let inner := path.join ⟨name⟩
      ⟨inner, entry⟩ ::
        if entry = .directory then t.walk (limit.map (· - 1)) (directory ++ [name]) inner else []
termination_by t.height - directory.length
decreasing_by
  -- a directory that is met lies one name deeper, and nothing lies below the deepest entry
  have hheight := length_le_height ((t.mem_children_iff_mem_entries directory _ _).mp ‹_›)
  simp only [List.length_append, List.length_singleton] at hheight ⊢
  omega

end FlexAudit.FileTree
