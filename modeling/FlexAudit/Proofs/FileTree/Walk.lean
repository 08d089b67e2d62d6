import FlexAudit.FileTree.Walk
import FlexAudit.Proofs.Path
import Mathlib.Data.List.Nodup

/-!
# What a walk meets

A walk goes from directory to directory and joins names. Which entries it meets, and in which order,
is proved along its recursion:

* `mem_children_iff` and `pairwise_children`: what a directory holds, each name once and in order;
* `mem_walk_iff`: a walk meets what lies below the directory, through directories alone and as deep
  as its limit allows;
* `pairwise_walk`: it meets them in the order of their names from the top;
* `walk_limit`: a limit leaves out what lies deeper and nothing else.
-/

namespace FlexAudit.FileTree

/-- Every name in the tree is one. -/
def Named (t : FileTree) : Prop :=
  ∀ e ∈ t.entries, ∀ n ∈ e.1, IsName n

instance (t : FileTree) : Decidable t.Named :=
  inferInstanceAs (Decidable (∀ e ∈ t.entries, ∀ n ∈ e.1, IsName n))

/-- The names lead down from a directory: each but the last is a directory in the one before it. -/
inductive Below (t : FileTree) : Location → List String → Prop where
  | child (d : Location) (name : String) : Below t d [name]
  | descend {d : Location} {name : String} {names : List String} :
      t.lookup (d ++ [name]) = some .directory → Below t (d ++ [name]) names →
      Below t d (name :: names)

/-- A regular file stands at the location itself. -/
def HoldsFile (t : FileTree) (l : Location) : Prop :=
  ∃ content executable, t.lookup l = some (.file content executable)

variable {t : FileTree} {d : Location} {names : List String}

theorem Below.ne_nil (h : t.Below d names) : names ≠ [] := by
  cases h with
  | child => simp
  | descend => simp

variable (t)

theorem isDirectory_iff (l : Location) : t.isDirectory l = true ↔ t.lookup l = some .directory := by
  simp [isDirectory]

theorem mem_entries_iff {l : Location} (hl : l ≠ []) (e : Entry) :
    (l, e) ∈ t.entries ↔ t.lookup l = some e := by
  rw [lookup, if_neg hl]
  constructor
  · intro hmem
    -- another entry at the same location would be a second one
    obtain ⟨x, hx⟩ : ∃ x, t.entries.find? (fun x => x.1 == l) = some x := by
      rw [← Option.isSome_iff_exists, List.find?_isSome]
      exact ⟨(l, e), hmem, by simp⟩
    have hkey : x.1 = l := by simpa using List.find?_some hx
    have hsame := List.inj_on_of_nodup_map t.nodup (List.mem_of_find?_eq_some hx) hmem hkey
    simp [hx, hsame]
  · intro hfind
    obtain ⟨x, hx, rfl⟩ := Option.map_eq_some_iff.mp hfind
    have hkey : x.1 = l := by simpa using List.find?_some hx
    rw [← hkey]
    exact List.mem_of_find?_eq_some hx

theorem holdsFile_iff (l : Location) :
    t.HoldsFile l ↔ ∃ e, t.lookup l = some e ∧ e.isFile = true := by
  constructor
  · rintro ⟨content, executable, h⟩
    exact ⟨_, h, rfl⟩
  · rintro ⟨e, h, hfile⟩
    cases e with
    | file content executable => exact ⟨content, executable, h⟩
    | directory | link => simp [Entry.isFile] at hfile

/-! ## One directory -/

theorem mem_children_iff (d : Location) (name : String) (e : Entry) :
    (name, e) ∈ t.children d ↔ t.lookup (d ++ [name]) = some e := by
  rw [mem_children_iff_mem_entries, mem_entries_iff t (by simp)]

theorem nodup_children (d : Location) : ((t.children d).map Prod.fst).Nodup := by
  have hperm : ((t.children d).map Prod.fst).Perm
      ((t.entries.map Prod.fst).filterMap (nameIn? d)) := by
    refine ((List.mergeSort_perm _ _).map Prod.fst).trans (.of_eq ?_)
    rw [List.map_filterMap, List.filterMap_map]
    congr 1
    funext e
    simp [Option.map_map, Function.comp_def]
  rw [hperm.nodup_iff]
  refine t.nodup.filterMap ?_
  intro l l' name hl hl'
  rw [(nameIn?_eq_some_iff d l name).mp hl, (nameIn?_eq_some_iff d l' name).mp hl']

/-- The names in a directory stand in order, each once. -/
theorem pairwise_children (d : Location) : (t.children d).Pairwise fun a b => a.1 < b.1 := by
  have hsorted : (t.children d).Pairwise fun a b => (!decide (b.1 < a.1)) = true := by
    apply List.pairwise_mergeSort
    · intro a b c hab hbc
      rw [Bool.not_eq_true', decide_eq_false_iff_not, String.not_lt] at hab hbc ⊢
      exact String.le_trans hab hbc
    · intro a b
      rw [Bool.or_eq_true, Bool.not_eq_true', Bool.not_eq_true', decide_eq_false_iff_not,
        decide_eq_false_iff_not, String.not_lt, String.not_lt]
      exact String.le_total a.1 b.1
  have hnodup := List.pairwise_map.mp (t.nodup_children d)
  refine hsorted.imp₂ (fun a b hle hne => ?_) hnodup
  rw [Bool.not_eq_true', decide_eq_false_iff_not, String.not_lt] at hle
  by_contra hlt
  exact hne (String.le_antisymm hle (String.not_lt.mp hlt))

variable {t} in
/-- What a directory holds, in the order of the names, is one list. -/
theorem children_eq {l : List (String × Entry)} (hsorted : l.Pairwise fun a b => a.1 < b.1)
    (hmem : ∀ name e, (name, e) ∈ l ↔ (d ++ [name], e) ∈ t.entries) : t.children d = l := by
  have hnodup {l : List (String × Entry)} (h : l.Pairwise fun a b => a.1 < b.1) : l.Nodup := by
    refine h.imp ?_
    rintro a _ hlt rfl
    exact String.lt_irrefl a.1 hlt
  have hperm : (t.children d).Perm l := by
    refine (List.perm_ext_iff_of_nodup (hnodup (t.pairwise_children d)) (hnodup hsorted)).mpr ?_
    rintro ⟨name, e⟩
    rw [mem_children_iff_mem_entries, hmem]
  exact hperm.eq_of_pairwise (fun a b _ _ hab hba => absurd hba (String.lt_asymm hab))
    (t.pairwise_children d) hsorted

/-! ## The recursion -/

/-- What is met at a child of a directory and below it. -/
def walkChild (limit : Option Nat) (d : Location) (p : Path) (child : String × Entry) :
    List Visit :=
  ⟨p.join ⟨child.1⟩, child.2⟩ ::
    if child.2 = .directory then
      t.walk (limit.map (· - 1)) (d ++ [child.1]) (p.join ⟨child.1⟩)
    else []

theorem walk_zero (d : Location) (p : Path) : t.walk (some 0) d p = [] := by
  rw [walk, if_pos rfl]

theorem walk_of_ne {limit : Option Nat} (h : limit ≠ some 0) (d : Location) (p : Path) :
    t.walk limit d p = (t.children d).flatMap (t.walkChild limit d p) := by
  rw [walk, if_neg h]
  conv_rhs => rw [← List.attach_map_subtype_val (t.children d), List.flatMap_map]
  rfl

theorem mem_walkChild_iff {limit : Option Nat} {p : Path} {name : String} {e : Entry} {v : Visit} :
    v ∈ t.walkChild limit d p (name, e) ↔ v = ⟨p.join ⟨name⟩, e⟩ ∨
      e = .directory ∧ v ∈ t.walk (limit.map (· - 1)) (d ++ [name]) (p.join ⟨name⟩) := by
  by_cases he : e = .directory
  · simp [walkChild, he]
  · simp [walkChild, he]

/-! ## What is met -/

/-- **A walk is complete.** It meets the entries below the directory, at their joined paths, and no
other ones. -/
theorem mem_walk_iff (limit : Option Nat) (d : Location) (p : Path) (v : Visit) :
    v ∈ t.walk limit d p ↔ ∃ names, t.Below d names ∧ t.lookup (d ++ names) = some v.entry ∧
      v.path = p.below names ∧ ∀ n ∈ limit, names.length ≤ n := by
  induction limit, d, p using walk.induct t with
  | case1 d p =>
    rw [walk_zero]
    refine iff_of_false List.not_mem_nil ?_
    rintro ⟨names, hbelow, -, -, hlimit⟩
    exact hbelow.ne_nil (List.eq_nil_of_length_eq_zero (Nat.le_zero.mp (hlimit 0 rfl)))
  | case2 limit d p hlimit ih =>
    have hpos : ∀ n ∈ limit, 0 < n := by
      intro n hn
      exact Nat.pos_of_ne_zero fun hzero => hlimit (hzero ▸ hn)
    rw [walk_of_ne t hlimit, List.mem_flatMap]
    constructor
    · rintro ⟨⟨name, e⟩, hchild, hv⟩
      have hlookup := (t.mem_children_iff d name e).mp hchild
      rcases t.mem_walkChild_iff.mp hv with rfl | ⟨rfl, hinner⟩
      · exact ⟨[name], .child d name, hlookup, rfl, hpos⟩
      · obtain ⟨names, hbelow, hentry, hpath, hdepth⟩ := (ih name .directory hchild).mp hinner
        refine ⟨name :: names, .descend hlookup hbelow, by simpa using hentry, hpath, ?_⟩
        intro n hn
        have hle := hdepth (n - 1) (Option.mem_map_of_mem _ hn)
        have hn0 := hpos n hn
        rw [List.length_cons]
        omega
    · rintro ⟨names, hbelow, hentry, hpath, hdepth⟩
      cases hbelow with
      | child _ name =>
        have hvisit : v = ⟨p.join ⟨name⟩, v.entry⟩ := congrArg (Visit.mk · v.entry) hpath
        refine ⟨(name, v.entry), (t.mem_children_iff d name _).mpr hentry, ?_⟩
        exact t.mem_walkChild_iff.mpr (.inl hvisit)
      | @descend _ name names hdir hbelow =>
        have hchild := (t.mem_children_iff d name .directory).mpr hdir
        refine ⟨_, hchild, t.mem_walkChild_iff.mpr (.inr ⟨rfl, (ih name _ hchild).mpr ?_⟩)⟩
        refine ⟨names, hbelow, by simpa using hentry, hpath, ?_⟩
        intro n hn
        obtain ⟨m, hm, rfl⟩ := Option.map_eq_some_iff.mp hn
        have hle := hdepth m hm
        rw [List.length_cons] at hle
        omega

variable {t}

theorem Named.isName_of_lookup (ht : t.Named) {l : Location} {e : Entry}
    (h : t.lookup l = some e) : ∀ n ∈ l, IsName n := by
  by_cases hl : l = []
  · simp [hl]
  · exact ht _ ((t.mem_entries_iff hl e).mpr h)

/-- What is met below a directory has the names of the directory's path, and more behind them. -/
theorem Named.names_of_mem_walk (ht : t.Named) {limit : Option Nat} {p : Path} {v : Visit}
    (hv : v ∈ t.walk limit d p) : ∃ names, names ≠ [] ∧ v.path.names = p.names ++ names := by
  obtain ⟨names, hbelow, hentry, hpath, -⟩ := (t.mem_walk_iff limit d p v).mp hv
  refine ⟨names, hbelow.ne_nil, ?_⟩
  rw [hpath, Path.names_below]
  intro n hn
  exact ht.isName_of_lookup hentry n (List.mem_append_right d hn)

theorem Named.names_of_mem_walkChild (ht : t.Named) {limit : Option Nat} {p : Path}
    {name : String} {e : Entry} (hchild : (name, e) ∈ t.children d) {v : Visit}
    (hv : v ∈ t.walkChild limit d p (name, e)) :
    ∃ names, v.path.names = p.names ++ name :: names := by
  have hjoin : (p.join ⟨name⟩).names = p.names ++ [name] := by
    refine p.names_join (ht.isName_of_lookup ((t.mem_children_iff d name e).mp hchild) name ?_)
    simp
  rcases t.mem_walkChild_iff.mp hv with rfl | ⟨-, hv⟩
  · exact ⟨[], hjoin⟩
  · obtain ⟨names, -, hnames⟩ := ht.names_of_mem_walk hv
    exact ⟨names, by rw [hnames, hjoin, List.append_assoc, List.singleton_append]⟩

/-! ## In which order -/

/-- **A walk is in order.** What is met comes in the order of the names from the top, a directory
before what it holds. -/
theorem Named.pairwise_walk (ht : t.Named) (limit : Option Nat) (d : Location) (p : Path) :
    (t.walk limit d p).Pairwise fun v w => v.path.names < w.path.names := by
  induction limit, d, p using walk.induct t with
  | case1 d p =>
    rw [walk_zero]
    exact .nil
  | case2 limit d p hlimit ih =>
    rw [walk_of_ne t hlimit, List.pairwise_flatMap]
    constructor
    · rintro ⟨name, e⟩ hchild
      rw [walkChild, List.pairwise_cons]
      split
      · refine ⟨fun w hw => ?_, ih name e hchild⟩
        obtain ⟨names, hne, hnames⟩ := ht.names_of_mem_walk hw
        obtain ⟨first, rest, rfl⟩ := List.exists_cons_of_ne_nil hne
        have hlt : (p.join ⟨name⟩).names ++ [] < (p.join ⟨name⟩).names ++ first :: rest :=
          List.append_left_lt (List.nil_lt_cons first rest)
        rwa [List.append_nil, ← hnames] at hlt
      · exact ⟨by simp, .nil⟩
    · -- what is met at two children differs first in the names of the children
      refine (t.pairwise_children d).imp_of_mem ?_
      rintro ⟨a, e⟩ ⟨b, f⟩ ha hb hlt v hv w hw
      obtain ⟨names, hv⟩ := ht.names_of_mem_walkChild ha hv
      obtain ⟨names', hw⟩ := ht.names_of_mem_walkChild hb hw
      rw [hv, hw]
      exact List.append_left_lt (List.cons_lt_cons_iff.mpr (.inl hlt))

/-- **A limit** leaves out what lies deeper, and nothing else. -/
theorem Named.walk_limit (ht : t.Named) (n : Nat) (d : Location) (p : Path) :
    t.walk (some n) d p =
      (t.walk none d p).filter fun v => decide (v.path.names.length ≤ p.names.length + n) := by
  induction n generalizing d p with
  | zero =>
    rw [walk_zero, eq_comm, List.filter_eq_nil_iff]
    intro v hv
    obtain ⟨names, hne, hnames⟩ := ht.names_of_mem_walk hv
    have hlen := List.length_pos_iff.mpr hne
    rw [hnames, List.length_append, decide_eq_true_eq]
    omega
  | succ n ih =>
    rw [walk_of_ne t (by simp), walk_of_ne t (by simp), List.filter_flatMap]
    refine List.flatMap_congr ?_
    rintro ⟨name, e⟩ hchild
    have hname := ht.isName_of_lookup ((t.mem_children_iff d name e).mp hchild) name (by simp)
    have hlen : (p.join ⟨name⟩).names.length = p.names.length + 1 := by
      rw [p.names_join hname, List.length_append, List.length_singleton]
    have hinner : p.names.length + (n + 1) = (p.join ⟨name⟩).names.length + n := by omega
    rw [walkChild, walkChild, List.filter_cons_of_pos (by simp [hlen]), hinner]
    by_cases he : e = .directory
    · rw [if_pos he, if_pos he]
      exact congrArg (_ :: ·) (ih (d ++ [name]) (p.join ⟨name⟩))
    · rw [if_neg he, if_neg he, List.filter_nil]

end FlexAudit.FileTree
