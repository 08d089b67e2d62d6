import FlexAudit.FileTree.Basic

/-!
# Names in paths

A location is written as a path by a slash in front of each name. Proved here:

* `Path.split_intercalate`: names with slashes between them are cut into these names;
* `Path.segments_join`: the parts of a joined path are those of the two paths;
* `Location.segments_path`: the parts of the path of a location are the names of the location;
* `Path.names_below` and `Location.below_path`: names that are joined to a path one after the other
  become its last names, and from the path of a location they lead to the path of a location.
-/

namespace FlexAudit

/-- What can be the name of an entry. The other parts of a path lead nowhere or upwards. -/
def IsName (s : String) : Prop :=
  s ≠ "" ∧ s ≠ "." ∧ s ≠ ".." ∧ '/' ∉ s.toList

instance (s : String) : Decidable (IsName s) :=
  inferInstanceAs (Decidable (_ ∧ _))

namespace Path

theorem split_slash (cs : List Char) : split ('/' :: cs) = [] :: split cs := rfl

theorem exists_split_eq_cons (cs : List Char) : ∃ first rest, split cs = first :: rest := by
  cases cs with
  | nil => exact ⟨[], [], rfl⟩
  | cons c cs =>
    simp only [split, List.foldr_cons]
    split
    · exact ⟨_, _, rfl⟩
    · split <;> exact ⟨_, _, rfl⟩

theorem split_cons {c : Char} {cs first : List Char} {rest : List (List Char)} (hc : c ≠ '/')
    (h : split cs = first :: rest) : split (c :: cs) = (c :: first) :: rest := by
  simp only [split, List.foldr_cons, if_neg hc] at h ⊢
  rw [h]

theorem split_of_notMem {name : List Char} (h : '/' ∉ name) : split name = [name] := by
  induction name with
  | nil => rfl
  | cons c name ih =>
    have hc : c ≠ '/' := fun heq => h (heq ▸ List.mem_cons_self)
    exact split_cons hc (ih fun hmem => h (List.mem_cons_of_mem c hmem))

theorem split_append (cs ds : List Char) : split (cs ++ '/' :: ds) = split cs ++ split ds := by
  induction cs with
  | nil => rfl
  | cons c cs ih =>
    by_cases hc : c = '/'
    · subst hc
      rw [List.cons_append, split_slash, ih, split_slash, List.cons_append]
    · obtain ⟨first, rest, hfirst⟩ := exists_split_eq_cons cs
      rw [hfirst, List.cons_append] at ih
      rw [List.cons_append, split_cons hc ih, split_cons hc hfirst, List.cons_append]

theorem split_intercalate {names : List (List Char)} (hne : names ≠ [])
    (h : ∀ name ∈ names, '/' ∉ name) : split (['/'].intercalate names) = names := by
  induction names with
  | nil => exact absurd rfl hne
  | cons name names ih =>
    have hname := h name List.mem_cons_self
    cases names with
    | nil => simpa using split_of_notMem hname
    | cons next names =>
      have hrest := ih (by simp) fun n hn => h n (List.mem_cons_of_mem name hn)
      rw [List.intercalate_cons_cons, List.append_assoc, List.singleton_append, split_append,
        split_of_notMem hname, hrest, List.singleton_append]

/-- A path from the root has an empty part in front of its first slash. -/
theorem head?_segments_of_isAbsolute {p : Path} (h : p.isAbsolute = true) :
    p.segments.head? = some "" := by
  obtain ⟨cs, hcs⟩ := List.head?_eq_some_iff.mp (beq_iff_eq.mp h)
  rw [segments, hcs, split_slash]
  rfl

theorem isAbsolute_join {base : Path} (h : base.isAbsolute = true) (p : Path) :
    (base.join p).isAbsolute = true := by
  obtain ⟨cs, hcs⟩ := List.head?_eq_some_iff.mp (beq_iff_eq.mp h)
  unfold join
  split
  · assumption
  · split <;> simp [isAbsolute, hcs]

theorem isAbsolute_of_isName {name : String} (h : IsName name) :
    isAbsolute ⟨name⟩ = false := by
  rw [isAbsolute, beq_eq_false_iff_ne]
  intro hhead
  exact h.2.2.2 (List.mem_of_mem_head? hhead)

theorem segments_name {name : String} (h : IsName name) : segments ⟨name⟩ = [name] := by
  rw [segments, split_of_notMem h.2.2.2]
  simp

/-- Behind a slash at the end there is an empty part. -/
theorem segments_concat {p : Path} {cs : List Char} (h : p.text.toList = cs ++ ['/']) :
    p.segments = (split cs).map String.ofList ++ [""] := by
  rw [segments, h, split_append, List.map_append]
  rfl

/-- The parts of a joined path. The empty part behind a slash at the end of the first path is no
longer one. -/
theorem segments_join (p : Path) {q : Path} (hq : q.isAbsolute = false) :
    (p.join q).segments =
      (if p.text.toList.getLast? = some '/' then p.segments.dropLast else p.segments) ++
        q.segments := by
  rw [join, hq, if_neg Bool.false_ne_true]
  split
  · next hlast =>
    obtain ⟨cs, hcs⟩ := List.getLast?_eq_some_iff.mp hlast
    rw [segments_concat hcs, List.dropLast_concat, segments, String.toList_append, hcs,
      List.append_assoc, List.singleton_append, split_append, List.map_append, segments]
  · have hslash : "/".toList = ['/'] := rfl
    rw [segments, String.toList_append, String.toList_append, hslash, List.append_assoc,
      List.singleton_append, split_append, List.map_append, segments, segments]

/-- A name that is joined to a path becomes its last name. -/
theorem names_join (p : Path) {name : String} (h : IsName name) :
    (p.join ⟨name⟩).names = p.names ++ [name] := by
  have hname : [name].filter (fun s => decide (s ≠ "" ∧ s ≠ ".")) = [name] := by
    simp [h.1, h.2.1]
  rw [names, names, segments_join p (isAbsolute_of_isName h), segments_name h, List.filter_append,
    hname]
  split
  · next hlast =>
    -- the empty part names nothing
    obtain ⟨cs, hcs⟩ := List.getLast?_eq_some_iff.mp hlast
    rw [segments_concat hcs, List.dropLast_concat]
    simp
  · rfl

/-- A slash at the end of a path makes no difference to what is joined to it. -/
theorem join_empty_join (p : Path) {name : String} (h : IsName name) :
    (p.join ⟨""⟩).join ⟨name⟩ = p.join ⟨name⟩ := by
  have hempty : isAbsolute ⟨""⟩ = false := rfl
  have hslash : "/".toList = ['/'] := rfl
  simp only [join, hempty, isAbsolute_of_isName h, Bool.false_eq_true, ↓reduceIte]
  by_cases hlast : p.text.toList.getLast? = some '/'
  · simp [hlast]
  · simp [hlast, hslash]

/-- The path with names joined to it, one after the other. -/
def below (p : Path) (names : List String) : Path :=
  names.foldl (fun q name => q.join ⟨name⟩) p

theorem below_cons (p : Path) (name : String) (names : List String) :
    p.below (name :: names) = (p.join ⟨name⟩).below names := rfl

theorem names_below (p : Path) {names : List String} (h : ∀ n ∈ names, IsName n) :
    (p.below names).names = p.names ++ names := by
  induction names generalizing p with
  | nil => exact (List.append_nil _).symm
  | cons name names ih =>
    rw [below_cons, ih _ fun n hn => h n (List.mem_cons_of_mem name hn),
      names_join p (h name List.mem_cons_self), List.append_assoc, List.singleton_append]

end Path

namespace Location

theorem toList_path (l : Location) :
    l.path.text.toList = '/' :: ['/'].intercalate (l.map String.toList) := by
  have hslash : "/".toList = ['/'] := rfl
  rw [path, String.toList_append, String.toList_intercalate, hslash]
  rfl

theorem segments_path {l : Location} (hne : l ≠ []) (h : ∀ n ∈ l, IsName n) :
    l.path.segments = "" :: l := by
  have hplain : ∀ name ∈ l.map String.toList, '/' ∉ name := by
    intro name hname
    obtain ⟨n, hn, rfl⟩ := List.mem_map.mp hname
    exact (h n hn).2.2.2
  rw [Path.segments, toList_path, Path.split_slash,
    Path.split_intercalate (by simpa using hne) hplain]
  simp

theorem isAbsolute_path (l : Location) : l.path.isAbsolute = true := by
  rw [Path.isAbsolute, toList_path]
  rfl

theorem text_path_ne (l : Location) : l.path.text ≠ "" := by
  intro hempty
  have htext := toList_path l
  rw [hempty] at htext
  cases htext

/-- Only the path of the root ends with a slash. -/
theorem getLast?_path_ne {l : Location} (hne : l ≠ []) (h : ∀ n ∈ l, IsName n) :
    l.path.text.toList.getLast? ≠ some '/' := by
  intro hslash
  obtain ⟨cs, hcs⟩ := List.getLast?_eq_some_iff.mp hslash
  have hlast : some "" = l.getLast? := by
    rw [← List.getLast?_cons_of_ne_nil (x := "") hne, ← segments_path hne h,
      Path.segments_concat hcs, List.getLast?_concat]
  exact (h "" (List.mem_of_getLast? hlast.symm)).1 rfl

theorem segments_join {l : Location} (h : ∀ n ∈ l, IsName n) {p : Path}
    (hp : p.isAbsolute = false) : (l.path.join p).segments = "" :: (l ++ p.segments) := by
  rw [Path.segments_join l.path hp]
  by_cases hne : l = []
  · subst hne
    rfl
  · rw [if_neg (getLast?_path_ne hne h), segments_path hne h, List.cons_append]

theorem intercalate_concat {names : List (List Char)} (hne : names ≠ []) (name : List Char) :
    ['/'].intercalate (names ++ [name]) = ['/'].intercalate names ++ '/' :: name := by
  induction names with
  | nil => exact absurd rfl hne
  | cons first names ih =>
    by_cases hnames : names = []
    · simp [hnames]
    · rw [List.cons_append, List.intercalate_cons_of_ne_nil (by simp), ih hnames,
        List.intercalate_cons_of_ne_nil hnames]
      simp

theorem path_join {l : Location} (hl : ∀ n ∈ l, IsName n) {name : String} (hname : IsName name) :
    l.path.join ⟨name⟩ = path (l ++ [name]) := by
  rw [Path.join, Path.isAbsolute_of_isName hname, if_neg Bool.false_ne_true]
  by_cases hne : l = []
  · subst hne
    have hroot : (path []).text.toList.getLast? = some '/' := rfl
    rw [if_pos hroot, path, path]
    simp
  · have hslash : "/".toList = ['/'] := rfl
    rw [if_neg (getLast?_path_ne hne hl)]
    have htext : l.path.text ++ "/" ++ name = (path (l ++ [name])).text := by
      rw [← String.toList_inj, String.toList_append, String.toList_append, toList_path, toList_path,
        hslash, List.map_append, List.map_singleton, intercalate_concat (by simpa using hne)]
      simp
    rw [htext]

theorem below_path {l : Location} {names : List String} (h : ∀ n ∈ l ++ names, IsName n) :
    l.path.below names = path (l ++ names) := by
  induction names generalizing l with
  | nil =>
    rw [List.append_nil]
    rfl
  | cons name names ih =>
    have hl : ∀ n ∈ l, IsName n := fun n hn => h n (List.mem_append_left _ hn)
    have hname : IsName name := h name (by simp)
    rw [Path.below_cons, path_join hl hname, ih (by simpa using h)]
    simp

end Location

end FlexAudit
