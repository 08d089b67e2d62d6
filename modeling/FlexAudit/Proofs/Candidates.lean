import FlexAudit.Command
import FlexAudit.Proofs.FileTree.Resolve
import FlexAudit.Proofs.Text.Encoding

/-!
# Candidates

Which files a list of inputs stands for, and in which order. Proved here:

* `FileTree.candidatesBelow_gives`: a walk of a directory finds the regular files below it that have
  one of the extensions, each once and in the order of their names;
* `FileTree.candidatesBelow_false`: without descent it finds those of depth one;
* `FileTree.candidatesOf_cases`: an input stands for a file, for a directory, or for nothing;
* `candidates_exact`: the candidates of all inputs, and when there are none.
-/

namespace FlexAudit

/-- The names of a path as bytes. -/
def Path.nameBytes (p : Path) : List (List UInt8) :=
  p.names.map fun n => Utf8.encode n.toList

theorem Path.nameBytes_lt {p q : Path} (h : p.names < q.names) : p.nameBytes < q.nameBytes := by
  refine List.map_lt (fun m n hmn => ?_) h
  rw [Utf8.encode_lt_encode_iff]
  exact String.lt_iff.mp hmn

namespace FileTree

variable (t : FileTree)

/-! ## One input -/

/-- What a directory gives whose path is `root`: its files with one of the extensions, those below
it at any depth or those in it alone, each once and in the order of their names. -/
structure Gives (t : FileTree) (extensions : List String) (recursive : Bool) (d : Location)
    (root : Path) (paths : List Path) : Prop where
  mem_iff : ∀ p, p ∈ paths ↔ ∃ names, p = root.below names ∧ t.Below d names ∧
    t.HoldsFile (d ++ names) ∧ p.hasExtension extensions = true ∧
    (recursive = false → names.length = 1)
  once : paths.Nodup
  ordered : paths.Pairwise fun p q => p.nameBytes < q.nameBytes

theorem mem_candidatesBelow_iff (extensions : List String) (recursive : Bool) (d : Location)
    (root p : Path) :
    p ∈ t.candidatesBelow extensions recursive d root ↔ ∃ names, p = root.below names ∧
      t.Below d names ∧ t.HoldsFile (d ++ names) ∧ p.hasExtension extensions = true ∧
      (recursive = false → names.length = 1) := by
  -- names that lead down are at least one
  have hlimit {names : List String} (hbelow : t.Below d names) :
      (∀ n ∈ (if recursive then none else some 1), names.length ≤ n) ↔
        (recursive = false → names.length = 1) := by
    have hpos := List.length_pos_iff.mpr hbelow.ne_nil
    cases recursive with
    | true => simp
    | false =>
      simp only [Bool.false_eq_true, ↓reduceIte, Option.mem_some_iff, forall_eq', forall_const]
      omega
  simp only [candidatesBelow, List.mem_map, List.mem_filter, Bool.and_eq_true]
  constructor
  · rintro ⟨v, ⟨hv, hfile, hextension⟩, rfl⟩
    obtain ⟨names, hbelow, hentry, hpath, hdepth⟩ := (t.mem_walk_iff ..).mp hv
    have hholds := (t.holdsFile_iff (d ++ names)).mpr ⟨v.entry, hentry, hfile⟩
    exact ⟨names, hpath, hbelow, hholds, hextension, (hlimit hbelow).mp hdepth⟩
  · rintro ⟨names, rfl, hbelow, hholds, hextension, hdepth⟩
    obtain ⟨e, hentry, hfile⟩ := (t.holdsFile_iff (d ++ names)).mp hholds
    refine ⟨⟨root.below names, e⟩, ⟨?_, hfile, hextension⟩, rfl⟩
    exact (t.mem_walk_iff ..).mpr ⟨names, hbelow, hentry, rfl, (hlimit hbelow).mpr hdepth⟩

theorem candidatesBelow_gives {t : FileTree} (ht : t.Named) (extensions : List String)
    (recursive : Bool) (d : Location) (root : Path) :
    t.Gives extensions recursive d root (t.candidatesBelow extensions recursive d root) := by
  have hordered : (t.candidatesBelow extensions recursive d root).Pairwise
      fun p q => p.nameBytes < q.nameBytes := by
    refine List.pairwise_map.mpr (List.Pairwise.filter _ ?_)
    exact (ht.pairwise_walk _ d root).imp Path.nameBytes_lt
  refine ⟨t.mem_candidatesBelow_iff extensions recursive d root, ?_, hordered⟩
  refine List.Pairwise.imp (fun {p q} hlt heq => ?_) hordered
  exact List.lt_irrefl _ (heq ▸ hlt)

/-- Without descent a directory gives those of its candidates that lie in it directly. -/
theorem candidatesBelow_false {t : FileTree} (ht : t.Named) (extensions : List String)
    (d : Location) (root : Path) : t.candidatesBelow extensions false d root =
      (t.candidatesBelow extensions true d root).filter
        fun p => p.names.length == root.names.length + 1 := by
  have hdepth : t.walk (some 1) d root =
      (t.walk none d root).filter fun v => v.path.names.length == root.names.length + 1 := by
    rw [ht.walk_limit]
    refine List.filter_congr fun v hv => ?_
    obtain ⟨names, hne, hnames⟩ := ht.names_of_mem_walk hv
    have hpos := List.length_pos_iff.mpr hne
    rw [hnames, List.length_append, Bool.eq_iff_iff, decide_eq_true_eq, beq_iff_eq]
    omega
  simp only [candidatesBelow, Bool.false_eq_true, ↓reduceIte]
  rw [hdepth, List.filter_comm, List.filter_map]
  rfl

/-- Whether neither a file nor a directory is at the path. -/
def isMissing (cwd : Location) (p : Path) : Bool :=
  !t.isFile cwd p && !t.isDir cwd p

/-- What an input stands for: a file for itself, a directory for what it gives. -/
def Stands (cwd : Location) (extensions : List String) (recursive : Bool) (input : String)
    (paths : List Path) : Prop :=
  (t.isFile cwd (t.canonicalOr cwd ⟨input⟩) = true ∧ paths = [t.canonicalOr cwd ⟨input⟩]) ∨
    ∃ d, t.locate cwd (t.canonicalOr cwd ⟨input⟩) = .ok d ∧ t.lookup d = some .directory ∧
      t.Gives extensions recursive d (t.canonicalOr cwd ⟨input⟩) paths

theorem locate_of_isDir {t : FileTree} {cwd : Location} {p : Path} (h : t.isDir cwd p = true) :
    ∃ d, t.locate cwd p = .ok d ∧ t.lookup d = some .directory := by
  unfold isDir find? at h
  cases hlocate : t.locate cwd p with
  | error e => simp [hlocate] at h
  | ok d => exact ⟨d, rfl, by simpa [hlocate] using h⟩

/-- What `candidatesOf` can come to. -/
theorem candidatesOf_cases (cwd : Location) (extensions : List String) (recursive : Bool)
    (input : String) :
    (t.isFile cwd (t.canonicalOr cwd ⟨input⟩) = true ∧
      t.candidatesOf cwd extensions recursive input = .ok [t.canonicalOr cwd ⟨input⟩]) ∨
    (∃ d, t.locate cwd (t.canonicalOr cwd ⟨input⟩) = .ok d ∧ t.lookup d = some .directory ∧
      t.candidatesOf cwd extensions recursive input =
        .ok (t.candidatesBelow extensions recursive d (t.canonicalOr cwd ⟨input⟩))) ∨
    (t.isMissing cwd (t.canonicalOr cwd ⟨input⟩) = true ∧
      t.candidatesOf cwd extensions recursive input = .error (t.canonicalOr cwd ⟨input⟩)) := by
  unfold candidatesOf
  cases hfile : t.isFile cwd (t.canonicalOr cwd ⟨input⟩) with
  | true => exact .inl ⟨rfl, by simp [hfile]⟩
  | false =>
    cases hdir : t.isDir cwd (t.canonicalOr cwd ⟨input⟩) with
    | false => exact .inr (.inr ⟨by simp [isMissing, hfile, hdir], by simp [hfile, hdir]⟩)
    | true =>
      obtain ⟨d, hlocate, hlookup⟩ := locate_of_isDir hdir
      refine .inr (.inl ⟨d, hlocate, hlookup, ?_⟩)
      simp [hfile, hdir, hlocate]

theorem isDir_of_locate {t : FileTree} {cwd : Location} {p : Path} {d : Location}
    (hlocate : t.locate cwd p = .ok d) (hlookup : t.lookup d = some .directory) :
    t.isDir cwd p = true := by
  simp [isDir, find?, hlocate, hlookup]

theorem candidatesOf_of_locate {t : FileTree} {cwd : Location} {input : String} {d : Location}
    (hlocate : t.locate cwd (t.canonicalOr cwd ⟨input⟩) = .ok d)
    (hlookup : t.lookup d = some .directory) (extensions : List String) (recursive : Bool) :
    t.candidatesOf cwd extensions recursive input =
      .ok (t.candidatesBelow extensions recursive d (t.canonicalOr cwd ⟨input⟩)) := by
  simp [candidatesOf, isFile, isDir, find?, hlocate, hlookup]

/-! ## All inputs -/

section Inputs

variable (cwd : Location) (extensions : List String) (recursive : Bool)

theorem candidates_nil : t.candidates cwd extensions recursive [] = .ok [] := rfl

theorem candidates_cons (input : String) (inputs : List String) :
    t.candidates cwd extensions recursive (input :: inputs) =
      match t.candidatesOf cwd extensions recursive input with
      | .error p => .error p
      | .ok paths => (t.candidates cwd extensions recursive inputs).map (paths ++ ·) := by
  unfold candidates
  rw [List.mapM_cons]
  cases t.candidatesOf cwd extensions recursive input with
  | error p => rfl
  | ok paths =>
    cases inputs.mapM (t.candidatesOf cwd extensions recursive) with
    | error p => rfl
    | ok parts => rfl

theorem candidates_singleton (input : String) :
    t.candidates cwd extensions recursive [input] =
      t.candidatesOf cwd extensions recursive input := by
  rw [candidates_cons, candidates_nil]
  cases t.candidatesOf cwd extensions recursive input <;> simp [Except.map]

/-- The collection fails at the first input that leads to nothing. -/
theorem candidates_error_iff (inputs : List String) (p : Path) :
    t.candidates cwd extensions recursive inputs = .error p ↔
      (inputs.map fun i => t.canonicalOr cwd ⟨i⟩).find? (t.isMissing cwd) = some p := by
  induction inputs with
  | nil => simp [candidates_nil]
  | cons input inputs ih =>
    have hpass {paths : List Path} (hok : t.candidatesOf cwd extensions recursive input = .ok paths)
        (hthere : t.isMissing cwd (t.canonicalOr cwd ⟨input⟩) = false) :
        t.candidates cwd extensions recursive (input :: inputs) = .error p ↔
          ((input :: inputs).map fun i => t.canonicalOr cwd ⟨i⟩).find? (t.isMissing cwd) =
            some p := by
      rw [candidates_cons, hok, List.map_cons, List.find?_cons_of_neg (by simp [hthere]), ← ih]
      cases t.candidates cwd extensions recursive inputs <;> simp [Except.map]
    obtain ⟨hfile, hok⟩ | ⟨d, hlocate, hlookup, hok⟩ | ⟨hmissing, herror⟩ :=
      t.candidatesOf_cases cwd extensions recursive input
    · exact hpass hok (by simp [isMissing, hfile])
    · exact hpass hok (by simp [isMissing, isDir_of_locate hlocate hlookup])
    · rw [candidates_cons, herror, List.map_cons, List.find?_cons_of_pos hmissing]
      simp

/-- What the inputs stand for, one after the other. -/
theorem candidates_stands {t : FileTree} (ht : t.Named) {inputs : List String} {paths : List Path}
    (h : t.candidates cwd extensions recursive inputs = .ok paths) :
    ∃ parts, List.Forall₂ (t.Stands cwd extensions recursive) inputs parts ∧
      paths = parts.flatten := by
  induction inputs generalizing paths with
  | nil =>
    rw [candidates_nil] at h
    cases h
    exact ⟨[], .nil, rfl⟩
  | cons input inputs ih =>
    rw [candidates_cons] at h
    have hcons {front : List Path} (hstands : t.Stands cwd extensions recursive input front)
        (hmap : (t.candidates cwd extensions recursive inputs).map (front ++ ·) = .ok paths) :
        ∃ parts, List.Forall₂ (t.Stands cwd extensions recursive) (input :: inputs) parts ∧
          paths = parts.flatten := by
      cases hrest : t.candidates cwd extensions recursive inputs with
      | error p =>
        rw [hrest] at hmap
        cases hmap
      | ok rest =>
        rw [hrest] at hmap
        cases hmap
        obtain ⟨parts, hparts, rfl⟩ := ih hrest
        exact ⟨front :: parts, .cons hstands hparts, by simp⟩
    obtain ⟨hfile, hok⟩ | ⟨d, hlocate, hlookup, hok⟩ | ⟨-, herror⟩ :=
      t.candidatesOf_cases cwd extensions recursive input
    · rw [hok] at h
      exact hcons (.inl ⟨hfile, rfl⟩) h
    · rw [hok] at h
      have hgives := candidatesBelow_gives ht extensions recursive d (t.canonicalOr cwd ⟨input⟩)
      exact hcons (.inr ⟨d, hlocate, hlookup, hgives⟩) h
    · rw [herror] at h
      cases h

end Inputs

end FileTree

/-- **Candidates.** In a tree whose names are names, the inputs fail at the first one that leads
neither to a file nor to a directory, and the message names its path. Else each input stands for
itself, if it is a file, or for the files of the directory, and they follow one another in the
order of the inputs. Without descent, a directory gives the part of depth one of what it gives with
descent. -/
theorem candidates_exact (t : FileTree) (ht : t.Named) (cwd : Location) (extensions : List String)
    (recursive : Bool) (inputs : List String) :
    ((∃ p, t.candidates cwd extensions recursive inputs = .error p) ↔
      ∃ input ∈ inputs, t.isFile cwd (t.canonicalOr cwd ⟨input⟩) = false ∧
        t.isDir cwd (t.canonicalOr cwd ⟨input⟩) = false) ∧
    (∀ p, t.candidates cwd extensions recursive inputs = .error p →
      (inputs.map fun i => t.canonicalOr cwd ⟨i⟩).find? (t.isMissing cwd) = some p ∧
      (CommandError.missingInput p).message = "Input does not exist: " ++ p.text) ∧
    (∀ paths, t.candidates cwd extensions recursive inputs = .ok paths →
      ∃ parts, List.Forall₂ (t.Stands cwd extensions recursive) inputs parts ∧
        paths = parts.flatten) ∧
    (∀ input d, t.locate cwd (t.canonicalOr cwd ⟨input⟩) = .ok d → t.lookup d = some .directory →
      ∃ shallow deep, t.candidates cwd extensions false [input] = .ok shallow ∧
        t.candidates cwd extensions true [input] = .ok deep ∧
        shallow = deep.filter
          fun p => p.names.length == (t.canonicalOr cwd ⟨input⟩).names.length + 1) := by
  refine ⟨?_, ?_, ?_, ?_⟩
  · simp only [FileTree.candidates_error_iff, ← Option.isSome_iff_exists, List.find?_isSome]
    simp [FileTree.isMissing]
  · intro p hp
    exact ⟨(t.candidates_error_iff cwd extensions recursive inputs p).mp hp, rfl⟩
  · exact fun paths hpaths => FileTree.candidates_stands cwd extensions recursive ht hpaths
  · intro input d hlocate hlookup
    have hbelow (recursive : Bool) : t.candidates cwd extensions recursive [input] =
        .ok (t.candidatesBelow extensions recursive d (t.canonicalOr cwd ⟨input⟩)) := by
      rw [FileTree.candidates_singleton, FileTree.candidatesOf_of_locate hlocate hlookup]
    exact ⟨_, _, hbelow false, hbelow true, FileTree.candidatesBelow_false ht extensions d _⟩

/-- A directory in front of a file whose name begins with its name, and a link and a directory that
are called like candidates. -/
def FileTree.neighbours : FileTree where
  entries := [(["b.swf"], .file [] false), (["b"], .directory), (["b", "x.swf"], .file [] false),
    (["l.swf"], .link "b.swf"), (["d.swf"], .directory)]
  nodup := by simp

theorem FileTree.walk_neighbours : neighbours.walk none [] ⟨"/"⟩ =
    [⟨⟨"/b"⟩, .directory⟩, ⟨⟨"/b/x.swf"⟩, .file [] false⟩, ⟨⟨"/b.swf"⟩, .file [] false⟩,
      ⟨⟨"/d.swf"⟩, .directory⟩, ⟨⟨"/l.swf"⟩, .link "b.swf"⟩] := by
  have hstep (d : Location) (p : Path) :
      neighbours.walk none d p = (neighbours.children d).flatMap (neighbours.walkChild none d p) :=
    neighbours.walk_of_ne (by simp) d p
  have htop : neighbours.children [] = [("b", .directory), ("b.swf", .file [] false),
      ("d.swf", .directory), ("l.swf", .link "b.swf")] := by
    refine children_eq (by decide +kernel) fun name e => ?_
    simp only [neighbours, List.nil_append, List.mem_cons, Prod.mk.injEq, List.cons.injEq,
      List.not_mem_nil]
    grind
  have hinner : neighbours.children ["b"] = [("x.swf", .file [] false)] :=
    children_eq (by decide +kernel) fun name e => by simp [neighbours]
  have hempty : neighbours.children ["d.swf"] = [] :=
    children_eq (by decide +kernel) fun name e => by simp [neighbours]
  have hb : neighbours.walk none ["b"] ⟨"/b"⟩ = [⟨⟨"/b/x.swf"⟩, .file [] false⟩] := by
    rw [hstep, hinner]
    rfl
  have hd : neighbours.walk none ["d.swf"] ⟨"/d.swf"⟩ = [] := by
    rw [hstep, hempty]
    rfl
  rw [hstep, htop]
  change ⟨⟨"/b"⟩, .directory⟩ :: neighbours.walk none ["b"] ⟨"/b"⟩ ++
    (⟨⟨"/b.swf"⟩, .file [] false⟩ :: ⟨⟨"/d.swf"⟩, .directory⟩ ::
      neighbours.walk none ["d.swf"] ⟨"/d.swf"⟩ ++ [⟨⟨"/l.swf"⟩, .link "b.swf"⟩]) = _
  rw [hb, hd]
  rfl

/-- The two lists of the root of this tree, and a second input that leads to nothing. -/
theorem candidates_exact_neighbours :
    let t := FileTree.neighbours
    t.Named ∧ t.locate [] (t.canonicalOr [] ⟨"."⟩) = .ok [] ∧
    t.candidates [] ["swf"] true ["."] = .ok [⟨"/b/x.swf"⟩, ⟨"/b.swf"⟩] ∧
    t.candidates [] ["swf"] false ["."] = .ok [⟨"/b.swf"⟩] ∧
    (∃ parts, List.Forall₂ (t.Stands [] ["swf"] true) ["."] parts ∧
      [⟨"/b/x.swf"⟩, ⟨"/b.swf"⟩] = parts.flatten) ∧
    t.candidates [] ["swf"] true [".", "no"] = .error ⟨"/no"⟩ := by
  intro t
  have hnamed : t.Named := by decide
  have hroot : t.canonicalOr [] ⟨"."⟩ = ⟨"/"⟩ := by decide +kernel
  have hlocate : t.locate [] (t.canonicalOr [] ⟨"."⟩) = .ok [] := by cbv
  have hdeep : t.candidates [] ["swf"] true ["."] = .ok [⟨"/b/x.swf"⟩, ⟨"/b.swf"⟩] := by
    have hfound : t.candidatesBelow ["swf"] true [] ⟨"/"⟩ = [⟨"/b/x.swf"⟩, ⟨"/b.swf"⟩] := by
      rw [FileTree.candidatesBelow, if_pos rfl, FileTree.walk_neighbours]
      decide +kernel
    rw [FileTree.candidates_singleton, FileTree.candidatesOf_of_locate hlocate rfl, hroot, hfound]
  obtain ⟨-, -, hstands, hdepth⟩ := candidates_exact t hnamed [] ["swf"] true ["."]
  obtain ⟨shallow, deep, hshallow, hdeep', hfilter⟩ := hdepth "." [] hlocate rfl
  obtain rfl : [⟨"/b/x.swf"⟩, ⟨"/b.swf"⟩] = deep := Except.ok.inj (hdeep.symm.trans hdeep')
  have hone : shallow = [⟨"/b.swf"⟩] := by
    rw [hfilter, hroot]
    decide +kernel
  have hthere : t.isMissing [] ⟨"/"⟩ = false := by cbv
  have hno : t.canonicalOr [] ⟨"no"⟩ = ⟨"/no"⟩ := by
    have hlocate : t.locate [] ⟨"no"⟩ = .error .notFound :=
      FileTree.locate_of_absent (FileTree.resolve_missing rfl (by decide) rfl)
    rw [FileTree.canonicalOr, if_neg (by decide), hlocate]
    decide
  have hmissing : t.isMissing [] ⟨"/no"⟩ = true := by
    have hresolve : t.resolve [] ⟨"/no"⟩ = .ok (.absent [] "no") := by
      have hstep : FileTree.IsStep "no" := FileTree.isStep_of_isName (by decide)
      exact FileTree.resolve_eq_ok_iff.mpr
        ⟨by decide, .stay rfl (.inl rfl) (.missing rfl hstep rfl)⟩
    simp [FileTree.isMissing, FileTree.isFile, FileTree.isDir, FileTree.find?,
      FileTree.locate_of_absent hresolve]
  obtain ⟨hfails, hfirst, -⟩ := candidates_exact t hnamed [] ["swf"] true [".", "no"]
  obtain ⟨p, hp⟩ := hfails.mpr ⟨"no", by simp, by simpa [hno, FileTree.isMissing] using hmissing⟩
  have hfirst : p = ⟨"/no"⟩ := by
    simpa [hroot, hno, hmissing, hthere, eq_comm] using (hfirst p hp).1
  exact ⟨hnamed, hlocate, hdeep, hone ▸ hshallow, hstands _ hdeep, hfirst ▸ hp⟩

end FlexAudit
