import FlexAudit.Proofs.Candidates
import Mathlib.Data.List.Induction

/-!
# Canonical paths

In a tree whose entries all lie in directories, a location has one path that follows no link, and
whatever leads to the location is replaced by this path. Proved here:

* `WellFormed.follow_location`: the names of a location lead to it, whatever is behind them;
* `WellFormed.locate_path`: the path of a location leads to it;
* `WellFormed.canonicalOr_of_locate`, `WellFormed.canonicalOr_cases`: the canonical form of an
  input, and what an input without one can lead to;
* `candidates_canonical`: the candidates depend on where the inputs lead and not on how they are
  spelled, and each of them is in canonical form.
-/

namespace FlexAudit

namespace FileTree

/-- Every entry lies in a directory. -/
def Rooted (t : FileTree) : Prop :=
  ∀ e ∈ t.entries, t.isDirectory e.1.dropLast = true

instance (t : FileTree) : Decidable t.Rooted :=
  inferInstanceAs (Decidable (∀ e ∈ t.entries, t.isDirectory e.1.dropLast = true))

/-- A tree as a system keeps it, with a working directory in it. -/
structure WellFormed (t : FileTree) (cwd : Location) : Prop where
  named : t.Named
  rooted : t.Rooted
  cwd : t.lookup cwd = some .directory

/-- A path that is the path of the location it leads to. -/
def IsCanonical (t : FileTree) (cwd : Location) (p : Path) : Prop :=
  (t.locate cwd p).map Location.path = .ok p

/-- The candidates that a location stands for. -/
def candidatesAt (t : FileTree) (extensions : List String) (recursive : Bool) (l : Location) :
    List Path :=
  if t.isDirectory l then t.candidatesBelow extensions recursive l l.path else [l.path]

theorem isFile_iff {t : FileTree} {cwd : Location} {p : Path} :
    t.isFile cwd p = true ↔ ∃ l, t.locate cwd p = .ok l ∧ t.HoldsFile l := by
  unfold isFile find? HoldsFile
  cases t.locate cwd p with
  | error e => simp
  | ok l =>
    cases hlookup : t.lookup l with
    | none => simp [hlookup]
    | some e =>
      cases e with
      | file content executable =>
        exact iff_of_true (by simp [hlookup]) ⟨l, rfl, content, executable, hlookup⟩
      | directory | link => simp [hlookup]

/-- Slashes and dots alone lead nowhere else. -/
theorem leads_blank {t : FileTree} {l : Location} (hl : t.isDirectory l = true) (n : Nat)
    {parts : List String} (h : ∀ part ∈ parts, part = "" ∨ part = ".") :
    t.Leads false n l parts (.existing l) := by
  induction parts with
  | nil => exact .here
  | cons part parts ih =>
    refine .stay hl (h part List.mem_cons_self) (ih ?_)
    intro part hpart
    exact h part (List.mem_cons_of_mem _ hpart)

namespace WellFormed

variable {t : FileTree} {cwd l : Location} {p : Path} {e : Entry}

/-! ## Locations -/

theorem isDirectory_of_lookup (ht : t.WellFormed cwd) {name : String}
    (h : t.lookup (l ++ [name]) = some e) : t.isDirectory l = true := by
  have hentry := (t.mem_entries_iff (by simp) e).mpr h
  simpa using ht.rooted _ hentry

theorem isDirectory_of_prefix (ht : t.WellFormed cwd) {x : Location}
    (hl : t.isDirectory l = true) (hx : x <+: l) : t.isDirectory x = true := by
  obtain ⟨names, rfl⟩ := hx
  induction names using List.reverseRecOn with
  | nil => simpa using hl
  | append_singleton names name ih =>
    rw [← List.append_assoc, isDirectory_iff] at hl
    exact ih (ht.isDirectory_of_lookup hl)

/-- The names of a location lead to it, whatever is behind them. -/
theorem follow_location (ht : t.WellFormed cwd) (h : t.lookup l = some e)
    (hlink : e.isLink = false) (n : Nat) (parts : List String) :
    t.follow false n [] (l ++ parts) = t.follow false n l parts := by
  induction l using List.reverseRecOn generalizing e parts with
  | nil => rfl
  | append_singleton l name ih =>
    have hl := ht.isDirectory_of_lookup h
    have hname := ht.named.isName_of_lookup h name (by simp)
    rw [List.append_assoc, ih ((t.isDirectory_iff l).mp hl) rfl]
    exact follow_enter hl (isStep_of_isName hname) rfl h hlink

theorem locate_path (ht : t.WellFormed cwd) (h : t.lookup l = some e) (hlink : e.isLink = false)
    (d : Location) : t.locate d l.path = .ok l := by
  have hstart : l.path.start d = [] := if_pos l.isAbsolute_path
  refine locate_eq_ok_iff.mpr ⟨l.text_path_ne, ?_⟩
  rw [hstart, ← follow_eq_ok_iff]
  by_cases hne : l = []
  · subst hne
    have hsegments : (Location.path []).segments = ["", ""] := rfl
    rw [hsegments, follow_stay rfl (.inl rfl), follow_stay rfl (.inl rfl), follow_nil]
  · rw [Location.segments_path hne (ht.named.isName_of_lookup h), follow_stay rfl (.inl rfl),
      ← List.append_nil l, ht.follow_location h hlink, follow_nil, List.append_nil]

/-- What exists is a file or a directory. -/
theorem lookup_of_locate (ht : t.WellFormed cwd) (h : t.locate cwd p = .ok l) :
    ∃ e, t.lookup l = some e ∧ e.isLink = false := by
  have hleads := (locate_eq_ok_iff.mp h).2
  rcases hleads.existing_cases with hl | hl
  · exact hl
  · have hcwd := (t.isDirectory_iff cwd).mpr ht.cwd
    have hdir := ht.isDirectory_of_prefix hcwd (hl.trans (Path.start_prefix p cwd))
    exact ⟨.directory, (t.isDirectory_iff l).mp hdir, rfl⟩

/-! ## Canonical forms -/

theorem locate_of_isCurrent (ht : t.WellFormed cwd) (h : p.isCurrent = true) :
    t.locate cwd p = .ok cwd := by
  obtain ⟨hhead, hnames⟩ : p.segments.head? = some "." ∧
      ∀ part ∈ p.segments, part = "" ∨ part = "." := by
    simpa [Path.isCurrent, Path.names, or_iff_not_imp_left] using h
  have htext : p.text ≠ "" := by
    intro hempty
    simp [Path.segments, hempty, Path.split] at hhead
  have hstart : p.start cwd = cwd := by
    refine if_neg fun habsolute => ?_
    simp [Path.head?_segments_of_isAbsolute habsolute] at hhead
  refine locate_eq_ok_iff.mpr ⟨htext, ?_⟩
  rw [hstart]
  exact leads_blank ((t.isDirectory_iff cwd).mpr ht.cwd) maxLinks hnames

/-- Whatever leads to a location has the path of the location as its canonical form. -/
theorem canonicalOr_of_locate (ht : t.WellFormed cwd) (h : t.locate cwd p = .ok l) :
    t.canonicalOr cwd p = l.path := by
  unfold canonicalOr
  split
  · next hcurrent =>
    rw [ht.locate_of_isCurrent hcurrent] at h
    cases h
    rfl
  · rw [h]

/-- Below the working directory a path leads where it leads in it. -/
theorem locate_join_iff (ht : t.WellFormed cwd) (hp : p.isAbsolute = false) :
    t.locate cwd (cwd.path.join p) = .ok l ↔
      t.Leads false maxLinks cwd p.segments (.existing l) := by
  have hsegments := Location.segments_join (ht.named.isName_of_lookup ht.cwd) hp
  have habsolute : (cwd.path.join p).isAbsolute = true :=
    Path.isAbsolute_join cwd.isAbsolute_path p
  have htext : (cwd.path.join p).text ≠ "" := by
    intro hempty
    simp [Path.isAbsolute, hempty] at habsolute
  have hstart : (cwd.path.join p).start cwd = [] := if_pos habsolute
  rw [locate_eq_ok_iff, and_iff_right htext, hstart, hsegments, ← follow_eq_ok_iff,
    ← follow_eq_ok_iff, follow_stay rfl (.inl rfl), ht.follow_location ht.cwd rfl]

theorem locate_join_empty (ht : t.WellFormed cwd) (hp : p.text = "") :
    t.locate cwd (cwd.path.join p) = .ok cwd := by
  have hrelative : p.isAbsolute = false := by simp [Path.isAbsolute, hp]
  have hsegments : p.segments = [""] := by simp [Path.segments, hp, Path.split]
  rw [ht.locate_join_iff hrelative, hsegments]
  exact .stay ((t.isDirectory_iff cwd).mpr ht.cwd) (.inl rfl) .here

theorem locate_of_join (ht : t.WellFormed cwd) (hp : p.text ≠ "")
    (h : t.locate cwd (cwd.path.join p) = .ok l) : t.locate cwd p = .ok l := by
  cases habsolute : p.isAbsolute with
  | true => rwa [Path.join, if_pos habsolute] at h
  | false =>
    have hstart : p.start cwd = cwd := if_neg (by simp [habsolute])
    refine locate_eq_ok_iff.mpr ⟨hp, ?_⟩
    rw [hstart]
    exact (ht.locate_join_iff habsolute).mp h

/-- A canonical form that leads somewhere is the path of the place. The empty input alone, which
leads nowhere itself, is the working directory with a slash at the end. -/
theorem canonicalOr_cases (ht : t.WellFormed cwd)
    (h : t.locate cwd (t.canonicalOr cwd p) = .ok l) :
    t.canonicalOr cwd p = l.path ∨ l = cwd ∧ t.canonicalOr cwd p = cwd.path.join ⟨""⟩ := by
  cases hlocate : t.locate cwd p with
  | ok x =>
    have hcanonical := ht.canonicalOr_of_locate hlocate
    obtain ⟨e, hentry, hlink⟩ := ht.lookup_of_locate hlocate
    rw [hcanonical, ht.locate_path hentry hlink] at h
    cases h
    exact .inl hcanonical
  | error err =>
    have hcurrent : p.isCurrent ≠ true := by
      intro hcurrent
      rw [ht.locate_of_isCurrent hcurrent] at hlocate
      cases hlocate
    have hjoin : t.canonicalOr cwd p = cwd.path.join p := by
      simp only [canonicalOr, if_neg hcurrent, hlocate]
    rw [hjoin] at h
    by_cases htext : p.text = ""
    · rw [ht.locate_join_empty htext] at h
      cases h
      exact .inr ⟨rfl, hjoin.trans (congrArg cwd.path.join (congrArg Path.mk htext))⟩
    · rw [ht.locate_of_join htext h] at hlocate
      cases hlocate

/-- An input that leads nowhere does not become a file below the working directory. -/
theorem holdsFile_canonicalOr (ht : t.WellFormed cwd)
    (h : t.isFile cwd (t.canonicalOr cwd p) = true) :
    ∃ l, t.canonicalOr cwd p = l.path ∧ t.HoldsFile l := by
  obtain ⟨l, hlocate, content, executable, hfile⟩ := isFile_iff.mp h
  rcases ht.canonicalOr_cases hlocate with hcanonical | ⟨rfl, -⟩
  · exact ⟨l, hcanonical, content, executable, hfile⟩
  · rw [ht.cwd] at hfile
    cases hfile

/-- Names below a canonical form give the path of the place they lead to. -/
theorem below_canonicalOr (ht : t.WellFormed cwd)
    (h : t.locate cwd (t.canonicalOr cwd p) = .ok l) {names : List String} (hne : names ≠ [])
    (hnames : ∀ n ∈ l ++ names, IsName n) :
    (t.canonicalOr cwd p).below names = Location.path (l ++ names) := by
  rcases ht.canonicalOr_cases h with hcanonical | ⟨rfl, hcanonical⟩
  · rw [hcanonical, Location.below_path hnames]
  · obtain ⟨name, names, rfl⟩ := List.exists_cons_of_ne_nil hne
    rw [hcanonical, Path.below_cons, Path.join_empty_join _ (hnames name (by simp)),
      ← Path.below_cons, Location.below_path hnames]

theorem isCanonical_path (ht : t.WellFormed cwd) (h : t.HoldsFile l) :
    t.isFile cwd l.path = true ∧ t.IsCanonical cwd l.path := by
  obtain ⟨content, executable, hfile⟩ := h
  have hlocate := ht.locate_path hfile rfl cwd
  refine ⟨isFile_iff.mpr ⟨l, hlocate, content, executable, hfile⟩, ?_⟩
  rw [IsCanonical, hlocate]
  rfl

/-! ## Candidates -/

theorem candidatesOf_eq (ht : t.WellFormed cwd) {input : String}
    (h : t.locate cwd ⟨input⟩ = .ok l) (extensions : List String) (recursive : Bool) :
    t.candidatesOf cwd extensions recursive input =
      .ok (t.candidatesAt extensions recursive l) := by
  obtain ⟨e, hentry, hlink⟩ := ht.lookup_of_locate h
  have hcanonical := ht.canonicalOr_of_locate h
  have hlocate := ht.locate_path hentry hlink cwd
  rw [← hcanonical] at hlocate
  cases e with
  | directory =>
    rw [candidatesAt, if_pos ((t.isDirectory_iff l).mpr hentry)]
    rw [candidatesOf_of_locate hlocate hentry, hcanonical]
  | file content executable =>
    have hfile := isFile_iff.mpr ⟨l, hlocate, content, executable, hentry⟩
    rw [candidatesAt, if_neg (by simp [isDirectory_iff, hentry]), candidatesOf, if_pos hfile,
      hcanonical]
  | link target => cases hlink

theorem holdsFile_of_stands (ht : t.WellFormed cwd) {extensions : List String} {recursive : Bool}
    {input : String} {paths : List Path}
    (h : t.Stands cwd extensions recursive input paths) (hp : p ∈ paths) :
    ∃ l, p = l.path ∧ t.HoldsFile l := by
  obtain ⟨hfile, rfl⟩ | ⟨d, hlocate, -, hgives⟩ := h
  · rw [List.mem_singleton] at hp
    rw [hp]
    exact ht.holdsFile_canonicalOr hfile
  · obtain ⟨names, rfl, hbelow, ⟨content, executable, hfile⟩, -, -⟩ := (hgives.mem_iff p).mp hp
    have hnames := ht.named.isName_of_lookup hfile
    have hpath := ht.below_canonicalOr hlocate hbelow.ne_nil hnames
    exact ⟨d ++ names, hpath, content, executable, hfile⟩

theorem holdsFile_of_mem_candidates (ht : t.WellFormed cwd) {extensions : List String}
    {recursive : Bool} {inputs : List String} {paths : List Path}
    (h : t.candidates cwd extensions recursive inputs = .ok paths) (hp : p ∈ paths) :
    ∃ l, p = l.path ∧ t.HoldsFile l := by
  obtain ⟨parts, hparts, rfl⟩ := candidates_stands cwd extensions recursive ht.named h
  clear h
  induction hparts with
  | nil => simp at hp
  | cons hstands _ ih =>
    rw [List.flatten_cons, List.mem_append] at hp
    exact hp.elim (ht.holdsFile_of_stands hstands) ih

end WellFormed

end FileTree

/-- **Spelling.** In a tree as a system keeps it, two inputs that lead to the same place stand for
the same candidates, alone and among other inputs. Every candidate is an absolute path of a regular
file, in its canonical form. -/
theorem candidates_canonical (t : FileTree) (cwd : Location) (ht : t.WellFormed cwd)
    (extensions : List String) (recursive : Bool) :
    (∀ a b l, t.locate cwd ⟨a⟩ = .ok l → t.locate cwd ⟨b⟩ = .ok l →
      (∃ paths, t.candidates cwd extensions recursive [a] = .ok paths ∧
        t.candidates cwd extensions recursive [b] = .ok paths) ∧
      ∀ before after, t.candidates cwd extensions recursive (before ++ a :: after) =
        t.candidates cwd extensions recursive (before ++ b :: after)) ∧
    ∀ inputs paths, t.candidates cwd extensions recursive inputs = .ok paths →
      ∀ p ∈ paths, p.isAbsolute = true ∧ t.isFile cwd p = true ∧ t.IsCanonical cwd p := by
  refine ⟨?_, ?_⟩
  · intro a b l ha hb
    have hofa := ht.candidatesOf_eq ha extensions recursive
    have hofb := ht.candidatesOf_eq hb extensions recursive
    refine ⟨⟨t.candidatesAt extensions recursive l, ?_, ?_⟩, ?_⟩
    · rw [FileTree.candidates_singleton, hofa]
    · rw [FileTree.candidates_singleton, hofb]
    · intro before after
      simp only [FileTree.candidates, List.mapM_append, List.mapM_cons, hofa, hofb]
  · intro inputs paths hpaths p hp
    obtain ⟨l, rfl, hfile⟩ := ht.holdsFile_of_mem_candidates hpaths hp
    exact ⟨l.isAbsolute_path, ht.isCanonical_path hfile⟩

/-- From inside a directory, a dot and a climb to a link that comes back by a detour. -/
theorem candidates_canonical_detour :
    let t : FileTree := {
      entries := [(["d"], .directory), (["d", "a.swf"], .file [] false), (["l"], .link "d/../d/")]
      nodup := by simp }
    t.WellFormed ["d"] ∧ t.locate ["d"] ⟨"."⟩ = .ok ["d"] ∧ t.locate ["d"] ⟨"..//l/"⟩ = .ok ["d"] ∧
    t.candidates ["d"] ["swf"] true ["."] = .ok [⟨"/d/a.swf"⟩] ∧
    t.candidates ["d"] ["swf"] true ["..//l/"] = .ok [⟨"/d/a.swf"⟩] ∧
    t.IsCanonical ["d"] ⟨"/d/a.swf"⟩ := by
  intro t
  have ht : t.WellFormed ["d"] := ⟨by decide, by decide, rfl⟩
  have hdot : t.locate ["d"] ⟨"."⟩ = .ok ["d"] := ht.locate_of_isCurrent (by decide)
  have hdetour : t.locate ["d"] ⟨"..//l/"⟩ = .ok ["d"] := by
    have hl : FileTree.IsStep "l" := FileTree.isStep_of_isName (by decide)
    have hd : FileTree.IsStep "d" := FileTree.isStep_of_isName (by decide)
    have hsegments : Path.segments ⟨"..//l/"⟩ = ["..", "", "l", ""] := by decide
    have htarget : Path.segments ⟨"d/../d/"⟩ = ["d", "..", "d", ""] := by decide
    refine FileTree.locate_eq_ok_iff.mpr ⟨by decide, ?_⟩
    rw [hsegments]
    refine .up rfl (.stay rfl (.inl rfl) (.jump rfl hl rfl rfl ?_))
    rw [htarget]
    refine .enter rfl hd rfl rfl rfl (.up rfl (.enter rfl hd rfl rfl rfl ?_))
    exact .stay rfl (.inl rfl) (.stay rfl (.inl rfl) .here)
  have hpaths : t.candidates ["d"] ["swf"] true ["."] = .ok [⟨"/d/a.swf"⟩] := by
    have hchildren : t.children ["d"] = [("a.swf", .file [] false)] :=
      FileTree.children_eq (by decide +kernel) fun name e => by simp [t]
    have hwalk : t.walk none ["d"] ⟨"/d"⟩ = [⟨⟨"/d/a.swf"⟩, .file [] false⟩] := by
      rw [FileTree.walk_of_ne t (by simp), hchildren]
      rfl
    have hd : t.isDirectory ["d"] = true := rfl
    have hpath : Location.path ["d"] = ⟨"/d"⟩ := rfl
    rw [FileTree.candidates_singleton, ht.candidatesOf_eq hdot, FileTree.candidatesAt, if_pos hd,
      FileTree.candidatesBelow, if_pos rfl, hpath, hwalk]
    decide +kernel
  obtain ⟨hspelling, hcanonical⟩ := candidates_canonical t ["d"] ht ["swf"] true
  obtain ⟨⟨paths, hleft, hright⟩, -⟩ := hspelling "." "..//l/" ["d"] hdot hdetour
  rw [hpaths] at hleft
  cases hleft
  exact ⟨ht, hdot, hdetour, hpaths, hright, (hcanonical _ _ hpaths _ List.mem_cons_self).2.2⟩

end FlexAudit
