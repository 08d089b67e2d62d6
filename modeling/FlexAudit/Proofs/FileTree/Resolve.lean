import FlexAudit.Proofs.FileTree.Walk

/-!
# Where paths lead

`Leads` lists the steps that a path takes through a file tree, one constructor for each kind of
part. Proved here:

* `follow_eq_ok_iff`: a path is followed by these steps and no others;
* `locate_eq_ok_iff`: what a path is located at;
* `Leads.existing_cases`: a path ends at a file, at a directory, or above the place where it began.
-/

namespace FlexAudit

/-- Where a path that is read in a directory begins. -/
def Path.start (p : Path) (l : Location) : Location :=
  if p.isAbsolute then [] else l

theorem Path.start_prefix (p : Path) (l : Location) : p.start l <+: l := by
  unfold Path.start
  split
  · exact List.nil_prefix
  · exact List.prefix_rfl

namespace FileTree

def Entry.isLink : Entry → Bool
  | link _ => true
  | _ => false

def Resolved.location : Resolved → Location
  | existing l => l
  | absent d name => d ++ [name]

/-- A part of a path that is looked up in the directory where it stands. -/
def IsStep (part : String) : Prop :=
  part ≠ "" ∧ part ≠ "." ∧ part ≠ ".."

theorem isStep_of_isName {part : String} (h : IsName part) : IsStep part :=
  ⟨h.1, h.2.1, h.2.2.1⟩

/-- The steps from a location to where the parts of a path lead. The number bounds the links. -/
inductive Leads (t : FileTree) (toWrite : Bool) :
    Nat → Location → List String → Resolved → Prop where
  | here {n : Nat} {l : Location} : Leads t toWrite n l [] (.existing l)
  | stay {n : Nat} {l : Location} {part : String} {rest : List String} {r : Resolved} :
      t.isDirectory l = true → part = "" ∨ part = "." →
      Leads t toWrite n l rest r → Leads t toWrite n l (part :: rest) r
  | up {n : Nat} {l : Location} {rest : List String} {r : Resolved} :
      t.isDirectory l = true →
      Leads t toWrite n l.dropLast rest r → Leads t toWrite n l (".." :: rest) r
  | missing {n : Nat} {l : Location} {part : String} :
      t.isDirectory l = true → IsStep part → t.lookup (l ++ [part]) = none →
      Leads t toWrite n l [part] (.absent l part)
  | jump {n : Nat} {l : Location} {part target : String} {rest : List String} {r : Resolved} :
      t.isDirectory l = true → IsStep part → (toWrite && onlySlashes rest) = false →
      t.lookup (l ++ [part]) = some (.link target) →
      Leads t toWrite n (Path.start ⟨target⟩ l) (Path.segments ⟨target⟩ ++ rest) r →
      Leads t toWrite (n + 1) l (part :: rest) r
  | enter {n : Nat} {l : Location} {part : String} {rest : List String} {e : Entry}
      {r : Resolved} :
      t.isDirectory l = true → IsStep part → (toWrite && onlySlashes rest) = false →
      t.lookup (l ++ [part]) = some e → e.isLink = false →
      Leads t toWrite n (l ++ [part]) rest r → Leads t toWrite n l (part :: rest) r

variable {t : FileTree} {toWrite : Bool} {n : Nat} {l : Location} {part : String}
  {rest parts : List String} {r : Resolved}

/-! ## One step -/

theorem follow_nil : t.follow toWrite n l [] = .ok (.existing l) := by
  rw [follow]

theorem follow_stay (hl : t.isDirectory l = true) (hpart : part = "" ∨ part = ".") :
    t.follow toWrite n l (part :: rest) = t.follow toWrite n l rest := by
  rw [follow]
  simp [hl, hpart]

theorem follow_up (hl : t.isDirectory l = true) :
    t.follow toWrite n l (".." :: rest) = t.follow toWrite n l.dropLast rest := by
  rw [follow]
  simp [hl]

theorem follow_missing (hl : t.isDirectory l = true) (hpart : IsStep part)
    (hnone : t.lookup (l ++ [part]) = none) :
    t.follow toWrite n l [part] = .ok (.absent l part) := by
  obtain ⟨hempty, hdot, hdots⟩ := hpart
  rw [follow]
  simp [hl, hempty, hdot, hdots, onlySlashes, hnone]

theorem follow_jump (hl : t.isDirectory l = true) (hpart : IsStep part)
    (hslash : (toWrite && onlySlashes rest) = false) {target : String}
    (hlink : t.lookup (l ++ [part]) = some (.link target)) :
    t.follow toWrite (n + 1) l (part :: rest) =
      t.follow toWrite n (Path.start ⟨target⟩ l) (Path.segments ⟨target⟩ ++ rest) := by
  obtain ⟨hempty, hdot, hdots⟩ := hpart
  rw [follow]
  simp [hl, hempty, hdot, hdots, hslash, hlink, Path.start]

theorem follow_enter (hl : t.isDirectory l = true) (hpart : IsStep part)
    (hslash : (toWrite && onlySlashes rest) = false) {e : Entry}
    (hentry : t.lookup (l ++ [part]) = some e) (hlink : e.isLink = false) :
    t.follow toWrite n l (part :: rest) = t.follow toWrite n (l ++ [part]) rest := by
  obtain ⟨hempty, hdot, hdots⟩ := hpart
  rw [follow]
  cases e with
  | link target => simp [Entry.isLink] at hlink
  | file content executable => simp [hl, hempty, hdot, hdots, hslash, hentry]
  | directory => simp [hl, hempty, hdot, hdots, hslash, hentry]

/-! ## All steps -/

theorem leads_of_follow (h : t.follow toWrite n l parts = .ok r) :
    t.Leads toWrite n l parts r := by
  fun_induction FileTree.follow t toWrite n l parts with
  | case1 n l =>
    cases h
    exact .here
  | case3 n l part rest hl hpart ih => exact .stay (by simpa using hl) hpart (ih h)
  | case4 n l rest hl _ ih => exact .up (by simpa using hl) (ih h)
  | case6 n l part hl hblank hdots hnone _ =>
    cases h
    exact .missing (by simpa using hl) ⟨(hblank <| .inl ·), (hblank <| .inr ·), hdots⟩ hnone
  | case9 l part rest hl hblank hdots hslash target hlink n path ih =>
    have hpart : IsStep part := ⟨(hblank <| .inl ·), (hblank <| .inr ·), hdots⟩
    exact .jump (by simpa using hl) hpart (by simpa using hslash) hlink (ih h)
  | case10 n l part rest hl hblank hdots hslash e hlink hentry ih =>
    have hpart : IsStep part := ⟨(hblank <| .inl ·), (hblank <| .inr ·), hdots⟩
    have hplain : e.isLink = false := by
      cases e with
      | link target => exact (hlink target rfl).elim
      | file content executable => rfl
      | directory => rfl
    exact .enter (by simpa using hl) hpart (by simpa using hslash) hentry hplain (ih h)
  -- the other branches of `follow` end in an error
  | case2 | case5 | case7 | case8 => cases h

theorem Leads.follow_eq (h : t.Leads toWrite n l parts r) :
    t.follow toWrite n l parts = .ok r := by
  induction h with
  | here => exact follow_nil
  | stay hl hpart _ ih => rw [follow_stay hl hpart, ih]
  | up hl _ ih => rw [follow_up hl, ih]
  | missing hl hpart hnone => exact follow_missing hl hpart hnone
  | jump hl hpart hslash hlink _ ih => rw [follow_jump hl hpart hslash hlink, ih]
  | enter hl hpart hslash hentry hlink _ ih => rw [follow_enter hl hpart hslash hentry hlink, ih]

theorem follow_eq_ok_iff :
    t.follow toWrite n l parts = .ok r ↔ t.Leads toWrite n l parts r :=
  ⟨leads_of_follow, Leads.follow_eq⟩

/-- What can be written to can also be read. -/
theorem Leads.toRead (h : t.Leads toWrite n l parts r) : t.Leads false n l parts r := by
  induction h with
  | here => exact .here
  | stay hl hpart _ ih => exact .stay hl hpart ih
  | up hl _ ih => exact .up hl ih
  | missing hl hpart hnone => exact .missing hl hpart hnone
  | jump hl hpart _ hlink _ ih => exact .jump hl hpart rfl hlink ih
  | enter hl hpart _ hentry hlink _ ih => exact .enter hl hpart rfl hentry hlink ih

/-- A path ends at something that is no link, unless it only climbs from where it began. -/
theorem Leads.existing_cases {x : Location} (h : t.Leads toWrite n l parts (.existing x)) :
    (∃ e, t.lookup x = some e ∧ e.isLink = false) ∨ x <+: l := by
  generalize hr : Resolved.existing x = r at h
  induction h with
  | here =>
    cases hr
    exact .inr List.prefix_rfl
  | stay _ _ _ ih => exact ih hr
  | up _ _ ih => exact (ih hr).imp_right fun hx => hx.trans (List.dropLast_prefix _)
  | missing => cases hr
  | jump _ _ _ _ _ ih => exact (ih hr).imp_right fun hx => hx.trans (Path.start_prefix _ _)
  | @enter n l part rest e r _ _ _ hentry hlink _ ih =>
    rcases ih hr with hx | hx
    · exact .inl hx
    · rcases List.prefix_concat_iff.mp hx with rfl | hx
      · exact .inl ⟨e, hentry, hlink⟩
      · exact .inr hx

theorem Leads.lookup_absent {d : Location} {name : String}
    (h : t.Leads toWrite n l parts (.absent d name)) : t.lookup (d ++ [name]) = none := by
  generalize hr : Resolved.absent d name = r at h
  induction h with
  | here => cases hr
  | missing _ _ hnone =>
    cases hr
    exact hnone
  | stay _ _ _ ih | up _ _ ih | jump _ _ _ _ _ ih | enter _ _ _ _ _ _ ih => exact ih hr

/-- A path ends at no link but one that lies above the place where it began. -/
theorem Leads.location_ne {x : Location} {target : String} (h : t.Leads toWrite n l parts r)
    (hlink : t.lookup x = some (.link target)) (hx : ¬ x <+: l) : r.location ≠ x := by
  rintro rfl
  cases r with
  | absent d name =>
    rw [Resolved.location, h.lookup_absent] at hlink
    cases hlink
  | existing y =>
    rcases h.existing_cases with ⟨e, hentry, hplain⟩ | habove
    · rw [Resolved.location, hentry] at hlink
      cases hlink
      cases hplain
    · exact hx habove

/-! ## Whole paths -/

theorem resolve_eq_ok_iff {cwd : Location} {p : Path} :
    t.resolve cwd p toWrite = .ok r ↔
      p.text ≠ "" ∧ t.Leads toWrite maxLinks (p.start cwd) p.segments r := by
  unfold resolve
  split
  · simp [*]
  · simp [*, follow_eq_ok_iff, Path.start]

theorem locate_eq_ok_iff {cwd : Location} {p : Path} :
    t.locate cwd p = .ok l ↔
      p.text ≠ "" ∧ t.Leads false maxLinks (p.start cwd) p.segments (.existing l) := by
  rw [← resolve_eq_ok_iff, locate]
  cases t.resolve cwd p with
  | error e => simp [bind, Except.bind]
  | ok r =>
    cases r with
    | existing x => simp [bind, Except.bind, pure, Except.pure]
    | absent d name => simp [bind, Except.bind, throw, throwThe, MonadExceptOf.throw]

theorem locate_of_absent {cwd d : Location} {p : Path} {name : String}
    (h : t.resolve cwd p = .ok (.absent d name)) : t.locate cwd p = .error .notFound := by
  rw [locate, h]
  rfl

/-! ## Names in the working directory -/

theorem start_name {name : String} (h : IsName name) (l : Location) : Path.start ⟨name⟩ l = l := by
  rw [Path.start, Path.isAbsolute_of_isName h, if_neg Bool.false_ne_true]

theorem locate_name {cwd : Location} {name : String} {e : Entry} (hcwd : t.isDirectory cwd = true)
    (hname : IsName name) (hentry : t.lookup (cwd ++ [name]) = some e) (hlink : e.isLink = false) :
    t.locate cwd ⟨name⟩ = .ok (cwd ++ [name]) := by
  refine locate_eq_ok_iff.mpr ⟨hname.1, ?_⟩
  rw [start_name hname, Path.segments_name hname]
  exact .enter hcwd (isStep_of_isName hname) rfl hentry hlink .here

theorem resolve_missing {cwd : Location} {name : String} (hcwd : t.isDirectory cwd = true)
    (hname : IsName name) (hnone : t.lookup (cwd ++ [name]) = none) :
    t.resolve cwd ⟨name⟩ toWrite = .ok (.absent cwd name) := by
  refine resolve_eq_ok_iff.mpr ⟨hname.1, ?_⟩
  rw [start_name hname, Path.segments_name hname]
  exact .missing hcwd (isStep_of_isName hname) hnone

/-- A link to a name that is missing leads to this name. -/
theorem resolve_dangling {cwd : Location} {name target : String} (hcwd : t.isDirectory cwd = true)
    (hname : IsName name) (hlink : t.lookup (cwd ++ [name]) = some (.link target))
    (htarget : IsName target) (hnone : t.lookup (cwd ++ [target]) = none) :
    t.resolve cwd ⟨name⟩ toWrite = .ok (.absent cwd target) := by
  refine resolve_eq_ok_iff.mpr ⟨hname.1, ?_⟩
  rw [start_name hname, Path.segments_name hname]
  refine .jump hcwd (isStep_of_isName hname) (by simp [onlySlashes]) hlink ?_
  rw [start_name htarget, Path.segments_name htarget, List.append_nil]
  exact .missing hcwd (isStep_of_isName htarget) hnone

end FileTree

end FlexAudit
