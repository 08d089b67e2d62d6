import FlexAudit.Proofs.FileTree.Resolve

/-!
# Writing a file

A file that is written is found where its path leads, and nothing else in the tree changes. Proved
here:

* `lookup_insert_self`, `lookup_insert_of_ne`: what an insertion changes;
* `Leads.insert`: a path that led to a missing name or to a file leads to the file put there;
* `write_wrote`: what writing leaves behind, and that nothing changes when it is repeated.
-/

namespace FlexAudit.FileTree

variable {t t' : FileTree} {cwd l m : Location} {p : Path} {content : List UInt8}

/-! ## Insertion -/

theorem find?_filter_ne {α : Type} (entries : List (Location × α)) (h : m ≠ l) :
    (entries.filter fun e => e.1 ≠ l).find? (fun e => e.1 == m) =
      entries.find? fun e => e.1 == m := by
  rw [List.find?_filter]
  congr 1
  funext e
  by_cases he : e.1 = m
  · simp [he, h]
  · simp [he]

theorem lookup_insert_self (t : FileTree) (hl : l ≠ []) (e : Entry) :
    (t.insert l e).lookup l = some e := by
  have hnone : (t.entries.filter fun x => x.1 ≠ l).find? (fun x => x.1 == l) = none := by
    rw [List.find?_eq_none]
    intro x hx
    simpa using (List.mem_filter.mp hx).2
  simp only [lookup, if_neg hl, insert, List.find?_append, hnone]
  simp

theorem lookup_insert_of_ne (t : FileTree) (h : m ≠ l) (e : Entry) :
    (t.insert l e).lookup m = t.lookup m := by
  have hlast : [(l, e)].find? (fun x => x.1 == m) = none := by simpa using h.symm
  simp only [lookup, insert, List.find?_append, hlast, Option.or_none, find?_filter_ne _ h]

theorem insert_insert (t : FileTree) (l : Location) (e e' : Entry) :
    (t.insert l e).insert l e' = t.insert l e' := by
  simp [insert, List.filter_append, List.filter_filter]

theorem isDirectory_insert (t : FileTree) (hm : t.isDirectory m = true)
    (hl : t.isDirectory l = false) (e : Entry) : (t.insert l e).isDirectory m = true := by
  have hne : m ≠ l := by
    rintro rfl
    rw [hm] at hl
    cases hl
  rwa [isDirectory, lookup_insert_of_ne t hne]

theorem isDirectory_nil (t : FileTree) : t.isDirectory [] = true := rfl

theorem ne_nil_of_isDirectory_eq_false (h : t.isDirectory l = false) : l ≠ [] := by
  rintro rfl
  rw [isDirectory_nil] at h
  cases h

/-- A path that leads to no directory leads to the file that is put there. -/
theorem Leads.insert {toWrite : Bool} {n : Nat} {parts : List String} {r : Resolved}
    (h : t.Leads toWrite n l parts r) (hr : t.isDirectory r.location = false)
    (content : List UInt8) (executable : Bool) :
    (t.insert r.location (.file content executable)).Leads toWrite n l parts
      (.existing r.location) := by
  have hkept {d : Location} (hd : t.isDirectory d = true) :=
    isDirectory_insert t hd hr (.file content executable)
  have hself := lookup_insert_self t (ne_nil_of_isDirectory_eq_false hr) (.file content executable)
  induction h with
  | here => exact .here
  | stay hl hpart _ ih => exact .stay (hkept hl) hpart (ih hr hkept hself)
  | up hl _ ih => exact .up (hkept hl) (ih hr hkept hself)
  | missing hl hpart _ => exact .enter (hkept hl) hpart (by simp [onlySlashes]) hself rfl .here
  | @jump n l part target rest r hl hpart hslash hlink hrest ih =>
    -- the link itself is not what is replaced, for the path goes on behind it
    have hne : l ++ [part] ≠ r.location := by
      refine (hrest.location_ne hlink fun habove => ?_).symm
      have hlength := (habove.trans (Path.start_prefix _ _)).length_le
      rw [List.length_append, List.length_singleton] at hlength
      omega
    refine .jump (hkept hl) hpart hslash ?_ (ih hr hkept hself)
    rw [lookup_insert_of_ne t hne, hlink]
  | @enter n l part rest e r hl hpart hslash hentry hlink _ ih =>
    by_cases hne : l ++ [part] = r.location
    · have hfile : (t.insert r.location (.file content executable)).lookup (l ++ [part]) =
          some (.file content executable) := by rw [hne, hself]
      exact .enter (hkept hl) hpart hslash hfile rfl (ih hr hkept hself)
    · refine .enter (hkept hl) hpart hslash ?_ hlink (ih hr hkept hself)
      rw [lookup_insert_of_ne t hne, hentry]

/-! ## Writing -/

/-- What writing a file leaves behind, where `l` is the place of the file. -/
structure Wrote (t : FileTree) (cwd : Location) (p : Path) (content : List UInt8) (l : Location)
    (t' : FileTree) : Prop where
  located : t'.locate cwd p = .ok l
  held : ∃ executable, t'.lookup l = some (.file content executable)
  kept : ∀ m, m ≠ l → t'.lookup m = t.lookup m
  /-- Nothing was at a path that led to nothing. -/
  fresh : t.pathExists cwd p = false → t.lookup l = none
  again : t'.write cwd p content = .ok t'

theorem writeTarget_eq_ok (h : t.writeTarget cwd p = .ok l) :
    ∃ r, t.resolve cwd p true = .ok r ∧ r.location = l ∧ t.isDirectory l = false := by
  unfold writeTarget at h
  cases hr : t.resolve cwd p true with
  | error e =>
    rw [hr] at h
    cases h
  | ok r =>
    rw [hr] at h
    cases r with
    | absent d name =>
      have hnone := (resolve_eq_ok_iff.mp hr).2.lookup_absent
      cases h
      exact ⟨_, rfl, rfl, by rw [isDirectory, hnone]; rfl⟩
    | existing x =>
      cases hx : t.isDirectory x with
      | true => simp [bind, Except.bind, hx, throw, throwThe, MonadExceptOf.throw] at h
      | false =>
        simp [bind, Except.bind, hx, pure, Except.pure] at h
        subst h
        exact ⟨_, rfl, rfl, hx⟩

theorem writeTarget_of_resolve (h : t.resolve cwd p true = .ok (.existing l))
    (hl : t.isDirectory l = false) : t.writeTarget cwd p = .ok l := by
  simp [writeTarget, h, hl, bind, Except.bind, pure, Except.pure]

theorem write_eq_ok (h : t.write cwd p content = .ok t') :
    ∃ l executable, t.writeTarget cwd p = .ok l ∧ t' = t.insert l (.file content executable) := by
  unfold write at h
  cases hl : t.writeTarget cwd p with
  | error e =>
    rw [hl] at h
    cases h
  | ok l =>
    rw [hl] at h
    simp only [bind, Except.bind] at h
    split at h
    · cases h
      exact ⟨l, _, rfl, rfl⟩
    · cases h
      exact ⟨l, _, rfl, rfl⟩

theorem write_of_file {old : List UInt8} {executable : Bool} (htarget : t.writeTarget cwd p = .ok l)
    (hfile : t.lookup l = some (.file old executable)) :
    t.write cwd p content = .ok (t.insert l (.file content executable)) := by
  simp [write, htarget, hfile, bind, Except.bind, pure, Except.pure]

theorem write_wrote (h : t.write cwd p content = .ok t') : ∃ l, t.Wrote cwd p content l t' := by
  obtain ⟨_, executable, htarget, rfl⟩ := write_eq_ok h
  obtain ⟨r, hresolve, rfl, hdir⟩ := writeTarget_eq_ok htarget
  obtain ⟨htext, hleads⟩ := resolve_eq_ok_iff.mp hresolve
  have hheld := lookup_insert_self t (ne_nil_of_isDirectory_eq_false hdir) (.file content executable)
  have hthere := hleads.insert hdir content executable
  refine ⟨r.location, ?_, ⟨executable, hheld⟩, ?_, ?_, ?_⟩
  · exact locate_eq_ok_iff.mpr ⟨htext, hthere.toRead⟩
  · intro m hm
    exact lookup_insert_of_ne t hm _
  · intro hnothing
    cases r with
    | absent d name => exact hleads.lookup_absent
    | existing l =>
      have hlocate : t.locate cwd p = .ok l := locate_eq_ok_iff.mpr ⟨htext, hleads.toRead⟩
      change t.lookup l = none
      simpa [pathExists, find?, hlocate] using hnothing
  · have htarget' := writeTarget_of_resolve (resolve_eq_ok_iff.mpr ⟨htext, hthere⟩)
      (by rw [isDirectory, hheld]; rfl)
    rw [write_of_file htarget' hheld, insert_insert]

theorem pathExists_of_absent {d : Location} {name : String}
    (h : t.resolve cwd p = .ok (.absent d name)) : t.pathExists cwd p = false := by
  simp [pathExists, find?, locate_of_absent h]

/-- A file is written to a name that is missing. -/
theorem write_of_absent {d : Location} {name : String}
    (h : t.resolve cwd p true = .ok (.absent d name)) (content : List UInt8) :
    ∃ t', t.write cwd p content = .ok t' := by
  have hnone := (resolve_eq_ok_iff.mp h).2.lookup_absent
  simp [write, writeTarget, h, hnone, bind, Except.bind, pure, Except.pure]

end FlexAudit.FileTree
