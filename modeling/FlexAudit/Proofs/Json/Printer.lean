import FlexAudit.Proofs.Json.Reader

/-!
# Written values are read back

Both layouts spell the value that they write, so reading gives it back. Proved here:

* `spells_compactChars`, `spells_prettyChars`: what the printer writes spells the value;
* `parse?_compact`, `parse?_pretty`: every value is read back from both texts.
-/

namespace FlexAudit.Json

/-! ## Values by their parts -/

@[elab_as_elim]
theorem induction_on_parts {motive : Json → Prop} (atom : ∀ j : Json, j.isAtom = true → motive j)
    (arr : ∀ v vs, motive v → (∀ w ∈ vs, motive w) → motive (.arr (v :: vs)))
    (obj : ∀ name v ms, motive v → (∀ m ∈ ms, motive m.2) → motive (.obj ((name, v) :: ms)))
    (j : Json) : motive j := by
  match j with
  | .arr (v :: vs) =>
    exact arr v vs (induction_on_parts atom arr obj v)
      (fun w _ => induction_on_parts atom arr obj w)
  | .obj ((name, v) :: ms) =>
    exact obj name v ms (induction_on_parts atom arr obj v)
      (fun m _ => induction_on_parts atom arr obj m.2)
  | .arr [] | .obj [] | .null | .bool _ | .nat _ | .otherNumber | .str _ => exact atom _ rfl
termination_by j
decreasing_by
  · simp; omega
  · have := List.sizeOf_lt_of_mem ‹w ∈ vs›
    simp
    omega
  · simp; omega
  · have hm := List.sizeOf_lt_of_mem ‹m ∈ ms›
    have hpair : sizeOf m = 1 + sizeOf m.1 + sizeOf m.2 := rfl
    simp
    omega

/-! ## Items and members with their commas -/

theorem IsBlank.newline (level : Nat) : IsBlank (newline level) := by
  intro c hc
  rcases List.mem_cons.1 hc with rfl | hc
  · rfl
  · rw [List.eq_of_mem_replicate hc]
    rfl

/-- The first item is written as `cs`, and `write` spells the others. -/
theorem Spells.items {write : Json → List Char} {ws ws' : List Char} (hws : IsBlank ws)
    (hws' : IsBlank ws') {vs : List Json} (hvs : ∀ w ∈ vs, Spells (.value w) (write w)) {v : Json}
    {cs : List Char} (hv : Spells (.value v) cs) :
    Spells (.items (v :: vs))
      (cs ++ (vs.flatMap (fun w => ',' :: (ws ++ write w)) ++ (ws' ++ [']']))) := by
  induction vs generalizing v cs with
  | nil => exact .lastItem hv hws'
  | cons w vs ih =>
    have hw : Spells (.value w) (write w) := hvs w List.mem_cons_self
    have hrest := ih (fun u hu => hvs u (List.mem_cons_of_mem w hu)) hw
    simpa using Spells.item hv .nil (hrest.blank hws)

theorem Spells.members {write : Json → List Char} {ws sep ws' : List Char} (hws : IsBlank ws)
    (hsep : IsBlank sep) (hws' : IsBlank ws') {ms : List (Option String × Json)}
    (hms : ∀ m ∈ ms, Spells (.value m.2) (write m.2)) (name : Option String) {v : Json}
    {cs : List Char} (hv : Spells (.value v) cs) :
    Spells (.members ((name, v) :: ms))
      (quote name ++ ':' :: (sep ++ cs
        ++ (ms.flatMap (fun m => ',' :: (ws ++ quote m.1 ++ ':' :: (sep ++ write m.2)))
        ++ (ws' ++ ['\x7d'])))) := by
  induction ms generalizing name v cs with
  | nil => simpa using Spells.lastMember (isString_quote name) .nil (hv.blank hsep) hws'
  | cons m ms ih =>
    have hm : Spells (.value m.2) (write m.2) := hms m List.mem_cons_self
    have hrest := ih (fun u hu => hms u (List.mem_cons_of_mem m hu)) m.1 hm
    simpa using Spells.member (isString_quote name) .nil (hv.blank hsep) .nil (hrest.blank hws)

/-! ## The compact layout -/

theorem compactItems_eq (vs : List Json) :
    compactItems vs = vs.flatMap fun v => ',' :: ([] ++ compactChars v) := by
  induction vs with
  | nil => rfl
  | cons v vs ih => simp [compactItems, ih]

theorem compactMembers_eq (ms : List (Option String × Json)) :
    compactMembers ms =
      ms.flatMap fun m => ',' :: ([] ++ quote m.1 ++ ':' :: ([] ++ compactChars m.2)) := by
  induction ms with
  | nil => rfl
  | cons m ms ih => simp [compactMembers, ih]

theorem compactChars_atom {j : Json} (hj : j.isAtom = true) : compactChars j = atom j := by
  rw [compactChars]
  · rintro v vs rfl
    cases hj
  · rintro name v ms rfl
    cases hj

theorem spells_compactChars (j : Json) : Spells (.value j) (compactChars j) := by
  induction j using induction_on_parts with
  | atom j hj =>
    rw [compactChars_atom hj]
    exact spells_atom hj
  | arr v vs hv hvs =>
    simpa [compactChars, compactItems_eq] using (Spells.items .nil .nil hvs hv).arr
  | obj name v ms hv hms =>
    simpa [compactChars, compactMembers_eq] using
      (Spells.members .nil .nil .nil hms name hv).obj

/-! ## The pretty layout -/

theorem colon_blank : ": ".toList = ':' :: [' '] :=
  String.toList_ofList

theorem prettyItems_eq (level : Nat) (vs : List Json) :
    prettyItems level vs = vs.flatMap fun v => ',' :: (newline level ++ prettyChars level v) := by
  induction vs with
  | nil => rfl
  | cons v vs ih => simp [prettyItems, ih]

theorem prettyMembers_eq (level : Nat) (ms : List (Option String × Json)) :
    prettyMembers level ms =
      ms.flatMap fun m =>
        ',' :: (newline level ++ quote m.1 ++ ':' :: ([' '] ++ prettyChars level m.2)) := by
  induction ms with
  | nil => rfl
  | cons m ms ih => simp [prettyMembers, ih, colon_blank]

theorem prettyChars_atom {j : Json} (hj : j.isAtom = true) (level : Nat) :
    prettyChars level j = atom j := by
  rw [prettyChars]
  · rintro v vs rfl
    cases hj
  · rintro name v ms rfl
    cases hj

theorem spells_prettyChars (level : Nat) (j : Json) : Spells (.value j) (prettyChars level j) := by
  induction j using induction_on_parts generalizing level with
  | atom j hj =>
    rw [prettyChars_atom hj]
    exact spells_atom hj
  | arr v vs hv hvs =>
    have hitems := Spells.items (.newline (level + 1)) (.newline level)
      (fun w hw => hvs w hw (level + 1)) (hv (level + 1))
    simpa [prettyChars, prettyItems_eq] using (hitems.blank (.newline (level + 1))).arr
  | obj name v ms hv hms =>
    have hblank : IsBlank [' '] := by simp [IsBlank, isBlank]
    have hmembers := Spells.members (.newline (level + 1)) hblank (.newline level)
      (fun m hm => hms m hm (level + 1)) name (hv (level + 1))
    simpa [prettyChars, prettyMembers_eq, colon_blank] using
      (hmembers.blank (.newline (level + 1))).obj

/-! ## Reading both -/

theorem parse?_compact (j : Json) : parse? j.compact = some j := by
  rw [parse?, compact, String.toList_ofList]
  exact (spells_compactChars j).document.parseChars?_eq

theorem parse?_pretty (j : Json) : parse? j.pretty = some j := by
  rw [parse?, pretty, String.toList_ofList]
  exact (spells_prettyChars 0 j).document.parseChars?_eq

end FlexAudit.Json
