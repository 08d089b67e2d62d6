import FlexAudit.Proofs.Json.Token

/-!
# Reading what spells a value

`Spells` says which texts spell a value: tokens, items and members with their commas, and blanks
wherever they may stand. Proved here:

* `spells_atom`: what the printer writes for a value without parts spells it;
* `Spells.reads`: the reader takes a text that spells a value for this value and stops behind it;
* `Document.parseChars?_eq`: so a whole text, with blanks around the value, is read as this value.
-/

namespace FlexAudit.Json

/-! ## Blanks in front -/

/-- Blanks in front of a value are skipped. -/
theorem value_skipBlank (n : Nat) (cs : List Char) : value n (skipBlank cs) = value n cs := by
  cases n with
  | zero => rw [value, value]
  | succ n => rw [value, value, skipBlank_skipBlank]

theorem value_append {ws : List Char} (hws : IsBlank ws) (n : Nat) (cs : List Char) :
    value n (ws ++ cs) = value n cs := by
  rw [← value_skipBlank, skipBlank_append hws, value_skipBlank]

/-! ## Values with parts -/

/-- What the reader reads at once: a value, or the items or members of one that is not empty,
through the closing bracket. -/
inductive Part where
  | value (j : Json)
  | items (vs : List Json)
  | members (ms : List (Option String × Json))

/-- The texts that spell a part. -/
inductive Spells : Part → List Char → Prop
  | token {j : Json} {cs : List Char} : IsToken j cs → Spells (.value j) cs
  | blank {p : Part} {ws cs : List Char} : IsBlank ws → Spells p cs → Spells p (ws ++ cs)
  | emptyArr {ws : List Char} : IsBlank ws → Spells (.value (.arr [])) ('[' :: (ws ++ [']']))
  | emptyObj {ws : List Char} : IsBlank ws → Spells (.value (.obj [])) ('\x7b' :: (ws ++ ['\x7d']))
  | arr {vs : List Json} {cs : List Char} :
    Spells (.items vs) cs → Spells (.value (.arr vs)) ('[' :: cs)
  | obj {ms : List (Option String × Json)} {cs : List Char} :
    Spells (.members ms) cs → Spells (.value (.obj ms)) ('\x7b' :: cs)
  | lastItem {v : Json} {cs ws : List Char} :
    Spells (.value v) cs → IsBlank ws → Spells (.items [v]) (cs ++ (ws ++ [']']))
  | item {v : Json} {vs : List Json} {cs ws ds : List Char} :
    Spells (.value v) cs → IsBlank ws → Spells (.items vs) ds →
    Spells (.items (v :: vs)) (cs ++ (ws ++ ',' :: ds))
  | lastMember {name : Option String} {v : Json} {ns ws cs ws' : List Char} :
    IsString name ns → IsBlank ws → Spells (.value v) cs → IsBlank ws' →
    Spells (.members [(name, v)]) (ns ++ (ws ++ ':' :: (cs ++ (ws' ++ ['\x7d']))))
  | member {name : Option String} {v : Json} {ms : List (Option String × Json)}
      {ns ws cs ws' ds : List Char} :
    IsString name ns → IsBlank ws → Spells (.value v) cs → IsBlank ws' → Spells (.members ms) ds →
    Spells (.members ((name, v) :: ms)) (ns ++ (ws ++ ':' :: (cs ++ (ws' ++ ',' :: ds))))

/-- The reader finds the part at the start of `cs` and leaves `rest`. -/
def Part.ReadBy (n : Nat) (cs rest : List Char) : Part → Prop
  | .value j => EndsNumber rest → Json.value n cs = some (j, rest)
  | .items vs => Json.items n cs = some (vs, rest)
  | .members ms => Json.members n cs = some (ms, rest)

theorem EndsNumber.of_mark {c : Char} {rest : List Char} (hc : c ∈ [',', ']', '\x7d']) :
    EndsNumber (c :: rest) := by
  rintro d ⟨⟩
  simp only [List.mem_cons, List.not_mem_nil, or_false] at hc
  rcases hc with rfl | rfl | rfl <;> decide

theorem EndsNumber.append {ws rest : List Char} (hws : IsBlank ws) (hrest : EndsNumber rest) :
    EndsNumber (ws ++ rest) := by
  cases ws with
  | nil => exact hrest
  | cons c ws =>
    intro d hd
    obtain rfl : c = d := Option.some_inj.1 hd
    have hc : isBlank c = true := hws c List.mem_cons_self
    simp only [isBlank, Bool.or_eq_true, beq_iff_eq] at hc
    rcases hc with ((rfl | rfl) | rfl) | rfl <;> decide

theorem items_skipBlank (n : Nat) (cs : List Char) : items n (skipBlank cs) = items n cs := by
  cases n with
  | zero => rw [items, items]
  | succ n => rw [items, items, value_skipBlank]

theorem members_skipBlank (n : Nat) (cs : List Char) :
    members n (skipBlank cs) = members n cs := by
  cases n with
  | zero => rw [members, members]
  | succ n => rw [members, members, skipBlank_skipBlank]

theorem Part.ReadBy.append {p : Part} {n : Nat} {ws cs rest : List Char} (hws : IsBlank ws)
    (h : p.ReadBy n cs rest) : p.ReadBy n (ws ++ cs) rest := by
  cases p with
  | value j => exact fun hrest => (value_append hws n cs).trans (h hrest)
  | items vs =>
    rw [Part.ReadBy, ← items_skipBlank, skipBlank_append hws, items_skipBlank]
    exact h
  | members ms =>
    rw [Part.ReadBy, ← members_skipBlank, skipBlank_append hws, members_skipBlank]
    exact h

/-- No item starts with the closing bracket, so an array that has items is not taken for the
empty one. -/
theorem items_close (n : Nat) (cs : List Char) : items n (']' :: cs) = none := by
  have hvalue (n : Nat) : value n (']' :: cs) = none := by
    cases n with
    | zero => rw [value]
    | succ n =>
      rw [value, skipBlank_cons rfl]
      rfl
  cases n with
  | zero => rw [items]
  | succ n => rw [items, hvalue]

theorem members_close (n : Nat) (cs : List Char) : members n ('\x7d' :: cs) = none := by
  cases n with
  | zero => rw [members]
  | succ n =>
    rw [members, skipBlank_cons rfl]
    rfl

/-- An array is empty exactly if its closing bracket comes first, behind any blanks. -/
theorem value_bracket (n : Nat) (cs : List Char) :
    value (n + 1) ('[' :: cs) =
      match skipBlank cs with
      | ']' :: rest => some (.arr [], rest)
      | rest => (items n rest).map fun (vs, rest) => (.arr vs, rest) := by
  rewrite [value, skipBlank_cons rfl]
  rfl

/-- So is an object, with its closing brace. -/
theorem value_brace (n : Nat) (cs : List Char) :
    value (n + 1) ('\x7b' :: cs) =
      match skipBlank cs with
      | '\x7d' :: rest => some (.obj [], rest)
      | rest => (members n rest).map fun (ms, rest) => (.obj ms, rest) := by
  rewrite [value, skipBlank_cons rfl]
  rfl

theorem value_arr {n : Nat} {vs : List Json} {cs rest : List Char}
    (h : items n cs = some (vs, rest)) : value (n + 1) ('[' :: cs) = some (.arr vs, rest) := by
  rw [value_bracket]
  split
  · next r heq =>
    rw [← items_skipBlank, heq, items_close] at h
    cases h
  · rw [items_skipBlank, h]
    rfl

theorem value_obj {n : Nat} {ms : List (Option String × Json)} {cs rest : List Char}
    (h : members n cs = some (ms, rest)) :
    value (n + 1) ('\x7b' :: cs) = some (.obj ms, rest) := by
  rw [value_brace]
  split
  · next r heq =>
    rw [← members_skipBlank, heq, members_close] at h
    cases h
  · rw [members_skipBlank, h]
    rfl

theorem items_value {n : Nat} {v : Json} {cs rest : List Char}
    (hvalue : value n cs = some (v, rest)) :
    items (n + 1) cs =
      match skipBlank rest with
      | ',' :: rest => (items n rest).map fun (vs, rest) => (v :: vs, rest)
      | ']' :: rest => some ([v], rest)
      | _ => none := by
  rewrite [items, hvalue]
  rfl

/-- A member is its name, a colon and its value. -/
theorem members_name {n : Nat} {name : Option String} {v : Json} {ns ws cs rest : List Char}
    (hname : IsString name ns) (hws : IsBlank ws) (hvalue : value n cs = some (v, rest)) :
    members (n + 1) (ns ++ (ws ++ ':' :: cs)) =
      match skipBlank rest with
      | ',' :: rest => (members n rest).map fun (ms, rest) => ((name, v) :: ms, rest)
      | '\x7d' :: rest => some ([(name, v)], rest)
      | _ => none := by
  obtain ⟨body, hbody, hstring⟩ := string_of_isString hname (ws ++ ':' :: cs)
  rw [hbody, members, skipBlank_cons rfl]
  simp only [hstring, skipBlank_append hws, skipBlank_cons (c := ':') rfl]
  rewrite [hvalue]
  rfl

/-- The reader takes a text that spells a part for this part and stops behind it. -/
theorem Spells.reads {p : Part} {cs : List Char} (h : Spells p cs) {n : Nat} (hn : cs.length < n)
    (rest : List Char) : p.ReadBy n (cs ++ rest) rest := by
  induction h generalizing n rest with
  | blank hws _ ih =>
    rw [List.length_append] at hn
    rw [List.append_assoc]
    exact (ih (by omega) rest).append hws
  | token htoken =>
    obtain ⟨n, rfl⟩ := Nat.exists_eq_add_one_of_ne_zero (Nat.ne_zero_of_lt hn)
    exact fun hrest => value_token htoken n hrest
  | emptyArr hws =>
    obtain ⟨n, rfl⟩ := Nat.exists_eq_add_one_of_ne_zero (Nat.ne_zero_of_lt hn)
    intro _
    rw [List.cons_append, List.append_assoc, value_bracket, skipBlank_append hws]
    rfl
  | emptyObj hws =>
    obtain ⟨n, rfl⟩ := Nat.exists_eq_add_one_of_ne_zero (Nat.ne_zero_of_lt hn)
    intro _
    rw [List.cons_append, List.append_assoc, value_brace, skipBlank_append hws]
    rfl
  | arr _ ih =>
    obtain ⟨n, rfl⟩ := Nat.exists_eq_add_one_of_ne_zero (Nat.ne_zero_of_lt hn)
    exact fun _ => value_arr (ih (by simpa using hn) rest)
  | obj _ ih =>
    obtain ⟨n, rfl⟩ := Nat.exists_eq_add_one_of_ne_zero (Nat.ne_zero_of_lt hn)
    exact fun _ => value_obj (ih (by simpa using hn) rest)
  | @lastItem v cs ws _ hws ih =>
    obtain ⟨n, rfl⟩ := Nat.exists_eq_add_one_of_ne_zero (Nat.ne_zero_of_lt hn)
    have hvalue := ih (n := n) (by grind) (ws ++ (']' :: rest)) (.append hws (.of_mark (by decide)))
    rw [List.append_assoc, List.append_assoc, Part.ReadBy, List.singleton_append,
      items_value hvalue, skipBlank_append hws]
    rfl
  | @item v vs cs ws ds _ hws _ ih ihs =>
    obtain ⟨n, rfl⟩ := Nat.exists_eq_add_one_of_ne_zero (Nat.ne_zero_of_lt hn)
    have hvalue := ih (n := n) (by grind) (ws ++ (',' :: (ds ++ rest)))
      (.append hws (.of_mark (by decide)))
    have hitems : items n (ds ++ rest) = some (vs, rest) := ihs (by grind) rest
    rw [List.append_assoc, List.append_assoc, Part.ReadBy, List.cons_append,
      items_value hvalue, skipBlank_append hws, skipBlank_cons rfl]
    simp [hitems]
  | @lastMember name v ns ws cs ws' hname hws _ hws' ih =>
    obtain ⟨n, rfl⟩ := Nat.exists_eq_add_one_of_ne_zero (Nat.ne_zero_of_lt hn)
    have hvalue := ih (n := n) (by grind) (ws' ++ ('\x7d' :: rest))
      (.append hws' (.of_mark (by decide)))
    simp only [List.append_assoc, List.cons_append, List.nil_append]
    rw [Part.ReadBy, members_name hname hws hvalue, skipBlank_append hws']
    rfl
  | @member name v ms ns ws cs ws' ds hname hws _ hws' _ ih ihs =>
    obtain ⟨n, rfl⟩ := Nat.exists_eq_add_one_of_ne_zero (Nat.ne_zero_of_lt hn)
    have hvalue := ih (n := n) (by grind) (ws' ++ (',' :: (ds ++ rest)))
      (.append hws' (.of_mark (by decide)))
    have hmembers : members n (ds ++ rest) = some (ms, rest) := ihs (by grind) rest
    simp only [List.append_assoc, List.cons_append]
    rw [Part.ReadBy, members_name hname hws hvalue, skipBlank_append hws', skipBlank_cons rfl]
    simp [hmembers]

/-- A text that holds one value, with blanks around it. -/
def Document (j : Json) (cs : List Char) : Prop :=
  ∃ body ws, cs = body ++ ws ∧ Spells (.value j) body ∧ IsBlank ws

theorem Document.parseChars?_eq {j : Json} {cs : List Char} (h : Document j cs) :
    parseChars? cs = some j := by
  obtain ⟨body, ws, rfl, hbody, hws⟩ := h
  have hlength : body.length < (body ++ ws).length + 1 := by
    rw [List.length_append]
    omega
  have hends : EndsNumber ws := by
    have hnil : EndsNumber [] := by simp [EndsNumber]
    simpa using hnil.append hws
  have hblank : skipBlank ws = [] := List.dropWhile_eq_nil_iff.mpr hws
  rw [parseChars?, hbody.reads hlength ws hends]
  exact if_pos hblank

theorem Spells.document {j : Json} {cs : List Char} (h : Spells (.value j) cs) : Document j cs :=
  ⟨cs, [], (List.append_nil cs).symm, h, IsBlank.nil⟩

/-! ## What the printer writes at once -/

def isAtom : Json → Bool
  | .arr (_ :: _) => false
  | .obj (_ :: _) => false
  | _ => true

theorem spells_atom {j : Json} (hj : j.isAtom = true) : Spells (.value j) (atom j) := by
  cases j with
  | null => exact .token .null
  | bool b =>
    cases b with
    | false => exact .token .false
    | true => exact .token .true
  | nat n =>
    have hatom : atom (.nat n) = Nat.toDigits 10 n := Nat.toList_repr
    rw [hatom]
    exact .token (.number (isNumber_toDigits n))
  | otherNumber =>
    have hzero : IsInteger ['0'] := isInteger_toDigits 0
    exact .token (.number (.negative hzero .absent .absent))
  | str s => exact .token (.string (isString_quote s))
  | arr vs =>
    obtain rfl : vs = [] := by cases vs <;> simp_all [isAtom]
    exact .emptyArr IsBlank.nil
  | obj ms =>
    obtain rfl : ms = [] := by cases ms <;> simp_all [isAtom]
    exact .emptyObj IsBlank.nil

end FlexAudit.Json
