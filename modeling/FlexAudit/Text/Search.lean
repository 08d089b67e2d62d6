/-! # Searching in lists

Occurrence of one list inside another, and the cut at the first occurrence. The functions work on
any list with decidable equality: text is searched as characters, file content as bytes.

* `occursIn_iff`: a search succeeds exactly on infixes;
* `after?_eq_none_iff`: the cut fails exactly where the search does. -/

namespace FlexAudit.Text

variable {α : Type} [DecidableEq α]

/-- Whether `needle` stands somewhere in the list. -/
def occursIn (needle : List α) : List α → Bool
  | [] => needle.isPrefixOf []
  | a :: l => needle.isPrefixOf (a :: l) || occursIn needle l

/-- What follows the first occurrence of `needle`, if there is one. -/
def after? (needle : List α) : List α → Option (List α)
  | [] => if needle.isPrefixOf [] then some [] else none
  | a :: l =>
    if needle.isPrefixOf (a :: l) then some ((a :: l).drop needle.length) else after? needle l

/-- The part before the first element with `p`, and the part after that element. -/
def cut? (p : α → Bool) (l : List α) : Option (List α × List α) :=
  match l.dropWhile (fun a => !p a) with
  | [] => none
  | _ :: rest => some (l.takeWhile (fun a => !p a), rest)

theorem occursIn_iff (needle l : List α) : occursIn needle l = true ↔ needle <:+: l := by
  induction l with
  | nil => simp [occursIn]
  | cons a l ih =>
    rw [occursIn, Bool.or_eq_true, ih, List.isPrefixOf_iff_prefix, List.infix_cons_iff]

theorem after?_isSome (needle l : List α) : (after? needle l).isSome = occursIn needle l := by
  induction l with
  | nil => cases needle <;> simp [after?, occursIn]
  | cons a l ih => rw [after?, occursIn]; split <;> simp_all

theorem after?_eq_none_iff (needle l : List α) : after? needle l = none ↔ ¬ needle <:+: l := by
  rw [← occursIn_iff, ← after?_isSome]
  cases after? needle l <;> simp

end FlexAudit.Text
