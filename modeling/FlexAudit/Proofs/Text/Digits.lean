import Mathlib.Tactic.IntervalCases

/-!
# Decimal digits

A number is written with the fewest digits. Proved here, of the digits of any number:

* `head?_toDigits`: they start with a zero only if the number is zero;
* `foldl_toDigits`: they have the value of the number.
-/

namespace FlexAudit.Text

theorem head?_toDigits {n : Nat} (hn : 0 < n) : (Nat.toDigits 10 n).head? ≠ some '0' := by
  induction n using Nat.strongRecOn with
  | ind n ih =>
    rcases Nat.lt_or_ge n 10 with hsmall | hlarge
    · rw [Nat.toDigits_of_lt_base hsmall, List.head?_cons]
      interval_cases n <;> decide
    · obtain ⟨d, digits, hdigits⟩ :=
        List.exists_cons_of_ne_nil (Nat.toDigits_ne_nil (n := n / 10) (b := 10))
      have hfirst := ih (n / 10) (by omega) (by omega)
      rw [hdigits] at hfirst
      rw [Nat.toDigits_of_base_le (by decide) hlarge, hdigits]
      exact hfirst

theorem foldl_toDigits (n : Nat) :
    (Nat.toDigits 10 n).foldl (fun value c => value * 10 + (c.toNat - 48)) 0 = n := by
  have hvalue := Nat.ofDigitChars_ten_toDigits (n := n)
  rw [Nat.ofDigitChars_eq_foldl] at hvalue
  simp only [Nat.mul_comm 10] at hvalue
  exact hvalue

end FlexAudit.Text
