import FlexAudit.Proofs.Text.Lossy
import Mathlib.Tactic.SplitIfs

/-!
# Encoded text

What the bytes of a text keep of it. Proved here:

* `Decoder.foldl_encodeChar`: the decoder takes the bytes of a character as that character;
* `decode?_encode`: decoding gives back the text that was encoded;
* `encode_lt_encode_iff`: texts in the order of their characters are in the order of their bytes;
* `eq_append_append_of_encode_eq`: the bytes of a text stand in those of another one only where the
  text does, so that a first occurrence is the first one in the bytes too (`firstCut_encode`).
-/

namespace FlexAudit.Utf8

/-- Characters lie below the surrogates or above them. -/
theorem toNat_range (c : Char) : c.toNat < 0xD800 ∨ (0xDFFF < c.toNat ∧ c.toNat < 0x110000) :=
  c.valid

theorem toNat_toUInt8_of_lt {n : Nat} (h : n < 256) : n.toUInt8.toNat = n := by
  rw [Nat.toUInt8_eq, UInt8.toNat_ofNat', Nat.mod_eq_of_lt h]

theorem encode_cons (c : Char) (cs : List Char) : encode (c :: cs) = encodeChar c ++ encode cs :=
  List.flatMap_cons

theorem encode_append (s t : List Char) : encode (s ++ t) = encode s ++ encode t :=
  List.flatMap_append

theorem encodeChar_ne_nil (c : Char) : encodeChar c ≠ [] := by
  unfold encodeChar
  simp only
  split_ifs <;> simp

/-! ## Decoding what was encoded -/

/-- The byte `lead` opens a sequence with `bits`, and `second` may come next. -/
def Opens (lead owed bits second : Nat) : Prop :=
  ∃ low high : UInt8, start lead.toUInt8 = .sequence ⟨owed, low, high, bits⟩ ∧
    low.toNat ≤ second ∧ second ≤ high.toNat

theorem opens_two {n : Nat} (hlow : 0x80 ≤ n) (hhigh : n < 0x800) :
    Opens (0xC0 + n / 64) 1 (n / 64) (0x80 + n % 64) := by
  have hlead : (0xC0 + n / 64).toUInt8.toNat = 0xC0 + n / 64 := toNat_toUInt8_of_lt (by omega)
  refine ⟨0x80, 0xBF, ?_, by simp, by simp; omega⟩
  unfold start
  simp only [hlead]
  rw [if_neg (by omega), if_neg (by omega), if_pos (by omega), Nat.add_sub_cancel_left]

-- The second byte of three is bounded from below behind the first lead, and from above behind the
-- lead of the surrogates.
theorem opens_three {n : Nat} (hlow : 0x800 ≤ n) (hrange : n < 0xD800 ∨ 0xDFFF < n)
    (hhigh : n < 0x10000) : Opens (0xE0 + n / 4096) 2 (n / 4096) (0x80 + n / 64 % 64) := by
  have hlead : (0xE0 + n / 4096).toUInt8.toNat = 0xE0 + n / 4096 := toNat_toUInt8_of_lt (by omega)
  unfold Opens start
  simp only [hlead]
  rw [if_neg (by omega), if_neg (by omega), if_neg (by omega)]
  by_cases hfirst : n / 4096 = 0
  · rw [if_pos (by omega), hfirst]
    exact ⟨0xA0, 0xBF, rfl, by simp; omega, by simp; omega⟩
  by_cases hsurrogate : n / 4096 = 0xD
  · rw [if_neg (by omega), if_pos (by omega), hsurrogate]
    exact ⟨0x80, 0x9F, rfl, by simp, by simp; omega⟩
  · rw [if_neg (by omega), if_neg (by omega), if_pos (by omega), Nat.add_sub_cancel_left]
    exact ⟨0x80, 0xBF, rfl, by simp, by simp; omega⟩

theorem opens_four {n : Nat} (hlow : 0x10000 ≤ n) (hhigh : n < 0x110000) :
    Opens (0xF0 + n / 262144) 3 (n / 262144) (0x80 + n / 4096 % 64) := by
  have hlead : (0xF0 + n / 262144).toUInt8.toNat = 0xF0 + n / 262144 :=
    toNat_toUInt8_of_lt (by omega)
  unfold Opens start
  simp only [hlead]
  rw [if_neg (by omega), if_neg (by omega), if_neg (by omega), if_neg (by omega),
    if_neg (by omega), if_neg (by omega)]
  by_cases hfirst : n / 262144 = 0
  · rw [if_pos (by omega), hfirst]
    exact ⟨0x90, 0xBF, rfl, by simp; omega, by simp; omega⟩
  by_cases hlast : n / 262144 = 4
  · rw [if_neg (by omega), if_neg (by omega), if_pos (by omega), hlast]
    exact ⟨0x80, 0x8F, rfl, by simp, by simp; omega⟩
  · rw [if_neg (by omega), if_pos (by omega), Nat.add_sub_cancel_left]
    exact ⟨0x80, 0xBF, rfl, by simp, by simp; omega⟩

namespace Decoder

/-- The decoder with a sequence that owes `owed` bytes behind its second one. -/
def inSequence (d : Decoder) (owed bits : Nat) : Decoder :=
  if owed = 0 then d.emit (Char.ofNat bits)
  else { d with pending := some ⟨owed, 0x80, 0xBF, bits⟩ }

/-- A byte that may come next brings a sequence one further. -/
theorem feed_of_owed {d : Decoder} {p : Pending} (howed : 0 < p.owed) {m : Nat} (hm : m < 64)
    (hlow : p.low.toNat ≤ 0x80 + m) (hhigh : 0x80 + m ≤ p.high.toNat) :
    { d with pending := some p }.feed (0x80 + m).toUInt8 =
      d.inSequence (p.owed - 1) (p.bits * 64 + m) := by
  have hbyte : (0x80 + m).toUInt8.toNat = 0x80 + m := toNat_toUInt8_of_lt (by omega)
  have hrange : p.low ≤ (0x80 + m).toUInt8 ∧ (0x80 + m).toUInt8 ≤ p.high := by
    rw [UInt8.le_iff_toNat_le, UInt8.le_iff_toNat_le, hbyte]
    exact ⟨hlow, hhigh⟩
  unfold feed inSequence
  simp only [hrange, and_self, if_true, hbyte, Nat.add_sub_cancel_left]
  by_cases hlast : p.owed = 1
  · rw [if_pos hlast, if_pos (by omega)]
    rfl
  · rw [if_neg hlast, if_neg (by omega)]

theorem feed_inSequence {d : Decoder} {owed : Nat} (howed : 0 < owed) (bits : Nat) {m : Nat}
    (hm : m < 64) : (d.inSequence owed bits).feed (0x80 + m).toUInt8 =
      d.inSequence (owed - 1) (bits * 64 + m) := by
  have hopen : d.inSequence owed bits = { d with pending := some ⟨owed, 0x80, 0xBF, bits⟩ } :=
    if_neg (by omega)
  rw [hopen]
  exact feed_of_owed howed hm (by simp) (by simp; omega)

/-- The two first bytes of a sequence. -/
theorem feed_opens {d : Decoder} (hd : d.pending = none) {lead owed bits m : Nat}
    (hopens : Opens lead owed bits (0x80 + m)) (howed : 0 < owed) (hm : m < 64) :
    (d.feed lead.toUInt8).feed (0x80 + m).toUInt8 = d.inSequence (owed - 1) (bits * 64 + m) := by
  obtain ⟨low, high, hstart, hlow, hhigh⟩ := hopens
  have hlead : d.feed lead.toUInt8 = { d with pending := some ⟨owed, low, high, bits⟩ } := by
    simp [feed, hd, enter, hstart]
  rw [hlead]
  exact feed_of_owed howed hm hlow hhigh

theorem foldl_encodeChar {d : Decoder} (hd : d.pending = none) (c : Char) :
    (encodeChar c).foldl feed d = d.emit c := by
  have hrange := toNat_range c
  have hdone {n : Nat} (hn : n = c.toNat) : d.inSequence 0 n = d.emit c := by
    rw [inSequence, if_pos rfl, hn, Char.ofNat_toNat]
  unfold encodeChar
  simp only
  split_ifs with hone htwo hthree
  · have hbyte : c.toNat.toUInt8.toNat = c.toNat := toNat_toUInt8_of_lt (by omega)
    simp [feed, hd, enter, start, hbyte, hone]
  · simp only [List.foldl_cons, List.foldl_nil]
    rw [feed_opens hd (opens_two (by omega) htwo) (by omega) (by omega)]
    exact hdone (by omega)
  · simp only [List.foldl_cons, List.foldl_nil]
    rw [feed_opens hd (opens_three (by omega) (by omega) hthree) (by omega) (by omega),
      feed_inSequence (by omega) _ (by omega)]
    exact hdone (by omega)
  · simp only [List.foldl_cons, List.foldl_nil]
    rw [feed_opens hd (opens_four (by omega) (by omega)) (by omega) (by omega),
      feed_inSequence (by omega) _ (by omega), feed_inSequence (by omega) _ (by omega)]
    exact hdone (by omega)

theorem foldl_encode {d : Decoder} (hd : d.pending = none) (cs : List Char) :
    (encode cs).foldl feed d = { d with output := cs.reverse ++ d.output } := by
  induction cs generalizing d with
  | nil => rfl
  | cons c cs ih =>
    rw [encode_cons, List.foldl_append, foldl_encodeChar hd, ih rfl]
    simp [emit, hd]

end Decoder

/-- **Decoding gives back what was encoded.** -/
theorem decode?_encode (cs : List Char) : decode? (encode cs) = some cs := by
  have hrun : Decoder.run (encode cs) = { output := cs.reverse } := by
    rw [Decoder.run, Decoder.foldl_encode rfl]
    simp [Decoder.finish]
  simp [decode?, hrun]

/-! ## The order of bytes -/

/-- The bytes of a lower character come first, whatever follows. -/
theorem encodeChar_append_lt {c d : Char} (h : c.toNat < d.toNat) (x y : List UInt8) :
    encodeChar c ++ x < encodeChar d ++ y := by
  have hc := toNat_range c
  have hd := toNat_range d
  have hc₂ : c.toNat / 4096 = c.toNat / 64 / 64 := by omega
  have hc₃ : c.toNat / 262144 = c.toNat / 64 / 64 / 64 := by omega
  have hd₂ : d.toNat / 4096 = d.toNat / 64 / 64 := by omega
  have hd₃ : d.toNat / 262144 = d.toNat / 64 / 64 / 64 := by omega
  unfold encodeChar
  simp only [hc₂, hc₃, hd₂, hd₃]
  split_ifs
  all_goals
    simp (disch := omega) only [List.cons_append, List.nil_append, List.cons_lt_cons_iff,
      UInt8.lt_iff_toNat_lt, ← UInt8.toNat_inj, toNat_toUInt8_of_lt]
    omega

theorem append_lt_append_iff (a x y : List UInt8) : a ++ x < a ++ y ↔ x < y := by
  induction a with
  | nil => rfl
  | cons u us ih => simp [ih]

/-- **The order of texts is the order of their bytes.** -/
theorem encode_lt_encode_iff (a b : List Char) : encode a < encode b ↔ a < b := by
  induction a generalizing b with
  | nil =>
    cases b with
    | nil => exact iff_of_false (List.not_lt_nil _) (List.not_lt_nil _)
    | cons d ds =>
      obtain ⟨u, us, hbytes⟩ := List.exists_cons_of_ne_nil (encodeChar_ne_nil d)
      rw [encode_cons, hbytes]
      exact iff_of_true List.Lex.nil List.Lex.nil
  | cons c cs ih =>
    cases b with
    | nil => exact iff_of_false (List.not_lt_nil _) (List.not_lt_nil _)
    | cons d ds =>
      rw [encode_cons, encode_cons, List.cons_lt_cons_iff]
      rcases Nat.lt_trichotomy c.toNat d.toNat with hlt | heq | hgt
      · exact iff_of_true (encodeChar_append_lt hlt _ _) (.inl hlt)
      · obtain rfl := Char.toNat_inj.mp heq
        simp [append_lt_append_iff, ih]
      · have hbytes := List.lt_asymm (encodeChar_append_lt hgt (encode ds) (encode cs))
        refine iff_of_false hbytes ?_
        rintro (hlt | ⟨rfl, -⟩)
        · exact Nat.lt_asymm hgt hlt
        · exact Nat.lt_irrefl _ hgt

/-! ## Texts in the bytes of a text -/

/-- A byte inside a character, behind its first one. -/
def IsContinuation (b : UInt8) : Prop := 0x80 ≤ b.toNat ∧ b.toNat < 0xC0

theorem encodeChar_eq_cons (c : Char) : ∃ lead tail, encodeChar c = lead :: tail ∧
    ¬ IsContinuation lead ∧ ∀ b ∈ tail, IsContinuation b := by
  have hrange := toNat_range c
  have htail (n : Nat) : IsContinuation (0x80 + n % 64).toUInt8 := by
    rw [IsContinuation, toNat_toUInt8_of_lt (by omega)]
    omega
  have hlead {n : Nat} (hn : n < 256) (hout : n < 0x80 ∨ 0xC0 ≤ n) :
      ¬ IsContinuation n.toUInt8 := by
    rw [IsContinuation, toNat_toUInt8_of_lt hn]
    omega
  unfold encodeChar
  simp only
  split_ifs with hone htwo hthree
  · exact ⟨_, _, rfl, hlead (by omega) (by omega), by simp⟩
  all_goals
    refine ⟨_, _, rfl, hlead (by omega) (by omega), ?_⟩
    simp only [List.forall_mem_cons, htail, true_and, List.not_mem_nil, false_implies, implies_true]

/-- The bytes of a character are not the first bytes of another one. -/
theorem encodeChar_append_inj {c d : Char} {x y : List UInt8}
    (h : encodeChar c ++ x = encodeChar d ++ y) : c = d ∧ x = y := by
  rcases Nat.lt_trichotomy c.toNat d.toNat with hlt | heq | hgt
  · exact absurd (h ▸ encodeChar_append_lt hlt x y) (List.lt_irrefl _)
  · obtain rfl := Char.toNat_inj.mp heq
    exact ⟨rfl, List.append_cancel_left h⟩
  · exact absurd (h ▸ encodeChar_append_lt hgt y x) (List.lt_irrefl _)

theorem eq_append_of_encode_eq {s l : List Char} {y : List UInt8} (h : encode l = encode s ++ y) :
    ∃ rest, l = s ++ rest ∧ y = encode rest := by
  induction s generalizing l with
  | nil => exact ⟨l, rfl, h.symm⟩
  | cons c s ih =>
    cases l with
    | nil =>
      rw [encode_cons, List.append_assoc] at h
      exact absurd (List.append_eq_nil_iff.mp h.symm).1 (encodeChar_ne_nil c)
    | cons a l =>
      rw [encode_cons, encode_cons, List.append_assoc] at h
      obtain ⟨rfl, htail⟩ := encodeChar_append_inj h
      obtain ⟨rest, rfl, hy⟩ := ih htail
      exact ⟨rest, rfl, hy⟩

/-- **Bytes are found where characters are.** The bytes of a text that is not empty stand in the bytes
of another text only where the text itself stands in it. -/
theorem eq_append_append_of_encode_eq {s l : List Char} (hne : s ≠ []) {x y : List UInt8}
    (h : encode l = x ++ encode s ++ y) :
    ∃ front rest, l = front ++ s ++ rest ∧ x = encode front ∧ y = encode rest := by
  obtain ⟨c, s, rfl⟩ := List.exists_cons_of_ne_nil hne
  obtain ⟨lead, tail, hc, hlead, -⟩ := encodeChar_eq_cons c
  have hs : encode (c :: s) = lead :: (tail ++ encode s) := by rw [encode_cons, hc, List.cons_append]
  rw [List.append_assoc] at h
  induction l generalizing x with
  | nil =>
    have hnil := (List.append_eq_nil_iff.mp h.symm).2
    rw [hs] at hnil
    cases hnil
  | cons a l ih =>
    have hskip (x' : List UInt8) (hx : x = encodeChar a ++ x')
        (hl : encode l = x' ++ (encode (c :: s) ++ y)) :
        ∃ front rest, a :: l = front ++ c :: s ++ rest ∧ x = encode front ∧ y = encode rest := by
      obtain ⟨front, rest, rfl, rfl, rfl⟩ := ih hl
      exact ⟨a :: front, rest, rfl, by rw [hx, encode_cons], rfl⟩
    rw [encode_cons] at h
    rcases List.append_eq_append_iff.mp h with ⟨x', hx, hl⟩ | ⟨m, ha, hm⟩
    · exact hskip x' hx hl
    · cases m with
      | nil => exact hskip [] (by simpa using ha.symm) (by simpa using hm.symm)
      | cons b m =>
        cases x with
        | nil =>
          rw [← encode_cons, List.nil_append] at h
          obtain ⟨rest, hl, hy⟩ := eq_append_of_encode_eq h
          exact ⟨[], rest, hl, rfl, hy⟩
        | cons u x =>
          -- the text would start inside the character `a`
          obtain ⟨lead', tail', ha', -, htail'⟩ := encodeChar_eq_cons a
          rw [ha', List.cons_append, List.cons.injEq] at ha
          rw [hs, List.cons_append, List.cons_append, List.cons.injEq] at hm
          have hb : b ∈ tail' := by rw [ha.2]; simp
          exact absurd (hm.1 ▸ htail' b hb) hlead

theorem firstCut_encode {s l front rest : List Char} (hne : s ≠ [])
    (h : Text.FirstCut s l front rest) :
    Text.FirstCut (encode s) (encode l) (encode front) (encode rest) := by
  refine ⟨by rw [h.eq, encode_append, encode_append], ?_⟩
  intro x y hxy
  obtain ⟨front', rest', hl, rfl, -⟩ := eq_append_append_of_encode_eq hne hxy
  have hfront : front <+: l := ⟨s ++ rest, by rw [h.eq, List.append_assoc]⟩
  have hfront' : front' <+: l := ⟨s ++ rest', by rw [hl, List.append_assoc]⟩
  obtain ⟨t, rfl⟩ := List.prefix_of_prefix_length_le hfront hfront' (h.first front' rest' hl)
  rw [encode_append, List.length_append]
  exact Nat.le_add_right _ _

end FlexAudit.Utf8
