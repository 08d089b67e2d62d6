import FlexAudit.Text.Utf8
import FlexAudit.Proofs.Text.Occurrence
import Mathlib.Algebra.Group.Nat.Defs

/-!
# What decoding keeps

The decoder reads bytes piece by piece: an ASCII byte is a piece of its own and gives its own
character, every other piece has no ASCII byte in it and gives one character that is not ASCII.
`Reads` says so of bytes and characters, and `Tracks` is the invariant of the decoder that leads
to it. Proved here:

* `Pending.Sound`: an open sequence can only be completed to a character that is not ASCII;
* `Tracks.feed`, `Tracks.foldl_feed`: the invariant through one byte and through any bytes;
* `reads_decodeLossy`: lossy decoding of any bytes reads them piece by piece;
* `infix_decodeLossy_iff`: an ASCII text stands in the decoded text exactly if its bytes stand in
  the bytes.
-/

namespace FlexAudit.Utf8

/-! ## Characters that are ASCII, and others -/

def IsAscii (c : Char) : Prop := c.toNat < 0x80

instance (c : Char) : Decidable (IsAscii c) := inferInstanceAs (Decidable (c.toNat < 0x80))

theorem toNat_ofNat {n : Nat} (h : n.isValidChar) : (Char.ofNat n).toNat = n := by
  rw [Char.ofNat, dif_pos h]
  rfl

theorem not_isAscii_ofNat {n : Nat} (hlow : 0x80 ≤ n) (h : n.isValidChar) :
    ¬ IsAscii (Char.ofNat n) := by
  rw [IsAscii, toNat_ofNat h]
  omega

theorem encodeChar_of_isAscii {c : Char} (hc : IsAscii c) : encodeChar c = [c.toNat.toUInt8] := by
  unfold IsAscii at hc
  simp [encodeChar, hc]

theorem toNat_toUInt8 {c : Char} (hc : IsAscii c) : c.toNat.toUInt8.toNat = c.toNat := by
  unfold IsAscii at hc
  simp only [Nat.toUInt8_eq, UInt8.toNat_ofNat']
  omega

theorem eq_ofNat_iff {c : Char} (hc : IsAscii c) {b : UInt8} (hb : b.toNat < 0x80) :
    c = Char.ofNat b.toNat ↔ c.toNat.toUInt8 = b := by
  constructor
  · rintro rfl
    rw [toNat_ofNat (Or.inl (by omega))]
    simp
  · rintro rfl
    rw [toNat_toUInt8 hc, Char.ofNat_toNat]

/-! ## Reading piece by piece -/

/-- Bytes and the characters that they are read as, the last piece last. -/
inductive Reads : List UInt8 → List Char → Prop
  | nil : Reads [] []
  | ascii {bytes : List UInt8} {chars : List Char} (b : UInt8) :
      Reads bytes chars → b.toNat < 0x80 → Reads (bytes ++ [b]) (chars ++ [Char.ofNat b.toNat])
  | other {bytes : List UInt8} {chars : List Char} (piece : List UInt8) (c : Char) :
      Reads bytes chars → piece ≠ [] → (∀ b ∈ piece, 0x80 ≤ b.toNat) → ¬ IsAscii c →
      Reads (bytes ++ piece) (chars ++ [c])

theorem encode_concat {c : Char} (hc : IsAscii c) (text : List Char) :
    encode (text ++ [c]) = encode text ++ [c.toNat.toUInt8] := by
  simp [encode, encodeChar_of_isAscii hc]

theorem Reads.suffix_iff {bytes : List UInt8} {chars : List Char} (h : Reads bytes chars)
    (text : List Char) (htext : ∀ c ∈ text, IsAscii c) :
    text <:+ chars ↔ encode text <:+ bytes := by
  induction h generalizing text with
  | nil =>
    rcases List.eq_nil_or_concat text with rfl | ⟨t, x, rfl⟩
    · simp [encode]
    · rw [List.concat_eq_append, encode_concat (htext x (by simp))]
      simp
  | @ascii bytes chars b _ hb ih =>
    rcases List.eq_nil_or_concat text with rfl | ⟨t, x, rfl⟩
    · simp [encode]
    · rw [List.concat_eq_append] at htext ⊢
      have hx : IsAscii x := htext x (by simp)
      have ht := ih t fun c hc => htext c (List.mem_append_left _ hc)
      rw [encode_concat hx, Text.concat_suffix_concat_iff, Text.concat_suffix_concat_iff, ht,
        eq_ofNat_iff hx hb]
  | @other bytes chars piece c _ hne hpiece hc _ =>
    rcases List.eq_nil_or_concat text with rfl | ⟨t, x, rfl⟩
    · simp [encode]
    · rw [List.concat_eq_append] at htext ⊢
      have hx : IsAscii x := htext x (by simp)
      -- neither the character nor the last byte of the piece can end an ASCII text
      obtain ⟨q, y, rfl⟩ := (List.eq_nil_or_concat piece).resolve_left hne
      have hy : 0x80 ≤ y.toNat := hpiece y (by simp)
      rw [encode_concat hx, List.concat_eq_append, ← List.append_assoc,
        Text.concat_suffix_concat_iff, Text.concat_suffix_concat_iff]
      constructor
      · rintro ⟨-, rfl⟩
        exact absurd hx hc
      · rintro ⟨-, rfl⟩
        rw [toNat_toUInt8 hx] at hy
        exact absurd hx (Nat.not_lt.mpr hy)

theorem Reads.infix_iff {bytes : List UInt8} {chars : List Char} (h : Reads bytes chars)
    {text : List Char} (hne : text ≠ []) (htext : ∀ c ∈ text, IsAscii c) :
    text <:+: chars ↔ encode text <:+: bytes := by
  have hbyte : ∀ b ∈ encode text, b.toNat < 0x80 := by
    intro b hb
    obtain ⟨c, hc, hb⟩ := List.mem_flatMap.mp hb
    rw [encodeChar_of_isAscii (htext c hc), List.mem_singleton] at hb
    rw [hb, toNat_toUInt8 (htext c hc)]
    exact htext c hc
  have hne' : encode text ≠ [] := by
    obtain ⟨c, t, rfl⟩ := List.exists_cons_of_ne_nil hne
    simp [encode, encodeChar_of_isAscii (htext c (by simp))]
  induction h with
  | nil => simp [hne, hne']
  | @ascii bytes chars b h hb ih =>
    have hsuffix := (Reads.ascii b h hb).suffix_iff text htext
    rw [List.infix_concat_iff, List.infix_concat_iff]
    exact or_congr hsuffix ih
  | @other bytes chars piece c _ hpne hpiece hc ih =>
    have hchars : text <:+: chars ++ [c] ++ [] ↔ text <:+: chars ∨ text <:+: [] := by
      apply Text.infix_gap_iff hne [c] (by simp)
      simpa using fun hmem => hc (htext c hmem)
    have hbytes : encode text <:+: bytes ++ piece ++ [] ↔
        encode text <:+: bytes ∨ encode text <:+: [] := by
      apply Text.infix_gap_iff hne' piece hpne
      intro b hb hmem
      have := hpiece b hb
      have := hbyte b hmem
      omega
    rw [List.append_nil] at hchars hbytes
    rw [hchars, hbytes, List.infix_nil, List.infix_nil]
    exact or_congr ih (iff_of_false hne hne')

/-! ## Open sequences -/

namespace Pending

/-- The least number that a completed sequence can stand for. -/
def least (p : Pending) : Nat := (p.bits * 64 + (p.low.toNat - 0x80)) * 64 ^ (p.owed - 1)

/-- What all numbers that a completed sequence can stand for are below. -/
def bound (p : Pending) : Nat := (p.bits * 64 + (p.high.toNat - 0x80) + 1) * 64 ^ (p.owed - 1)

/-- Only continuation bytes may follow, and every completion is a character that is not ASCII:
its number lies below the surrogates or above them. -/
structure Sound (p : Pending) : Prop where
  owed_pos : 1 ≤ p.owed
  low_ge : 0x80 ≤ p.low.toNat
  range : (0x80 ≤ p.least ∧ p.bound ≤ 0xD800) ∨ (0xE000 ≤ p.least ∧ p.bound ≤ 0x110000)

theorem sound_iff (p : Pending) : p.Sound ↔ 1 ≤ p.owed ∧ 0x80 ≤ p.low.toNat ∧
    ((0x80 ≤ p.least ∧ p.bound ≤ 0xD800) ∨ (0xE000 ≤ p.least ∧ p.bound ≤ 0x110000)) :=
  ⟨fun ⟨howed, hlow, hrange⟩ => ⟨howed, hlow, hrange⟩,
   fun ⟨howed, hlow, hrange⟩ => ⟨howed, hlow, hrange⟩⟩

/-- The sequence with one more byte read. -/
def next (p : Pending) (b : UInt8) : Pending :=
  ⟨p.owed - 1, 0x80, 0xBF, p.bits * 64 + (b.toNat - 0x80)⟩

theorem least_le_next {p : Pending} {k : Nat} (hk : p.owed = k + 2) {b : UInt8} (hlow : p.low ≤ b) :
    p.least ≤ (p.next b).least := by
  have hnext : (p.next b).least = (p.bits * 64 + (b.toNat - 0x80)) * 64 ^ (k + 1) := by
    simp [least, next, hk, Nat.pow_succ, Nat.mul_assoc, Nat.mul_comm 64]
  rw [hnext, least, hk]
  rw [UInt8.le_iff_toNat_le] at hlow
  exact Nat.mul_le_mul_right _ (by omega)

theorem next_bound_le {p : Pending} {k : Nat} (hk : p.owed = k + 2) {b : UInt8} (hhigh : b ≤ p.high) :
    (p.next b).bound ≤ p.bound := by
  have hnext : (p.next b).bound = (p.bits * 64 + (b.toNat - 0x80) + 1) * 64 ^ (k + 1) := by
    have hlast : (p.bits * 64 + (b.toNat - 0x80)) * 64 + 63 + 1
        = (p.bits * 64 + (b.toNat - 0x80) + 1) * 64 := by omega
    simp [bound, next, hk, hlast, Nat.pow_succ, Nat.mul_assoc, Nat.mul_comm 64]
  rw [hnext, bound, hk]
  rw [UInt8.le_iff_toNat_le] at hhigh
  exact Nat.mul_le_mul_right _ (by omega)

theorem Sound.next {p : Pending} (h : p.Sound) (howed : p.owed ≠ 1) {b : UInt8} (hlow : p.low ≤ b)
    (hhigh : b ≤ p.high) : (p.next b).Sound := by
  obtain ⟨hpos, -, hrange⟩ := h
  obtain ⟨k, hk⟩ : ∃ k, p.owed = k + 2 := ⟨p.owed - 2, by omega⟩
  have hleast := least_le_next hk hlow
  have hbound := next_bound_le hk hhigh
  refine ⟨?_, by simp [Pending.next], by omega⟩
  simp [Pending.next, hk]

theorem Sound.last {p : Pending} (h : p.Sound) (howed : p.owed = 1) {b : UInt8} (hlow : p.low ≤ b)
    (hhigh : b ≤ p.high) : ¬ IsAscii (Char.ofNat (p.bits * 64 + (b.toNat - 0x80))) := by
  obtain ⟨-, hge, hrange⟩ := h
  rw [UInt8.le_iff_toNat_le] at hlow hhigh
  simp only [least, bound, howed, Nat.sub_self, Nat.pow_zero, Nat.mul_one] at hrange
  apply not_isAscii_ofNat
  · omega
  · unfold Nat.isValidChar
    omega

end Pending

/-- Only an ASCII byte is a character by itself, and what another one opens is sound. -/
def Start.Fits (b : UInt8) : Start → Prop
  | ascii c => b.toNat < 0x80 ∧ c = Char.ofNat b.toNat
  | sequence p => 0x80 ≤ b.toNat ∧ p.Sound
  | invalid => 0x80 ≤ b.toNat

theorem start_fits (b : UInt8) : (start b).Fits b := by
  have hb : b.toNat < 256 := b.toNat_lt
  unfold start
  simp only
  split
  · next hascii => exact ⟨hascii, rfl⟩
  repeat' split
  all_goals simp only [Start.Fits, Pending.sound_iff, Pending.least, Pending.bound, UInt8.reduceToNat]
  all_goals omega

/-! ## The decoder along its bytes -/

/-- The bytes of an open sequence: none where none is open, else the first bytes of a character
that is not ASCII. -/
def IsOpen (opened : List UInt8) : Option Pending → Prop
  | none => opened = []
  | some p => opened ≠ [] ∧ (∀ b ∈ opened, 0x80 ≤ b.toNat) ∧ p.Sound

/-- The decoder after the bytes `read`: all but the bytes of the open sequence are read as the
characters put out. -/
def Tracks (read : List UInt8) (d : Decoder) : Prop :=
  ∃ done opened, read = done ++ opened ∧ Reads done d.output.reverse ∧ IsOpen opened d.pending

namespace Tracks

theorem reads {read : List UInt8} {d : Decoder} (h : Tracks read d) (hp : d.pending = none) :
    Reads read d.output.reverse := by
  obtain ⟨done, opened, rfl, hreads, hopen⟩ := h
  rw [hp] at hopen
  rw [show opened = [] from hopen, List.append_nil]
  exact hreads

theorem of_reads {read : List UInt8} {d : Decoder} (h : Reads read d.output.reverse)
    (hp : d.pending = none) : Tracks read d :=
  ⟨read, [], by simp, h, by simp [hp, IsOpen]⟩

/-- One character for the open sequence. -/
theorem replace {read : List UInt8} {d : Decoder} {p : Pending} (h : Tracks read d)
    (hp : d.pending = some p) : Tracks read d.replace := by
  obtain ⟨done, opened, rfl, hreads, hopen⟩ := h
  rw [hp] at hopen
  obtain ⟨hne, hbytes, -⟩ := hopen
  refine of_reads ?_ rfl
  have hc : ¬ IsAscii '\uFFFD' := by decide
  simpa [Decoder.replace] using hreads.other opened '\uFFFD' hne hbytes hc

theorem enter {read : List UInt8} {d : Decoder} (h : Tracks read d) (hp : d.pending = none)
    (b : UInt8) : Tracks (read ++ [b]) (d.enter b) := by
  have hreads := h.reads hp
  have hstart := start_fits b
  unfold Decoder.enter
  cases hs : start b with
  | ascii c =>
    rw [hs] at hstart
    obtain ⟨hb, rfl⟩ := hstart
    refine of_reads ?_ rfl
    simpa [Decoder.emit] using hreads.ascii b hb
  | sequence p =>
    rw [hs] at hstart
    exact ⟨read, [b], rfl, hreads, by simp, by simpa using hstart.1, hstart.2⟩
  | invalid =>
    rw [hs] at hstart
    refine of_reads ?_ rfl
    have hc : ¬ IsAscii '\uFFFD' := by decide
    have hb : ∀ a ∈ [b], 0x80 ≤ a.toNat := by
      intro a ha
      rw [List.mem_singleton.mp ha]
      exact hstart
    simpa [Decoder.replace] using hreads.other [b] '\uFFFD' (by simp) hb hc

/-- The invariant through one byte. -/
theorem feed {read : List UInt8} {d : Decoder} (h : Tracks read d) (b : UInt8) :
    Tracks (read ++ [b]) (d.feed b) := by
  cases hp : d.pending with
  | none =>
    have hfeed : d.feed b = d.enter b := by simp [Decoder.feed, hp]
    rw [hfeed]
    exact h.enter hp b
  | some p =>
    by_cases hrange : p.low ≤ b ∧ b ≤ p.high
    · obtain ⟨done, opened, rfl, hreads, hopen⟩ := h
      rw [hp] at hopen
      obtain ⟨-, hbytes, hsound⟩ := hopen
      have hb : 0x80 ≤ b.toNat :=
        Nat.le_trans hsound.low_ge (UInt8.le_iff_toNat_le.mp hrange.1)
      have hbytes' : ∀ a ∈ opened ++ [b], 0x80 ≤ a.toNat := by
        intro a ha
        rcases List.mem_append.mp ha with ha | ha
        · exact hbytes a ha
        · rwa [List.mem_singleton.mp ha]
      rw [List.append_assoc]
      by_cases howed : p.owed = 1
      · -- the last byte of the sequence: its character is put out
        have hfeed : d.feed b = d.emit (Char.ofNat (p.bits * 64 + (b.toNat - 0x80))) := by
          simp [Decoder.feed, hp, hrange, howed]
        rw [hfeed]
        refine of_reads ?_ rfl
        have hc := hsound.last howed hrange.1 hrange.2
        simpa [Decoder.emit] using hreads.other (opened ++ [b]) _ (by simp) hbytes' hc
      · have hfeed : d.feed b = { d with pending := some (p.next b) } := by
          simp [Decoder.feed, hp, hrange, howed, Pending.next]
        rw [hfeed]
        have hnext := hsound.next howed hrange.1 hrange.2
        exact ⟨done, opened ++ [b], rfl, hreads, by simp, hbytes', hnext⟩
    · have hfeed : d.feed b = d.replace.enter b := by simp [Decoder.feed, hp, hrange]
      rw [hfeed]
      exact (h.replace hp).enter rfl b

/-- The invariant through any bytes. -/
theorem foldl_feed {read : List UInt8} {d : Decoder} (h : Tracks read d) (bytes : List UInt8) :
    Tracks (read ++ bytes) (bytes.foldl Decoder.feed d) := by
  induction bytes generalizing read d with
  | nil => simpa using h
  | cons b bytes ih =>
    have hstep := ih (h.feed b)
    simpa using hstep

end Tracks

theorem reads_decodeLossy (bytes : List UInt8) : Reads bytes (decodeLossy bytes) := by
  have hrun : Tracks bytes (bytes.foldl Decoder.feed {}) := by
    simpa using (Tracks.of_reads (d := {}) Reads.nil rfl).foldl_feed bytes
  unfold decodeLossy Decoder.run Decoder.finish
  cases hp : (bytes.foldl Decoder.feed {}).pending with
  | none => exact hrun.reads hp
  | some p => exact (hrun.replace hp).reads rfl

/-- An ASCII text is never made, cut or swallowed by decoding. -/
theorem infix_decodeLossy_iff {text : List Char} (hne : text ≠ []) (htext : ∀ c ∈ text, IsAscii c)
    (bytes : List UInt8) : text <:+: decodeLossy bytes ↔ encode text <:+: bytes :=
  (reads_decodeLossy bytes).infix_iff hne htext

end FlexAudit.Utf8
