import FlexAudit.Text.Search

/-!
# Occurrences in pieces of a list

Where a list is put together from pieces, an occurrence of a needle is either inside a piece or
lies across a seam. Proved here:

* `infix_gap_iff`: a stretch of elements that the needle lacks is never crossed, so the needle
  stands in front of it or behind it;
* `infix_break_iff`: a needle with exactly one break in it, searched in a list with a first break,
  stands around that break or behind it;
* `infix_seam_iff`: a needle that never has the two elements at a seam next to each other is not
  crossed by the seam;
* `after?_eq_some_iff`, `cut?_eq_some_iff` and `cut?_beq_eq_some_iff`: the cuts at a first
  occurrence, with what "first" means;
* `FirstCut.append_right` and `FirstCut.append_left`: where a first occurrence stays the first when
  text is put behind or in front;
* `firstCut_append_iff`: an occurrence is the first one exactly if none ends before it does, and
  `ends_first_iff`: a needle whose first element does not come again is not overlapped by itself.
-/

namespace FlexAudit.Text

variable {α : Type}

/-! ## Gaps and breaks -/

theorem infix_append_cons_iff {needle : List α} {a : α} (hne : needle ≠ []) (ha : a ∉ needle)
    (l r : List α) : needle <:+: l ++ a :: r ↔ needle <:+: l ∨ needle <:+: r := by
  constructor
  · intro h
    rcases List.infix_append_iff_ne_nil.mp h with h | h | ⟨n₁, n₂, -, hn₂, rfl, -, hp⟩
    · exact Or.inl h
    · rcases List.infix_cons_iff.mp h with hp | h
      · rcases List.prefix_cons_iff.mp hp with e | ⟨t, e, -⟩
        · exact absurd e hne
        · exact absurd (e ▸ List.mem_cons_self) ha
      · exact Or.inr h
    · -- an occurrence across the seam would have to hold `a`
      rcases List.prefix_cons_iff.mp hp with e | ⟨t, e, -⟩
      · exact absurd e hn₂
      · exact absurd (List.mem_append_right n₁ (e ▸ List.mem_cons_self)) ha
  · rintro (h | h)
    · exact List.infix_append_of_infix_left h
    · exact List.infix_append_of_infix_right (List.infix_cons h)

theorem infix_gap_iff {needle : List α} (hne : needle ≠ []) (gap : List α) (hgap : gap ≠ [])
    (hdisj : ∀ a ∈ gap, a ∉ needle) (l r : List α) :
    needle <:+: l ++ gap ++ r ↔ needle <:+: l ∨ needle <:+: r := by
  induction gap generalizing l with
  | nil => exact absurd rfl hgap
  | cons a gap ih =>
    have ha : a ∉ needle := hdisj a List.mem_cons_self
    have hstep : needle <:+: l ++ (a :: gap) ++ r ↔ needle <:+: l ∨ needle <:+: gap ++ r := by
      rw [List.append_assoc, List.cons_append]
      exact infix_append_cons_iff hne ha l (gap ++ r)
    rw [hstep]
    cases gap with
    | nil => rfl
    | cons b gap =>
      have hrest := ih (by simp) (fun x hx => hdisj x (List.mem_cons_of_mem a hx)) []
      rw [List.nil_append] at hrest
      rw [hrest, List.infix_nil, or_iff_right hne]

/-- The prefix of a list up to a break that the prefix lacks is a prefix of what stands before
the break. -/
theorem prefix_append_cons_iff {s : List α} {a : α} (ha : a ∉ s) (l r : List α) :
    s <+: l ++ a :: r ↔ s <+: l := by
  constructor
  · rintro ⟨t, ht⟩
    rcases List.append_eq_append_iff.mp ht with ⟨m, hm, -⟩ | ⟨m, hm, hr⟩
    · exact ⟨m, hm.symm⟩
    · -- `s` reaches the break: it can only end there
      cases m with
      | nil => exact ⟨[], by simpa using hm⟩
      | cons b m =>
        rw [List.cons_append, List.cons.injEq] at hr
        exact absurd (by rw [hm, hr.1]; simp) ha
  · exact List.prefix_append_of_prefix

/-- A list is cut at its first break in one way only. -/
theorem append_cons_inj {f g s t : List α} {a : α} (hf : a ∉ f) (hg : a ∉ g)
    (h : f ++ a :: s = g ++ a :: t) : f = g ∧ s = t := by
  induction f generalizing g with
  | nil =>
    cases g with
    | nil => exact ⟨rfl, (List.cons.inj h).2⟩
    | cons b g =>
      have hb : a = b := (List.cons.inj h).1
      exact absurd (hb ▸ List.mem_cons_self) hg
  | cons b f ih =>
    cases g with
    | nil =>
      have hb : b = a := (List.cons.inj h).1
      exact absurd (hb ▸ List.mem_cons_self) hf
    | cons c g =>
      obtain ⟨hbc, hrest⟩ := List.cons.inj h
      obtain ⟨hfg, hst⟩ := ih (fun m => hf (List.mem_cons_of_mem b m))
        (fun m => hg (List.mem_cons_of_mem c m)) hrest
      exact ⟨by rw [hbc, hfg], hst⟩

theorem infix_break_iff {f s l : List α} {a : α} (hf : a ∉ f) (hl : a ∉ l) (r : List α) :
    f ++ a :: s <:+: l ++ a :: r ↔ (f <:+ l ∧ s <+: r) ∨ f ++ a :: s <:+: r := by
  constructor
  · intro h
    rcases List.infix_append_iff_ne_nil.mp h with h | h | ⟨n₁, n₂, -, hn₂, he, hs, hp⟩
    · exact absurd (h.subset (List.mem_append_right f List.mem_cons_self)) hl
    · rcases List.infix_cons_iff.mp h with hp | h
      · cases f with
        | nil => exact Or.inl ⟨List.nil_suffix, (List.cons_prefix_cons.mp hp).2⟩
        | cons b f =>
          have hb : b = a := (List.cons_prefix_cons.mp hp).1
          exact absurd (hb ▸ List.mem_cons_self) hf
      · exact Or.inr h
    · -- across the seam: the needle's break is the one at the seam
      rcases List.prefix_cons_iff.mp hp with e | ⟨t, rfl, ht⟩
      · exact absurd e hn₂
      · obtain ⟨rfl, rfl⟩ := append_cons_inj hf (fun ha => hl (hs.subset ha)) he
        exact Or.inl ⟨hs, ht⟩
  · rintro (⟨⟨x, rfl⟩, ⟨y, rfl⟩⟩ | h)
    · exact ⟨x, y, by simp⟩
    · exact List.infix_append_of_infix_right (List.infix_cons h)

theorem infix_seam_iff {needle : List α} {a b : α} (h : ¬ [a, b] <:+: needle) (l r : List α) :
    needle <:+: (l ++ [a]) ++ b :: r ↔ needle <:+: l ++ [a] ∨ needle <:+: b :: r := by
  constructor
  · intro hneedle
    rcases List.infix_append_iff_ne_nil.mp hneedle with hl | hr | ⟨n₁, n₂, hn₁, hn₂, rfl, hs, hp⟩
    · exact Or.inl hl
    · exact Or.inr hr
    · rcases List.suffix_concat_iff.mp hs with rfl | ⟨m, rfl, -⟩
      · exact absurd rfl hn₁
      · rcases List.prefix_cons_iff.mp hp with rfl | ⟨t, rfl, -⟩
        · exact absurd rfl hn₂
        · exact absurd ⟨m, t, by simp⟩ h
  · rintro (hl | hr)
    · exact List.infix_append_of_infix_left hl
    · exact List.infix_append_of_infix_right hr

theorem concat_suffix_concat_iff {l r : List α} {a b : α} :
    l ++ [a] <:+ r ++ [b] ↔ l <:+ r ∧ a = b := by
  have hlen : [a].length = [b].length := rfl
  rw [List.suffix_append_inj_of_length_eq hlen, List.singleton_inj]

/-! ## Cuts at a first occurrence -/

/-- `front` stands before the first occurrence of `needle` in `l`, and `rest` behind it. -/
structure FirstCut (needle l front rest : List α) : Prop where
  eq : l = front ++ needle ++ rest
  first : ∀ front' rest', l = front' ++ needle ++ rest' → front.length ≤ front'.length

theorem FirstCut.nil {needle : List α} (rest : List α) :
    FirstCut needle (needle ++ rest) [] rest :=
  ⟨rfl, fun _ _ _ => Nat.zero_le _⟩

theorem FirstCut.cons_iff {needle : List α} {a : α} {l : List α} (h : ¬ needle <+: a :: l)
    (front rest : List α) :
    FirstCut needle (a :: l) front rest ↔ ∃ t, front = a :: t ∧ FirstCut needle l t rest := by
  constructor
  · rintro ⟨heq, hfirst⟩
    cases front with
    | nil => exact absurd ⟨rest, heq.symm⟩ h
    | cons b t =>
      simp only [List.cons_append, List.cons.injEq] at heq
      obtain ⟨rfl, heq⟩ := heq
      refine ⟨t, rfl, heq, fun t' rest' h' => ?_⟩
      have := hfirst (a :: t') rest' (by simp [h'])
      simpa using this
  · rintro ⟨t, rfl, heq, hfirst⟩
    refine ⟨by simp [heq], fun front' rest' h' => ?_⟩
    cases front' with
    | nil => exact absurd ⟨rest', h'.symm⟩ h
    | cons b t' =>
      simp only [List.cons_append, List.cons.injEq] at h'
      have := hfirst t' rest' h'.2
      simpa using this

theorem after?_eq_some_iff [DecidableEq α] (needle l rest : List α) :
    after? needle l = some rest ↔ ∃ front, FirstCut needle l front rest := by
  induction l generalizing rest with
  | nil =>
    cases needle with
    | nil =>
      simp only [after?, List.isPrefixOf_nil_left, ↓reduceIte, Option.some.injEq]
      constructor
      · rintro rfl
        exact ⟨[], FirstCut.nil []⟩
      · rintro ⟨front, heq, -⟩
        have : [] = front ++ rest := by simpa using heq
        exact (List.append_eq_nil_iff.mp this.symm).2.symm
    | cons b needle =>
      simp only [after?, List.isPrefixOf, Bool.false_eq_true, ↓reduceIte, reduceCtorEq, false_iff]
      rintro ⟨front, heq, -⟩
      simp at heq
  | cons a l ih =>
    by_cases h : needle <+: a :: l
    · rw [after?, if_pos (List.isPrefixOf_iff_prefix.mpr h), Option.some.injEq]
      obtain ⟨tail, htail⟩ := h
      constructor
      · rintro rfl
        refine ⟨[], ?_⟩
        rw [← htail, List.drop_left]
        exact FirstCut.nil tail
      · rintro ⟨front, heq, hfirst⟩
        have hlen : front = [] := by
          have := hfirst [] tail (by simp [htail])
          exact List.eq_nil_of_length_eq_zero (by simpa using this)
        rw [heq, hlen, List.nil_append, List.drop_left]
    · rw [after?, if_neg (by rwa [List.isPrefixOf_iff_prefix]), ih rest]
      constructor
      · rintro ⟨t, ht⟩
        exact ⟨a :: t, (FirstCut.cons_iff h _ _).mpr ⟨t, rfl, ht⟩⟩
      · rintro ⟨front, hfront⟩
        obtain ⟨t, -, ht⟩ := (FirstCut.cons_iff h _ _).mp hfront
        exact ⟨t, ht⟩

theorem FirstCut.unique {needle l front rest front' rest' : List α}
    (h : FirstCut needle l front rest) (h' : FirstCut needle l front' rest') :
    front = front' ∧ rest = rest' := by
  have hlen : front.length = front'.length :=
    Nat.le_antisymm (h.first front' rest' h'.eq) (h'.first front rest h.eq)
  have heq : front ++ (needle ++ rest) = front' ++ (needle ++ rest') := by
    rw [← List.append_assoc, ← List.append_assoc, ← h.eq, ← h'.eq]
  obtain ⟨hfront, htail⟩ := List.append_inj heq hlen
  exact ⟨hfront, List.append_cancel_left htail⟩

/-- More text behind does not move a first occurrence. -/
theorem FirstCut.append_right {needle l front rest : List α} (h : FirstCut needle l front rest)
    (s : List α) : FirstCut needle (l ++ s) front (rest ++ s) := by
  refine ⟨by rw [h.eq]; simp, ?_⟩
  intro front' rest' heq
  refine Nat.le_of_not_lt fun hlt => ?_
  -- an earlier occurrence would end before the first one does, and so lie in `l`
  have hlen : (front' ++ needle).length ≤ l.length := by
    rw [h.eq]
    simp only [List.length_append]
    omega
  have hpre : front' ++ needle <+: l :=
    List.prefix_of_prefix_length_le ⟨rest', heq.symm⟩ (List.prefix_append l s) hlen
  obtain ⟨rest'', hrest⟩ := hpre
  have hle := h.first front' rest'' hrest.symm
  omega

/-- Text in front without an occurrence, closed by an element that the needle lacks, leaves a first
occurrence the first. -/
theorem FirstCut.append_left {needle l : List α} {a : α} (hne : needle ≠ []) (ha : a ∉ needle)
    (hl : ¬ needle <:+: l) {r front rest : List α} (h : FirstCut needle r front rest) :
    FirstCut needle (l ++ a :: r) (l ++ a :: front) rest := by
  have hnot (k : List α) (hk : ¬ needle <+: k) : ¬ needle <+: k ++ a :: r := by
    rwa [prefix_append_cons_iff ha]
  induction l with
  | nil => exact (FirstCut.cons_iff (hnot [] (by simpa using hne)) _ _).mpr ⟨front, rfl, h⟩
  | cons c l ih =>
    have hrest : ¬ needle <:+: l := fun hfound => hl (List.infix_cons hfound)
    have hhead := hnot (c :: l) fun hpre => hl hpre.isInfix
    exact (FirstCut.cons_iff hhead _ _).mpr ⟨l ++ a :: front, rfl, ih hrest⟩

/-- An occurrence is the first one exactly if the needle stands nowhere else in the list that ends with
it. -/
theorem firstCut_append_iff (needle front rest : List α) :
    FirstCut needle (front ++ needle ++ rest) front rest ↔
      ∀ x y, front ++ needle = x ++ needle ++ y → y = [] := by
  constructor
  · intro h x y hxy
    have hle := h.first x (y ++ rest) (by rw [hxy, List.append_assoc])
    have hlen := congrArg List.length hxy
    simp only [List.length_append] at hlen
    exact List.eq_nil_of_length_eq_zero (by omega)
  · intro h
    have hends : FirstCut needle (front ++ needle) front [] := by
      refine ⟨by simp, fun x y hxy => ?_⟩
      have hlen := congrArg List.length hxy
      rw [h x y hxy] at hlen
      simp only [List.length_append, List.length_nil] at hlen
      omega
    simpa using hends.append_right rest

/-- A needle whose first element does not come again overlaps no other occurrence of itself. -/
theorem infix_of_append_eq {a : α} {s l x y : List α} (ha : a ∉ s)
    (h : l ++ a :: s = x ++ a :: s ++ y) (hy : y ≠ []) : a :: s <:+: l := by
  have hlt : x.length < l.length := by
    have hlen := congrArg List.length h
    have hpos := List.length_pos_iff.mpr hy
    simp only [List.length_append] at hlen
    omega
  rw [List.append_assoc] at h
  obtain ⟨m, rfl⟩ : x <+: l :=
    List.prefix_of_prefix_length_le ⟨_, h.symm⟩ (List.prefix_append l _) (by omega)
  rw [List.append_assoc, List.append_cancel_left_eq] at h
  rcases List.append_eq_append_iff.mp h with ⟨t, ht, hs⟩ | ⟨t, rfl, -⟩
  · cases t with
    | nil => exact ⟨x, [], by simpa using ht⟩
    | cons b t =>
      -- the occurrence at the end starts inside the other one, behind its first element
      have hb : b = a := (List.cons.inj hs).1.symm
      cases m with
      | nil => simp at hlt
      | cons c m =>
        have hs' : s = m ++ b :: t := (List.cons.inj ht).2
        exact absurd (by rw [hs', hb]; simp) ha
  · exact ⟨x, t, by simp⟩

theorem ends_first_iff {a : α} {s : List α} (ha : a ∉ s) (l : List α) :
    (∀ x y, l ++ a :: s = x ++ a :: s ++ y → y = []) ↔ ¬ a :: s <:+: l := by
  constructor
  · rintro h ⟨x, y, rfl⟩
    have hy := h x (y ++ a :: s) (by simp)
    simp at hy
  · intro h x y hxy
    cases y with
    | nil => rfl
    | cons b y => exact absurd (infix_of_append_eq ha hxy (by simp)) h

theorem infix_iff_exists_firstCut [DecidableEq α] (needle l : List α) :
    needle <:+: l ↔ ∃ front rest, FirstCut needle l front rest := by
  constructor
  · intro h
    cases hafter : after? needle l with
    | none => exact absurd h ((after?_eq_none_iff needle l).mp hafter)
    | some rest =>
      obtain ⟨front, hcut⟩ := (after?_eq_some_iff needle l rest).mp hafter
      exact ⟨front, rest, hcut⟩
  · rintro ⟨front, rest, hcut⟩
    exact ⟨front, rest, hcut.eq.symm⟩

theorem cut?_cons_of_neg {p : α → Bool} {c : α} (hc : p c = false) (l : List α) :
    cut? p (c :: l) = (cut? p l).map fun x => (c :: x.1, x.2) := by
  simp only [cut?, List.dropWhile_cons, hc, Bool.not_false, ↓reduceIte, List.takeWhile_cons]
  cases l.dropWhile (fun a => !p a) <;> rfl

theorem cut?_eq_none_iff (p : α → Bool) (l : List α) :
    cut? p l = none ↔ ∀ a ∈ l, p a = false := by
  induction l with
  | nil => simp [cut?]
  | cons c l ih =>
    cases hc : p c with
    | true => simp [cut?, hc]
    | false => rw [cut?_cons_of_neg hc, Option.map_eq_none_iff, ih]; simp [hc]

theorem cut?_eq_some_iff (p : α → Bool) (l front rest : List α) :
    cut? p l = some (front, rest) ↔
      ∃ a, l = front ++ a :: rest ∧ p a = true ∧ ∀ b ∈ front, p b = false := by
  induction l generalizing front with
  | nil => simp [cut?]
  | cons c l ih =>
    cases hc : p c with
    | true =>
      simp only [cut?, List.dropWhile_cons, hc, Bool.not_true, Bool.false_eq_true, ↓reduceIte,
        List.takeWhile_cons, Option.some.injEq, Prod.mk.injEq]
      constructor
      · rintro ⟨rfl, rfl⟩
        exact ⟨c, rfl, hc, by simp⟩
      · rintro ⟨a, heq, -, hfront⟩
        cases front with
        | nil => exact ⟨rfl, (List.cons.inj heq).2⟩
        | cons b front =>
          have hb := hfront b List.mem_cons_self
          rw [← (List.cons.inj heq).1, hc] at hb
          exact absurd hb (by simp)
    | false =>
      rw [cut?_cons_of_neg hc, Option.map_eq_some_iff]
      constructor
      · rintro ⟨⟨front', rest'⟩, hx, he⟩
        obtain ⟨rfl, rfl⟩ := Prod.mk.inj he
        obtain ⟨a, rfl, ha, hfront⟩ := (ih front').mp hx
        refine ⟨a, rfl, ha, fun b hb => ?_⟩
        rcases List.mem_cons.mp hb with rfl | hb
        · exact hc
        · exact hfront b hb
      · rintro ⟨a, heq, ha, hfront⟩
        cases front with
        | nil =>
          rw [(List.cons.inj heq).1, ha] at hc
          exact absurd hc (by simp)
        | cons b front =>
          obtain ⟨rfl, hl⟩ := List.cons.inj heq
          have hcut := (ih front).mpr ⟨a, hl, ha, fun d hd => hfront d (List.mem_cons_of_mem c hd)⟩
          exact ⟨(front, rest), hcut, rfl⟩

theorem cut?_beq_eq_none_iff [DecidableEq α] (a : α) (l : List α) :
    cut? (· == a) l = none ↔ a ∉ l := by
  rw [cut?_eq_none_iff]
  constructor
  · intro h ha
    simpa using h a ha
  · intro h b hb
    rw [beq_eq_false_iff_ne]
    rintro rfl
    exact h hb

theorem cut?_beq_eq_some_iff [DecidableEq α] (a : α) (l front rest : List α) :
    cut? (· == a) l = some (front, rest) ↔ l = front ++ a :: rest ∧ a ∉ front := by
  rw [cut?_eq_some_iff, ← cut?_beq_eq_none_iff, cut?_eq_none_iff]
  constructor
  · rintro ⟨b, hl, hb, hfront⟩
    obtain rfl : b = a := eq_of_beq hb
    exact ⟨hl, hfront⟩
  · rintro ⟨hl, hfront⟩
    exact ⟨a, hl, beq_self_eq_true a, hfront⟩

end FlexAudit.Text
