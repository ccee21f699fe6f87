/-
  Library/Accumulators.lean --- running maxima and weighted sums.

  A loop that keeps the greatest value seen so far, and a loop that keeps a sum of
  weights beside a sum of weighted values.  The bounds on what such a loop ends
  with are stated over the whole list.
-/
import Mathlib

set_option autoImplicit false

namespace TradeProcessor.Library

variable {α κ : Type}

/-! ## Running maxima -/

section Maximum

variable [LinearOrder κ]

/-- The conditional write of a loop that keeps a maximum. -/
theorem ite_gt_eq_max (m x : κ) : (if x > m then x else m) = max m x := by
  rcases lt_or_ge m x with h | h
  · rw [if_pos h, max_eq_right h.le]
  · rw [if_neg (not_lt.mpr h), max_eq_left h]

theorem foldl_max_le_iff {m b : κ} {l : List κ} :
    l.foldl max m ≤ b ↔ m ≤ b ∧ ∀ x ∈ l, x ≤ b := by
  induction l generalizing m with
  | nil => simp
  | cons x l ih => simp [ih, and_assoc]

theorem le_foldl_max (m : κ) (l : List κ) : m ≤ l.foldl max m :=
  (foldl_max_le_iff.mp le_rfl).1

theorem le_foldl_max_of_mem (m : κ) {l : List κ} {x : κ} (h : x ∈ l) : x ≤ l.foldl max m :=
  (foldl_max_le_iff.mp le_rfl).2 x h

/-- The loop ends with the value it started from or with one it has seen. -/
theorem foldl_max_eq_or_mem (m : κ) (l : List κ) : l.foldl max m = m ∨ l.foldl max m ∈ l := by
  induction l generalizing m with
  | nil => exact .inl rfl
  | cons x l ih =>
      rw [List.foldl_cons]
      rcases ih (max m x) with hstart | hseen
      · rw [hstart]
        rcases max_choice m x with hm | hx
        · exact .inl hm
        · rw [hx]
          exact .inr List.mem_cons_self
      · exact .inr (List.mem_cons_of_mem x hseen)

/-- It has seen its result exactly when it has seen something that reaches the start. -/
theorem foldl_max_mem_iff {m : κ} {l : List κ} : l.foldl max m ∈ l ↔ ∃ x ∈ l, m ≤ x := by
  constructor
  · intro h
    exact ⟨_, h, le_foldl_max m l⟩
  · rintro ⟨x, hx, hle⟩
    rcases foldl_max_eq_or_mem m l with hstart | hseen
    · have hge := le_foldl_max_of_mem m hx
      rw [hstart] at hge ⊢
      rwa [le_antisymm hle hge]
    · exact hseen

/-- The loop over two lists, one after the other. -/
theorem foldl_max_append (m : κ) (l r : List κ) :
    (l ++ r).foldl max m = max (l.foldl max m) (r.foldl max m) := by
  apply le_antisymm
  · rw [foldl_max_le_iff]
    refine ⟨(le_foldl_max m l).trans (le_max_left _ _), fun x hx => ?_⟩
    rcases List.mem_append.mp hx with hx | hx
    · exact (le_foldl_max_of_mem m hx).trans (le_max_left _ _)
    · exact (le_foldl_max_of_mem m hx).trans (le_max_right _ _)
  · rw [max_le_iff, foldl_max_le_iff, foldl_max_le_iff]
    exact ⟨⟨le_foldl_max m _, fun x hx => le_foldl_max_of_mem m (List.mem_append_left r hx)⟩,
      le_foldl_max m _, fun x hx => le_foldl_max_of_mem m (List.mem_append_right l hx)⟩

end Maximum

/-! ## Weighted sums -/

section Weighted

variable [CommRing κ] [LinearOrder κ] [IsStrictOrderedRing κ] {weight value : α → κ} {l : List α}

/-- A bound on the values of positive weight bounds the weighted sum. -/
theorem sum_weighted_le {b : κ} (hweight : ∀ x ∈ l, 0 ≤ weight x)
    (hvalue : ∀ x ∈ l, 0 < weight x → value x ≤ b) :
    (l.map fun x => weight x * value x).sum ≤ b * (l.map weight).sum := by
  rw [← List.sum_map_mul_left]
  apply List.sum_le_sum
  intro x hx
  rcases (hweight x hx).eq_or_lt with hzero | hpos
  · simp [← hzero]
  · rw [mul_comm]
    exact mul_le_mul_of_nonneg_right (hvalue x hx hpos) hpos.le

theorem le_sum_weighted {b : κ} (hweight : ∀ x ∈ l, 0 ≤ weight x)
    (hvalue : ∀ x ∈ l, 0 < weight x → b ≤ value x) :
    b * (l.map weight).sum ≤ (l.map fun x => weight x * value x).sum := by
  have h : (l.map fun x => weight x * -value x).sum ≤ -b * (l.map weight).sum :=
    sum_weighted_le hweight fun x hx hpos => neg_le_neg (hvalue x hx hpos)
  have hneg : (l.map fun x => weight x * -value x).sum =
      -(l.map fun x => weight x * value x).sum := by
    rw [List.sum_neg, List.map_map]
    simp [Function.comp_def]
  rw [hneg, neg_mul, neg_le_neg_iff] at h
  exact h

/-- A positive sum has a positive term. -/
theorem exists_pos_of_sum_pos (h : 0 < (l.map weight).sum) : ∃ x ∈ l, 0 < weight x := by
  by_contra hnone
  push Not at hnone
  have hle : (l.map weight).sum ≤ 0 := by
    have hsum := List.sum_le_sum (f := weight) (g := fun _ => 0) hnone
    simpa using hsum
  exact absurd h (not_lt.mpr hle)

end Weighted

end TradeProcessor.Library
