/-
  WindowLaws.lean --- the mathematics of a window.

  `Window` states what each pass computes in the terms of the pass itself: a fold
  with a sentinel, the two ends of the deque, two running sums.  This file says
  what these numbers are in the terms of the window: the widest step between
  consecutive trades, the span of their times, a weighted mean of their prices,
  the balance of their rises and falls.
-/
import TradeProcessor.Library.Accumulators
import TradeProcessor.Window

set_option autoImplicit false

namespace TradeProcessor.Window

open TradeProcessor.Library

/-! ## Times -/

/-- The times of the trades, in the order of arrival. -/
def times (w : List Trade) : List Int := w.map Trade.t

/-- The greatest time. -/
def latest (w : List Trade) : Int := (times w).max?.getD 0

/-- The least time. -/
def earliest (w : List Trade) : Int := (times w).min?.getD 0

/-- Trades arrived in the order of their times. -/
def TimeOrdered (w : List Trade) : Prop := w.Pairwise fun x y => x.t ≤ y.t

theorem le_latest {w : List Trade} {x : Trade} (hx : x ∈ w) : x.t ≤ latest w := by
  have hmem : x.t ∈ times w := List.mem_map_of_mem hx
  obtain ⟨m, hm⟩ := Option.isSome_iff_exists.mp (List.isSome_max?_of_mem hmem)
  rw [latest, hm]
  exact (List.max?_eq_some_iff.mp hm).2 _ hmem

theorem earliest_le {w : List Trade} {x : Trade} (hx : x ∈ w) : earliest w ≤ x.t := by
  have hmem : x.t ∈ times w := List.mem_map_of_mem hx
  obtain ⟨m, hm⟩ := Option.isSome_iff_exists.mp (List.isSome_min?_of_mem hmem)
  rw [earliest, hm]
  exact (List.min?_eq_some_iff.mp hm).2 _ hmem

theorem exists_latest {w : List Trade} (hw : w ≠ []) : ∃ x ∈ w, x.t = latest w := by
  have hne : times w ≠ [] := by simpa [times] using hw
  obtain ⟨m, hm⟩ := Option.isSome_iff_exists.mp (List.isSome_max?_of_ne_nil hne)
  obtain ⟨x, hx, hxt⟩ := List.mem_map.mp (List.max?_eq_some_iff.mp hm).1
  exact ⟨x, hx, by rw [latest, hm, hxt]; rfl⟩

theorem exists_earliest {w : List Trade} (hw : w ≠ []) : ∃ x ∈ w, x.t = earliest w := by
  have hne : times w ≠ [] := by simpa [times] using hw
  obtain ⟨m, hm⟩ := Option.isSome_iff_exists.mp (List.isSome_min?_of_ne_nil hne)
  obtain ⟨x, hx, hxt⟩ := List.mem_map.mp (List.min?_eq_some_iff.mp hm).1
  exact ⟨x, hx, by rw [earliest, hm, hxt]; rfl⟩

/-- The span of the times. -/
def span (w : List Trade) : Int := latest w - earliest w

theorem span_nonneg (w : List Trade) : 0 ≤ span w := by
  cases w with
  | nil => exact le_rfl
  | cons x w =>
      have hx : x ∈ x :: w := List.mem_cons_self
      have hle := (earliest_le hx).trans (le_latest hx)
      rw [span]
      omega

theorem sub_le_span {w : List Trade} {x y : Trade} (hx : x ∈ w) (hy : y ∈ w) :
    x.t - y.t ≤ span w := by
  have hxt := le_latest hx
  have hyt := earliest_le hy
  rw [span]
  omega

theorem duration_cons (x : Trade) (w : List Trade) :
    duration (x :: w) = ((x :: w).getLast (by simp)).t - x.t := by
  rw [duration, List.getLast?_eq_some_getLast (by simp)]
  rfl

/-- The ends of a window are not further apart than its span. -/
theorem abs_duration_le_span (w : List Trade) : |duration w| ≤ span w := by
  cases w with
  | nil => exact le_rfl
  | cons x w =>
      have hfirst : x ∈ x :: w := List.mem_cons_self
      have hlast : (x :: w).getLast (by simp) ∈ x :: w := List.getLast_mem _
      rw [duration_cons, abs_le]
      have hup := sub_le_span hlast hfirst
      have hdown := sub_le_span hfirst hlast
      exact ⟨by omega, hup⟩

/-- In time order the ends are the extremes. -/
theorem duration_eq_span {w : List Trade} (h : TimeOrdered w) : duration w = span w := by
  cases w with
  | nil => rfl
  | cons x w =>
      obtain ⟨a, ha, hat⟩ := exists_earliest (w := x :: w) (by simp)
      obtain ⟨b, hb, hbt⟩ := exists_latest (w := x :: w) (by simp)
      have hfirst : x.t ≤ a.t := by
        rcases List.mem_cons.mp ha with rfl | ha
        · exact le_rfl
        · exact List.rel_of_pairwise_cons h ha
      have hlast : b.t ≤ ((x :: w).getLast (by simp)).t := by
        have hsplit := List.dropLast_append_getLast (l := x :: w) (by simp)
        rw [← hsplit] at hb
        rw [TimeOrdered, ← hsplit, List.pairwise_append] at h
        rcases List.mem_append.mp hb with hb | hb
        · exact h.2.2 b hb _ (by simp)
        · rw [List.mem_singleton.mp hb]
      have hle : duration (x :: w) ≤ span (x :: w) :=
        (le_abs_self _).trans (abs_duration_le_span _)
      have hge : span (x :: w) ≤ duration (x :: w) := by
        rw [duration_cons, span, ← hat, ← hbt]
        omega
      exact le_antisymm hle hge

/-! ## The widest gap -/

/-- The steps from each trade to the next. -/
def steps (w : List Trade) : List Int := (adjacent (times w)).map fun q => q.2 - q.1

/-- The widest step forward in time, 0 if there is none. -/
def maxGap (w : List Trade) : Int := (steps w).foldl max 0

/-- The pass with a previous time that is no sentinel. -/
theorem gaps_of_positive (x : Trade) {w : List Trade} (g : Int)
    (hpos : ∀ y ∈ x :: w, 0 < y.t) :
    (gaps ((g : ℚ), x.t) w).1 = (((steps (x :: w)).foldl max g : Int) : ℚ) := by
  induction w generalizing x g with
  | nil => rfl
  | cons y w ih =>
      have hstep : gapStep ((g : ℚ), x.t) y = (((max g (y.t - x.t) : Int) : ℚ), y.t) := by
        have hx : x.t > 0 := hpos x (by simp)
        simp only [gapStep, hx, and_true]
        rw [ite_gt_eq_max, Int.cast_max]
      rw [gaps, List.foldl_cons, hstep]
      exact ih y _ fun z hz => hpos z (by simp [hz])

/-- With positive times the sentinel is met at the first trade only. -/
theorem gaps_eq_maxGap {w : List Trade} (hpos : ∀ x ∈ w, 0 < x.t) :
    (gaps (0, 0) w).1 = (maxGap w : ℚ) := by
  cases w with
  | nil => rfl
  | cons x w =>
      have hfirst : gapStep (0, 0) x = (((0 : Int) : ℚ), x.t) := by simp [gapStep]
      rw [gaps, List.foldl_cons, hfirst]
      exact gaps_of_positive x 0 hpos

theorem maxGap_nonneg (w : List Trade) : 0 ≤ maxGap w := le_foldl_max 0 _

theorem maxGap_le_span (w : List Trade) : maxGap w ≤ span w := by
  refine foldl_max_le_iff.mpr ⟨span_nonneg w, fun d hd => ?_⟩
  obtain ⟨q, hq, rfl⟩ := List.mem_map.mp hd
  obtain ⟨hfst, hsnd⟩ := mem_of_mem_adjacent hq
  obtain ⟨x, hx, hxt⟩ := List.mem_map.mp hfst
  obtain ⟨y, hy, hyt⟩ := List.mem_map.mp hsnd
  rw [← hxt, ← hyt]
  exact sub_le_span hy hx

/-- The steps add up to the time between the ends. -/
theorem sum_steps (w : List Trade) : (steps w).sum = duration w := by
  cases w with
  | nil => rfl
  | cons x w =>
      have htelescope := sum_adjacent_sub x.t (times w)
      have hlast : (x.t :: times w).getLast (by simp) = ((x :: w).getLast (by simp)).t :=
        List.getLast_map (f := Trade.t) (l := x :: w) (by simp)
      rw [duration_cons, ← hlast, ← htelescope]
      rfl

theorem length_steps (w : List Trade) : (steps w).length = w.length - 1 := by
  simp [steps, times, length_adjacent]

/-- In time order no step is wider than the whole. -/
theorem maxGap_le_duration {w : List Trade} (h : TimeOrdered w) : maxGap w ≤ duration w := by
  have hnonneg : ∀ d ∈ steps w, 0 ≤ d := by
    intro d hd
    obtain ⟨q, hq, rfl⟩ := List.mem_map.mp hd
    have hle := pairwise_adjacent (List.pairwise_map.mpr h) q hq
    omega
  rw [← sum_steps]
  refine foldl_max_le_iff.mpr ⟨List.sum_nonneg hnonneg, fun d hd => ?_⟩
  exact List.single_le_sum hnonneg d hd

/-- A pigeonhole: the whole is at most the widest step, once for each step. -/
theorem duration_le_maxGap (w : List Trade) :
    duration w ≤ ((w.length - 1 : Nat) : Int) * maxGap w := by
  have hsum := List.sum_le_card_nsmul (steps w) (maxGap w) fun d hd => le_foldl_max_of_mem 0 hd
  rw [sum_steps, length_steps, nsmul_eq_mul] at hsum
  exact hsum

/-! ## Trades per second -/

/-- The number of trades for each second of the span, 0 for a window that has no
span. -/
def rate (w : List Trade) : ℚ :=
  if 2 ≤ w.length ∧ latest w ≠ earliest w then
    1000 * w.length / ((latest w : ℚ) - (earliest w : ℚ))
  else 0

theorem rate_eq (w : List Trade) :
    rate w = if 2 ≤ w.length ∧ span w ≠ 0 then 1000 * w.length / (span w : ℚ) else 0 := by
  simp only [rate, span, Int.cast_sub, ne_eq, sub_eq_zero]

/-- What the pass computes, for windows of every length. -/
theorem tps_eq (w : List Trade) :
    (if w = [] then 0 else tps w) =
      if 2 ≤ w.length ∧ duration w ≠ 0 then 1000 * w.length / (duration w : ℚ) else 0 := by
  match w with
  | [] => rfl
  | [x] => simp [tps]
  | x :: y :: w =>
      have hlong : 2 ≤ (x :: y :: w).length := by simp
      have hone : ¬ (x :: y :: w).length = 1 := by simp
      simp only [tps, hlong, hone, false_or, true_and, Int.cast_eq_zero, ite_not,
        reduceCtorEq, if_false]
      split
      · rfl
      · ring

/-- The pass computes the rate exactly when the ends of the window are as far apart
as its times are. -/
theorem tps_eq_rate_iff (w : List Trade) :
    (if w = [] then 0 else tps w) = rate w ↔ duration w = span w := by
  have hle := abs_le.mp (abs_duration_le_span w)
  rw [tps_eq, rate_eq]
  by_cases hlong : 2 ≤ w.length
  · have hlength : (1000 * w.length : ℚ) ≠ 0 := by positivity
    simp only [hlong, true_and]
    by_cases hspan : span w = 0
    · have hduration : duration w = 0 := by omega
      simp [hspan, hduration]
    · have hspan' : (span w : ℚ) ≠ 0 := by exact_mod_cast hspan
      rw [if_pos hspan]
      by_cases hduration : duration w = 0
      · rw [if_neg (not_not.mpr hduration), hduration]
        constructor
        · intro h
          exact absurd h.symm (div_ne_zero hlength hspan')
        · intro h
          exact absurd h.symm hspan
      · have hduration' : (duration w : ℚ) ≠ 0 := by exact_mod_cast hduration
        rw [if_pos hduration, div_eq_div_iff hduration' hspan', mul_right_inj' hlength,
          Int.cast_inj, eq_comm]
  · simp only [hlong, false_and, if_false, true_iff]
    match w with
    | [] => rfl
    | [x] => simp [duration, span, latest, earliest, times]
    | x :: y :: w => simp at hlong

/-- The pass yields a negative rate when the last trade is older than the first. -/
theorem tps_nonneg_iff (w : List Trade) :
    0 ≤ (if w = [] then 0 else tps w) ↔ 0 ≤ duration w := by
  rw [tps_eq]
  by_cases hlong : 2 ≤ w.length
  · have hlength : (0 : ℚ) < 1000 * w.length := by positivity
    simp only [hlong, true_and]
    by_cases hduration : duration w = 0
    · simp [hduration]
    · rw [if_pos hduration, div_eq_mul_inv, mul_nonneg_iff_of_pos_left hlength, inv_nonneg]
      exact_mod_cast Iff.rfl
  · have hnil : duration w = 0 := by
      match w with
      | [] => rfl
      | [x] => simp [duration]
      | x :: y :: w => simp at hlong
    simp [hlong, hnil]

/-! ## The weighted average price -/

/-- The prices of the trades that have a volume. -/
def weightedPrices (w : List Trade) : List ℚ :=
  (w.filter fun x => decide (0 < x.v)).map Trade.p

/-- The mean of the prices, weighted with the volumes. -/
def average (w : List Trade) : ℚ := tradedValue w / volume w

theorem mem_weightedPrices {w : List Trade} {p : ℚ} :
    p ∈ weightedPrices w ↔ ∃ x ∈ w, 0 < x.v ∧ x.p = p := by
  simp [weightedPrices, and_assoc]

/-- A weighted mean lies between the least and the greatest value of positive
weight. -/
theorem average_between {w : List Trade} (hv : ∀ x ∈ w, 0 ≤ x.v) (hvol : 0 < volume w) :
    ∃ lo hi, (weightedPrices w).min? = some lo ∧ (weightedPrices w).max? = some hi ∧
      lo ≤ average w ∧ average w ≤ hi := by
  obtain ⟨x, hx, hxv⟩ := exists_pos_of_sum_pos hvol
  have hmem : x.p ∈ weightedPrices w := mem_weightedPrices.mpr ⟨x, hx, hxv, rfl⟩
  obtain ⟨lo, hlo⟩ := Option.isSome_iff_exists.mp (List.isSome_min?_of_mem hmem)
  obtain ⟨hi, hhi⟩ := Option.isSome_iff_exists.mp (List.isSome_max?_of_mem hmem)
  refine ⟨lo, hi, hlo, hhi, ?_, ?_⟩
  · rw [average, le_div_iff₀ hvol]
    apply le_sum_weighted hv
    intro y hy hyv
    exact (List.min?_eq_some_iff.mp hlo).2 _ (mem_weightedPrices.mpr ⟨y, hy, hyv, rfl⟩)
  · rw [average, div_le_iff₀ hvol]
    apply sum_weighted_le hv
    intro y hy hyv
    exact (List.max?_eq_some_iff.mp hhi).2 _ (mem_weightedPrices.mpr ⟨y, hy, hyv, rfl⟩)

theorem maxPrice_eq_foldl_max (m : ℚ) (w : List Trade) :
    maxPrice m w = (w.map Trade.p).foldl max m := by
  simp only [maxPrice, ite_gt_eq_max, List.foldl_map]

/-- The maximum pass starts from 0 and still bounds the mean. -/
theorem average_le_maxPrice {w : List Trade} (hv : ∀ x ∈ w, 0 ≤ x.v) (hvol : 0 < volume w) :
    average w ≤ maxPrice 0 w := by
  rw [average, div_le_iff₀ hvol, maxPrice_eq_foldl_max]
  apply sum_weighted_le hv
  intro x hx _
  exact le_foldl_max_of_mem 0 (List.mem_map_of_mem hx)

/-- The price is that of some trade, and no trade has a greater one. -/
def IsMaxPrice (w : List Trade) (p : ℚ) : Prop :=
  (∃ x ∈ w, x.p = p) ∧ ∀ x ∈ w, x.p ≤ p

/-- The maximum pass finds the greatest price unless all prices are below the 0 that
it starts from. -/
theorem isMaxPrice_iff (w : List Trade) :
    IsMaxPrice w (maxPrice 0 w) ↔ ∃ x ∈ w, 0 ≤ x.p := by
  have hbound : ∀ x ∈ w, x.p ≤ maxPrice 0 w := by
    intro x hx
    rw [maxPrice_eq_foldl_max]
    exact le_foldl_max_of_mem 0 (List.mem_map_of_mem hx)
  have hattained : (∃ x ∈ w, x.p = maxPrice 0 w) ↔ ∃ x ∈ w, 0 ≤ x.p := by
    rw [maxPrice_eq_foldl_max, ← List.mem_map, foldl_max_mem_iff]
    simp only [List.mem_map, exists_exists_and_eq_and]
  exact ⟨fun h => hattained.mp h.1, fun h => ⟨hattained.mpr h, hbound⟩⟩

/-! ## Ticks -/

/-- The trade at another price scale. -/
def scalePrice (c : ℚ) (x : Trade) : Trade := { x with p := c * x.p }

theorem countTicks_zero (w : List Trade) :
    countTicks {} w = { upticks := upticks w, downticks := downticks w } := by
  simp [countTicks]

/-- Read backwards, a rise is a fall. -/
theorem upticks_reverse (w : List Trade) : upticks w.reverse = downticks w := by
  rw [upticks, adjacent_reverse, List.countP_reverse, List.countP_map]
  rfl

theorem downticks_reverse (w : List Trade) : downticks w.reverse = upticks w := by
  rw [← upticks_reverse, List.reverse_reverse]

theorem upticks_scalePrice {c : ℚ} (hc : 0 < c) (w : List Trade) :
    upticks (w.map (scalePrice c)) = upticks w := by
  rw [upticks, adjacent_map, List.countP_map, upticks]
  congr 1
  funext q
  simp [scalePrice, hc]

theorem downticks_scalePrice {c : ℚ} (hc : 0 < c) (w : List Trade) :
    downticks (w.map (scalePrice c)) = downticks w := by
  rw [← upticks_reverse, ← List.map_reverse, upticks_scalePrice hc, upticks_reverse]

end TradeProcessor.Window

namespace TradeProcessor.TIState

/-- The ratio of counters that are not negative lies between -1 and 1. -/
theorem imbalance_mem {u d : Int} (hu : 0 ≤ u) (hd : 0 ≤ d) :
    -1 ≤ imbalance ⟨u, d⟩ ∧ imbalance ⟨u, d⟩ ≤ 1 := by
  unfold imbalance
  split
  · rename_i htotal
    have hpos : (0 : ℚ) < ((u + d : Int) : ℚ) := by exact_mod_cast htotal
    rw [le_div_iff₀ hpos, div_le_iff₀ hpos]
    constructor
    · have hle : -(u + d) ≤ u - d := by omega
      rw [neg_one_mul]
      exact_mod_cast hle
    · have hle : u - d ≤ u + d := by omega
      rw [one_mul]
      exact_mod_cast hle
  · norm_num

/-- Exchanging the counters turns the sign. -/
theorem imbalance_swap (u d : Int) :
    imbalance { upticks := d, downticks := u } =
      -imbalance { upticks := u, downticks := d } := by
  simp only [imbalance, add_comm d u]
  split
  · push_cast
    ring
  · norm_num

/-- From counters at zero the published imbalance is the ratio, also of a window
that is too short to have a pair. -/
theorem imbalance_of_window (w : List Trade) : (Window.features {} w).tickImbalance =
    imbalance { upticks := Window.upticks w, downticks := Window.downticks w } := by
  rw [← Window.countTicks_zero]
  simp only [Window.features]
  split
  · rename_i hshort
    rw [Window.countTicks_of_length_lt _ hshort]
    rfl
  · rfl

/-- Of counters that are not negative the ratio is 0 unless something was counted. -/
theorem imbalance_eq {u d : Int} (hu : 0 ≤ u) (hd : 0 ≤ d) :
    imbalance ⟨u, d⟩ = if u = 0 ∧ d = 0 then 0 else ((u : ℚ) - d) / (u + d) := by
  have htotal : u + d > 0 ↔ ¬ (u = 0 ∧ d = 0) := by omega
  simp only [imbalance, htotal, ite_not]
  push_cast
  rfl

end TradeProcessor.TIState
