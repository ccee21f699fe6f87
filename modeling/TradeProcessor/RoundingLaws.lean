/-
  RoundingLaws.lean --- how far the published doubles are from the exact features.

  The laws of the features are stated for exact numbers; the program computes with
  doubles.  The sums, the average and the rate are off by as many roundings as went
  into them.  The maximum price, the widest gap and the tick counters lose nothing
  but the rounding of the result, because the passes only compare.
-/
import TradeProcessor.Library.RelativeError
import TradeProcessor.Compute
import TradeProcessor.FeatureLaws

set_option autoImplicit false

namespace TradeProcessor.Rounded

open TradeProcessor.Json TradeProcessor.Library

/-! ## One operation -/

/-- So many errors below the largest double. -/
def Below (k : Nat) (x : ℚ) : Prop := x < 2 ^ 1024 * (1 - roundoff) ^ k

/-- So many errors above the least double with all its digits. -/
def Above (k : Nat) (x : ℚ) : Prop := 2 ^ (-1022 : Int) ≤ (1 - roundoff) ^ k * x

/-- The double is a number within so many errors of `x`. -/
def Approximates (k : Nat) (d : Double) (x : ℚ) : Prop :=
  ∃ r, d = .finite r ∧ 0 ≤ r ∧ binary64.OnGrid r ∧ Within roundoff k x r

variable {k j : Nat} {x y : ℚ} {d e : Double}

theorem Below.mono (h : Below k x) (hjk : j ≤ k) : Below j x :=
  h.trans_le (mul_le_mul_of_nonneg_left
    (Within.factor_anti roundoff_nonneg roundoff_lt_one hjk) (by positivity))

theorem Below.of_le (h : Below k y) (hxy : x ≤ y) : Below k x := hxy.trans_lt h

/-- What an operation rounds is within `k` errors of `x`; with the rounding there is
one more. -/
theorem approximates_binary64 (hy : 0 ≤ y) (hxy : Within roundoff k x y)
    (herror : |binary64.round y - y| ≤ roundoff * |y|) (hbelow : Below (k + 1) x) :
    Approximates (k + 1) (Double.round y) x := by
  have hround : 0 ≤ binary64.round y := Format.round_nonneg hy
  have hwithin : Within roundoff (k + 1) x (binary64.round y) :=
    hxy.trans roundoff_nonneg roundoff_lt_one
      (Within.of_abs_sub_le roundoff_nonneg roundoff_lt_one hy herror)
  refine ⟨binary64.round y, Double.round_eq ?_, hround, Format.onGrid_round y, hwithin⟩
  rw [abs_of_nonneg hround]
  have hfactor := Within.factor_pos roundoff_nonneg roundoff_lt_one (k + 1)
  have hroom : (1 - roundoff) ^ (k + 1) * binary64.round y <
      (1 - roundoff) ^ (k + 1) * 2 ^ 1024 := by
    rw [mul_comm _ (2 ^ 1024 : ℚ)]
    exact hwithin.upper.trans_lt hbelow
  exact lt_of_mul_lt_mul_left hroom hfactor.le

/-- A number that is read. -/
theorem approximates_read (hx : 0 ≤ x) (hgrid : binary64.OnGrid x) (hbelow : Below 1 x) :
    Approximates 1 (Double.round x) x :=
  approximates_binary64 (k := 0) hx (Within.refl roundoff_nonneg roundoff_lt_one hx 0)
    (Format.abs_round_sub_le_of_onGrid hgrid) hbelow

/-- A sum of doubles; it is exact where digits are missing. -/
theorem Approximates.add (hd : Approximates k d x) (he : Approximates k e y)
    (hbelow : Below (k + 1) (x + y)) :
    Approximates (k + 1) (d + e) (x + y) := by
  obtain ⟨r, rfl, hr, hrgrid, hrx⟩ := hd
  obtain ⟨t, rfl, ht, htgrid, hty⟩ := he
  exact approximates_binary64 (add_nonneg hr ht) (hrx.add hty)
    (Format.abs_round_sub_le_of_onGrid (hrgrid.add htgrid)) hbelow

theorem Approximates.mono (h : Approximates j d x) (hx : 0 ≤ x) (hjk : j ≤ k) :
    Approximates k d x := by
  obtain ⟨r, hd, hr, hgrid, hwithin⟩ := h
  exact ⟨r, hd, hr, hgrid, hwithin.mono roundoff_nonneg roundoff_lt_one hx hr hjk⟩

/-- A number that is far enough from zero still has all its digits after `k` errors. -/
theorem abs_round_sub_le_of_above (hy : 0 ≤ y) (hxy : Within roundoff k x y)
    (habove : Above k x) : |binary64.round y - y| ≤ roundoff * |y| := by
  apply Format.abs_round_sub_le_of_normal
  rw [abs_of_nonneg hy]
  exact habove.trans hxy.lower

/-- A product of doubles that vanishes or keeps its digits. -/
theorem Approximates.mul (hd : Approximates j d x) (he : Approximates k e y) (hx : 0 ≤ x)
    (hy : 0 ≤ y) (habove : x * y = 0 ∨ Above (j + k) (x * y))
    (hbelow : Below (j + k + 1) (x * y)) :
    Approximates (j + k + 1) (d * e) (x * y) := by
  obtain ⟨r, rfl, hr, _, hrx⟩ := hd
  obtain ⟨t, rfl, ht, _, hty⟩ := he
  have hwithin := hrx.mul roundoff_nonneg roundoff_lt_one hty hx hr hy ht
  refine approximates_binary64 (mul_nonneg hr ht) hwithin ?_ hbelow
  rcases habove with hzero | habove
  · -- a product of zero has a factor of zero
    have hupper := hwithin.upper
    rw [hzero] at hupper
    have hfactor := Within.factor_pos roundoff_nonneg roundoff_lt_one (j + k)
    have hprod : r * t = 0 :=
      le_antisymm (nonpos_of_mul_nonpos_right hupper hfactor) (mul_nonneg hr ht)
    rw [hprod]
    simp
  · exact abs_round_sub_le_of_above (mul_nonneg hr ht) hwithin habove

/-- A quotient of doubles that keeps its digits. -/
theorem Approximates.quotient (hd : Approximates j d x) (he : Approximates k e y) (hx : 0 ≤ x)
    (hy : 0 < y) (habove : Above (j + k) (x / y)) (hbelow : Below (j + k + 1) (x / y)) :
    Approximates (j + k + 1) (d / e) (x / y) := by
  obtain ⟨r, rfl, hr, _, hrx⟩ := hd
  obtain ⟨t, rfl, ht, _, hty⟩ := he
  have htpos := hty.pos roundoff_nonneg roundoff_lt_one hy
  have hwithin := hrx.div roundoff_nonneg roundoff_lt_one hty hx hr hy
  rw [Double.quotient_finite _ htpos.ne']
  exact approximates_binary64 (div_nonneg hr htpos.le) hwithin
    (abs_round_sub_le_of_above (div_nonneg hr htpos.le) hwithin habove) hbelow

/-! ### Numbers of ordinary size -/

theorem factor_ge (hk : k ≤ 100) : (1 / 2 : ℚ) ^ 100 ≤ (1 - roundoff) ^ k := by
  have hhalf : (1 / 2 : ℚ) ≤ 1 - roundoff := by
    have := Format.unit_le_half (F := binary64)
    linarith
  exact (pow_le_pow_left₀ (by norm_num) hhalf 100).trans
    (Within.factor_anti roundoff_nonneg roundoff_lt_one hk)

theorem above_of_le (hk : k ≤ 100) (hx : (1 : ℚ) / 2 ^ 100 ≤ x) : Above k x := by
  calc (2 : ℚ) ^ (-1022 : Int) ≤ 2 ^ (-200 : Int) := zpow_le_zpow_right₀ one_le_two (by norm_num)
    _ = (1 / 2) ^ 100 * (1 / 2 ^ 100) := by norm_num
    _ ≤ (1 - roundoff) ^ k * x := mul_le_mul (factor_ge hk) hx (by norm_num)
        (Within.factor_pos roundoff_nonneg roundoff_lt_one k).le

theorem below_of_le (hk : k ≤ 100) (hx : x ≤ 2 ^ 100) : Below k x := by
  calc x ≤ 2 ^ 100 := hx
    _ < 2 ^ 200 * (1 / 2) ^ 99 := by norm_num
    _ = 2 ^ 201 * (1 / 2) ^ 100 := by norm_num
    _ ≤ 2 ^ 1024 * (1 - roundoff) ^ k :=
        mul_le_mul (pow_le_pow_right₀ one_le_two (by norm_num)) (factor_ge hk) (by norm_num)
          (by positivity)

/-! ## Sums -/

/-- A loop that adds up doubles: one error for each addition, on top of those of the
terms. -/
theorem approximates_sum {α : Type} {term : α → Double} (value : α → ℚ) {l : List α}
    (hnonneg : ∀ a ∈ l, 0 ≤ value a) (hterm : ∀ a ∈ l, Approximates k (term a) (value a))
    (hbelow : Below (k + l.length) (l.map value).sum) :
    Approximates (k + l.length)
      (l.foldl (fun s a => s + term a) 0) (l.map value).sum := by
  induction l using List.reverseRecOn with
  | nil =>
      exact ⟨0, rfl, le_rfl, ⟨0, by simp⟩,
        Within.refl roundoff_nonneg roundoff_lt_one le_rfl _⟩
  | append_singleton l a ih =>
      have ha : 0 ≤ value a := hnonneg a (by simp)
      rw [List.map_append, List.map_singleton, List.sum_append, List.sum_singleton,
        List.length_append, List.length_singleton, ← add_assoc] at hbelow ⊢
      rw [List.foldl_append, List.foldl_cons, List.foldl_nil]
      refine Approximates.add
        (ih (fun b hb => hnonneg b (by simp [hb])) (fun b hb => hterm b (by simp [hb])) ?_)
        ((hterm a (by simp)).mono ha (Nat.le_add_right k l.length)) hbelow
      exact (hbelow.mono (Nat.le_succ _)).of_le (le_add_of_nonneg_right ha)

variable {w : List Trade} {s : SymbolState Double Double}

/-- Volumes and prices as they come from JSON, none of them negative. -/
def Quoted (w : List Trade) : Prop :=
  ∀ x ∈ w, 0 ≤ x.v ∧ binary64.OnGrid x.v ∧ 0 ≤ x.p ∧ binary64.OnGrid x.p

theorem volume_nonneg (hw : Quoted w) : 0 ≤ Window.volume w :=
  List.sum_nonneg fun b hb => by
    obtain ⟨x, hx, rfl⟩ := List.mem_map.mp hb
    exact (hw x hx).1

theorem tradedValue_nonneg (hw : Quoted w) : 0 ≤ Window.tradedValue w :=
  List.sum_nonneg fun b hb => by
    obtain ⟨x, hx, rfl⟩ := List.mem_map.mp hb
    exact mul_nonneg (hw x hx).1 (hw x hx).2.2.1

theorem v_le_volume (hw : Quoted w) {x : Trade} (hx : x ∈ w) : x.v ≤ Window.volume w :=
  List.single_le_sum
    (fun b hb => by
      obtain ⟨y, hy, rfl⟩ := List.mem_map.mp hb
      exact (hw y hy).1)
    _ (List.mem_map_of_mem hx)

theorem value_le_tradedValue (hw : Quoted w) {x : Trade} (hx : x ∈ w) :
    x.v * x.p ≤ Window.tradedValue w :=
  List.single_le_sum
    (fun b hb => by
      obtain ⟨y, hy, rfl⟩ := List.mem_map.mp hb
      exact mul_nonneg (hw y hy).1 (hw y hy).2.2.1)
    _ (List.mem_map_of_mem (f := fun x : Trade => x.v * x.p) hx)

/-- The volume pass. -/
theorem approximates_volume (hw : Quoted w) (hbelow : Below (w.length + 1) (Window.volume w)) :
    Approximates (w.length + 1) (w.foldl Pass.volStep (0 : Double))
      (Window.volume w) := by
  rw [add_comm] at hbelow ⊢
  refine approximates_sum Trade.v (fun x hx => (hw x hx).1) (fun x hx => ?_) hbelow
  exact approximates_read (hw x hx).1 (hw x hx).2.1
    ((hbelow.mono (by omega)).of_le (v_le_volume hw hx))

theorem foldl_wapStep (acc : WAPState Double) (w : List Trade) :
    w.foldl Pass.wapStep acc =
      ⟨w.foldl (fun s x => s + Double.round x.v * Double.round x.p) acc.numer,
        w.foldl Pass.volStep acc.denom⟩ := by
  induction w generalizing acc with
  | nil => rfl
  | cons x w ih =>
      rw [List.foldl_cons, ih]
      rfl

/-- The numbers of a window keep their digits through the weighted average pass. -/
structure InRange (w : List Trade) : Prop where
  quoted : Quoted w
  price : ∀ x ∈ w, Below 1 x.p
  product : ∀ x ∈ w, x.v * x.p = 0 ∨ Above 2 (x.v * x.p)
  volume : Below (w.length + 1) (Window.volume w)
  tradedValue : Below (w.length + 3) (Window.tradedValue w)

/-- The numerator of the weighted average. -/
theorem approximates_tradedValue (hw : InRange w) :
    Approximates (w.length + 3)
      (w.foldl (fun s x => s + Double.round x.v * Double.round x.p) 0)
      (Window.tradedValue w) := by
  have hbelow := hw.tradedValue
  rw [add_comm] at hbelow ⊢
  refine approximates_sum (fun x : Trade => x.v * x.p)
    (fun x hx => mul_nonneg (hw.quoted x hx).1 (hw.quoted x hx).2.2.1) (fun x hx => ?_) hbelow
  obtain ⟨hv, hvgrid, hp, hpgrid⟩ := hw.quoted x hx
  have hvol : Below 1 x.v :=
    (hw.volume.mono (by omega)).of_le (v_le_volume hw.quoted hx)
  exact Approximates.mul (approximates_read hv hvgrid hvol)
    (approximates_read hp hpgrid (hw.price x hx)) hv hp (hw.product x hx)
    ((hbelow.mono (by omega)).of_le (value_le_tradedValue hw.quoted hx))

/-! ## The published sums -/

/-- The volume is off by one rounding for each trade and one for each addition, the
weighted average by those of both its sums and of the quotient, whatever the state
held before; and by no more than that does it exceed the maximum price. -/
theorem published_sums_within (hreads : ReadsAs s.trades w) (hw : InRange w)
    (hpos : 0 < Window.volume w) (habove : Above (2 * w.length + 4) (Window.average w))
    (hbelow : Below (2 * w.length + 5) (Window.average w)) :
    ∃ s' vol wap, computeSymbol calcTypes s = .ok () s' ∧
      s'.features.vol = .finite vol ∧ s'.features.weightedAvgPrice = .finite wap ∧
      Within roundoff (w.length + 1) (Window.volume w) vol ∧
      Within roundoff (2 * w.length + 5) (Window.average w) wap ∧
      ((2 * w.length + 5 : Nat) * roundoff ≤ 1 / 2 →
        |wap - Window.average w| ≤
          2 * ((2 * w.length + 5 : Nat) * roundoff) * Window.average w) ∧
      (1 - roundoff) ^ (2 * w.length + 5) * wap ≤ Window.maxPrice 0 w := by
  obtain ⟨trades, _, hrun⟩ := computeSymbol_pass hreads
  have hvol := approximates_volume hw.quoted hw.volume
  have hsum : w.length + 3 + (w.length + 1) = 2 * w.length + 4 := by omega
  have hwap := (approximates_tradedValue hw).quotient hvol (tradedValue_nonneg hw.quoted) hpos
    (by rw [hsum]; exact habove) (by rw [hsum]; exact hbelow)
  rw [hsum] at hwap
  obtain ⟨vol, hvoleq, _, _, hvolwithin⟩ := hvol
  obtain ⟨wap, hwapeq, hwapnonneg, _, hwapwithin⟩ := hwap
  have hne : w ≠ [] := by
    rintro rfl
    exact hpos.ne' rfl
  have haverage : 0 ≤ Window.average w :=
    div_nonneg (tradedValue_nonneg hw.quoted) (volume_nonneg hw.quoted)
  have hmax := Window.average_le_maxPrice (fun x hx => (hw.quoted x hx).1) hpos
  refine ⟨_, vol, wap, hrun, hvoleq, ?_, hvolwithin, hwapwithin, fun hfew => ?_,
    hwapwithin.upper.trans hmax⟩
  · simp only [SymbolState.passed, Pass.features, if_neg hne, foldl_wapStep]
    exact hwapeq
  · exact hwapwithin.abs_sub_le roundoff_nonneg roundoff_lt_one haverage hwapnonneg hfew

/-- What an earlier call may leave behind. -/
def leftoverDoubles (trades : List Value) : SymbolState Double Double where
  trades := trades
  features := { maxGap := .finite 99, vol := .finite 5, weightedAvgPrice := .nan }
  maxGapState := { prevTime := 17 }
  wapState := { numer := .finite 7, denom := .infinite true }

theorem inRange_threeWindow : InRange threeWindow where
  quoted := by
    have hgrid : ∀ n : Nat, binary64.OnGrid n := fun n => by exact_mod_cast onGrid_int n
    intro x hx
    simp only [threeWindow, List.mem_cons, List.not_mem_nil, or_false] at hx
    rcases hx with rfl | rfl | rfl
    · exact ⟨by norm_num, by exact_mod_cast hgrid 2, by norm_num, by exact_mod_cast hgrid 10⟩
    · exact ⟨by norm_num, by exact_mod_cast hgrid 1, by norm_num, by exact_mod_cast hgrid 40⟩
    · exact ⟨by norm_num, by exact_mod_cast hgrid 1, by norm_num, by exact_mod_cast hgrid 20⟩
  price := by
    intro x hx
    apply below_of_le (by omega)
    simp only [threeWindow, List.mem_cons, List.not_mem_nil, or_false] at hx
    rcases hx with rfl | rfl | rfl <;> norm_num
  product := by
    intro x hx
    refine .inr (above_of_le (by omega) ?_)
    simp only [threeWindow, List.mem_cons, List.not_mem_nil, or_false] at hx
    rcases hx with rfl | rfl | rfl <;> norm_num
  volume := below_of_le (by decide) (by norm_num [Window.volume, threeWindow])
  tradedValue := below_of_le (by decide) (by norm_num [Window.tradedValue, threeWindow])

theorem average_threeWindow : Window.average threeWindow = 20 := by decide +kernel

theorem published_sums_within_three_trades : ∃ s' vol wap,
    computeSymbol calcTypes (leftoverDoubles threeItems) = .ok () s' ∧
    s'.features.vol = .finite vol ∧ s'.features.weightedAvgPrice = .finite wap ∧
    Within roundoff 4 4 vol ∧ Within roundoff 11 20 wap := by
  have haverage := average_threeWindow
  have hvolume : Window.volume threeWindow = 4 := by decide +kernel
  obtain ⟨s', vol, wap, hrun, hvol, hwap, hvolwithin, hwapwithin, _, _⟩ :=
    published_sums_within (s := leftoverDoubles threeItems) readsAs_threeWindow
      inRange_threeWindow (by rw [hvolume]; norm_num)
      (above_of_le (by decide) (by rw [haverage]; norm_num))
      (below_of_le (by decide) (by rw [haverage]; norm_num))
  rw [hvolume] at hvolwithin
  rw [haverage] at hwapwithin
  exact ⟨s', vol, wap, hrun, hvol, hwap, hvolwithin, hwapwithin⟩

/-- The order of the trades moves the published volume by no more roundings than went
into two of them. -/
theorem volume_perm_within {w' : List Trade} {s' : SymbolState Double Double} (hperm : w.Perm w')
    (hreads : ReadsAs s.trades w) (hreads' : ReadsAs s'.trades w') (hw : Quoted w)
    (hbelow : Below (w.length + 1) (Window.volume w)) :
    ∃ t t' vol vol', computeSymbol calcTypes s = .ok () t ∧
      computeSymbol calcTypes s' = .ok () t' ∧
      t.features.vol = .finite vol ∧ t'.features.vol = .finite vol' ∧
      Within roundoff (2 * w.length + 2) vol vol' := by
  obtain ⟨_, _, hrun⟩ := computeSymbol_pass hreads
  obtain ⟨_, _, hrun'⟩ := computeSymbol_pass hreads'
  have hw' : Quoted w' := fun x hx => hw x (hperm.mem_iff.mpr hx)
  have hsum : Window.volume w' = Window.volume w := (hperm.map Trade.v).sum_eq.symm
  have hlength : w'.length = w.length := hperm.length_eq.symm
  obtain ⟨vol, hvol, _, _, hwithin⟩ := approximates_volume hw hbelow
  obtain ⟨vol', hvol', _, _, hwithin'⟩ :=
    approximates_volume hw' (by rw [hlength, hsum]; exact hbelow)
  rw [hlength, hsum] at hwithin'
  refine ⟨_, _, vol, vol', hrun, hrun', hvol, hvol', ?_⟩
  have hchain := hwithin.symm.trans roundoff_nonneg roundoff_lt_one hwithin'
  rwa [show w.length + 1 + (w.length + 1) = 2 * w.length + 2 by omega] at hchain

theorem volume_perm_within_three_trades : ∃ t t' vol vol',
    computeSymbol calcTypes (leftoverDoubles threeItems) = .ok () t ∧
    computeSymbol calcTypes (leftoverDoubles threeItems.reverse) = .ok () t' ∧
    t.features.vol = .finite vol ∧ t'.features.vol = .finite vol' ∧ Within roundoff 8 vol vol' :=
  volume_perm_within (List.reverse_perm threeWindow).symm readsAs_threeWindow
    (List.rel_reverse readsAs_threeWindow) inRange_threeWindow.quoted inRange_threeWindow.volume

/-! ## Comparisons -/

/-- A number that a double holds. -/
def IsDouble (x : ℚ) : Prop := binary64.Representable x ∧ |x| < 2 ^ 1024

theorem binary64_of_isDouble (h : IsDouble x) : Double.round x = .finite x := by
  have hround := Format.round_of_representable h.1
  rw [Double.round_eq (by rw [hround]; exact h.2), hround]

/-- A rounded number has the sign of the number, also when it overflows. -/
theorem round_pos_iff (hx : binary64.OnGrid x) : 0 < Double.round x ↔ 0 < x := by
  have hpos := Format.round_pos_iff hx
  simp only [Double.round]
  split
  · rw [Double.zero_eq, Double.finite_lt_finite]
    exact hpos
  · rename_i hlarge
    have hne : binary64.round x ≠ 0 := by
      intro hzero
      rw [hzero, abs_zero] at hlarge
      exact hlarge (by positivity)
    rw [Double.zero_eq, Double.lt_iff_greater, Double.greater, ← decide_not, decide_eq_true_eq,
      not_lt, ← hpos]
    exact ⟨fun h => lt_of_le_of_ne h hne.symm, le_of_lt⟩

theorem round_neg_iff (hx : binary64.OnGrid x) : Double.round x < 0 ↔ x < 0 := by
  have hneg := Format.round_neg_iff hx
  simp only [Double.round]
  split
  · rw [Double.zero_eq, Double.finite_lt_finite]
    exact hneg
  · rw [Double.zero_eq, Double.lt_iff_greater, Double.greater, decide_eq_true_eq]
    exact hneg

/-- The maximum price pass over prices that are doubles. -/
theorem foldl_priceStep_double {w : List Trade} (hw : ∀ x ∈ w, IsDouble x.p) (m : ℚ) :
    w.foldl Pass.priceStep (Double.finite m) = .finite (Window.maxPrice m w) := by
  induction w generalizing m with
  | nil => rfl
  | cons x w ih =>
      have hstep : Pass.priceStep (Double.finite m) x =
          .finite (if x.p > m then x.p else m) := by
        simp only [Pass.priceStep, double_double, binary64_of_isDouble (hw x (by simp)),
          gt_iff_lt, Double.finite_lt_finite]
        split <;> rfl
      rw [List.foldl_cons, hstep, ih fun y hy => hw y (by simp [hy])]
      rfl

/-- The tick pass over prices that are doubles, with counters that fit into `int`. -/
theorem foldl_tickStep_binary64 {ti : TIState} (hw : ∀ x ∈ w, IsDouble x.p)
    (hup : 0 ≤ ti.upticks) (hdown : 0 ≤ ti.downticks)
    (htotal : (Window.countTicks ti w).total < 2 ^ 31) :
    (adjacent w).foldl (Pass.tickStep Double) ti = Window.countTicks ti w := by
  simp only [TIState.total, Window.countTicks, Window.upticks, Window.downticks] at htotal
  have hdiff : ∀ q ∈ adjacent w,
      Double.round q.2.p - Double.round q.1.p =
        Double.round (q.2.p - q.1.p) ∧ binary64.OnGrid (q.2.p - q.1.p) := by
    intro q hq
    obtain ⟨hfst, hsnd⟩ := mem_of_mem_adjacent hq
    refine ⟨?_, (hw _ hsnd).1.onGrid.sub (hw _ hfst).1.onGrid⟩
    rw [binary64_of_isDouble (hw _ hfst), binary64_of_isDouble (hw _ hsnd), Double.sub_finite]
  apply Pass.foldl_tickStep
  · intro q hq
    obtain ⟨heq, hgrid⟩ := hdiff q hq
    rw [double_double, double_double, heq, round_pos_iff hgrid, sub_pos]
  · intro q hq
    obtain ⟨heq, hgrid⟩ := hdiff q hq
    rw [double_double, double_double, heq, round_neg_iff hgrid, sub_neg]
  · intro n _ _
    exact int_double (by unfold InInt; omega)
  · intro n _ _
    exact int_double (by unfold InInt; omega)

theorem two_pow_lt_large {n : Nat} (hn : n < 1024) : (2 : ℚ) ^ n < 2 ^ 1024 :=
  pow_lt_pow_right₀ one_lt_two hn

/-- A whole number of few digits is a double. -/
theorem isDouble_int {n : Int} (hn : |n| ≤ 2 ^ 53) : IsDouble n := by
  refine ⟨Format.representable_intCast (by decide) hn, ?_⟩
  have hcast : |(n : ℚ)| ≤ 2 ^ 53 := by exact_mod_cast hn
  exact hcast.trans_lt (two_pow_lt_large (by omega))

/-- Whole numbers of 64 bits do not overflow. -/
theorem binary64_int {n : Int} (hn : |n| ≤ 2 ^ 64) :
    Double.round n = .finite (binary64.round n) := by
  have hlarge : binary64.Representable ((2 ^ 64 : ℚ)) :=
    ⟨1, 64, by norm_num [binary64], by norm_num [binary64], by norm_num⟩
  have hcast : |(n : ℚ)| ≤ 2 ^ 64 := by exact_mod_cast hn
  apply Double.round_eq
  calc |binary64.round n| = binary64.round |(n : ℚ)| := Format.abs_round _
    _ ≤ binary64.round (2 ^ 64) := Format.round_mono hcast
    _ = 2 ^ 64 := Format.round_of_representable hlarge
    _ < 2 ^ 1024 := two_pow_lt_large (by omega)

/-- A difference of two times that fits. -/
theorem binary64_long {n : Int} (hn : InInt64 n) :
    Double.round (Arithmetic.long (N := Double) n) = .finite (binary64.round n) := by
  rw [long_double hn]
  apply binary64_int
  unfold InInt64 minInt64 maxInt64 at hn
  rw [abs_le]
  omega

/-- A quotient of whole numbers of few digits. -/
theorem ratio_isNumber {a b : Int} (ha : |a| ≤ 2 ^ 53) (hb : 0 < b) (hb' : b ≤ 2 ^ 53) :
    (Double.round a / Double.round b).IsNumber := by
  have hbabs : |b| ≤ 2 ^ 53 := by rwa [abs_of_pos hb]
  have hbq : (1 : ℚ) ≤ b := by exact_mod_cast hb
  have haq : |(a : ℚ)| ≤ 2 ^ 53 := by exact_mod_cast ha
  have hquotient : |(a : ℚ) / b| ≤ ((2 ^ 53 : Int) : ℚ) := by
    rw [abs_div, abs_of_pos (by linarith : (0 : ℚ) < b)]
    exact (div_le_self (abs_nonneg _) hbq).trans (by exact_mod_cast haq)
  have hround := Format.round_mono (F := binary64) hquotient
  rw [← Format.abs_round,
    Format.round_of_representable (isDouble_int (n := 2 ^ 53) (by norm_num)).1] at hround
  rw [binary64_of_isDouble (isDouble_int ha), binary64_of_isDouble (isDouble_int hbabs),
    Double.quotient_finite _ (by linarith : (b : ℚ) ≠ 0)]
  have hlarge : ((2 ^ 53 : Int) : ℚ) < 2 ^ 1024 := by
    rw [Int.cast_pow, Int.cast_ofNat]
    exact two_pow_lt_large (by omega)
  exact ⟨_, Double.round_eq (hround.trans_lt hlarge)⟩

/-- The time gap pass ends with the rounded widest gap: the rounding of a larger gap is
not smaller. -/
theorem foldl_gapStep_binary64 (g : ℚ) {prev : Int}
    (hfirst : ∀ x, w.head? = some x → InInt64 (x.t - prev))
    (hgaps : ∀ q ∈ adjacent w, InInt64 (q.2.t - q.1.t)) :
    w.foldl (Pass.gapStep (N := Double)) (.finite (binary64.round g), prev) =
      (.finite (binary64.round (Window.gaps (g, prev) w).1), (Window.gaps (g, prev) w).2) := by
  induction w generalizing g prev with
  | nil => rfl
  | cons x w ih =>
      have hgap := binary64_long (hfirst x rfl)
      have hstep : Pass.gapStep (N := Double) (.finite (binary64.round g), prev) x =
          (.finite (binary64.round (Window.gapStep (g, prev) x).1), x.t) := by
        simp only [Pass.gapStep, Window.gapStep, double_double, hgap, gt_iff_lt,
          Double.finite_lt_finite]
        by_cases hpos : prev > 0
        · simp only [hpos, and_true]
          rcases lt_or_ge g ((x.t - prev : Int) : ℚ) with hlt | hge
          · have hmono := Format.round_mono (F := binary64) hlt.le
            rw [if_pos hlt]
            rcases hmono.lt_or_eq with hround | hround
            · rw [if_pos hround]
            · rw [if_neg (not_lt.mpr hround.ge), hround]
          · have hmono := Format.round_mono (F := binary64) hge
            rw [if_neg (not_lt.mpr hge), if_neg (not_lt.mpr hmono)]
        · simp [hpos]
      have hrest : ∀ q ∈ adjacent w, InInt64 (q.2.t - q.1.t) := fun q hq =>
        hgaps q (mem_adjacent_cons.mpr (.inr hq))
      have hnext : ∀ y, w.head? = some y → InInt64 (y.t - x.t) := fun y hy =>
        hgaps (x, y) (mem_adjacent_cons.mpr (.inl ⟨rfl, hy⟩))
      rw [List.foldl_cons, hstep, ih _ hnext hrest]
      rfl

/-- The ratio of counters that are doubles. -/
theorem imbalance_binary64 {ti : TIState} (hup : 0 ≤ ti.upticks) (hdown : 0 ≤ ti.downticks)
    (htotal : ti.total < 2 ^ 31) :
    (Pass.imbalance ti : Double) = .finite (binary64.round ti.imbalance) ∧
      |binary64.round ti.imbalance| ≤ 1 := by
  have hfits := (TIState.fitsInt_iff hup hdown).mpr (by omega)
  unfold TIState.total at htotal
  have hone : binary64.round 1 = 1 := by
    have h := Format.round_of_representable (isDouble_int (n := 1) (by norm_num)).1
    exact_mod_cast h
  simp only [Pass.imbalance, TIState.imbalance, double_double, int_double hfits.sum,
    int_double hfits.difference]
  split_ifs with hpos
  · have hdifference : |ti.upticks - ti.downticks| ≤ 2 ^ 53 := by
      rw [abs_le]
      omega
    have hsum : |ti.upticks + ti.downticks| ≤ 2 ^ 53 := by
      rw [abs_le]
      omega
    have hpos' : (0 : ℚ) < (ti.upticks + ti.downticks : Int) := by exact_mod_cast hpos
    have habs : |((ti.upticks - ti.downticks : Int) : ℚ) / (ti.upticks + ti.downticks : Int)| ≤
        1 := by
      rw [abs_div, abs_of_pos hpos', div_le_one hpos', ← Int.cast_abs, Int.cast_le, abs_le]
      omega
    have hround := Format.round_mono (F := binary64) habs
    rw [← Format.abs_round, hone] at hround
    have hlarge : (1 : ℚ) < 2 ^ 1024 := one_lt_pow₀ one_lt_two (by omega)
    refine ⟨?_, hround⟩
    rw [binary64_of_isDouble (isDouble_int hdifference),
      binary64_of_isDouble (isDouble_int hsum),
      Double.quotient_finite _ hpos'.ne', Double.round_eq (hround.trans_lt hlarge)]
  · simp

/-- The passes that only compare: the maximum price and the tick counters are those of
the exact model, the widest gap and the ratio of the counters are the doubles nearest
to those of the exact model.  The differences of neighbouring times fit into `long`, the
counters into `int`. -/
theorem published_comparisons (hreads : ReadsAs s.trades w) (hprices : ∀ x ∈ w, IsDouble x.p)
    (htimes : ∀ x ∈ w, InInt64 x.t) (hgaps : ∀ q ∈ adjacent w, InInt64 (q.2.t - q.1.t))
    (hup : 0 ≤ s.tiState.upticks) (hdown : 0 ≤ s.tiState.downticks)
    (htotal : (Window.countTicks s.tiState w).total < 2 ^ 31) :
    ∃ s', computeSymbol calcTypes s = .ok () s' ∧
      s'.features.maxPrice = .finite (Window.features s.tiState w).maxPrice ∧
      s'.features.maxGap = .finite (binary64.round (Window.features s.tiState w).maxGap) ∧
      s'.tiState = Window.countTicks s.tiState w ∧
      s'.features.tickImbalance =
        .finite (binary64.round (Window.features s.tiState w).tickImbalance) ∧
      |binary64.round (Window.features s.tiState w).tickImbalance| ≤ 1 := by
  obtain ⟨trades, _, hrun⟩ := computeSymbol_pass hreads
  have hfirst : ∀ x, w.head? = some x → InInt64 (x.t - 0) := fun x hx => by
    rw [sub_zero]
    exact htimes x (List.mem_of_mem_head? hx)
  have hgap := foldl_gapStep_binary64 0 hfirst hgaps
  rw [Format.round_zero, ← Double.zero_eq] at hgap
  have hticks := foldl_tickStep_binary64 hprices hup hdown htotal
  have hupNow : 0 ≤ (Window.countTicks s.tiState w).upticks := by
    simp only [Window.countTicks]
    omega
  have hdownNow : 0 ≤ (Window.countTicks s.tiState w).downticks := by
    simp only [Window.countTicks]
    omega
  obtain ⟨himbalance, hone⟩ := imbalance_binary64 hupNow hdownNow htotal
  refine ⟨_, hrun, ?_, ?_, hticks, ?_, ?_⟩
  · exact foldl_priceStep_double hprices 0
  · simp only [SymbolState.passed, Pass.features, Window.features, hgap]
  · simp only [SymbolState.passed, Pass.features, Window.features, hticks, himbalance]
    split_ifs <;> simp
  · simp only [Window.features]
    split_ifs
    · simp
    · exact hone

theorem published_comparisons_three_trades : ∃ s',
    computeSymbol calcTypes (leftoverDoubles threeItems) = .ok () s' ∧
    s'.features.maxPrice = .finite 40 := by
  have hint : ∀ n : Nat, (n : Int) ≤ 2 ^ 53 → IsDouble n := fun n hn => by
    exact_mod_cast isDouble_int (n := n) (by rwa [abs_of_nonneg (Int.natCast_nonneg n)])
  have hprices : ∀ x ∈ threeWindow, IsDouble x.p := by
    intro x hx
    simp only [threeWindow, List.mem_cons, List.not_mem_nil, or_false] at hx
    rcases hx with rfl | rfl | rfl
    · exact_mod_cast hint 10 (by norm_num)
    · exact_mod_cast hint 40 (by norm_num)
    · exact_mod_cast hint 20 (by norm_num)
  obtain ⟨s', hrun, hprice, _⟩ := published_comparisons
    (s := leftoverDoubles threeItems) readsAs_threeWindow hprices (by decide) (by decide)
    (by decide) (by decide) (by decide)
  refine ⟨s', hrun, hprice.trans ?_⟩
  decide +kernel

/-! ## Trades per second -/

theorem round_thousand : Double.round 1000 = .finite 1000 := by
  exact_mod_cast binary64_of_isDouble (isDouble_int (n := 1000) (by norm_num))

/-- So many trades over a positive time. -/
theorem approximates_rate {n : Nat} {t : Int} (hn : 0 < n) (hn' : n ≤ 2 ^ 64) (ht : 0 < t)
    (ht' : t ≤ 2 ^ 64) :
    Approximates 4 (Double.round n / Double.round t * Double.round 1000) (n / t * 1000) := by
  have hnq : (1 : ℚ) ≤ n := by exact_mod_cast hn
  have hnq' : (n : ℚ) ≤ 2 ^ 64 := by exact_mod_cast hn'
  have htq : (1 : ℚ) ≤ t := by exact_mod_cast ht
  have htq' : (t : ℚ) ≤ 2 ^ 64 := by exact_mod_cast ht'
  have hlow : (1 : ℚ) / 2 ^ 64 ≤ n / t := by
    rw [div_le_div_iff₀ (by positivity) (by linarith)]
    nlinarith
  have hhigh : (n : ℚ) / t ≤ 2 ^ 64 := by
    rw [div_le_iff₀ (by linarith)]
    nlinarith
  have hsmall : (1 : ℚ) / 2 ^ 100 ≤ 1 / 2 ^ 64 := by norm_num
  have hgrid : ∀ i : Int, binary64.OnGrid i := onGrid_int
  have hcount : Approximates 1 (Double.round n) n :=
    approximates_read (by linarith) (by exact_mod_cast hgrid n)
      (below_of_le (by omega) (by linarith))
  have htime : Approximates 1 (Double.round t) t :=
    approximates_read (by linarith) (hgrid t) (below_of_le (by omega) (by linarith))
  have hquotient := hcount.quotient htime (by linarith) (by linarith)
    (above_of_le (by omega) (hsmall.trans hlow)) (below_of_le (by omega) (by linarith))
  have hthousand : Approximates 0 (Double.round 1000) 1000 :=
    ⟨1000, round_thousand, by norm_num, by exact_mod_cast hgrid 1000,
      Within.refl roundoff_nonneg roundoff_lt_one (by norm_num) 0⟩
  exact hquotient.mul hthousand (by positivity) (by norm_num)
    (.inr (above_of_le (by omega) (by linarith))) (below_of_le (by omega) (by linarith))

/-- The machine treats both signs alike. -/
theorem binary64_neg (x : ℚ) : Double.round (-x) = -Double.round x := by
  simp only [Double.round, Format.round_neg, abs_neg]
  split
  · rfl
  · rename_i hlarge
    have hne : binary64.round x ≠ 0 := by
      intro hzero
      rw [hzero, abs_zero] at hlarge
      exact hlarge (by positivity)
    rw [Double.neg_infinite, Double.infinite.injEq, ← decide_not, decide_eq_decide, neg_lt_zero,
      not_lt]
    exact ⟨le_of_lt, fun h => lt_of_le_of_ne h hne.symm⟩

theorem quotient_neg (x : ℚ) {y : ℚ} (hy : y ≠ 0) :
    Double.finite x / -.finite y = -(Double.finite x / .finite y) := by
  rw [Double.neg_finite, Double.quotient_finite _ (neg_ne_zero.mpr hy),
    Double.quotient_finite _ hy, div_neg, binary64_neg]

theorem neg_mul_finite (d : Double) {y : ℚ} (hy : 0 < y) :
    -d * .finite y = -(d * .finite y) := by
  cases d with
  | finite x =>
      rw [Double.neg_finite, Double.mul_finite, Double.mul_finite, neg_mul, binary64_neg]
  | infinite negative =>
      rw [Double.neg_infinite, Double.mul_infinite_finite _ hy.ne',
        Double.mul_infinite_finite _ hy.ne', decide_eq_false hy.not_gt, Bool.xor_false,
        Bool.xor_false, Double.neg_infinite]
  | nan => rfl

theorem eq_finite_of_neg {d : Double} {r : ℚ} (h : -d = .finite r) : d = .finite (-r) := by
  cases d with
  | finite x =>
      cases h
      rw [neg_neg]
  | infinite _ => cases h
  | nan => cases h

/-- What the pass computes, for windows of every length. -/
theorem tps_binary64 (hduration : InInt64 (Window.duration w)) (hlength : w.length < 2 ^ 64) :
    (if w = [] then .finite 0 else Pass.tps w) =
      if 2 ≤ w.length ∧ Window.duration w ≠ 0 then
        Double.round w.length / Double.round (Window.duration w) * Double.round 1000
      else 0 := by
  have hround := binary64_long hduration
  have hzero : binary64.round (Window.duration w) = 0 ↔ Window.duration w = 0 := by
    rw [Format.round_eq_zero_iff (onGrid_int _), Int.cast_eq_zero]
  rw [long_double hduration] at hround
  simp only [Pass.tps, double_double, long_double hduration, size_double hlength, hround,
    Double.zero_eq, Double.finite.injEq, hzero]
  rcases w with _ | ⟨x, _ | ⟨y, w⟩⟩
  · rfl
  · simp
  · have hlong : 2 ≤ (x :: y :: w).length := by simp
    have hone : ¬ (x :: y :: w).length = 1 := by simp
    simp only [hlong, hone, false_or, true_and, ite_not, reduceCtorEq, if_false]

/-- The rate over a time that may be negative. -/
theorem signed_rate {n : Nat} {t : Int} (hn : 0 < n) (hn' : n ≤ 2 ^ 64) (ht : t ≠ 0)
    (ht' : |t| ≤ 2 ^ 64) :
    ∃ r, Double.round n / Double.round t * Double.round 1000 = .finite r ∧
      Within roundoff 4 |(1000 * n / t : ℚ)| |r| ∧
      (0 < r ↔ (0 : ℚ) < 1000 * n / t) ∧ (r < 0 ↔ (1000 * n / t : ℚ) < 0) := by
  have hnq : (0 : ℚ) < n := by exact_mod_cast hn
  have hcomm : ∀ t : ℚ, (1000 * n / t : ℚ) = n / t * 1000 := fun t => by ring
  rw [hcomm]
  rcases ht.lt_or_gt with hneg | hpos
  · -- the rounded rate over the opposite time, with the other sign
    obtain ⟨r, hr, hr0, _, hwithin⟩ := approximates_rate (t := -t) hn hn' (by omega)
      (by rw [abs_of_neg hneg] at ht'; exact ht')
    have htq : (0 : ℚ) < ((-t : Int) : ℚ) := by exact_mod_cast neg_pos.mpr hneg
    have hrate : (0 : ℚ) < n / ((-t : Int) : ℚ) * 1000 := by positivity
    have hrpos := hwithin.pos roundoff_nonneg roundoff_lt_one hrate
    have hcount := binary64_int (n := n) (by simpa using hn')
    have htime := binary64_int (n := t) ht'
    have hround : binary64.round (t : ℚ) ≠ 0 := by
      rw [ne_eq, Format.round_eq_zero_iff (onGrid_int t)]
      exact_mod_cast ht
    have hopposite : (n / t * 1000 : ℚ) = -(n / ((-t : Int) : ℚ) * 1000) := by
      push_cast
      rw [div_neg]
      ring
    refine ⟨-r, ?_, ?_, ?_, ?_⟩
    · rw [Int.cast_neg, binary64_neg, htime] at hr
      rw [Int.cast_natCast] at hcount
      rw [hcount, quotient_neg _ hround, round_thousand, neg_mul_finite _ (by norm_num)] at hr
      rw [hcount, htime, round_thousand]
      exact eq_finite_of_neg hr
    · rw [hopposite, abs_neg, abs_neg, abs_of_pos hrate, abs_of_pos hrpos]
      exact hwithin
    · rw [hopposite, neg_pos, neg_pos]
      exact iff_of_false hrpos.not_gt hrate.not_gt
    · rw [hopposite, neg_lt_zero, neg_lt_zero]
      exact iff_of_true hrpos hrate
  · obtain ⟨r, hr, hr0, _, hwithin⟩ := approximates_rate hn hn' hpos
      (by rwa [abs_of_pos hpos] at ht')
    have htq : (0 : ℚ) < t := by exact_mod_cast hpos
    have hrate : (0 : ℚ) < n / t * 1000 := by positivity
    have hrpos := hwithin.pos roundoff_nonneg roundoff_lt_one hrate
    refine ⟨r, hr, ?_, iff_of_true hrpos hrate, iff_of_false hrpos.not_gt hrate.not_gt⟩
    rw [abs_of_pos hrate, abs_of_pos hrpos]
    exact hwithin

/-- The rate that is published is within four roundings of the exact one, and has its
sign, when the time between the ends of the window fits into `long`. -/
theorem published_tps_within (hreads : ReadsAs s.trades w)
    (hduration : InInt64 (Window.duration w)) (hlength : w.length < 2 ^ 64) :
    ∃ s' r, computeSymbol calcTypes s = .ok () s' ∧ s'.features.tps = .finite r ∧
      Within roundoff 4 |(Window.features s.tiState w).tps| |r| ∧
      (0 < r ↔ 0 < (Window.features s.tiState w).tps) ∧
      (r < 0 ↔ (Window.features s.tiState w).tps < 0) := by
  obtain ⟨trades, _, hrun⟩ := computeSymbol_pass hreads
  have hexact : (Window.features s.tiState w).tps = _ := Window.tps_eq w
  have hrounded : (Pass.features s.tiState w : Features Double Double).tps = _ :=
    tps_binary64 hduration hlength
  have habs : |Window.duration w| ≤ 2 ^ 64 := by
    unfold InInt64 minInt64 maxInt64 at hduration
    rw [abs_le]
    omega
  by_cases hdivides : 2 ≤ w.length ∧ Window.duration w ≠ 0
  · rw [if_pos hdivides] at hexact hrounded
    obtain ⟨r, hr, hwithin, hpos, hneg⟩ := signed_rate (n := w.length) (by omega) hlength.le
      hdivides.2 habs
    rw [← hexact] at hwithin hpos hneg
    exact ⟨_, r, hrun, hrounded.trans hr, hwithin, hpos, hneg⟩
  · rw [if_neg hdivides] at hexact hrounded
    refine ⟨_, 0, hrun, hrounded, ?_, by rw [hexact], by rw [hexact]⟩
    rw [hexact, abs_zero]
    exact Within.refl roundoff_nonneg roundoff_lt_one le_rfl 4

theorem published_tps_within_three_trades : ∃ s' r,
    computeSymbol calcTypes (leftoverDoubles threeItems) = .ok () s' ∧
    s'.features.tps = .finite r ∧ Within roundoff 4 1 |r| ∧ 0 < r := by
  obtain ⟨s', r, hrun, htps, hwithin, hpos, _⟩ := published_tps_within
    (s := leftoverDoubles threeItems) readsAs_threeWindow (by decide) (by decide)
  have hexact : (Window.features (leftoverDoubles threeItems).tiState
      threeWindow).tps = 1 := by decide +kernel
  rw [hexact] at hwithin hpos
  rw [abs_one] at hwithin
  exact ⟨s', r, hrun, htps, hwithin, hpos.mpr one_pos⟩

end TradeProcessor.Rounded
