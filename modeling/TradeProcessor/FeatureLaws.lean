/-
  FeatureLaws.lean --- the laws of the published features.

  `computeFeatures` starts each symbol from whatever an earlier call left in its
  state.  For every readable map, every symbol and every state, this file says
  what the published numbers are in terms of the window alone, and which bounds
  hold between them.
-/
import TradeProcessor.WindowLaws
import TradeProcessor.Published

set_option autoImplicit false

namespace TradeProcessor

open TradeProcessor.Json TradeProcessor.Library

variable {P : Platform} {m : SymbolMap} {k : String} {s : SymbolState} {w : List Trade}

/-- On a readable map a call completes, and the state of a symbol is that of its
window. -/
theorem exists_published (hm : Readable m) (hk : m.lookup k = some s)
    (hreads : ReadsAs s.trades w) :
    ∃ m' trades, computeFeatures P calcTypes m = .ok () m' ∧
      m'.lookup k = some { s.computed w with trades := trades } := by
  obtain ⟨m', hm'⟩ := completes_of_readable (P := P) hm
  obtain ⟨trades, _, hs'⟩ := computeFeatures_publishes hm' hk hreads
  exact ⟨m', trades, hm', hs'⟩

/-! ## A map of one symbol -/

/-- A map with one symbol. -/
def onlySymbol (k : String) (s : SymbolState) : SymbolMap := AList.insert k s ∅

theorem lookup_onlySymbol (k : String) (s : SymbolState) :
    (onlySymbol k s).lookup k = some s := AList.lookup_insert _

theorem readable_onlySymbol (hreads : ReadsAs s.trades w) : Readable (onlySymbol k s) := by
  intro j t ht
  by_cases hjk : j = k
  · subst hjk
    rw [lookup_onlySymbol] at ht
    cases ht
    exact ⟨w, hreads⟩
  · rw [onlySymbol, AList.lookup_insert_ne hjk] at ht
    cases ht

/-- What an earlier call may leave behind. -/
def leftover (trades : List Value) : SymbolState where
  trades := trades
  features := { maxGap := 99, vol := 5, maxPrice := 1000, tps := -3, tickImbalance := 1 }
  maxGapState := { prevTime := 17 }
  wapState := { numer := 7, denom := -2 }

theorem reads_feedItem (symbol : String) (t : Int64) (v p : ℚ) :
    Reads (feedItem symbol t v p) ⟨t.toInt, v, p⟩ :=
  ⟨rfl, rfl, rfl, rfl⟩

/-- A deque of three trades. -/
def threeItems : List Value :=
  [feedItem "A" 1000 2 10, feedItem "A" 3000 1 40, feedItem "A" 4000 1 20]

/-- What it reads as. -/
def threeWindow : List Trade := [⟨1000, 2, 10⟩, ⟨3000, 1, 40⟩, ⟨4000, 1, 20⟩]

theorem readsAs_threeWindow : ReadsAs threeItems threeWindow :=
  .cons (reads_feedItem "A" 1000 2 10) (.cons (reads_feedItem "A" 3000 1 40)
    (.cons (reads_feedItem "A" 4000 1 20) .nil))

/-! ## Trades per second -/

/-- The rate is taken over the two ends of the deque.  It is the number of trades
for each second of the span of their times exactly when the ends are that far
apart, as they are in time order, and it is negative when the last trade is older
than the first. -/
theorem published_tps (hm : Readable m) (hk : m.lookup k = some s)
    (hreads : ReadsAs s.trades w) :
    ∃ m' s', computeFeatures P calcTypes m = .ok () m' ∧ m'.lookup k = some s' ∧
      s'.features.tps = (if 2 ≤ w.length ∧ Window.duration w ≠ 0
        then 1000 * w.length / (Window.duration w : ℚ) else 0) ∧
      (0 ≤ s'.features.tps ↔ 0 ≤ Window.duration w) ∧
      (s'.features.tps = Window.rate w ↔ Window.duration w = Window.span w) ∧
      (Window.TimeOrdered w → s'.features.tps = Window.rate w ∧ 0 ≤ s'.features.tps) := by
  obtain ⟨m', trades, hm', hs'⟩ := exists_published (P := P) hm hk hreads
  refine ⟨m', _, hm', hs', Window.tps_eq w, Window.tps_nonneg_iff w, Window.tps_eq_rate_iff w,
    fun hordered => ?_⟩
  have hduration := Window.duration_eq_span hordered
  refine ⟨(Window.tps_eq_rate_iff w).mpr hduration, (Window.tps_nonneg_iff w).mpr ?_⟩
  rw [hduration]
  exact Window.span_nonneg w

theorem published_tps_three_trades : ∃ m' s',
    computeFeatures Platform.listed calcTypes (onlySymbol "A" (leftover threeItems)) =
      .ok () m' ∧
    m'.lookup "A" = some s' ∧ s'.features.tps = Window.rate threeWindow := by
  obtain ⟨m', s', hm', hs', _, _, hrate, _⟩ := published_tps (P := Platform.listed)
    (readable_onlySymbol readsAs_threeWindow) (lookup_onlySymbol "A" (leftover threeItems))
    readsAs_threeWindow
  exact ⟨m', s', hm', hs', hrate.mpr (by decide)⟩

/-- Two trades of `A`, the second one older by a second. -/
def lateTrade : List Event :=
  [.ingest (feedItem "A" 1902000 1 10) 2000000000000,
    .ingest (feedItem "A" 1901000 1 10) 2000000000000]

/-- Two trades within a second, and a rate of minus two trades per second. -/
theorem negative_rate : ∃ m s m' s', run Platform.listed lateTrade ∅ = .ok () m ∧
    m.lookup "A" = some s ∧ computeFeatures Platform.listed calcTypes m = .ok () m' ∧
    m'.lookup "A" = some s' ∧ s'.features.tps = -2 ∧ Window.rate (windowOf s.trades) = 2 := by
  have hcompletes : Completes (run Platform.listed lateTrade) ∅ := by decide +kernel
  obtain ⟨_, m, hrun⟩ := hcompletes
  have hwf : ∀ e ∈ lateTrade, e.WellFormed := by
    intro e he
    simp only [lateTrade, List.mem_cons, List.not_mem_nil, or_false] at he
    rcases he with rfl | rfl
    · exact wellFormed_feedItem "A" _ (by norm_num) (by norm_num)
    · exact wellFormed_feedItem "A" _ (by norm_num) (by norm_num)
  have hheld : held (m.lookup "A") = [feedItem "A" 1902000 1 10, feedItem "A" 1901000 1 10] := by
    rw [run_held hrun fun _ => hasMember_of_wellFormed hwf]
    rfl
  obtain ⟨s, hs, htrades⟩ := exists_held (by rw [hheld]; simp)
  rw [hheld] at htrades
  obtain ⟨m', hm', hlookup⟩ := computeFeatures_after_run hrun hwf
  refine ⟨m, s, m', _, hrun, hs, hm', hlookup "A" s hs, ?_, ?_⟩
  · rw [← htrades]
    have hwindow := Window.tps_eq (windowOf (held (m.lookup "A")))
    rw [hheld] at hwindow
    exact hwindow.trans (by decide +kernel)
  · rw [← htrades]
    decide +kernel

/-! ## Weighted average price -/

/-- Over volumes that are not negative and not all zero, the weighted average price
is the mean of the prices weighted with the volumes.  It lies between the prices
of the trades that have a volume and does not exceed the published maximum; times
the published volume, which is the denominator that the pass summed for itself,
it is the traded value. -/
theorem published_weightedAvgPrice (hm : Readable m) (hk : m.lookup k = some s)
    (hreads : ReadsAs s.trades w) (hv : ∀ x ∈ w, 0 ≤ x.v) (hvol : 0 < Window.volume w) :
    ∃ m' s' average lo hi, computeFeatures P calcTypes m = .ok () m' ∧
      m'.lookup k = some s' ∧ s'.features.weightedAvgPrice = .finite average ∧
      average = Window.tradedValue w / Window.volume w ∧
      (Window.weightedPrices w).min? = some lo ∧ (Window.weightedPrices w).max? = some hi ∧
      lo ≤ average ∧ average ≤ hi ∧ average ≤ s'.features.maxPrice ∧
      s'.features.vol = s'.wapState.denom ∧
      average * s'.features.vol = Window.tradedValue w := by
  obtain ⟨m', trades, hm', hs'⟩ := exists_published (P := P) hm hk hreads
  obtain ⟨lo, hi, hlo, hhi, hge, hle⟩ := Window.average_between hv hvol
  have hne : w ≠ [] := by
    rintro rfl
    exact absurd hvol (by simp [Window.volume])
  have hfinite : (Window.features s.tiState w).weightedAvgPrice =
      .finite (Window.average w) := by
    simp only [Window.features, if_neg hne, Double.div, if_neg hvol.ne', Window.average]
  refine ⟨m', _, Window.average w, lo, hi, hm', hs', hfinite, rfl, hlo, hhi, hge, hle,
    Window.average_le_maxPrice hv hvol, rfl, ?_⟩
  exact div_mul_cancel₀ _ hvol.ne'

theorem published_weightedAvgPrice_three_trades : ∃ m' s',
    computeFeatures Platform.listed calcTypes (onlySymbol "A" (leftover threeItems)) =
      .ok () m' ∧
    m'.lookup "A" = some s' ∧ s'.features.weightedAvgPrice = .finite 20 := by
  obtain ⟨m', s', average, _, _, hm', hs', haverage, rfl, _⟩ :=
    published_weightedAvgPrice (P := Platform.listed) (readable_onlySymbol readsAs_threeWindow)
      (lookup_onlySymbol "A" (leftover threeItems)) readsAs_threeWindow (by decide)
      (by decide +kernel)
  refine ⟨m', s', hm', hs', ?_⟩
  rw [haverage]
  decide +kernel

/-! ## Maximum price -/

/-- The maximum price is the greatest price of the window exactly when some trade
has a price that is not negative: the running maximum starts from the 0 that
`resetFeatures` stores. -/
theorem published_maxPrice_iff (hm : Readable m) (hk : m.lookup k = some s)
    (hreads : ReadsAs s.trades w) :
    ∃ m' s', computeFeatures P calcTypes m = .ok () m' ∧ m'.lookup k = some s' ∧
      (Window.IsMaxPrice w s'.features.maxPrice ↔ ∃ x ∈ w, 0 ≤ x.p) := by
  obtain ⟨m', trades, hm', hs'⟩ := exists_published (P := P) hm hk hreads
  exact ⟨m', _, hm', hs', Window.isMaxPrice_iff w⟩

theorem published_maxPrice_iff_three_trades : ∃ m' s',
    computeFeatures Platform.listed calcTypes (onlySymbol "A" (leftover threeItems)) =
      .ok () m' ∧
    m'.lookup "A" = some s' ∧ Window.IsMaxPrice threeWindow s'.features.maxPrice := by
  obtain ⟨m', s', hm', hs', hiff⟩ := published_maxPrice_iff (P := Platform.listed)
    (readable_onlySymbol readsAs_threeWindow) (lookup_onlySymbol "A" (leftover threeItems))
    readsAs_threeWindow
  exact ⟨m', s', hm', hs', hiff.mpr (by decide)⟩

/-- A deque of one trade below zero. -/
def negativeItems : List Value := [feedItem "A" 1000 1 (-5)]

theorem readsAs_negativeItems : ReadsAs negativeItems [⟨1000, 1, -5⟩] :=
  .cons (reads_feedItem "A" 1000 1 (-5)) .nil

/-- Its maximum price is published as 0, the price of no trade. -/
theorem negative_prices_lost : ∃ m' s',
    computeFeatures Platform.listed calcTypes (onlySymbol "A" { trades := negativeItems }) =
      .ok () m' ∧
    m'.lookup "A" = some s' ∧ s'.features.maxPrice = 0 ∧
    ¬ Window.IsMaxPrice [⟨1000, 1, -5⟩] s'.features.maxPrice := by
  obtain ⟨m', trades, hm', hs'⟩ := exists_published (P := Platform.listed)
    (readable_onlySymbol (k := "A") (s := { trades := negativeItems }) readsAs_negativeItems)
    (lookup_onlySymbol "A" _) readsAs_negativeItems
  have hzero : Window.maxPrice 0 [⟨1000, 1, -5⟩] = 0 := by decide +kernel
  refine ⟨m', _, hm', hs', hzero, fun hmax => ?_⟩
  have hsome := (Window.isMaxPrice_iff [⟨1000, 1, -5⟩]).mp hmax
  simp at hsome
  norm_num at hsome

/-! ## Maximum time gap -/

/-- Over positive times the maximum gap is the widest step from a trade to the next
one that arrived, 0 if there is none.  It never exceeds the span of the times;
in time order it is at most the time between the ends, which is at most the gap
once for each pair of neighbours. -/
theorem published_maxGap (hm : Readable m) (hk : m.lookup k = some s)
    (hreads : ReadsAs s.trades w) (hpos : ∀ x ∈ w, 0 < x.t) :
    ∃ m' s', computeFeatures P calcTypes m = .ok () m' ∧ m'.lookup k = some s' ∧
      s'.features.maxGap = (Window.maxGap w : ℚ) ∧
      s'.features.maxGap ≤ (Window.latest w : ℚ) - Window.earliest w ∧
      (Window.TimeOrdered w → 2 ≤ w.length → s'.features.maxGap ≤ (Window.duration w : ℚ) ∧
        (Window.duration w : ℚ) ≤ ((w.length : ℚ) - 1) * s'.features.maxGap) := by
  obtain ⟨m', trades, hm', hs'⟩ := exists_published (P := P) hm hk hreads
  have hgap : (Window.features s.tiState w).maxGap = (Window.maxGap w : ℚ) :=
    Window.gaps_eq_maxGap hpos
  refine ⟨m', _, hm', hs', hgap, ?_, fun hordered hlong => ?_⟩
  · simp only [SymbolState.computed, hgap]
    exact_mod_cast Window.maxGap_le_span w
  · simp only [SymbolState.computed, hgap]
    have hwhole := Window.duration_le_maxGap w
    have hcast : (((w.length - 1 : Nat) : Int) : ℚ) = (w.length : ℚ) - 1 := by
      rw [Int.cast_natCast, Nat.cast_sub (by omega), Nat.cast_one]
    rw [← hcast]
    exact ⟨by exact_mod_cast Window.maxGap_le_duration hordered, by exact_mod_cast hwhole⟩

theorem published_maxGap_three_trades : ∃ m' s',
    computeFeatures Platform.listed calcTypes (onlySymbol "A" (leftover threeItems)) =
      .ok () m' ∧
    m'.lookup "A" = some s' ∧ s'.features.maxGap = 2000 := by
  obtain ⟨m', s', hm', hs', hgap, _⟩ := published_maxGap (P := Platform.listed)
    (readable_onlySymbol readsAs_threeWindow) (lookup_onlySymbol "A" (leftover threeItems))
    readsAs_threeWindow (by decide)
  refine ⟨m', s', hm', hs', ?_⟩
  rw [hgap]
  decide +kernel

/-! ## Tick imbalance -/

/-- What a completed call publishes for a symbol whose counters were at zero. -/
theorem tickImbalance_of_zero {m' : SymbolMap} {s' : SymbolState}
    (h : computeFeatures P calcTypes m = .ok () m') (hk : m.lookup k = some s)
    (hk' : m'.lookup k = some s') (hreads : ReadsAs s.trades w) (hzero : s.tiState = {}) :
    s'.tiState = { upticks := Window.upticks w, downticks := Window.downticks w } ∧
      s'.features.tickImbalance =
        TIState.imbalance { upticks := Window.upticks w, downticks := Window.downticks w } := by
  obtain ⟨trades, _, hs'⟩ := computeFeatures_publishes h hk hreads
  rw [hk'] at hs'
  cases hs'
  simp only [SymbolState.computed, hzero]
  exact ⟨Window.countTicks_zero w, TIState.imbalance_of_window w⟩

/-- From counters at zero, the counters are the rises and the falls of the window
and the tick imbalance is their balance, which lies between -1 and 1.  The
reversed window has the opposite imbalance, and the scale of the prices does not
matter. -/
theorem published_tickImbalance (hm : Readable m) (hk : m.lookup k = some s)
    (hreads : ReadsAs s.trades w) (hzero : s.tiState = {}) :
    ∃ m' s', computeFeatures P calcTypes m = .ok () m' ∧ m'.lookup k = some s' ∧
      s'.tiState = { upticks := Window.upticks w, downticks := Window.downticks w } ∧
      s'.features.tickImbalance = (if Window.upticks w = 0 ∧ Window.downticks w = 0 then 0
        else ((Window.upticks w : ℚ) - Window.downticks w) /
          (Window.upticks w + Window.downticks w)) ∧
      (w.length < 2 → s'.features.tickImbalance = 0) ∧
      -1 ≤ s'.features.tickImbalance ∧ s'.features.tickImbalance ≤ 1 ∧
      ∀ (m₂ m₂' : SymbolMap) (k₂ : String) (s₂ s₂' : SymbolState),
        computeFeatures P calcTypes m₂ = .ok () m₂' → m₂.lookup k₂ = some s₂ →
        m₂'.lookup k₂ = some s₂' → s₂.tiState = {} →
        (ReadsAs s₂.trades w.reverse →
          s₂'.features.tickImbalance = -s'.features.tickImbalance) ∧
        ∀ c : ℚ, 0 < c → ReadsAs s₂.trades (w.map (Window.scalePrice c)) →
          s₂'.features.tickImbalance = s'.features.tickImbalance := by
  obtain ⟨m', trades, hm', hs'⟩ := exists_published (P := P) hm hk hreads
  obtain ⟨hcounts, himbalance⟩ := tickImbalance_of_zero hm' hk hs' hreads hzero
  have hup : (0 : Int) ≤ Window.upticks w := Int.natCast_nonneg _
  have hdown : (0 : Int) ≤ Window.downticks w := Int.natCast_nonneg _
  have hratio := TIState.imbalance_eq hup hdown
  have hmem := TIState.imbalance_mem hup hdown
  refine ⟨m', _, hm', hs', hcounts, ?_, ?_, ?_, ?_, ?_⟩
  · rw [himbalance, hratio]
    simp only [Int.natCast_eq_zero, Int.cast_natCast]
  · intro hshort
    simp only [SymbolState.computed, Window.features, if_pos hshort]
  · rw [himbalance]
    exact hmem.1
  · rw [himbalance]
    exact hmem.2
  · intro m₂ m₂' k₂ s₂ s₂' hm₂' hk₂ hk₂' hzero₂
    rw [himbalance]
    constructor
    · intro hreverse
      rw [(tickImbalance_of_zero hm₂' hk₂ hk₂' hreverse hzero₂).2, Window.upticks_reverse,
        Window.downticks_reverse, TIState.imbalance_swap]
    · intro c hc hscaled
      rw [(tickImbalance_of_zero hm₂' hk₂ hk₂' hscaled hzero₂).2, Window.upticks_scalePrice hc,
        Window.downticks_scalePrice hc]

theorem published_tickImbalance_three_trades : ∃ m' s',
    computeFeatures Platform.listed calcTypes (onlySymbol "A" (leftover threeItems)) =
      .ok () m' ∧
    m'.lookup "A" = some s' ∧ s'.tiState = { upticks := 1, downticks := 1 } ∧
    s'.features.tickImbalance = 0 := by
  obtain ⟨m', s', hm', hs', hcounts, himbalance, _⟩ := published_tickImbalance
    (P := Platform.listed) (readable_onlySymbol readsAs_threeWindow)
    (lookup_onlySymbol "A" (leftover threeItems)) readsAs_threeWindow rfl
  refine ⟨m', s', hm', hs', ?_, ?_⟩
  · rw [hcounts]
    decide +kernel
  · rw [himbalance]
    decide +kernel

end TradeProcessor
