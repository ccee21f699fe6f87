/-
  History.lean --- what the published features depend on besides the window.

  `resetFeatures` brings back every scratch variable but the tick counters.  The
  counters of a symbol after a run are therefore a ledger of all the windows that
  `computeFeatures` has gone over, and the ledger shows in the tick imbalance of
  the next computation.  The other five features are functions of the window.
-/
import TradeProcessor.Published

set_option autoImplicit false

namespace TradeProcessor

open TradeProcessor.Json TradeProcessor.Library

/-! ## The ledger of ticks -/

/-- What an event does to the deque and the tick counters of a symbol. -/
def Event.tick (P : Platform) (k : String) (acc : List Value × TIState) (e : Event) :
    List Value × TIState :=
  match e with
  | .ingest item now =>
      (((Event.ingest item now).arrival P k).toList.foldl (slide timeOf) acc.1, acc.2)
  | .compute => (acc.1, Window.countTicks acc.2 (windowOf acc.1))

/-- The deque of a symbol and the ticks of all its windows that were computed. -/
def ledger (P : Platform) (k : String) (es : List Event) : List Value × TIState :=
  es.foldl (Event.tick P k) ([], {})

variable {P : Platform}

theorem ledger_concat (k : String) (es : List Event) (e : Event) :
    ledger P k (es ++ [e]) = Event.tick P k (ledger P k es) e := by
  simp [ledger]

/-- The deque of a ledger is front eviction over the arrivals. -/
theorem ledger_fst (k : String) (es : List Event) :
    (ledger P k es).1 = slideAll timeOf [] (arrivals P k es) := by
  induction es using List.reverseRecOn with
  | nil => rfl
  | append_singleton es e ih =>
      have harrivals : arrivals P k (es ++ [e]) = arrivals P k es ++ (e.arrival P k).toList := by
        unfold arrivals
        rw [List.filterMap_append, List.filterMap_cons]
        cases e.arrival P k <;> rfl
      rw [ledger_concat, harrivals, slideAll, List.foldl_append]
      cases e with
      | ingest item now =>
          simp only [Event.tick, ih]
          rfl
      | compute => exact ih

/-- After any run the counters of a symbol are those of its ledger. -/
theorem run_counted {k : String} {es : List Event} {m : SymbolMap} (h : run P es ∅ = .ok () m) :
    counted (m.lookup k) = (ledger P k es).2 := by
  induction es using List.reverseRecOn generalizing m with
  | nil =>
      cases h
      rfl
  | append_singleton es e ih =>
      obtain ⟨mid, hrun, hlast⟩ := run_append_eq_ok_iff.mp h
      rw [run_singleton_eq_ok_iff] at hlast
      obtain ⟨hstamped, _, _⟩ := run_eq_ok stampedMap_empty hrun
      obtain ⟨_, hlocal⟩ := Event.apply_eq_ok hstamped hlast
      have hstep := hlocal k
      have hentries := run_sameEntries hrun k
      rw [← ledger_fst] at hentries
      rw [ledger_concat]
      cases e with
      | ingest item now =>
          simp only [Event.tick, ← ih hrun]
          simp only [LocalStep] at hstep
          split at hstep
          · rw [hstep]
            rfl
          · rw [hstep]
      | compute =>
          simp only [Event.tick, ← ih hrun]
          cases hk : mid.lookup k with
          | none =>
              rw [hk] at hstep hentries
              have hnil : (ledger P k es).1 = [] := List.forall₂_nil_right_iff.mp hentries
              rw [show m.lookup k = none from hstep, hnil]
              rfl
          | some s =>
              rw [hk] at hstep hentries
              obtain ⟨s', hcompute, hs'⟩ := hstep
              obtain ⟨w, hreads⟩ := readable_of_computeSymbol hcompute
              obtain ⟨trades, _, hok⟩ := computeSymbol_ok hreads
              rw [hok] at hcompute
              cases hcompute
              rw [hs', ← hentries.windowOf_eq, show held (some s) = s.trades from rfl,
                ← hreads.eq_windowOf]
              rfl

/-- After a run over well-formed items a symbol holds what its ledger says. -/
theorem run_ledger {k : String} {es : List Event} {m : SymbolMap} (h : run P es ∅ = .ok () m)
    (hwf : ∀ e ∈ es, e.WellFormed) :
    (held (m.lookup k), counted (m.lookup k)) = ledger P k es := by
  have hheld := run_held (k := k) h fun _ => hasMember_of_wellFormed hwf
  rw [← ledger_fst] at hheld
  exact Prod.ext hheld (run_counted h)

/-- A completed run over well-formed items with a nonempty ledger has the symbol,
with the deque and the counters of the ledger. -/
theorem exists_state_of_ledger {k : String} {es : List Event} {m : SymbolMap}
    (h : run P es ∅ = .ok () m) (hwf : ∀ e ∈ es, e.WellFormed)
    (hne : 0 < (ledger P k es).1.length) :
    ∃ s, m.lookup k = some s ∧ s.trades = (ledger P k es).1 ∧ s.tiState = (ledger P k es).2 := by
  have hledger := run_ledger (k := k) h hwf
  rw [← hledger] at hne
  obtain ⟨s, hs, _⟩ := exists_held (List.ne_nil_of_length_pos hne)
  rw [hs] at hledger
  rw [← hledger]
  exact ⟨s, hs, rfl, rfl⟩

/-- A ledger only grows. -/
theorem ledger_nonneg (k : String) (es : List Event) :
    0 ≤ (ledger P k es).2.upticks ∧ 0 ≤ (ledger P k es).2.downticks := by
  induction es using List.reverseRecOn with
  | nil => simp [ledger]
  | append_singleton es e ih =>
      rw [ledger_concat]
      cases e with
      | ingest item now => exact ih
      | compute =>
          simp only [Event.tick, Window.countTicks]
          omega

/-! ## When two counters give one ratio -/

/-- Up- and downticks are in the same proportion; no ticks at all count as
balanced. -/
def TIState.SameBalance (ti₁ ti₂ : TIState) : Prop :=
  ti₁.upticks * ti₂.downticks = ti₁.downticks * ti₂.upticks ∧
  (ti₁.upticks + ti₁.downticks = 0 → ti₂.upticks = ti₂.downticks) ∧
  (ti₂.upticks + ti₂.downticks = 0 → ti₁.upticks = ti₁.downticks)

instance (ti₁ ti₂ : TIState) : Decidable (ti₁.SameBalance ti₂) :=
  inferInstanceAs (Decidable (_ ∧ _ ∧ _))

theorem TIState.imbalance_eq_iff {ti₁ ti₂ : TIState} (hup₁ : 0 ≤ ti₁.upticks)
    (hdown₁ : 0 ≤ ti₁.downticks) (hup₂ : 0 ≤ ti₂.upticks) (hdown₂ : 0 ≤ ti₂.downticks) :
    ti₁.imbalance = ti₂.imbalance ↔ ti₁.SameBalance ti₂ := by
  obtain ⟨a, b⟩ := ti₁
  obtain ⟨c, d⟩ := ti₂
  simp only at hup₁ hdown₁ hup₂ hdown₂
  simp only [imbalance, SameBalance]
  have hzero : ∀ x y : Int, 0 < x + y →
      (((x - y : Int) : ℚ) / ((x + y : Int) : ℚ) = 0 ↔ x = y) := by
    intro x y hxy
    have hne : ((x + y : Int) : ℚ) ≠ 0 := by exact_mod_cast hxy.ne'
    rw [div_eq_zero_iff]
    simp only [hne, or_false, Int.cast_eq_zero]
    omega
  have hsum₁ : a + b = 0 ∨ 0 < a + b := by omega
  have hsum₂ : c + d = 0 ∨ 0 < c + d := by omega
  rcases hsum₁ with h₁ | h₁
  · obtain ⟨rfl, rfl⟩ : a = 0 ∧ b = 0 := by omega
    rw [if_neg (by omega)]
    rcases hsum₂ with h₂ | h₂
    · obtain ⟨rfl, rfl⟩ : c = 0 ∧ d = 0 := by omega
      simp
    · rw [if_pos h₂, eq_comm, hzero c d h₂]
      simp
  · rw [if_pos h₁]
    rcases hsum₂ with h₂ | h₂
    · obtain ⟨rfl, rfl⟩ : c = 0 ∧ d = 0 := by omega
      rw [if_neg (by omega), hzero a b h₁]
      simp
    · have hne₁ : ((a + b : Int) : ℚ) ≠ 0 := by exact_mod_cast h₁.ne'
      have hne₂ : ((c + d : Int) : ℚ) ≠ 0 := by exact_mod_cast h₂.ne'
      rw [if_pos h₂, div_eq_div_iff hne₁ hne₂]
      norm_cast
      constructor
      · intro hcross
        exact ⟨by linarith, by omega, by omega⟩
      · intro hbalance
        linarith [hbalance.1]

/-! ## Two runs that end with the same deque -/

/-- Everything published but the tick imbalance. -/
def Features.withoutTicks (f : Features) : Features := { f with tickImbalance := 0 }

theorem Window.features_withoutTicks (ti₁ ti₂ : TIState) (w : List Trade) :
    (features ti₁ w).withoutTicks = (features ti₂ w).withoutTicks := rfl

/-- Counters that have seen the same window are compared by their balance. -/
theorem Window.features_eq_iff {ti₁ ti₂ : TIState} {w : List Trade} (hup₁ : 0 ≤ ti₁.upticks)
    (hdown₁ : 0 ≤ ti₁.downticks) (hup₂ : 0 ≤ ti₂.upticks) (hdown₂ : 0 ≤ ti₂.downticks) :
    features ti₁ w = features ti₂ w ↔
      w.length < 2 ∨ (countTicks ti₁ w).SameBalance (countTicks ti₂ w) := by
  have hcounts : (countTicks ti₁ w).imbalance = (countTicks ti₂ w).imbalance ↔
      (countTicks ti₁ w).SameBalance (countTicks ti₂ w) := by
    apply TIState.imbalance_eq_iff <;> simp only [countTicks] <;> omega
  rw [← hcounts]
  simp only [features, Features.mk.injEq, true_and]
  by_cases hshort : w.length < 2
  · simp [hshort]
  · simp [hshort]

/-- History independence, where it holds.  Two runs over well-formed items that end
with the same deque of a symbol, and whose ledgers of ticks with this window entered
are below 2^31, publish the same features for it next time exactly when the deque has
fewer than two trades or these ledgers are in the same proportion.  The other five
features always agree, and the counters stay in the range of `int`. -/
theorem features_history_iff {k : String} {es₁ es₂ : List Event} {m₁ m₂ : SymbolMap}
    {s₁ s₂ : SymbolState} (h₁ : run P es₁ ∅ = .ok () m₁) (h₂ : run P es₂ ∅ = .ok () m₂)
    (hwf₁ : ∀ e ∈ es₁, e.WellFormed) (hwf₂ : ∀ e ∈ es₂, e.WellFormed)
    (hk₁ : m₁.lookup k = some s₁) (hk₂ : m₂.lookup k = some s₂) (hsame : s₁.trades = s₂.trades)
    (hint₁ : (Window.countTicks (ledger P k es₁).2 (windowOf s₁.trades)).total < 2 ^ 31)
    (hint₂ : (Window.countTicks (ledger P k es₂).2 (windowOf s₂.trades)).total < 2 ^ 31) :
    ∃ m₁' m₂' s₁' s₂', computeFeatures P calcTypes m₁ = .ok () m₁' ∧
      computeFeatures P calcTypes m₂ = .ok () m₂' ∧ m₁'.lookup k = some s₁' ∧
      m₂'.lookup k = some s₂' ∧ s₁'.tiState.FitsInt ∧ s₂'.tiState.FitsInt ∧
      s₁'.features.withoutTicks = s₂'.features.withoutTicks ∧
      (s₁'.features = s₂'.features ↔ s₁.trades.length < 2 ∨
        (Window.countTicks (ledger P k es₁).2 (windowOf s₁.trades)).SameBalance
          (Window.countTicks (ledger P k es₂).2 (windowOf s₂.trades))) := by
  obtain ⟨m₁', hm₁', hlookup₁⟩ := computeFeatures_after_run h₁ hwf₁
  obtain ⟨m₂', hm₂', hlookup₂⟩ := computeFeatures_after_run h₂ hwf₂
  have hti₁ : s₁.tiState = (ledger P k es₁).2 := by
    rw [← run_ledger h₁ hwf₁, hk₁]
    rfl
  have hti₂ : s₂.tiState = (ledger P k es₂).2 := by
    rw [← run_ledger h₂ hwf₂, hk₂]
    rfl
  obtain ⟨hup₁, hdown₁⟩ := ledger_nonneg (P := P) k es₁
  obtain ⟨hup₂, hdown₂⟩ := ledger_nonneg (P := P) k es₂
  refine ⟨m₁', m₂', _, _, hm₁', hm₂', hlookup₁ k s₁ hk₁, hlookup₂ k s₂ hk₂, ?_, ?_, ?_, ?_⟩
  · simp only [SymbolState.computed, hti₁]
    exact Window.fitsInt_countTicks hup₁ hdown₁ hint₁
  · simp only [SymbolState.computed, hti₂]
    exact Window.fitsInt_countTicks hup₂ hdown₂ hint₂
  · simp only [SymbolState.computed, hsame]
    exact Window.features_withoutTicks _ _ _
  · simp only [SymbolState.computed, hsame, hti₁, hti₂]
    rw [Window.features_eq_iff hup₁ hdown₁ hup₂ hdown₂, length_windowOf]

/-- Three trades of `A` at prices 1, 2, 1. -/
def threeTrades : List Event :=
  [.ingest (feedItem "A" 1900000 1 1) 2000000000000,
    .ingest (feedItem "A" 1900001 1 2) 2000000000000,
    .ingest (feedItem "A" 1900002 1 1) 2000000000000]

/-- The same trades, with a computation before the last one. -/
def threeTradesComputed : List Event :=
  [.ingest (feedItem "A" 1900000 1 1) 2000000000000,
    .ingest (feedItem "A" 1900001 1 2) 2000000000000,
    .compute,
    .ingest (feedItem "A" 1900002 1 1) 2000000000000]

theorem threeTrades_run : ∃ m, run Platform.listed threeTrades ∅ = .ok () m := by
  have hcompletes : Completes (run Platform.listed threeTrades) ∅ := by decide +kernel
  obtain ⟨_, m, hrun⟩ := hcompletes
  exact ⟨m, hrun⟩

theorem threeTradesComputed_run : ∃ m, run Platform.listed threeTradesComputed ∅ = .ok () m := by
  have hcompletes : Completes (run Platform.listed threeTradesComputed) ∅ := by decide +kernel
  obtain ⟨_, m, hrun⟩ := hcompletes
  exact ⟨m, hrun⟩

theorem threeTradesComputed_wellFormed : ∀ e ∈ threeTradesComputed, e.WellFormed := by
  intro e he
  simp only [threeTradesComputed, List.mem_cons, List.not_mem_nil, or_false] at he
  rcases he with rfl | rfl | rfl | rfl
  · exact wellFormed_feedItem "A" _ (by norm_num) (by norm_num)
  · exact wellFormed_feedItem "A" _ (by norm_num) (by norm_num)
  · trivial
  · exact wellFormed_feedItem "A" _ (by norm_num) (by norm_num)

theorem threeTrades_wellFormed : ∀ e ∈ threeTrades, e.WellFormed := by
  intro e he
  apply threeTradesComputed_wellFormed
  simp only [threeTrades, List.mem_cons, List.not_mem_nil, or_false] at he
  rcases he with rfl | rfl | rfl <;> simp [threeTradesComputed]

/-- The earlier computation shows in the tick imbalance of the same window. -/
theorem tick_imbalance_remembers : ∃ m₁ m₂ s₁ s₂ m₁' m₂' s₁' s₂',
    run Platform.listed threeTrades ∅ = .ok () m₁ ∧
    run Platform.listed threeTradesComputed ∅ = .ok () m₂ ∧
    (∀ e ∈ threeTrades, e.WellFormed) ∧ (∀ e ∈ threeTradesComputed, e.WellFormed) ∧
    m₁.lookup "A" = some s₁ ∧ m₂.lookup "A" = some s₂ ∧ s₁.trades = s₂.trades ∧
    computeFeatures Platform.listed calcTypes m₁ = .ok () m₁' ∧
    computeFeatures Platform.listed calcTypes m₂ = .ok () m₂' ∧
    m₁'.lookup "A" = some s₁' ∧ m₂'.lookup "A" = some s₂' ∧
    s₁'.features.tickImbalance = 0 ∧ s₂'.features.tickImbalance = 1 / 3 := by
  obtain ⟨m₁, hrun₁⟩ := threeTrades_run
  obtain ⟨m₂, hrun₂⟩ := threeTradesComputed_run
  obtain ⟨s₁, hs₁, htrades₁, hti₁⟩ := exists_state_of_ledger (k := "A") hrun₁
    threeTrades_wellFormed (by decide +kernel)
  obtain ⟨s₂, hs₂, htrades₂, hti₂⟩ := exists_state_of_ledger (k := "A") hrun₂
    threeTradesComputed_wellFormed (by decide +kernel)
  obtain ⟨m₁', hm₁', hlookup₁⟩ := computeFeatures_after_run hrun₁ threeTrades_wellFormed
  obtain ⟨m₂', hm₂', hlookup₂⟩ := computeFeatures_after_run hrun₂ threeTradesComputed_wellFormed
  refine ⟨m₁, m₂, s₁, s₂, m₁', m₂', _, _, hrun₁, hrun₂, threeTrades_wellFormed,
    threeTradesComputed_wellFormed, hs₁, hs₂, ?_, hm₁', hm₂', hlookup₁ "A" s₁ hs₁,
    hlookup₂ "A" s₂ hs₂, ?_, ?_⟩
  · rw [htrades₁, htrades₂]
    rfl
  · simp only [SymbolState.computed, htrades₁, hti₁]
    decide +kernel
  · simp only [SymbolState.computed, htrades₂, hti₂]
    decide +kernel

/-- The two ledgers of these runs are 2 : 1 and 1 : 1. -/
theorem features_history_iff_three_trades : ∃ m₁ m₂ m₁' m₂' s₁' s₂',
    run Platform.listed threeTrades ∅ = .ok () m₁ ∧
    run Platform.listed threeTradesComputed ∅ = .ok () m₂ ∧
    computeFeatures Platform.listed calcTypes m₁ = .ok () m₁' ∧
    computeFeatures Platform.listed calcTypes m₂ = .ok () m₂' ∧
    m₁'.lookup "A" = some s₁' ∧ m₂'.lookup "A" = some s₂' ∧
    s₁'.tiState.FitsInt ∧ s₂'.tiState.FitsInt ∧
    s₁'.features.withoutTicks = s₂'.features.withoutTicks ∧ s₁'.features ≠ s₂'.features := by
  obtain ⟨m₁, hrun₁⟩ := threeTrades_run
  obtain ⟨m₂, hrun₂⟩ := threeTradesComputed_run
  obtain ⟨s₁, hs₁, htrades₁, _⟩ := exists_state_of_ledger (k := "A") hrun₁
    threeTrades_wellFormed (by decide +kernel)
  obtain ⟨s₂, hs₂, htrades₂, _⟩ := exists_state_of_ledger (k := "A") hrun₂
    threeTradesComputed_wellFormed (by decide +kernel)
  have hsame : s₁.trades = s₂.trades := by
    rw [htrades₁, htrades₂]
    rfl
  have hint₁ : (Window.countTicks (ledger Platform.listed "A" threeTrades).2
      (windowOf s₁.trades)).total < 2 ^ 31 := by
    rw [htrades₁]
    decide +kernel
  have hint₂ : (Window.countTicks (ledger Platform.listed "A" threeTradesComputed).2
      (windowOf s₂.trades)).total < 2 ^ 31 := by
    rw [htrades₂]
    decide +kernel
  obtain ⟨m₁', m₂', s₁', s₂', hm₁', hm₂', hs₁', hs₂', hfits₁, hfits₂, hothers, hiff⟩ :=
    features_history_iff hrun₁ hrun₂ threeTrades_wellFormed threeTradesComputed_wellFormed
      hs₁ hs₂ hsame hint₁ hint₂
  refine ⟨m₁, m₂, m₁', m₂', s₁', s₂', hrun₁, hrun₂, hm₁', hm₂', hs₁', hs₂', hfits₁, hfits₂,
    hothers, ?_⟩
  rw [Ne, hiff, htrades₁, htrades₂]
  decide +kernel

end TradeProcessor
