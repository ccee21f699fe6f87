/-
  Independence.lean --- calculators do not see each other.

  `main` lists the calculators that it wants as a tuple.  Each of them writes fields
  of its own and reads, besides the deque, nothing that another one writes.  So a
  tuple of different calculators computes for each what it would compute alone,
  in whatever order they are listed.
-/
import TradeProcessor.Library.Footprints
import TradeProcessor.FeatureLaws

set_option autoImplicit false

namespace TradeProcessor

open TradeProcessor.Json TradeProcessor.Library

/-! ## Footprints -/

/-- The type of what a calculator writes. -/
def CalcType.Written : CalcType → Type
  | maxTimeGapCalc => ℚ × MaxGapState
  | volumeCalc => ℚ
  | weightedAvgPriceCalc => Double × WAPState
  | maxPriceCalc => ℚ
  | tradespersecCalc => ℚ
  | tickImbalanceCalc => ℚ × TIState

/-- The feature that a calculator writes, with its scratch state, if it has one. -/
def CalcType.written : (c : CalcType) → SymbolState → c.Written
  | maxTimeGapCalc, s => (s.features.maxGap, s.maxGapState)
  | volumeCalc, s => s.features.vol
  | weightedAvgPriceCalc, s => (s.features.weightedAvgPrice, s.wapState)
  | maxPriceCalc, s => s.features.maxPrice
  | tradespersecCalc, s => s.features.tps
  | tickImbalanceCalc, s => (s.features.tickImbalance, s.tiState)

variable {s s' : SymbolState} {w : List Trade}

/-- The deque and what the calculators write is all there is in a state. -/
theorem SymbolState.ext_written (htrades : s.trades = s'.trades)
    (h : ∀ c : CalcType, c.written s = c.written s') : s = s' := by
  have hgap := h .maxTimeGapCalc
  have hvol := h .volumeCalc
  have hwap := h .weightedAvgPriceCalc
  have hmax := h .maxPriceCalc
  have htps := h .tradespersecCalc
  have hticks := h .tickImbalanceCalc
  obtain ⟨trades, ⟨maxGap, vol, weightedAvgPrice, maxPrice, tps, tickImbalance⟩, _, _, _⟩ := s
  obtain ⟨trades', ⟨_, _, _, _, _, _⟩, _, _, _⟩ := s'
  cases htrades
  cases hgap
  cases hvol
  cases hwap
  cases hmax
  cases htps
  cases hticks
  rfl

/-- What a calculator writes depends on what it has written before, and on the
window. -/
theorem CalcType.effect_own (c : CalcType) (w : List Trade) (h : c.written s = c.written s') :
    c.written (c.effect w s) = c.written (c.effect w s') := by
  cases c with
  | maxTimeGapCalc =>
      obtain ⟨hgap, hprev⟩ := Prod.mk.inj h
      simp only [effect, written, hgap, hprev]
      rfl
  | volumeCalc =>
      have hvol : s.features.vol = s'.features.vol := h
      simp only [effect, written, hvol]
      rfl
  | weightedAvgPriceCalc =>
      obtain ⟨hwap, hsums⟩ := Prod.mk.inj h
      simp only [effect, written, hwap, hsums]
      rfl
  | maxPriceCalc =>
      have hmax : s.features.maxPrice = s'.features.maxPrice := h
      simp only [effect, written, hmax]
      rfl
  | tradespersecCalc =>
      have htps : s.features.tps = s'.features.tps := h
      simp only [effect, written, htps]
      rfl
  | tickImbalanceCalc =>
      obtain ⟨hratio, hcounters⟩ := Prod.mk.inj h
      simp only [effect, written, hratio, hcounters]
      rfl

/-- A calculator writes nothing of another one. -/
theorem CalcType.effect_frame {c d : CalcType} (w : List Trade) (s : SymbolState) (h : d ≠ c) :
    d.written (c.effect w s) = d.written s := by
  cases c <;> cases d <;> first | rfl | exact absurd rfl h

/-- The calculators over a window, with what each one owns. -/
def calcFootprints (w : List Trade) : Footprints CalcType SymbolState where
  Part := CalcType.Written
  part := CalcType.written
  Rest := List Value
  rest := SymbolState.trades
  run c s := c.effect w s
  own c _ _ := c.effect_own w
  frame s hne := CalcType.effect_frame w s hne
  frame_rest c s := by cases c <;> rfl
  ext := SymbolState.ext_written

theorem effects_eq_runAll (w : List Trade) (calcs : List CalcType) (s : SymbolState) :
    effects w calcs s = (calcFootprints w).runAll calcs s := rfl

/-! ## Tuples of calculators -/

/-- Over a deque whose entries have all members, a tuple computes the effects of its
calculators and nothing else. -/
theorem passes_of_full (calcs : List CalcType) (hreads : ReadsAs s.trades w)
    (hfull : Full s.trades) : passes calcs s = .ok () (effects w calcs s) := by
  obtain ⟨trades, hsame, hrun⟩ := passes_ok calcs hreads
  have htrades : trades = (effects w calcs s).trades := by
    rw [hsame.eq_of_full hfull]
    exact ((calcFootprints w).rest_runAll calcs s).symm
  rw [hrun, htrades]

theorem CalcType.process_of_full (c : CalcType) (hreads : ReadsAs s.trades w)
    (hfull : Full s.trades) : c.process s = .ok () (c.effect w s) := by
  obtain ⟨trades, hsame, hrun⟩ := c.process_ok hreads
  have htrades : trades = (c.effect w s).trades := by
    rw [hsame.eq_of_full hfull]
    exact ((calcFootprints w).frame_rest c s).symm
  rw [hrun, htrades]

/-- Calculators are independent.  `tupleProcess` over a tuple of different calculators
makes the whole pass of each, once, in the order of the tuple; the order does not
matter; the trades stay; what a listed calculator writes is what it writes when it
runs alone on the same state; and what only the others write stays. -/
theorem calculators_independent {calcs : List CalcType} (hnodup : calcs.Nodup)
    (hreads : ReadsAs s.trades w) (hfull : Full s.trades) :
    (tupleProcess calcs calcs.length : Action Fault SymbolState Unit) =
      forM calcs CalcType.process ∧
    ∃ s', tupleProcess calcs calcs.length s = .ok () s' ∧ s'.trades = s.trades ∧
      (∀ calcs', calcs'.Perm calcs → tupleProcess calcs' calcs'.length s = .ok () s') ∧
      ∀ c, (c ∈ calcs → ∃ alone, c.process s = .ok () alone ∧ c.written s' = c.written alone) ∧
        (c ∉ calcs → c.written s' = c.written s) := by
  have htuple : ∀ calcs : List CalcType,
      (tupleProcess calcs calcs.length : Action Fault SymbolState Unit) = passes calcs := by
    intro calcs
    rw [tupleProcess_eq_passes le_rfl, List.take_length]
  refine ⟨htuple calcs, effects w calcs s, ?_, (calcFootprints w).rest_runAll calcs s, ?_, ?_⟩
  · rw [htuple, passes_of_full calcs hreads hfull]
  · intro calcs' hperm
    have horder := Footprints.runAll_perm (F := calcFootprints w) hperm.symm hnodup s
    rw [htuple, passes_of_full calcs' hreads hfull, effects_eq_runAll, effects_eq_runAll, horder]
  · intro c
    constructor
    · intro hc
      exact ⟨_, c.process_of_full hreads hfull,
        Footprints.part_runAll_of_mem (F := calcFootprints w) hnodup hc s⟩
    · intro hc
      exact Footprints.part_runAll_of_notMem (F := calcFootprints w) hc s

theorem calculators_independent_three_trades : ∃ s',
    tupleProcess [.tickImbalanceCalc, .volumeCalc] 2 (leftover threeItems) = .ok () s' ∧
    s'.trades = threeItems ∧
    tupleProcess [.volumeCalc, .tickImbalanceCalc] 2 (leftover threeItems) = .ok () s' ∧
    s'.features.maxGap = 99 := by
  have hfull : Full threeItems := by
    unfold Full
    decide +kernel
  have hnodup : [CalcType.tickImbalanceCalc, .volumeCalc].Nodup := by decide
  obtain ⟨_, s', hrun, htrades, hperm, hparts⟩ :=
    calculators_independent (s := leftover threeItems) hnodup readsAs_threeWindow hfull
  have hgap := (hparts .maxTimeGapCalc).2 (by decide)
  exact ⟨s', hrun, htrades, hperm _ (List.Perm.swap _ _ _), (Prod.mk.inj hgap).1⟩

end TradeProcessor
