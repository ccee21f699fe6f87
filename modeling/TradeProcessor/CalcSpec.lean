/-
  CalcSpec.lean --- with exact numbers a pass computes its `CalcType.effect`.

  `Passes` says that a pass is a fold.  Over ℚ the folds are the sums, the maximum and
  the counts of `Window`, and a single entry does the same over the trades that the
  calculator looks at.
-/
import TradeProcessor.Passes

set_option autoImplicit false

namespace TradeProcessor

open TradeProcessor.Json TradeProcessor.Library

variable {w : List Trade} {s : SymbolState} {i : Nat}

theorem foldl_volStep_rat (a : ℚ) (w : List Trade) :
    w.foldl Pass.volStep a = a + Window.volume w := by
  induction w generalizing a with
  | nil => simp [Window.volume]
  | cons x w ih =>
      rw [List.foldl_cons, ih]
      simp [Pass.volStep, Window.volume, add_assoc]

theorem foldl_wapStep_rat (acc : WAPState) (w : List Trade) :
    w.foldl Pass.wapStep acc =
      ⟨acc.numer + Window.tradedValue w, acc.denom + Window.volume w⟩ := by
  induction w generalizing acc with
  | nil => simp [Window.volume, Window.tradedValue]
  | cons x w ih =>
      rw [List.foldl_cons, ih]
      simp [Pass.wapStep, Window.volume, Window.tradedValue, add_assoc]

theorem foldl_tickStep_rat (ti : TIState) (w : List Trade) :
    (adjacent w).foldl (Pass.tickStep ℚ) ti = Window.countTicks ti w :=
  Pass.foldl_tickStep ti (fun _ _ => sub_pos) (fun _ _ => sub_neg) (fun _ _ _ => rfl)
    (fun _ _ _ => rfl)

theorem pass_tps_rat (w : List Trade) : (Pass.tps w : ℚ) = Window.tps w := rfl

theorem pass_imbalance_rat (ti : TIState) : (Pass.imbalance ti : ℚ) = ti.imbalance := rfl

/-- With exact numbers a pass is its effect. -/
theorem CalcType.pass_eq_effect (c : CalcType) (w : List Trade) (s : SymbolState) :
    c.pass w s = c.effect w s := by
  cases c with
  | maxTimeGapCalc => rfl
  | volumeCalc => simp only [pass, effect, foldl_volStep_rat]
  | weightedAvgPriceCalc => simp only [pass, effect, foldl_wapStep_rat, quotient_rat]
  | maxPriceCalc => rfl
  | tradespersecCalc => simp only [pass, effect, pass_tps_rat]
  | tickImbalanceCalc => simp only [pass, effect, foldl_tickStep_rat, pass_imbalance_rat]

theorem CalcType.effect_trades (c : CalcType) (w : List Trade) (s : SymbolState)
    (trades : List Value) :
    c.effect w { s with trades := trades } = { c.effect w s with trades := trades } := by
  cases c <;> rfl

/-- Every calculator pass over a readable deque completes, computes its effect
and leaves the entries the same. -/
theorem CalcType.process_ok (c : CalcType) (hreads : ReadsAs s.trades w) :
    ∃ trades, SameEntries s.trades trades ∧
      c.process s = .ok () { c.effect w s with trades := trades } := by
  rw [← c.pass_eq_effect]
  exact c.process_pass hreads

/-- Over a readable deque `processEntry` completes; it does what the calculator does
over the trades it looks at, and leaves the entries the same. -/
theorem CalcType.processEntry_spec (c : CalcType) (hreads : ReadsAs s.trades w)
    (hi : i < w.length) : ∃ trades, SameEntries s.trades trades ∧
      c.processEntry i s = .ok () { c.effect (c.glance w i) s with trades := trades } := by
  rw [← c.pass_eq_effect]
  exact c.processEntry_pass hreads hi

end TradeProcessor
