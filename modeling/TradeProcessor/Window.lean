/-
  Window.lean --- what the calculators are for.

  A window is the list of trades of one symbol, as the numbers that are read from
  them.  Each calculator pass is stated here as a function of a whole window and
  of the `SymbolState` it starts from, without JSON, iterators or faults.  These
  are the specifications that `CalcSpec` proves the passes of `Calc` to meet.
-/
import TradeProcessor.Library.IndexedLists
import TradeProcessor.Calc

set_option autoImplicit false

namespace TradeProcessor

open TradeProcessor.Json TradeProcessor.Library

/-- The numbers that the calculators read from one deque entry. -/
structure Trade where
  t : Int
  v : ℚ
  p : ℚ
  deriving DecidableEq, Repr

/-- The entry yields the numbers of the trade. -/
structure Reads (item : Value) (x : Trade) : Prop where
  subscriptable : item.subscriptable = true
  t : (item.member "t").asInt64 = .ok x.t
  v : (item.member "v").asDouble = .ok x.v
  p : (item.member "p").asDouble = .ok x.p

namespace Window

/-- Sum of the volumes. -/
def volume (w : List Trade) : ℚ := (w.map Trade.v).sum

/-- Sum of volume times price. -/
def tradedValue (w : List Trade) : ℚ := (w.map fun x => x.v * x.p).sum

/-- One entry of the time gap pass: the widest gap so far and the time of the
previous entry. -/
def gapStep (acc : ℚ × Int) (x : Trade) : ℚ × Int :=
  (if ((x.t - acc.2 : Int) : ℚ) > acc.1 ∧ acc.2 > 0 then ((x.t - acc.2 : Int) : ℚ)
    else acc.1, x.t)

/-- The time gap pass, from a widest gap and a previous time. -/
def gaps (acc : ℚ × Int) (w : List Trade) : ℚ × Int := w.foldl gapStep acc

/-- The maximum price pass, from a maximum so far. -/
def maxPrice (m : ℚ) (w : List Trade) : ℚ :=
  w.foldl (fun m x => if x.p > m then x.p else m) m

/-- Time between the two ends of the window. -/
def duration (w : List Trade) : Int :=
  (w.getLast?.map Trade.t).getD 0 - (w.head?.map Trade.t).getD 0

/-- Trades per second of a window. -/
def tps (w : List Trade) : ℚ :=
  if w.length = 1 ∨ (duration w : ℚ) = 0 then 0 else w.length / (duration w : ℚ) * 1000

/-- Number of strictly rising consecutive prices. -/
def upticks (w : List Trade) : Nat := (adjacent w).countP fun q => q.1.p < q.2.p

/-- Number of strictly falling consecutive prices. -/
def downticks (w : List Trade) : Nat := (adjacent w).countP fun q => q.2.p < q.1.p

/-- Counters that have seen a window. -/
def countTicks (ti : TIState) (w : List Trade) : TIState :=
  { upticks := ti.upticks + upticks w, downticks := ti.downticks + downticks w }

end Window

/-- The ratio that the counters give. -/
def TIState.imbalance (ti : TIState) : ℚ :=
  if ti.upticks + ti.downticks > 0 then
    ((ti.upticks - ti.downticks : Int) : ℚ) / ((ti.upticks + ti.downticks : Int) : ℚ)
  else 0

/-- What a whole pass of a calculator does to everything but the deque. -/
def CalcType.effect (w : List Trade) (s : SymbolState) : CalcType → SymbolState
  | maxTimeGapCalc =>
      let acc := Window.gaps (s.features.maxGap, s.maxGapState.prevTime) w
      { s with features.maxGap := acc.1, maxGapState.prevTime := acc.2 }
  | volumeCalc => { s with features.vol := s.features.vol + Window.volume w }
  | weightedAvgPriceCalc =>
      let numer := s.wapState.numer + Window.tradedValue w
      let denom := s.wapState.denom + Window.volume w
      { s with
        wapState := { numer := numer, denom := denom }
        features.weightedAvgPrice :=
          if w = [] then s.features.weightedAvgPrice else Double.div numer denom }
  | maxPriceCalc => { s with features.maxPrice := Window.maxPrice s.features.maxPrice w }
  | tradespersecCalc =>
      { s with features.tps := if w = [] then s.features.tps else Window.tps w }
  | tickImbalanceCalc =>
      let ti := Window.countTicks s.tiState w
      { s with
        tiState := ti
        features.tickImbalance :=
          if w.length < 2 then s.features.tickImbalance else ti.imbalance }

/-- The features of a window when the tick counters start at `ti`. -/
def Window.features (ti : TIState) (w : List Trade) : Features where
  maxGap := (gaps (0, 0) w).1
  vol := volume w
  weightedAvgPrice := if w = [] then .finite 0 else Double.div (tradedValue w) (volume w)
  maxPrice := maxPrice 0 w
  tps := if w = [] then 0 else tps w
  tickImbalance := if w.length < 2 then 0 else (countTicks ti w).imbalance

/-! ## Ends and prefixes of a window -/

namespace Window

theorem duration_eq {w : List Trade} {first last : Trade} (hfirst : w[0]? = some first)
    (hlast : w[w.length - 1]? = some last) : duration w = last.t - first.t := by
  rw [duration, List.head?_eq_getElem?, List.getLast?_eq_getElem?, hfirst, hlast]
  rfl

/-- A prefix has no more ticks than the window. -/
theorem countTicks_take_le (ti : TIState) (w : List Trade) (n : Nat) :
    (countTicks ti (w.take n)).upticks ≤ (countTicks ti w).upticks ∧
      (countTicks ti (w.take n)).downticks ≤ (countTicks ti w).downticks := by
  have hsub := adjacent_sublist_append (w.take n) (w.drop n)
  rw [List.take_append_drop] at hsub
  have hup : upticks (w.take n) ≤ upticks w := hsub.countP_le
  have hdown : downticks (w.take n) ≤ downticks w := hsub.countP_le
  simp only [countTicks]
  omega

theorem countTicks_of_length_lt (ti : TIState) {w : List Trade} (h : w.length < 2) :
    countTicks ti w = ti := by
  simp [countTicks, upticks, downticks, adjacent_eq_nil_of_length_lt h]

end Window

/-! ## The range of the counters -/

/-- Everything that the tick pass computes in `int` from the counters fits. -/
structure TIState.FitsInt (ti : TIState) : Prop where
  upticks : InInt ti.upticks
  downticks : InInt ti.downticks
  sum : InInt (ti.upticks + ti.downticks)
  difference : InInt (ti.upticks - ti.downticks)

/-- The number of ticks counted. -/
def TIState.total (ti : TIState) : Int := ti.upticks + ti.downticks

/-- Of counters that are not negative, the sum is the greatest number. -/
theorem TIState.fitsInt_iff {ti : TIState} (hup : 0 ≤ ti.upticks) (hdown : 0 ≤ ti.downticks) :
    ti.FitsInt ↔ ti.total ≤ 2 ^ 31 - 1 := by
  constructor
  · intro h
    exact h.sum.2
  · intro h
    unfold TIState.total at h
    constructor <;> unfold InInt <;> omega

/-- A window entered into counters that stay below 2^31. -/
theorem Window.fitsInt_countTicks {ti : TIState} {w : List Trade} (hup : 0 ≤ ti.upticks)
    (hdown : 0 ≤ ti.downticks) (hint : (countTicks ti w).total < 2 ^ 31) :
    (countTicks ti w).FitsInt := by
  refine (TIState.fitsInt_iff ?_ ?_).mpr (by omega)
  · simp only [countTicks]
    omega
  · simp only [countTicks]
    omega

end TradeProcessor
