/-
  Calc.lean --- `Calc.hpp`: the six calculators.

  `Calc<T>::process` walks the deque and hands `processEntry` an iterator; an
  iterator is an index here, and `s.trades.begin()` is index 0.  A calculator
  object has no data members, so a calculator is its `processEntry`.
-/
import TradeProcessor.SymbolState

set_option autoImplicit false

namespace TradeProcessor

open TradeProcessor.Json TradeProcessor.Library
open SymbolState (access)
open Arithmetic (double quotient)

section

variable {N Q : Type} [Zero N] [Zero Q] [Add N] [Sub N] [Mul N] [Div N] [LT N] [DecidableLT N]
  [DecidableEq N] [Arithmetic N Q]

/-- `Calc<T>::process`, with `T::processEntry` as an argument. -/
def Calc.process (processEntry : Nat → Action Fault (SymbolState N Q) Unit) :
    Action Fault (SymbolState N Q) Unit := do
  let s ← get
  forRange s.trades.length processEntry

/-- `MaxTimeGapCalc::processEntry`.  The difference of two `long`s is converted to
compare it with the widest gap so far, and to store it. -/
def MaxTimeGapCalc.processEntry (entry : Nat) : Action Fault (SymbolState N Q) Unit := do
  let ts ← access (Value.readInt64 "t") entry
  modify fun s =>
    let gap : N := double (Arithmetic.long (N := N) (ts - s.maxGapState.prevTime))
    let s :=
      if gap > s.features.maxGap ∧ s.maxGapState.prevTime > 0 then
        { s with features.maxGap := gap }
      else s
    { s with maxGapState.prevTime := ts }

/-- `VolumeCalc::processEntry`. -/
def VolumeCalc.processEntry (entry : Nat) : Action Fault (SymbolState N Q) Unit := do
  let tradeVol ← access (Value.readDouble "v") entry
  modify fun s => { s with features.vol := s.features.vol + double tradeVol }

/-- `TradespersecCalc::processEntry`.  The time span runs between the two ends
of the deque, whatever entry the iterator is at. -/
def TradespersecCalc.processEntry (_entry : Nat) : Action Fault (SymbolState N Q) Unit := do
  let size := (← get).trades.length
  if size = 0 then
    return
  else
    let back ← access (Value.readInt64 "t") (size - 1)
    let front ← access (Value.readInt64 "t") 0
    let duration : N := double (Arithmetic.long (N := N) (back - front))
    let tps : N :=
      if size = 1 ∨ duration = 0 then 0
      else double (Arithmetic.size (N := N) size) / duration * double 1000
    modify fun s => { s with features.tps := tps }

/-- `MaxPriceCalc::processEntry`. -/
def MaxPriceCalc.processEntry (entry : Nat) : Action Fault (SymbolState N Q) Unit := do
  let entryPrice ← access (Value.readDouble "p") entry
  modify fun s =>
    if double entryPrice > s.features.maxPrice then
      { s with features.maxPrice := double entryPrice }
    else s

/-- `WeightedAvgPriceCalc::processEntry`. -/
def WeightedAvgPriceCalc.processEntry (entry : Nat) : Action Fault (SymbolState N Q) Unit := do
  let vol ← access (Value.readDouble "v") entry
  let price ← access (Value.readDouble "p") entry
  modify fun s =>
    let s := { s with wapState.numer := s.wapState.numer + double vol * double price }
    let s := { s with wapState.denom := s.wapState.denom + double vol }
    { s with features.weightedAvgPrice := quotient s.wapState.numer s.wapState.denom }

/-- `TickImbalanceCalc::processEntry`: looks back at the neighbour, so the first
entry is skipped before the feature is written. -/
def TickImbalanceCalc.processEntry (entry : Nat) : Action Fault (SymbolState N Q) Unit := do
  if entry = 0 then
    return
  else
    let price ← access (Value.readDouble "p") entry
    let prevPrice ← access (Value.readDouble "p") (entry - 1)
    let priceChange : N := double price - double prevPrice
    modify fun s =>
      let s :=
        if priceChange > 0 then
          { s with tiState.upticks := Arithmetic.int (N := N) (s.tiState.upticks + 1) }
        else if priceChange < 0 then
          { s with tiState.downticks := Arithmetic.int (N := N) (s.tiState.downticks + 1) }
        else s
      let total := Arithmetic.int (N := N) (s.tiState.upticks + s.tiState.downticks)
      let difference := Arithmetic.int (N := N) (s.tiState.upticks - s.tiState.downticks)
      { s with
        features.tickImbalance := if total > 0 then double difference / double total else 0 }

/-- The calculator types that a tuple of `StreamProcessor` can list. -/
inductive CalcType where
  | maxTimeGapCalc
  | volumeCalc
  | weightedAvgPriceCalc
  | maxPriceCalc
  | tradespersecCalc
  | tickImbalanceCalc
  deriving DecidableEq, Repr

/-- `processEntry` of a calculator. -/
def CalcType.processEntry : CalcType → Nat → Action Fault (SymbolState N Q) Unit
  | maxTimeGapCalc => MaxTimeGapCalc.processEntry
  | volumeCalc => VolumeCalc.processEntry
  | weightedAvgPriceCalc => WeightedAvgPriceCalc.processEntry
  | maxPriceCalc => MaxPriceCalc.processEntry
  | tradespersecCalc => TradespersecCalc.processEntry
  | tickImbalanceCalc => TickImbalanceCalc.processEntry

/-- `process` of a calculator. -/
def CalcType.process (c : CalcType) : Action Fault (SymbolState N Q) Unit :=
  Calc.process c.processEntry

end

/-- `CalcTypes` of `main`. -/
def calcTypes : List CalcType :=
  [.maxTimeGapCalc, .volumeCalc, .weightedAvgPriceCalc, .maxPriceCalc, .tradespersecCalc,
    .tickImbalanceCalc]

end TradeProcessor
