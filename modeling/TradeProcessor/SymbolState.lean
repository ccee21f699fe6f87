/-
  SymbolState.lean --- `Features.hpp` and `SymbolState.hpp`.

  One `SymbolState` per symbol holds the deque of admitted trades, the published
  features and the scratch state of the calculators.  The mutex `m` is not a
  field here: who holds it is part of the thread states.

  The type of the doubles is a parameter, and so is that of a quotient whose divisor
  is not tested; see `Arithmetic`.  By default the doubles are exact rationals.  The
  `int` and `long` values are integers, which an arithmetic may bound.
-/
import TradeProcessor.Doubles

set_option autoImplicit false

namespace TradeProcessor

open TradeProcessor.Json TradeProcessor.Library

/-- `struct Features`. -/
structure Features (N : Type := ℚ) (Q : Type := Double) [Zero N] [Zero Q] where
  maxGap : N := 0
  vol : N := 0
  weightedAvgPrice : Q := 0
  maxPrice : N := 0
  tps : N := 0
  tickImbalance : N := 0
  deriving DecidableEq, Repr

/-- `struct MaxGapState`. -/
structure MaxGapState where
  prevTime : Int := 0
  deriving DecidableEq, Repr

/-- `struct WAPState`. -/
structure WAPState (N : Type := ℚ) [Zero N] where
  numer : N := 0
  denom : N := 0
  deriving DecidableEq, Repr

/-- `struct TIState`. -/
structure TIState where
  upticks : Int := 0
  downticks : Int := 0
  deriving DecidableEq, Repr

/-- `struct SymbolState`; the front of the deque is the head of the list. -/
structure SymbolState (N : Type := ℚ) (Q : Type := Double) [Zero N] [Zero Q] where
  trades : List Value := []
  features : Features N Q := {}
  maxGapState : MaxGapState := {}
  wapState : WAPState N := {}
  tiState : TIState := {}
  deriving Inhabited

/-- Why a thread stops before its function returns. -/
inductive Fault where
  /-- a jsoncpp exception that nothing catches -/
  | json (error : LogicError)
  /-- an iterator dereferenced outside the deque -/
  | invalidIterator
  deriving DecidableEq, Repr

namespace SymbolState

variable {N Q : Type} [Zero N] [Zero Q]

/-- `SymbolState::resetFeatures`. -/
def resetFeatures (s : SymbolState N Q) : SymbolState N Q :=
  { s with
    features.maxGap := 0
    features.maxPrice := 0
    features.tps := 0
    features.vol := 0
    features.weightedAvgPrice := 0
    features.tickImbalance := 0
    maxGapState.prevTime := 0
    wapState.numer := 0
    wapState.denom := 0 }

@[simp] theorem resetFeatures_trades (s : SymbolState N Q) :
    s.resetFeatures.trades = s.trades := rfl
@[simp] theorem resetFeatures_features (s : SymbolState N Q) :
    s.resetFeatures.features = {} := rfl
@[simp] theorem resetFeatures_maxGapState (s : SymbolState N Q) :
    s.resetFeatures.maxGapState = {} := rfl
@[simp] theorem resetFeatures_wapState (s : SymbolState N Q) :
    s.resetFeatures.wapState = {} := rfl
@[simp] theorem resetFeatures_tiState (s : SymbolState N Q) :
    s.resetFeatures.tiState = s.tiState := rfl

/-- A JSON read through an iterator into the deque.  The read may insert a null
member into the entry. -/
def access {α : Type} (read : Value → Except LogicError (Value × α)) (entry : Nat) :
    Action Fault (SymbolState N Q) α := fun s =>
  match s.trades[entry]? with
  | none => .error .invalidIterator s
  | some item =>
      match read item with
      | .error e => .error (.json e) s
      | .ok (item', a) => .ok a { s with trades := s.trades.set entry item' }

theorem access_ok {α : Type} {read : Value → Except LogicError (Value × α)} {entry : Nat}
    {s : SymbolState N Q} {item item' : Value} {a : α} (hitem : s.trades[entry]? = some item)
    (hread : read item = .ok (item', a)) :
    access read entry s = .ok a { s with trades := s.trades.set entry item' } := by
  unfold access
  rw [hitem]
  simp only [hread]

/-- What a completed access says about the entry it went through. -/
theorem access_eq_ok_iff {α : Type} {read : Value → Except LogicError (Value × α)}
    {entry : Nat} {s s' : SymbolState N Q} {a : α} :
    access read entry s = .ok a s' ↔
      ∃ item item', s.trades[entry]? = some item ∧ read item = .ok (item', a) ∧
        s' = { s with trades := s.trades.set entry item' } := by
  unfold access
  cases hitem : s.trades[entry]? with
  | none => simp
  | some item =>
      cases hread : read item with
      | error e => simp [hread]
      | ok result =>
          obtain ⟨item', b⟩ := result
          simp [hread, eq_comm, and_comm]

end SymbolState

end TradeProcessor
