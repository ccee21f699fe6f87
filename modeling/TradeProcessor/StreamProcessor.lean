/-
  StreamProcessor.lean --- `StreamProcessor.hpp`: the ingest iteration and
  `computeFeatures`.

  `process` is modelled by one iteration of its loop for a dequeued item
  (`processItem`); the loop around it, with its timeouts and its stop token, is a
  matter of threads and lives in `System`.  The clock reading is an argument:
  nanoseconds since the epoch, the period of `std::chrono::system_clock`.
-/
import Mathlib.Data.List.AList
import TradeProcessor.Calc

set_option autoImplicit false

namespace TradeProcessor

open TradeProcessor.Json TradeProcessor.Library

/-- `std::unordered_map<std::string, SymbolState>`. -/
abbrev SymbolMap (N : Type := ℚ) (Q : Type := Double) [Zero N] [Zero Q] : Type :=
  AList fun _ : String => SymbolState N Q

/-- What the program takes from code outside the repository: the decimal
rendering of a double by jsoncpp, and the order in which `unordered_map` visits
its keys, each of them exactly once. -/
structure Platform (N : Type := ℚ) (Q : Type := Double) [Zero N] [Zero Q] where
  realText : ℚ → String
  visit : SymbolMap N Q → List String
  visit_perm : ∀ m : SymbolMap N Q, (visit m).Perm m.keys

variable {N Q : Type} [Zero N] [Zero Q]

/-- Evaluate a JSON expression; a `LogicError` that escapes is a fault. -/
def jsonRead {σ α : Type} (x : Except LogicError α) : Action Fault σ α :=
  evaluate Fault.json x

/-! ## References into the map -/

/-- `symbolStates[symbol]`: a missing key is inserted with a fresh state. -/
def SymbolMap.subscript (symbol : String) (m : SymbolMap N Q) : SymbolMap N Q :=
  match m.lookup symbol with
  | some _ => m
  | none => m.insert symbol {}

/-- Run on the state that a reference obtained for the key refers to. -/
def atSymbol (symbol : String) (x : Action Fault (SymbolState N Q) Unit) :
    Action Fault (SymbolMap N Q) Unit := fun m =>
  match m.lookup symbol with
  | none => .ok () m
  | some s =>
      match x s with
      | .ok _ s' => .ok () (m.insert symbol s')
      | .error e s' => .error e (m.insert symbol s')

/-! ## Ingest -/

/-- Window size in minutes. -/
def windowSize : Int := 10

/-- `duration_cast<milliseconds>` of a count of nanoseconds. -/
def toMilliseconds (ns : Int) : Int := ns.tdiv 1000000

/-- `cutoff_ms` for a reading of the system clock. -/
def cutoffMs (now : Int) : Int := toMilliseconds (now - windowSize * 60 * 1000000000)

/-- `while (!trades.empty() && trades.front()["t"].asInt64() < cutoff_ms)
trades.pop_front();` -/
def popExpired (cutoff_ms : Int) : List Value → EStateM.Result LogicError (List Value) Unit
  | [] => .ok () []
  | item :: rest =>
      match item.readInt64 "t" with
      | .error e => .error e (item :: rest)
      | .ok (item', t) =>
          if t < cutoff_ms then popExpired cutoff_ms rest else .ok () (item' :: rest)

/-- The eviction loop, on the state of the symbol. -/
def evict (cutoff_ms : Int) : Action Fault (SymbolState N Q) Unit := fun s =>
  match popExpired cutoff_ms s.trades with
  | .ok _ trades => .ok () { s with trades := trades }
  | .error e trades => .error (.json e) { s with trades := trades }

/-- `state.trades.push_back(item)`. -/
def SymbolState.pushBack (item : Value) (s : SymbolState N Q) : SymbolState N Q :=
  { s with trades := s.trades ++ [item] }

/-- The arguments of the debug line.  They are evaluated whatever the log level,
and leave the item with members `s`, `t` and `v`.  C++ leaves their order open; it
decides which error is raised, not whether one is. -/
def debugArguments (P : Platform N Q) (item : Value) : Except LogicError Value := do
  let (item, _) ← item.readString P.realText "s"
  let (item, _) ← item.readInt64 "t"
  let (item, _) ← item.readInt64 "v"
  return item

/-- One iteration of `StreamProcessor::process` whose wait yielded an item.  The
result is the local variable `item` at the end of the iteration. -/
def processItem (P : Platform N Q) (now : Int) (item : Value) :
    Action Fault (SymbolMap N Q) Value := do
  let item ← jsonRead (debugArguments P item)
  let (item, symbol) ← jsonRead (item.readString P.realText "s")
  modify (SymbolMap.subscript symbol)
  atSymbol symbol (modify (SymbolState.pushBack item))
  let (item, _ts) ← jsonRead (item.readInt64 "t")
  atSymbol symbol (evict (cutoffMs now))
  return item

/-! ### The iteration in the pieces that other threads can tell apart -/

/-- `process` up to and including `push_back`. -/
def pushItem (P : Platform N Q) (item : Value) :
    Action Fault (SymbolMap N Q) (Value × String) := do
  let item ← jsonRead (debugArguments P item)
  let (item, symbol) ← jsonRead (item.readString P.realText "s")
  modify (SymbolMap.subscript symbol)
  atSymbol symbol (modify (SymbolState.pushBack item))
  return (item, symbol)

/-- One evaluation of the condition of the eviction loop, with the `pop_front` that
follows if it holds: the deque, and whether the loop goes on. -/
def evictFront (cutoff_ms : Int) : List Value → Except LogicError (List Value × Bool)
  | [] => .ok ([], false)
  | item :: rest => do
      let (item, t) ← item.readInt64 "t"
      if t < cutoff_ms then return (rest, true) else return (item :: rest, false)

/-! ## Features -/

variable [Add N] [Sub N] [Mul N] [Div N] [LT N] [DecidableLT N] [DecidableEq N] [Arithmetic N Q]

/-- `StreamProcessor::tupleProcess<n>`. -/
def tupleProcess (calcs : List CalcType) : Nat → Action Fault (SymbolState N Q) Unit
  | 0 => pure ()
  | n + 1 => do
      if n + 1 > 1 then
        tupleProcess calcs n
      match calcs[n]? with
      | some c => c.process
      | none => pure ()

/-- What `computeFeatures` does for one symbol while it holds its mutex. -/
def computeSymbol (calcs : List CalcType) : Action Fault (SymbolState N Q) Unit := do
  modify SymbolState.resetFeatures
  tupleProcess calcs calcs.length

/-- `StreamProcessor::computeFeatures`. -/
def computeFeatures (P : Platform N Q) (calcs : List CalcType) :
    Action Fault (SymbolMap N Q) Unit := do
  let m ← get
  forM (P.visit m) fun symbol => atSymbol symbol (computeSymbol calcs)

end TradeProcessor
