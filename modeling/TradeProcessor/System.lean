/-
  System.lean --- the threads of the program.

  Three threads share the queue and the symbol map: the io thread that runs
  `on_message`, the worker of `StreamProcessor` and the scheduler.  An action names
  the thread that moves; what the network, the clock, the timeouts and the
  iteration order of `unordered_map` decide is part of the action.  A step is one
  evaluation of the loop condition of `on_message` with its `enqueue`, one
  `push_back` with the reads before it, one `pop_front`, one whole calculator pass.

  A pass is more than the code makes atomic: the worker may come in between two of
  its entries.  `Logger` takes a pass entry by entry.  And the loop of
  `computeFeatures` is one over a map that is not rehashed under it; `Rehash` has the
  buckets.

  The mutex of a symbol is held by the scheduler from `lock` to `release`.  The
  worker takes no mutex, so no action of the worker asks who holds one.  An
  exception that escapes a thread ends the program: such an action is not enabled.
-/
import TradeProcessor.Library.Machine
import TradeProcessor.Ingest
import TradeProcessor.WSSession

set_option autoImplicit false

namespace TradeProcessor

open TradeProcessor.Json TradeProcessor.Library

/-! ## Threads -/

/-- The io thread: between two messages, or about to evaluate the loop condition of
`on_message`. -/
inductive IoThread where
  | idle
  | sending (completeJsonData : Value) (i : Nat)

/-- The worker thread of `StreamProcessor`; `item` is the local of `process`. -/
inductive WorkerThread where
  /-- about to evaluate the loop condition -/
  | looping (item : Value)
  /-- in `wait_dequeue_timed` -/
  | waiting (item : Value)
  /-- the wait returned true -/
  | dequeued (item : Value)
  /-- after `push_back`, about to read the clock -/
  | pushed (item : Value) (symbol : String)
  /-- about to evaluate the condition of the eviction loop -/
  | evicting (item : Value) (symbol : String) (cutoff_ms : Int)
  | stopped

def WorkerThread.isStopped : WorkerThread → Bool
  | .stopped => true
  | _ => false

/-- The scheduler thread, with the keys that the map had when the loop of
`computeFeatures` began and the keys that the loop has been through. -/
inductive SchedulerThread where
  | idle
  | iterating (started visited : List String)
  /-- holds `v.m`, before `resetFeatures` -/
  | locked (started visited : List String) (symbol : String)
  /-- holds `v.m`, after the first `n` passes -/
  | computing (started visited : List String) (symbol : String) (n : Nat)
  deriving DecidableEq

/-- Everything that the threads share, and where they are. -/
structure System where
  io : IoThread := .idle
  q : List Value := []
  worker : WorkerThread := .looping .nullValue
  scheduler : SchedulerThread := .idle
  symbolStates : SymbolMap := ∅
  stopRequested : Bool := false

/-- Who moves, and what the environment answers. -/
inductive Act where
  /-- a message arrives, and the parser leaves this value in the root -/
  | receive (completeJsonData : Value)
  | message
  | requestStop
  | loop
  | timeout
  | dequeue
  | push
  | readClock (now : Int)
  | evict
  | tick
  | lock (symbol : String)
  | reset
  | pass
  | release
  | finish

/-- The threads, and the signal handler that sets the stop flag. -/
inductive Thread where
  | io
  | worker
  | scheduler
  | signal

/-- The thread that an action moves. -/
def Act.thread : Act → Thread
  | .receive _ | .message => .io
  | .loop | .timeout | .dequeue | .push | .readClock _ | .evict => .worker
  | .tick | .lock _ | .reset | .pass | .release | .finish => .scheduler
  | .requestStop => .signal

/-- What can be seen of an action. -/
inductive Output where
  | received (completeJsonData : Value)
  | enqueued (item : Value)
  | dequeued (item : Value)
  | pushed (symbol : String) (item : Value)
  | popped (symbol : String)
  | locked (symbol : String)
  /-- a calculator pass went over this content of the deque -/
  | passed (symbol : String) (trades : List Value)
  | released (symbol : String)

/-! ## Steps -/

/-- The io thread. -/
def System.ioStep (σ : System) : Act → Option (System × List Output)
  | .receive completeJsonData =>
      match σ.io with
      | .idle =>
          some ({ σ with io := .sending completeJsonData 0 }, [.received completeJsonData])
      | .sending _ _ => none
  | .message =>
      match σ.io with
      | .idle => none
      | .sending completeJsonData i =>
          match messageStep completeJsonData i with
          | .error _ => none
          | .ok (_, none) => some ({ σ with io := .idle }, [])
          | .ok (completeJsonData, some item) =>
              some ({ σ with io := .sending completeJsonData (i + 1), q := σ.q ++ [item] },
                [.enqueued item])
  | _ => none

/-- The worker thread. -/
def System.workerStep (P : Platform) (σ : System) : Act → Option (System × List Output)
  | .loop =>
      match σ.worker with
      | .looping item =>
          some ({ σ with worker := if σ.stopRequested then .stopped else .waiting item }, [])
      | _ => none
  | .timeout =>
      match σ.worker with
      | .waiting item => some ({ σ with worker := .looping item }, [])
      | _ => none
  | .dequeue =>
      match σ.worker, σ.q with
      | .waiting _, item :: q =>
          some ({ σ with worker := .dequeued item, q := q }, [.dequeued item])
      | _, _ => none
  | .push =>
      match σ.worker with
      | .dequeued item =>
          match pushItem P item σ.symbolStates with
          | .ok (item, symbol) symbolStates =>
              some ({ σ with worker := .pushed item symbol, symbolStates := symbolStates },
                [.pushed symbol item])
          | .error _ _ => none
      | _ => none
  | .readClock now =>
      match σ.worker with
      | .pushed item symbol =>
          match item.readInt64 "t" with
          | .ok (item, _ts) =>
              some ({ σ with worker := .evicting item symbol (cutoffMs now) }, [])
          | .error _ => none
      | _ => none
  | .evict =>
      match σ.worker with
      | .evicting item symbol cutoff_ms =>
          match σ.symbolStates.lookup symbol with
          | none => none
          | some s =>
              match evictFront cutoff_ms s.trades with
              | .error _ => none
              | .ok (trades, true) =>
                  some ({ σ with
                    symbolStates := σ.symbolStates.insert symbol { s with trades := trades } },
                    [.popped symbol])
              | .ok (trades, false) =>
                  some ({ σ with
                    worker := .looping item
                    symbolStates := σ.symbolStates.insert symbol { s with trades := trades } },
                  [])
      | _ => none
  | _ => none

/-- The scheduler thread.  The loop of `computeFeatures` may meet keys that were
inserted after it began, or miss them. -/
def System.schedulerStep (σ : System) : Act → Option (System × List Output)
  | .tick =>
      match σ.scheduler with
      | .idle =>
          if σ.stopRequested then none
          else some ({ σ with scheduler := .iterating σ.symbolStates.keys [] }, [])
      | _ => none
  | .lock symbol =>
      match σ.scheduler with
      | .iterating started visited =>
          if symbol ∈ σ.symbolStates.keys ∧ symbol ∉ visited then
            some ({ σ with scheduler := .locked started visited symbol }, [.locked symbol])
          else none
      | _ => none
  | .reset =>
      match σ.scheduler with
      | .locked started visited symbol =>
          match σ.symbolStates.lookup symbol with
          | none => none
          | some s =>
              some ({ σ with
                scheduler := .computing started visited symbol 0
                symbolStates := σ.symbolStates.insert symbol s.resetFeatures }, [])
      | _ => none
  | .pass =>
      match σ.scheduler with
      | .computing started visited symbol n =>
          match calcTypes[n]?, σ.symbolStates.lookup symbol with
          | some c, some s =>
              match c.process s with
              | .ok _ s' =>
                  some ({ σ with
                    scheduler := .computing started visited symbol (n + 1)
                    symbolStates := σ.symbolStates.insert symbol s' }, [.passed symbol s.trades])
              | .error _ _ => none
          | _, _ => none
      | _ => none
  | .release =>
      match σ.scheduler with
      | .computing started visited symbol n =>
          if n = calcTypes.length then
            some ({ σ with scheduler := .iterating started (symbol :: visited) },
              [.released symbol])
          else none
      | _ => none
  | .finish =>
      match σ.scheduler with
      | .iterating started visited =>
          if started.all (· ∈ visited) then some ({ σ with scheduler := .idle }, []) else none
      | _ => none
  | _ => none

/-- `handle_sigint`. -/
def System.signalStep (σ : System) : System × List Output :=
  ({ σ with stopRequested := true }, [])

/-- One action. -/
def System.step (P : Platform) (a : Act) (σ : System) : Option (System × List Output) :=
  match a.thread with
  | .io => σ.ioStep a
  | .worker => σ.workerStep P a
  | .scheduler => σ.schedulerStep a
  | .signal => some σ.signalStep

/-! ## What a step can do -/

/-- The steps of the system, with everything that an action was enabled by.
Invariants are proved over these. -/
inductive Moves (P : Platform) (σ : System) : Act → System → List Output → Prop where
  | receive {completeJsonData : Value} (hio : σ.io = .idle) :
      Moves P σ (.receive completeJsonData) { σ with io := .sending completeJsonData 0 }
        [.received completeJsonData]
  | enqueue {completeJsonData completeJsonData' item : Value} {i : Nat}
      (hio : σ.io = .sending completeJsonData i)
      (hitem : messageStep completeJsonData i = .ok (completeJsonData', some item)) :
      Moves P σ .message { σ with io := .sending completeJsonData' (i + 1), q := σ.q ++ [item] }
        [.enqueued item]
  | messageEnd {completeJsonData completeJsonData' : Value} {i : Nat}
      (hio : σ.io = .sending completeJsonData i)
      (hend : messageStep completeJsonData i = .ok (completeJsonData', none)) :
      Moves P σ .message { σ with io := .idle } []
  | requestStop : Moves P σ .requestStop { σ with stopRequested := true } []
  | loop {item : Value} (hworker : σ.worker = .looping item) :
      Moves P σ .loop { σ with worker := if σ.stopRequested then .stopped else .waiting item } []
  | timeout {item : Value} (hworker : σ.worker = .waiting item) :
      Moves P σ .timeout { σ with worker := .looping item } []
  | dequeue {last item : Value} {q : List Value} (hworker : σ.worker = .waiting last)
      (hq : σ.q = item :: q) : Moves P σ .dequeue { σ with worker := .dequeued item, q := q }
        [.dequeued item]
  | push {item item' : Value} {symbol : String} {symbolStates : SymbolMap}
      (hworker : σ.worker = .dequeued item)
      (hpush : pushItem P item σ.symbolStates = .ok (item', symbol) symbolStates) :
      Moves P σ .push { σ with worker := .pushed item' symbol, symbolStates := symbolStates }
        [.pushed symbol item']
  | readClock {item item' : Value} {symbol : String} {ts now : Int}
      (hworker : σ.worker = .pushed item symbol) (hts : item.readInt64 "t" = .ok (item', ts)) :
      Moves P σ (.readClock now) { σ with worker := .evicting item' symbol (cutoffMs now) } []
  | pop {item : Value} {symbol : String} {cutoff_ms : Int} {s : SymbolState}
      {trades : List Value} (hworker : σ.worker = .evicting item symbol cutoff_ms)
      (hs : σ.symbolStates.lookup symbol = some s)
      (hpop : evictFront cutoff_ms s.trades = .ok (trades, true)) :
      Moves P σ .evict { σ with
        symbolStates := σ.symbolStates.insert symbol { s with trades := trades } }
        [.popped symbol]
  | evictEnd {item : Value} {symbol : String} {cutoff_ms : Int} {s : SymbolState}
      {trades : List Value} (hworker : σ.worker = .evicting item symbol cutoff_ms)
      (hs : σ.symbolStates.lookup symbol = some s)
      (hend : evictFront cutoff_ms s.trades = .ok (trades, false)) :
      Moves P σ .evict { σ with
        worker := .looping item
        symbolStates := σ.symbolStates.insert symbol { s with trades := trades } } []
  | tick (hscheduler : σ.scheduler = .idle) (hrun : ¬ σ.stopRequested = true) :
      Moves P σ .tick { σ with scheduler := .iterating σ.symbolStates.keys [] } []
  | lock {started visited : List String} {symbol : String}
      (hscheduler : σ.scheduler = .iterating started visited)
      (hsymbol : symbol ∈ σ.symbolStates.keys ∧ symbol ∉ visited) :
      Moves P σ (.lock symbol) { σ with scheduler := .locked started visited symbol }
        [.locked symbol]
  | reset {started visited : List String} {symbol : String} {s : SymbolState}
      (hscheduler : σ.scheduler = .locked started visited symbol)
      (hs : σ.symbolStates.lookup symbol = some s) :
      Moves P σ .reset { σ with
        scheduler := .computing started visited symbol 0
        symbolStates := σ.symbolStates.insert symbol s.resetFeatures } []
  | pass {started visited : List String} {symbol : String} {n : Nat} {c : CalcType}
      {s s' : SymbolState} (hscheduler : σ.scheduler = .computing started visited symbol n)
      (hc : calcTypes[n]? = some c) (hs : σ.symbolStates.lookup symbol = some s)
      (hpass : c.process s = .ok () s') :
      Moves P σ .pass { σ with
        scheduler := .computing started visited symbol (n + 1)
        symbolStates := σ.symbolStates.insert symbol s' } [.passed symbol s.trades]
  | release {started visited : List String} {symbol : String}
      (hscheduler : σ.scheduler = .computing started visited symbol calcTypes.length) :
      Moves P σ .release { σ with scheduler := .iterating started (symbol :: visited) }
        [.released symbol]
  | finish {started visited : List String}
      (hscheduler : σ.scheduler = .iterating started visited)
      (hall : started.all (· ∈ visited) = true) :
      Moves P σ .finish { σ with scheduler := .idle } []

variable {P : Platform} {σ σ' : System} {os : List Output}

theorem ioStep_moves {a : Act} (h : σ.ioStep a = some (σ', os)) : Moves P σ a σ' os := by
  cases a with
  | receive completeJsonData =>
      simp only [System.ioStep] at h
      split at h
      · rename_i hio
        cases h
        exact .receive hio
      · cases h
  | message =>
      simp only [System.ioStep] at h
      split at h
      · cases h
      · rename_i completeJsonData i hio
        split at h
        · cases h
        · rename_i hend
          cases h
          exact .messageEnd hio hend
        · rename_i hitem
          cases h
          exact .enqueue hio hitem
  | _ => cases h

theorem workerStep_moves {a : Act} (h : σ.workerStep P a = some (σ', os)) :
    Moves P σ a σ' os := by
  cases a with
  | loop =>
      simp only [System.workerStep] at h
      split at h
      · rename_i hworker
        cases h
        exact .loop hworker
      · cases h
  | timeout =>
      simp only [System.workerStep] at h
      split at h
      · rename_i hworker
        cases h
        exact .timeout hworker
      · cases h
  | dequeue =>
      simp only [System.workerStep] at h
      split at h
      · rename_i hworker hq
        cases h
        exact .dequeue hworker hq
      · cases h
  | push =>
      simp only [System.workerStep] at h
      split at h
      · rename_i hworker
        split at h
        · rename_i hpush
          cases h
          exact .push hworker hpush
        · cases h
      · cases h
  | readClock now =>
      simp only [System.workerStep] at h
      split at h
      · rename_i hworker
        split at h
        · rename_i hts
          cases h
          exact .readClock hworker hts
        · cases h
      · cases h
  | evict =>
      simp only [System.workerStep] at h
      split at h
      · rename_i hworker
        split at h
        · cases h
        · rename_i hs
          split at h
          · cases h
          · rename_i hpop
            cases h
            exact .pop hworker hs hpop
          · rename_i hend
            cases h
            exact .evictEnd hworker hs hend
      · cases h
  | _ => cases h

theorem schedulerStep_moves {a : Act} (h : σ.schedulerStep a = some (σ', os)) :
    Moves P σ a σ' os := by
  cases a with
  | tick =>
      simp only [System.schedulerStep] at h
      split at h
      · rename_i hscheduler
        split at h
        · cases h
        · rename_i hrun
          cases h
          exact .tick hscheduler hrun
      · cases h
  | lock symbol =>
      simp only [System.schedulerStep] at h
      split at h
      · rename_i hscheduler
        split at h
        · rename_i hsymbol
          cases h
          exact .lock hscheduler hsymbol
        · cases h
      · cases h
  | reset =>
      simp only [System.schedulerStep] at h
      split at h
      · rename_i hscheduler
        split at h
        · cases h
        · rename_i hs
          cases h
          exact .reset hscheduler hs
      · cases h
  | pass =>
      simp only [System.schedulerStep] at h
      split at h
      · rename_i hscheduler
        split at h
        · rename_i hc hs
          split at h
          · rename_i hpass
            cases h
            exact .pass hscheduler hc hs hpass
          · cases h
        · cases h
      · cases h
  | release =>
      simp only [System.schedulerStep] at h
      split at h
      · rename_i hscheduler
        split at h
        · rename_i hn
          cases h
          subst hn
          exact .release hscheduler
        · cases h
      · cases h
  | finish =>
      simp only [System.schedulerStep] at h
      split at h
      · rename_i hscheduler
        split at h
        · rename_i hall
          cases h
          exact .finish hscheduler hall
        · cases h
      · cases h
  | _ => cases h

/-- Every enabled action is one of the steps. -/
theorem step_moves {a : Act} (h : System.step P a σ = some (σ', os)) : Moves P σ a σ' os := by
  unfold System.step at h
  split at h
  · exact ioStep_moves h
  · exact workerStep_moves h
  · exact schedulerStep_moves h
  · rename_i hthread
    cases a with
    | requestStop =>
        cases h
        exact .requestStop
    | _ => cases hthread

/-! ## The entries of the deques -/

theorem StampedMap.insert {m : SymbolMap} (hm : StampedMap m) {k : String} {s : SymbolState}
    (hs : ∀ x ∈ s.trades, Stamped x) : StampedMap (m.insert k s) := by
  intro j s' hs' x hx
  by_cases hjk : j = k
  · subst hjk
    rw [AList.lookup_insert] at hs'
    cases hs'
    exact hs x hx
  · rw [AList.lookup_insert_ne hjk] at hs'
    exact hm j s' hs' x hx

/-- No step lets an unstamped item into a deque. -/
theorem stamped_step {a : Act} (hσ : StampedMap σ.symbolStates) (hmove : Moves P σ a σ' os) :
    StampedMap σ'.symbolStates := by
  cases hmove with
  | push hworker hpush =>
      obtain ⟨hadm, _, _, rfl⟩ := pushItem_eq_ok hpush
      exact hσ.pushed (stamped_admitted hadm) _
  | pop hworker hs hpop =>
      obtain ⟨front, hfront⟩ := evictFront_eq_true hpop
      apply hσ.insert
      intro x hx
      exact hσ _ _ hs x (by rw [hfront]; exact List.mem_cons_of_mem _ hx)
  | evictEnd hworker hs hend =>
      have htrades := evictFront_eq_false hend fun x hx => (hσ _ _ hs x hx).1
      apply hσ.insert
      rw [htrades]
      exact hσ _ _ hs
  | reset hscheduler hs =>
      apply hσ.insert
      rw [SymbolState.resetFeatures_trades]
      exact hσ _ _ hs
  | pass hscheduler hc hs hpass =>
      apply hσ.insert
      intro x hx
      obtain ⟨old, hold, haccess⟩ := (CalcType.process_sameEntries _ hpass).exists_source hx
      exact (hσ _ _ hs old hold).accessed haccess
  | _ => exact hσ

/-- Evaluating the condition of the eviction loop changes no symbol. -/
theorem lookup_evictEnd (hσ : StampedMap σ.symbolStates) {symbol : String} {cutoff_ms : Int}
    {s : SymbolState} {trades : List Value} (hs : σ.symbolStates.lookup symbol = some s)
    (hend : evictFront cutoff_ms s.trades = .ok (trades, false)) (k : String) :
    (σ.symbolStates.insert symbol { s with trades := trades }).lookup k =
      σ.symbolStates.lookup k := by
  have htrades := evictFront_eq_false hend fun x hx => (hσ _ _ hs x hx).1
  rw [htrades]
  by_cases hk : k = symbol
  · subst hk
    rw [AList.lookup_insert, hs]
  · rw [AList.lookup_insert_ne hk]

end TradeProcessor
