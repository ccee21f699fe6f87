/-
  Pipeline.lean --- from the messages to the deques, under every interleaving.

  Between a message and a deque a trade is in one of four places: in the rest of
  the message that the io thread has not enqueued yet, on the queue, in the local
  variable of the worker, or pushed.  The invariant says that these four, put
  together in order, are always everything that was received.
-/
import TradeProcessor.System
import TradeProcessor.Arrivals

set_option autoImplicit false

namespace TradeProcessor

open TradeProcessor.Json TradeProcessor.Library

/-! ## What the outputs record -/

/-- The elements of all messages so far. -/
def receivedOf (os : List Output) : List Value :=
  os.flatMap fun o =>
    match o with
    | .received completeJsonData => dataOf completeJsonData
    | _ => []

/-- The items that `on_message` has enqueued. -/
def enqueuedOf (os : List Output) : List Value :=
  os.filterMap fun o =>
    match o with
    | .enqueued item => some item
    | _ => none

/-- The items that `process` has dequeued. -/
def dequeuedOf (os : List Output) : List Value :=
  os.filterMap fun o =>
    match o with
    | .dequeued item => some item
    | _ => none

/-- The items that `process` has pushed on some deque. -/
def pushedOf (os : List Output) : List Value :=
  os.filterMap fun o =>
    match o with
    | .pushed _ item => some item
    | _ => none

/-- The items that `process` has pushed on the deque of the symbol. -/
def pushedTo (k : String) (os : List Output) : List Value :=
  os.filterMap fun o =>
    match o with
    | .pushed symbol item => if symbol = k then some item else none
    | _ => none

/-- How often `process` has popped the deque of the symbol. -/
def poppedFrom (k : String) (os : List Output) : Nat :=
  os.countP fun o =>
    match o with
    | .popped symbol => symbol = k
    | _ => false

/-- What the io thread has still to enqueue of its message. -/
def IoThread.remaining : IoThread → List Value
  | .idle => []
  | .sending completeJsonData i => (dataOf completeJsonData).drop i

/-- What the worker has dequeued and not pushed yet. -/
def WorkerThread.inFlight : WorkerThread → List Value
  | .dequeued item => [item]
  | _ => []

/-- A message of the feed: its `data` is an array of well-formed trades. -/
def FeedMessage (completeJsonData : Value) : Prop :=
  ∃ elements, completeJsonData.member "data" = .arrayValue elements ∧
    ∀ item ∈ elements, WellFormed item

section Outputs

variable (os os' : List Output)

theorem receivedOf_append : receivedOf (os ++ os') = receivedOf os ++ receivedOf os' := by
  simp [receivedOf]

theorem enqueuedOf_append : enqueuedOf (os ++ os') = enqueuedOf os ++ enqueuedOf os' := by
  simp [enqueuedOf]

theorem dequeuedOf_append : dequeuedOf (os ++ os') = dequeuedOf os ++ dequeuedOf os' := by
  simp [dequeuedOf]

theorem pushedOf_append : pushedOf (os ++ os') = pushedOf os ++ pushedOf os' := by
  simp [pushedOf]

theorem pushedTo_append (k : String) :
    pushedTo k (os ++ os') = pushedTo k os ++ pushedTo k os' := by
  simp [pushedTo]

theorem poppedFrom_append (k : String) :
    poppedFrom k (os ++ os') = poppedFrom k os + poppedFrom k os' := by
  simp [poppedFrom]

end Outputs

/-- Of messages of the feed, every element is well formed. -/
theorem wellFormed_of_received {os : List Output}
    (hfeed : ∀ root, Output.received root ∈ os → FeedMessage root) :
    ∀ x ∈ receivedOf os, WellFormed x := by
  intro x hx
  obtain ⟨o, ho, hxo⟩ := List.mem_flatMap.mp hx
  cases o with
  | received root =>
      obtain ⟨elements, hdata, hwf⟩ := hfeed root ho
      simp only [dataOf, hdata] at hxo
      exact hwf x hxo
  | _ => cases hxo

variable {P : Platform} {σ σ' : System} {os os' : List Output} {a : Act}

/-! ## From the messages to the queue -/

/-- What was received is what was enqueued and what remains of the message. -/
theorem received_step (h : receivedOf os = enqueuedOf os ++ σ.io.remaining)
    (hmove : Moves P σ a σ' os') :
    receivedOf (os ++ os') = enqueuedOf (os ++ os') ++ σ'.io.remaining := by
  rw [receivedOf_append, enqueuedOf_append, h]
  cases hmove with
  | receive hio => simp [receivedOf, enqueuedOf, hio, IoThread.remaining]
  | enqueue hio hitem =>
      obtain ⟨_, rfl, elements, hdata, hi⟩ := messageStep_eq_some hitem
      obtain ⟨hlt, rfl⟩ := List.getElem?_eq_some_iff.mp hi
      have hdataOf : ∀ root, Value.member "data" root = .arrayValue elements →
          dataOf root = elements := by
        intro root hroot
        simp [dataOf, hroot]
      simp only [hio, IoThread.remaining, dataOf_withMember, hdataOf _ hdata]
      rw [List.drop_eq_getElem_cons hlt]
      simp [receivedOf, enqueuedOf]
  | messageEnd hio hend =>
      have hdrop := List.drop_of_length_le (messageStep_eq_none hend)
      simp [receivedOf, enqueuedOf, hio, IoThread.remaining, hdrop]
  | _ => simp [receivedOf, enqueuedOf]

/-- The queue is first in, first out. -/
theorem enqueued_step (h : enqueuedOf os = dequeuedOf os ++ σ.q) (hmove : Moves P σ a σ' os') :
    enqueuedOf (os ++ os') = dequeuedOf (os ++ os') ++ σ'.q := by
  rw [enqueuedOf_append, dequeuedOf_append, h]
  cases hmove with
  | enqueue hio hitem => simp [enqueuedOf, dequeuedOf]
  | dequeue hworker hq => simp [enqueuedOf, dequeuedOf, hq]
  | _ => simp [enqueuedOf, dequeuedOf]

/-! ## From the queue to the deques -/

/-- What was dequeued was pushed once, in order, but for the item in the local
variable: a wait that times out puts nothing there. -/
theorem dequeued_step (h : dequeuedOf os = pushedOf os ++ σ.worker.inFlight)
    (hwf : ∀ x ∈ dequeuedOf os, WellFormed x) (hmove : Moves P σ a σ' os') :
    dequeuedOf (os ++ os') = pushedOf (os ++ os') ++ σ'.worker.inFlight := by
  rw [dequeuedOf_append, pushedOf_append]
  cases hmove with
  | loop hworker =>
      rw [h, hworker]
      cases σ.stopRequested <;> simp [dequeuedOf, pushedOf, WorkerThread.inFlight]
  | timeout hworker => rw [h, hworker]; simp [dequeuedOf, pushedOf, WorkerThread.inFlight]
  | dequeue hworker hq => rw [h, hworker]; simp [dequeuedOf, pushedOf, WorkerThread.inFlight]
  | @push item _ _ _ hworker hpush =>
      obtain ⟨_, _, rfl, _⟩ := pushItem_eq_ok hpush
      rw [hworker, WorkerThread.inFlight] at h
      have hitem : WellFormed item := hwf item (by rw [h]; simp)
      rw [h, hitem.admitted_eq]
      simp [dequeuedOf, pushedOf, WorkerThread.inFlight]
  | readClock hworker hts => rw [h, hworker]; simp [dequeuedOf, pushedOf, WorkerThread.inFlight]
  | evictEnd hworker hs hend =>
      rw [h, hworker]
      simp [dequeuedOf, pushedOf, WorkerThread.inFlight]
  | _ => simpa [dequeuedOf, pushedOf] using h

/-- The pushes on one deque are the pushed items of the symbol. -/
theorem pushedTo_step {k : String}
    (h : pushedTo k os = (pushedOf os).filter fun x => symbolOf P x = some k)
    (hmove : Moves P σ a σ' os') :
    pushedTo k (os ++ os') = (pushedOf (os ++ os')).filter fun x => symbolOf P x = some k := by
  rw [pushedTo_append, pushedOf_append, h, List.filter_append]
  cases hmove with
  | @push item _ symbol _ hworker hpush =>
      obtain ⟨_, hsymbol, rfl, _⟩ := pushItem_eq_ok hpush
      by_cases hk : symbol = k
      · simp [pushedTo, pushedOf, symbolOf_admitted, hsymbol, hk]
      · simp [pushedTo, pushedOf, symbolOf_admitted, hsymbol, hk]
  | _ => simp [pushedTo, pushedOf]

theorem held_insert (m : SymbolMap) (j k : String) (s : SymbolState) :
    held ((m.insert j s).lookup k) = if k = j then s.trades else held (m.lookup k) := by
  by_cases hkj : k = j
  · subst hkj
    simp [held]
  · rw [AList.lookup_insert_ne hkj, if_neg hkj]

/-- A write that keeps the deque. -/
theorem held_insert_same {m : SymbolMap} {j : String} {s s' : SymbolState}
    (hs : m.lookup j = some s) (htrades : s'.trades = s.trades) (k : String) :
    held ((m.insert j s').lookup k) = held (m.lookup k) := by
  rw [held_insert]
  split
  · rename_i hkj
    rw [hkj, hs, htrades]
    rfl
  · rfl

/-- A deque is what was pushed on it less what was popped. -/
theorem held_step {k : String}
    (h : held (σ.symbolStates.lookup k) = (pushedTo k os).drop (poppedFrom k os))
    (hle : poppedFrom k os ≤ (pushedTo k os).length)
    (hwf : ∀ j, ∀ x ∈ held (σ.symbolStates.lookup j), WellFormed x)
    (hmove : Moves P σ a σ' os') :
    held (σ'.symbolStates.lookup k) = (pushedTo k (os ++ os')).drop (poppedFrom k (os ++ os')) ∧
      poppedFrom k (os ++ os') ≤ (pushedTo k (os ++ os')).length := by
  rw [pushedTo_append, poppedFrom_append]
  have hwfs : ∀ {j s}, σ.symbolStates.lookup j = some s → ∀ x ∈ s.trades, WellFormed x := by
    intro j s hs x hx
    exact hwf j x (by rw [hs]; exact hx)
  cases hmove with
  | @push item _ symbol _ hworker hpush =>
      obtain ⟨_, _, rfl, rfl⟩ := pushItem_eq_ok hpush
      by_cases hk : symbol = k
      · subst hk
        have hheld : held ((σ.symbolStates.pushed symbol (admitted item)).lookup symbol) =
            held (σ.symbolStates.lookup symbol) ++ [admitted item] := by
          rw [lookup_pushed]
          rfl
        have hone : pushedTo symbol [.pushed symbol (admitted item)] = [admitted item] := by
          simp [pushedTo]
        have hnone : poppedFrom symbol [.pushed symbol (admitted item)] = 0 := by
          simp [poppedFrom]
        rw [hheld, hone, hnone, h, Nat.add_zero, List.drop_append_of_le_length hle]
        exact ⟨rfl, by simp only [List.length_append]; omega⟩
      · rw [lookup_pushed_ne (Ne.symm hk)]
        simpa [pushedTo, poppedFrom, hk] using ⟨h, hle⟩
  | @pop item symbol _ s trades hworker hs hpop =>
      obtain ⟨front, hfront⟩ := evictFront_eq_true hpop
      by_cases hk : symbol = k
      · subst hk
        have hold : held (σ.symbolStates.lookup symbol) = front :: trades := by
          rw [hs, ← hfront]
          rfl
        have hlt : poppedFrom symbol os < (pushedTo symbol os).length := by
          rw [hold] at h
          have hlength := congrArg List.length h
          simp only [List.length_cons, List.length_drop] at hlength
          omega
        have hnone : pushedTo symbol [.popped symbol] = [] := by simp [pushedTo]
        have hone : poppedFrom symbol [.popped symbol] = 1 := by simp [poppedFrom]
        rw [held_insert, if_pos rfl, hnone, hone, List.append_nil, ← List.drop_drop, ← h, hold]
        exact ⟨rfl, hlt⟩
      · rw [held_insert, if_neg (Ne.symm hk)]
        simpa [pushedTo, poppedFrom, hk] using ⟨h, hle⟩
  | evictEnd hworker hs hend =>
      have htrades := evictFront_eq_false hend fun x hx => (hwfs hs x hx).hasMember (by simp)
      rw [held_insert_same hs htrades]
      simpa [pushedTo, poppedFrom] using ⟨h, hle⟩
  | reset hscheduler hs =>
      rw [held_insert_same hs (SymbolState.resetFeatures_trades _)]
      simpa [pushedTo, poppedFrom] using ⟨h, hle⟩
  | pass hscheduler hc hs hpass =>
      have htrades := (CalcType.process_sameEntries _ hpass).eq_of_full
        (full_of_wellFormed (hwfs hs))
      rw [held_insert_same hs htrades]
      simpa [pushedTo, poppedFrom] using ⟨h, hle⟩
  | _ => simpa [pushedTo, poppedFrom] using ⟨h, hle⟩

/-! ## The invariant -/

/-- Nothing is lost, duplicated or moved on the way. -/
structure InOrder (P : Platform) (os : List Output) (σ : System) : Prop where
  message : receivedOf os = enqueuedOf os ++ σ.io.remaining
  queue : enqueuedOf os = dequeuedOf os ++ σ.q
  worker : dequeuedOf os = pushedOf os ++ σ.worker.inFlight
  symbols : ∀ k, pushedTo k os = (pushedOf os).filter fun x => symbolOf P x = some k
  deques : ∀ k, held (σ.symbolStates.lookup k) = (pushedTo k os).drop (poppedFrom k os) ∧
    poppedFrom k os ≤ (pushedTo k os).length

theorem inOrder_init : InOrder P [] {} where
  message := rfl
  queue := rfl
  worker := rfl
  symbols := fun _ => rfl
  deques := fun _ => ⟨rfl, le_rfl⟩

/-- Everything on the way came with a message. -/
theorem InOrder.dequeued_subset (h : InOrder P os σ) : dequeuedOf os ⊆ receivedOf os := by
  intro x hx
  rw [h.message, h.queue]
  simp [hx]

theorem InOrder.held_subset (h : InOrder P os σ) (k : String) :
    held (σ.symbolStates.lookup k) ⊆ receivedOf os := by
  intro x hx
  rw [(h.deques k).1] at hx
  have hpushed := List.mem_of_mem_drop hx
  rw [h.symbols k] at hpushed
  apply h.dequeued_subset
  rw [h.worker]
  exact List.mem_append_left _ (List.mem_filter.mp hpushed).1

theorem InOrder.step (h : InOrder P os σ) (hwf : ∀ x ∈ receivedOf os, WellFormed x)
    (hmove : Moves P σ a σ' os') : InOrder P (os ++ os') σ' where
  message := received_step h.message hmove
  queue := enqueued_step h.queue hmove
  worker := dequeued_step h.worker (fun x hx => hwf x (h.dequeued_subset hx)) hmove
  symbols := fun k => pushedTo_step (h.symbols k) hmove
  deques := fun k => held_step (h.deques k).1 (h.deques k).2
    (fun j x hx => hwf x (h.held_subset j hx)) hmove

/-- Messages come from the network only. -/
theorem received_mem {acts : List Act} {s : System} {root : Value}
    (h : execute (System.step P) acts s = some (σ, os)) (hroot : Output.received root ∈ os) :
    Act.receive root ∈ acts := by
  induction acts generalizing s os with
  | nil =>
      cases h
      cases hroot
  | cons a acts ih =>
      obtain ⟨mid, first, rest, hstep, hexec, rfl⟩ := execute_cons_eq_some_iff.mp h
      rcases List.mem_append.mp hroot with hfirst | hrest
      · cases step_moves hstep <;> simp_all
      · exact List.mem_cons_of_mem a (ih hexec hrest)

theorem inOrder_of_execute {acts : List Act} (h : execute (System.step P) acts {} = some (σ, os))
    (hfeed : ∀ root, Output.received root ∈ os → FeedMessage root) : InOrder P os σ := by
  refine execute_invariant_init
    (fun os σ => (∀ root, Output.received root ∈ os → FeedMessage root) → InOrder P os σ)
    ?_ (fun _ => inOrder_init) h hfeed
  intro os σ a σ' os' hinv hstep hfeed'
  have hfeed : ∀ root, Output.received root ∈ os → FeedMessage root := by
    intro root hroot
    exact hfeed' root (List.mem_append_left _ hroot)
  exact (hinv hfeed).step (wellFormed_of_received hfeed) (step_moves hstep)

/-- No lost, duplicated or reordered trade.  After every interleaving of messages of
the feed with the worker and the scheduler: the pushed items, the item in the
local variable, the queue and the rest of the current message are, in this order,
the elements of all messages; the pushes on the deque of a symbol are the pushed
items of that symbol, and the deque is what they leave once the pops are taken
from their front. -/
theorem pipeline_in_order {acts : List Act}
    (h : execute (System.step P) acts {} = some (σ, os))
    (hfeed : ∀ root, Act.receive root ∈ acts → FeedMessage root) :
    enqueuedOf os ++ σ.io.remaining = receivedOf os ∧
    dequeuedOf os ++ σ.q = enqueuedOf os ∧
    pushedOf os ++ σ.worker.inFlight = dequeuedOf os ∧
    ∀ k, pushedTo k os = ((pushedOf os).filter fun x => symbolOf P x = some k) ∧
      held (σ.symbolStates.lookup k) = (pushedTo k os).drop (poppedFrom k os) := by
  have hinv := inOrder_of_execute h fun root hroot => hfeed root (received_mem h hroot)
  exact ⟨hinv.message.symm, hinv.queue.symm, hinv.worker.symm,
    fun k => ⟨hinv.symbols k, (hinv.deques k).1⟩⟩

/-- A message with two trades of `A`. -/
def twoTrades : Value :=
  .objectValue [("data", .arrayValue [feedItem "A" 1900000 1 10, feedItem "A" 1900001 2 10])]

/-- A wait times out before the first trade is enqueued; the run ends with one trade
pushed, none in flight and one on the queue. -/
theorem pipeline_in_order_two_trades : ∃ σ os,
    execute (System.step Platform.listed)
      [.receive twoTrades, .loop, .timeout, .message, .loop, .dequeue, .message, .push] {} =
        some (σ, os) ∧
    enqueuedOf os ++ σ.io.remaining = receivedOf os ∧ dequeuedOf os ++ σ.q = enqueuedOf os ∧
    pushedOf os ++ σ.worker.inFlight = dequeuedOf os ∧
    ∀ k, pushedTo k os = ((pushedOf os).filter fun x => symbolOf Platform.listed x = some k) ∧
      held (σ.symbolStates.lookup k) = (pushedTo k os).drop (poppedFrom k os) := by
  have hrun : ((execute (System.step Platform.listed)
      [.receive twoTrades, .loop, .timeout, .message, .loop, .dequeue, .message, .push] {}).map
      fun r => (r.1.q.length, (pushedOf r.2).length)) = some (1, 1) := by
    decide +kernel
  obtain ⟨⟨σ, os⟩, hexec, _⟩ := Option.map_eq_some_iff.mp hrun
  refine ⟨σ, os, hexec, pipeline_in_order hexec fun root hroot => ?_⟩
  have htwo : root = twoTrades := by simpa using hroot
  rw [htwo]
  refine ⟨_, rfl, fun item hitem => ?_⟩
  simp only [List.mem_cons, List.not_mem_nil, or_false] at hitem
  rcases hitem with rfl | rfl
  · exact wellFormed_feedItem "A" _ (by norm_num) (by norm_num)
  · exact wellFormed_feedItem "A" _ (by norm_num) (by norm_num)

end TradeProcessor
