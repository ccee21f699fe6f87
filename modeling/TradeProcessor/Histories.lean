/-
  Histories.lean --- what has been done to one symbol, as a sequence of events.

  The worker and the scheduler cut `processItem` and `computeFeatures` into steps.  As
  long as they are not in the middle of one symbol together, the state of the symbol
  comes from a sequence of whole events: where a thread is in the middle of the symbol,
  it says how far the last event has come, or the next one.
-/
import TradeProcessor.Logger
import TradeProcessor.Pipeline

set_option autoImplicit false

namespace TradeProcessor

open TradeProcessor.Json TradeProcessor.Library

/-! ## Keeping apart -/

/-- The symbol whose deque the worker is in the middle of writing. -/
def WorkerThread.writes : WorkerThread → Option String
  | .pushed _ symbol | .evicting _ symbol _ => some symbol
  | _ => none

/-- The worker is not in the middle of a symbol whose mutex the scheduler holds. -/
def Apart (σ : System) : Prop :=
  ∀ symbol ∈ σ.worker.writes, symbol ∉ σ.scheduler.holds

instance (σ : System) : Decidable (Apart σ) :=
  inferInstanceAs (Decidable (∀ symbol ∈ σ.worker.writes, symbol ∉ σ.scheduler.holds))

/-- No thread is in the middle of anything that the symbols can tell. -/
structure Resting (σ : System) : Prop where
  worker : σ.worker.writes = none
  scheduler : σ.scheduler = .idle

/-- The symbol whose features the scheduler is computing. -/
def SchedulerThread.computes : SchedulerThread → Option String
  | .computing _ _ symbol _ => some symbol
  | _ => none

/-- The item on its deque that the worker has not read the clock for. -/
def WorkerThread.unclocked (k : String) : WorkerThread → List Value
  | .pushed item symbol => if symbol = k then [item] else []
  | _ => []

/-! ## One symbol -/

/-- How the state of the symbol comes from the one that its history ends with. -/
inductive Stands (P : Platform) (σ : System) (k : String) : Option SymbolState → Prop where
  | settled (hworker : σ.worker.writes ≠ some k) (hscheduler : σ.scheduler.computes ≠ some k) :
      Stands P σ k (σ.symbolStates.lookup k)
  /-- pushed, with the clock still to be read -/
  | pushed {item : Value} {o : Option SymbolState}
      (hworker : σ.worker = .pushed (admitted item) k)
      (hadm : Admissible P item) (hk : symbolOf P item = some k)
      (hs : σ.symbolStates.lookup k = some ((o.getD {}).pushBack (admitted item))) :
      Stands P σ k o
  /-- with some entries still to be popped -/
  | evicting {item : Value} {cutoff_ms : Int} {s : SymbolState}
      (hworker : σ.worker = .evicting item k cutoff_ms) (hs : σ.symbolStates.lookup k = some s) :
      Stands P σ k (some { s with trades := expire timeOf cutoff_ms s.trades })
  /-- with some passes still to be made -/
  | computing {started visited : List String} {n : Nat} {s₀ s : SymbolState}
      (hscheduler : σ.scheduler = .computing started visited k n)
      (hworker : σ.worker.writes ≠ some k) (hs : σ.symbolStates.lookup k = some s)
      (hpasses : passes (calcTypes.take n) s₀.resetFeatures = .ok () s) : Stands P σ k (some s₀)

/-- The events are the history of the symbol. -/
structure Follows (P : Platform) (os : List Output) (σ : System) (k : String) (h : List Event) :
    Prop where
  stands : ∃ o, LocalRun P k h none o ∧ Stands P σ k o
  pushed : arrived P k h ++ σ.worker.unclocked k = pushedTo k os

variable {P : Platform} {σ σ' : System} {os os' : List Output} {a : Act} {k : String}
  {h : List Event}

theorem not_writes_of_holds (hapart : Apart σ) (hholds : σ.scheduler.holds = some k) :
    σ.worker.writes ≠ some k := fun hwrites => hapart k hwrites hholds

theorem not_computes_of_writes (hapart : Apart σ) (hwrites : σ.worker.writes = some k) :
    σ.scheduler.computes ≠ some k := by
  intro hcomputes
  refine hapart k hwrites ?_
  cases hscheduler : σ.scheduler with
  | computing started visited symbol n =>
      rw [hscheduler] at hcomputes
      exact hcomputes
  | _ =>
      rw [hscheduler] at hcomputes
      cases hcomputes

theorem unclocked_eq_nil {worker : WorkerThread} (h : worker.writes ≠ some k) :
    worker.unclocked k = [] := by
  cases worker with
  | pushed item symbol => exact if_neg fun heq => h (congrArg some heq)
  | _ => rfl

/-- The symbol has neither been written nor been taken up or left by a thread. -/
theorem Follows.frame (hfollows : Follows P os σ k h)
    (hworker : σ'.worker = σ.worker ∨ σ.worker.writes ≠ some k ∧ σ'.worker.writes ≠ some k)
    (hscheduler : σ'.scheduler = σ.scheduler ∨
      σ.scheduler.computes ≠ some k ∧ σ'.scheduler.computes ≠ some k)
    (hs : σ'.symbolStates.lookup k = σ.symbolStates.lookup k) (hos : pushedTo k os' = []) :
    Follows P (os ++ os') σ' k h := by
  obtain ⟨⟨o, hrun, hstands⟩, hpushed⟩ := hfollows
  refine ⟨⟨o, hrun, ?_⟩, ?_⟩
  · cases hstands with
    | settled hwrites hcomputes =>
        rw [← hs]
        refine .settled ?_ ?_
        · rcases hworker with hsame | hnone
          · rwa [hsame]
          · exact hnone.2
        · rcases hscheduler with hsame | hnone
          · rwa [hsame]
          · exact hnone.2
    | pushed hat hadm hk hlookup =>
        rcases hworker with hsame | hnone
        · exact .pushed (hsame.trans hat) hadm hk (hs.trans hlookup)
        · exact absurd (by rw [hat]; rfl) hnone.1
    | evicting hat hlookup =>
        rcases hworker with hsame | hnone
        · exact .evicting (hsame.trans hat) (hs.trans hlookup)
        · exact absurd (by rw [hat]; rfl) hnone.1
    | computing hat hwrites hlookup hpasses =>
        rcases hscheduler with hsame | hnone
        · refine .computing (hsame.trans hat) ?_ (hs.trans hlookup) hpasses
          rcases hworker with hsame | hnone
          · rwa [hsame]
          · exact hnone.2
        · exact absurd (by rw [hat]; rfl) hnone.1
  · rw [pushedTo_append, hos, List.append_nil, ← hpushed]
    rcases hworker with hsame | hnone
    · rw [hsame]
    · rw [unclocked_eq_nil hnone.1, unclocked_eq_nil hnone.2]

/-! ### What the worker does to its symbol -/

theorem localRun_concat {e : Event} {before after : Option SymbolState} :
    LocalRun P k (h ++ [e]) before after ↔
      ∃ mid, LocalRun P k h before mid ∧ LocalStep P k e mid after := by
  induction h generalizing before with
  | nil =>
      constructor
      · rintro ⟨mid, hstep, hend⟩
        exact ⟨before, rfl, hend ▸ hstep⟩
      · rintro ⟨mid, rfl, hstep⟩
        exact ⟨after, hstep, rfl⟩
  | cons e' h ih =>
      simp only [List.cons_append, LocalRun, ih]
      constructor
      · rintro ⟨mid, hfirst, mid', hrest, hstep⟩
        exact ⟨mid', ⟨mid, hfirst, hrest⟩, hstep⟩
      · rintro ⟨mid', ⟨mid, hfirst, hrest⟩, hstep⟩
        exact ⟨mid, hfirst, mid', hrest, hstep⟩

theorem Follows.push {item : Value} (hfollows : Follows P os σ k h)
    (hworker : σ.worker = .dequeued item) (hscheduler : σ.scheduler.computes ≠ some k)
    (hadm : Admissible P item) (hk : symbolOf P item = some k) :
    Follows P (os ++ [.pushed k (admitted item)])
      { σ with
        worker := .pushed (admitted item) k
        symbolStates := σ.symbolStates.pushed k (admitted item) } k h := by
  obtain ⟨⟨o, hrun, hstands⟩, hpushed⟩ := hfollows
  refine ⟨⟨o, hrun, ?_⟩, ?_⟩
  · cases hstands with
    | settled hwrites hcomputes => exact .pushed rfl hadm hk (lookup_pushed _ _ _)
    | pushed hat | evicting hat =>
        rw [hworker] at hat
        cases hat
    | computing hat =>
        rw [hat] at hscheduler
        exact absurd rfl hscheduler
  · rw [hworker] at hpushed
    rw [pushedTo_append, ← hpushed]
    simp [WorkerThread.unclocked, pushedTo]

/-- With the clock read, the item is one of the history. -/
theorem Follows.readClock {item : Value} (hfollows : Follows P os σ k h)
    (hworker : σ.worker = .pushed item k) (item' : Value) (now : Int) :
    ∃ item₀, Admissible P item₀ ∧ symbolOf P item₀ = some k ∧
      Follows P os { σ with worker := .evicting item' k (cutoffMs now) } k
        (h ++ [.ingest item₀ now]) := by
  obtain ⟨⟨o, hrun, hstands⟩, hpushed⟩ := hfollows
  cases hstands with
  | settled hwrites =>
      rw [hworker] at hwrites
      exact absurd rfl hwrites
  | @pushed item₀ o hat hadm hk hs =>
      rw [hworker] at hat
      cases hat
      have hstep : LocalStep P k (.ingest item₀ now) o
          (some (ingested now (admitted item₀) (o.getD {}))) := by
        rw [LocalStep, if_pos hk]
      refine ⟨item₀, hadm, hk, ⟨_, localRun_concat.mpr ⟨o, hrun, hstep⟩, ?_⟩, ?_⟩
      · exact .evicting (σ := { σ with worker := .evicting item' k (cutoffMs now) }) rfl hs
      · rw [hworker] at hpushed
        rw [← hpushed, arrived, arrivals_concat h now hk, List.map_append]
        simp [WorkerThread.unclocked, arrived]
  | evicting hat =>
      rw [hworker] at hat
      cases hat
  | computing _ hwrites =>
      rw [hworker] at hwrites
      exact absurd rfl hwrites

/-- One evaluation of the condition of the eviction loop leaves what the whole loop
does as it is. -/
theorem expire_of_evictFront {cutoff_ms : Int} {trades trades' : List Value} {goesOn : Bool}
    (hstamped : ∀ item ∈ trades, Stamped item)
    (h : evictFront cutoff_ms trades = .ok (trades', goesOn)) :
    expire timeOf cutoff_ms trades =
      if goesOn then expire timeOf cutoff_ms trades' else trades' := by
  have hwhole := popExpired_eq cutoff_ms trades
  rw [h, popExpired_ok hstamped] at hwhole
  cases goesOn with
  | false => exact (EStateM.Result.ok.inj hwhole).2
  | true =>
      obtain ⟨front, rfl⟩ := evictFront_eq_true h
      have hrest : popExpired cutoff_ms trades' = .ok () (expire timeOf cutoff_ms trades') :=
        popExpired_ok fun item hitem => hstamped item (List.mem_cons_of_mem front hitem)
      exact (EStateM.Result.ok.inj (hwhole.trans hrest)).2

theorem Follows.pop {item : Value} {cutoff_ms : Int} {s : SymbolState} {trades : List Value}
    (hfollows : Follows P os σ k h) (hworker : σ.worker = .evicting item k cutoff_ms)
    (hs : σ.symbolStates.lookup k = some s) (hstamped : ∀ item ∈ s.trades, Stamped item)
    (hpop : evictFront cutoff_ms s.trades = .ok (trades, true)) :
    Follows P (os ++ [.popped k])
      { σ with symbolStates := σ.symbolStates.insert k { s with trades := trades } } k h := by
  obtain ⟨⟨o, hrun, hstands⟩, hpushed⟩ := hfollows
  refine ⟨⟨o, hrun, ?_⟩, ?_⟩
  · cases hstands with
    | settled hwrites | computing _ hwrites =>
        rw [hworker] at hwrites
        exact absurd rfl hwrites
    | pushed hat =>
        rw [hworker] at hat
        cases hat
    | evicting hat hlookup =>
        rw [hworker] at hat
        cases hat
        rw [hs] at hlookup
        cases hlookup
        rw [expire_of_evictFront hstamped hpop]
        exact .evicting (σ := { σ with
          symbolStates := σ.symbolStates.insert k { s with trades := trades } }) hworker
          (AList.lookup_insert _)
  · rw [pushedTo_append, ← hpushed]
    simp [pushedTo]

theorem Follows.evictEnd {item : Value} {cutoff_ms : Int} {s : SymbolState} {trades : List Value}
    (hfollows : Follows P os σ k h) (hworker : σ.worker = .evicting item k cutoff_ms)
    (hscheduler : σ.scheduler.computes ≠ some k)
    (hs : σ.symbolStates.lookup k = some s) (hstamped : ∀ item ∈ s.trades, Stamped item)
    (hend : evictFront cutoff_ms s.trades = .ok (trades, false)) :
    Follows P os
      { σ with
        worker := .looping item
        symbolStates := σ.symbolStates.insert k { s with trades := trades } } k h := by
  obtain ⟨⟨o, hrun, hstands⟩, hpushed⟩ := hfollows
  refine ⟨⟨o, hrun, ?_⟩, ?_⟩
  · cases hstands with
    | settled hwrites | computing _ hwrites =>
        rw [hworker] at hwrites
        exact absurd rfl hwrites
    | pushed hat =>
        rw [hworker] at hat
        cases hat
    | evicting hat hlookup =>
        rw [hworker] at hat
        cases hat
        rw [hs] at hlookup
        cases hlookup
        rw [expire_of_evictFront hstamped hend]
        have hsettled : (σ.symbolStates.insert k { s with trades := trades }).lookup k =
            some { s with trades := trades } := AList.lookup_insert _
        rw [if_neg Bool.false_ne_true, ← hsettled]
        exact .settled (Option.some_ne_none k).symm hscheduler
  · rw [← hpushed, hworker]
    rfl

/-! ### What the scheduler does to its symbol -/

/-- With the worker elsewhere, and before the computation, the symbol is as its history
leaves it. -/
theorem Follows.settled (hfollows : Follows P os σ k h) (hworker : σ.worker.writes ≠ some k)
    (hscheduler : σ.scheduler.computes ≠ some k) :
    LocalRun P k h none (σ.symbolStates.lookup k) := by
  obtain ⟨⟨o, hrun, hstands⟩, _⟩ := hfollows
  cases hstands with
  | settled => exact hrun
  | pushed hat | evicting hat =>
      rw [hat] at hworker
      exact absurd rfl hworker
  | computing hat =>
      rw [hat] at hscheduler
      exact absurd rfl hscheduler

theorem Follows.reset {started visited : List String} {s : SymbolState}
    (hfollows : Follows P os σ k h) (hworker : σ.worker.writes ≠ some k)
    (hscheduler : σ.scheduler = .locked started visited k)
    (hs : σ.symbolStates.lookup k = some s) :
    Follows P os
      { σ with
        scheduler := .computing started visited k 0
        symbolStates := σ.symbolStates.insert k s.resetFeatures } k h := by
  have hcomputes : σ.scheduler.computes ≠ some k := by
    rw [hscheduler]
    exact (Option.some_ne_none k).symm
  refine ⟨⟨some s, hs ▸ hfollows.settled hworker hcomputes, ?_⟩, hfollows.pushed⟩
  exact .computing rfl hworker (AList.lookup_insert _) rfl

/-- The passes made so far, from the state that the history ends with. -/
theorem Follows.computing {started visited : List String} {n : Nat}
    (hfollows : Follows P os σ k h) (hscheduler : σ.scheduler = .computing started visited k n)
    (hworker : σ.worker.writes ≠ some k) :
    ∃ s₀ s, σ.symbolStates.lookup k = some s ∧ LocalRun P k h none (some s₀) ∧
      passes (calcTypes.take n) s₀.resetFeatures = .ok () s := by
  obtain ⟨⟨o, hrun, hstands⟩, _⟩ := hfollows
  cases hstands with
  | settled _ hcomputes =>
      rw [hscheduler] at hcomputes
      exact absurd rfl hcomputes
  | pushed hat | evicting hat =>
      rw [hat] at hworker
      exact absurd rfl hworker
  | computing hat _ hlookup hpasses =>
      rw [hscheduler] at hat
      cases hat
      exact ⟨_, _, hlookup, hrun, hpasses⟩

theorem Follows.pass {started visited : List String} {n : Nat} {c : CalcType}
    {s s' : SymbolState}
    (hfollows : Follows P os σ k h) (hscheduler : σ.scheduler = .computing started visited k n)
    (hworker : σ.worker.writes ≠ some k) (hc : calcTypes[n]? = some c)
    (hs : σ.symbolStates.lookup k = some s) (hpass : c.process s = .ok () s') :
    Follows P (os ++ [.passed k s.trades])
      { σ with
        scheduler := .computing started visited k (n + 1)
        symbolStates := σ.symbolStates.insert k s' } k h := by
  obtain ⟨s₀, t, ht, hrun, hpasses⟩ := hfollows.computing hscheduler hworker
  rw [hs] at ht
  cases ht
  refine ⟨⟨some s₀, hrun, .computing rfl hworker (AList.lookup_insert _) ?_⟩, ?_⟩
  · rw [take_succ_of_getElem? hc, passes, List.forM_append, List.forM_cons, List.forM_nil]
    exact (bind_of_ok hpasses).trans (by simpa using hpass)
  · rw [pushedTo_append, ← hfollows.pushed]
    simp [pushedTo]

/-- With all passes made, the computation is one of the history. -/
theorem Follows.release {started visited : List String} (hfollows : Follows P os σ k h)
    (hscheduler : σ.scheduler = .computing started visited k calcTypes.length)
    (hworker : σ.worker.writes ≠ some k) :
    Follows P (os ++ [.released k])
      { σ with scheduler := .iterating started (k :: visited) } k (h ++ [.compute]) := by
  obtain ⟨s₀, s, hs, hrun, hpasses⟩ := hfollows.computing hscheduler hworker
  rw [List.take_length] at hpasses
  have hcompute : computeSymbol calcTypes s₀ = .ok () s := by
    rw [computeSymbol_eq]
    exact hpasses
  refine ⟨⟨_, localRun_concat.mpr ⟨_, hrun, s, hcompute, rfl⟩, ?_⟩, ?_⟩
  · rw [← hs]
    exact .settled hworker (Option.some_ne_none k).symm
  · rw [pushedTo_append, ← hfollows.pushed]
    simp [pushedTo, arrived, arrivals, Event.arrival]

/-- A symbol that has had an item is there. -/
theorem localRun_isSome {before after : Option SymbolState} (hrun : LocalRun P k h before after)
    (hsome : before.isSome = true ∨
      ∃ item now, Event.ingest item now ∈ h ∧ symbolOf P item = some k) :
    after.isSome = true := by
  induction h generalizing before with
  | nil =>
      rcases hsome with hbefore | ⟨_, _, hmem, _⟩
      · rwa [show after = before from hrun]
      · cases hmem
  | cons e h ih =>
      obtain ⟨mid, hstep, hrest⟩ := hrun
      refine ih hrest ?_
      cases e with
      | ingest item now =>
          simp only [LocalStep] at hstep
          split at hstep
          · exact .inl (by rw [hstep]; rfl)
          · rename_i hother
            rw [hstep]
            refine hsome.imp_right ?_
            rintro ⟨item', now', hmem, hk⟩
            rcases List.mem_cons.mp hmem with heq | hmem
            · cases heq
              exact absurd hk hother
            · exact ⟨item', now', hmem, hk⟩
      | compute =>
          rcases hsome with hbefore | ⟨item, now, hmem, hk⟩
          · obtain ⟨s, rfl⟩ := Option.isSome_iff_exists.mp hbefore
            obtain ⟨s', _, rfl⟩ := hstep
            exact .inl rfl
          · rcases List.mem_cons.mp hmem with heq | hmem
            · cases heq
            · exact .inr ⟨item, now, hmem, hk⟩

/-- A symbol that is not in the map has had no item. -/
theorem Follows.no_item (hfollows : Follows P os σ k h) (hs : σ.symbolStates.lookup k = none)
    {item : Value} (hk : symbolOf P item = some k) (now : Int) : Event.ingest item now ∉ h := by
  obtain ⟨⟨o, hrun, hstands⟩, _⟩ := hfollows
  intro hmem
  have hsome : o.isSome = true := localRun_isSome hrun (.inr ⟨item, now, hmem, hk⟩)
  cases hstands with
  | settled => simp [hs] at hsome
  | pushed _ _ _ hlookup | evicting _ hlookup | computing _ _ hlookup =>
      rw [hs] at hlookup
      cases hlookup

/-- A computation before the symbol is there does nothing. -/
theorem Follows.delay (hfollows : Follows P os σ k h) : Follows P os σ k (.compute :: h) := by
  obtain ⟨⟨o, hrun, hstands⟩, hpushed⟩ := hfollows
  exact ⟨⟨o, ⟨none, rfl, hrun⟩, hstands⟩, hpushed⟩

end TradeProcessor
