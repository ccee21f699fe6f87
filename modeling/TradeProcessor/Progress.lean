/-
  Progress.lean --- when a thread cannot go on.

  A thread of `System` without a next step is one whose function has thrown, has
  returned, or waits for another thread.  The last does not happen, whatever the feed
  sends: the references of the worker and of the scheduler always have their element
  in the map.  Only then is a missing step the exception that `System` means by it.
-/
import TradeProcessor.SymbolKeys

set_option autoImplicit false

namespace TradeProcessor

open TradeProcessor.Json TradeProcessor.Library

/-! ## Threads that cannot go on -/

/-- The next statement of the thread raises. -/
inductive AboutToRaise (P : Platform) (σ : System) : Thread → Prop where
  | message {completeJsonData : Value} {i : Nat} {e : LogicError}
      (hio : σ.io = .sending completeJsonData i)
      (hraises : messageStep completeJsonData i = .error e) : AboutToRaise P σ .io
  | push {item : Value} {e : Fault} {m : SymbolMap} (hworker : σ.worker = .dequeued item)
      (hraises : pushItem P item σ.symbolStates = .error e m) : AboutToRaise P σ .worker
  | readClock {item : Value} {symbol : String} {e : LogicError}
      (hworker : σ.worker = .pushed item symbol) (hraises : item.readInt64 "t" = .error e) :
      AboutToRaise P σ .worker
  | evict {item : Value} {symbol : String} {cutoff_ms : Int} {s : SymbolState} {e : LogicError}
      (hworker : σ.worker = .evicting item symbol cutoff_ms)
      (hs : σ.symbolStates.lookup symbol = some s)
      (hraises : evictFront cutoff_ms s.trades = .error e) : AboutToRaise P σ .worker
  | pass {started visited : List String} {symbol : String} {n : Nat} {c : CalcType}
      {s s' : SymbolState} {e : Fault}
      (hscheduler : σ.scheduler = .computing started visited symbol n)
      (hc : calcTypes[n]? = some c) (hs : σ.symbolStates.lookup symbol = some s)
      (hraises : c.process s = .error e s') : AboutToRaise P σ .scheduler

/-- The thread has seen the stop flag, or would see it next. -/
inductive Ended (σ : System) : Thread → Prop where
  | worker (hworker : σ.worker = .stopped) : Ended σ .worker
  | scheduler (hscheduler : σ.scheduler = .idle) (hstop : σ.stopRequested = true) :
      Ended σ .scheduler

/-- The thread can make a step. -/
def Enabled (P : Platform) (σ : System) (thread : Thread) : Prop :=
  ∃ a σ' os, a.thread = thread ∧ System.step P a σ = some (σ', os)

/-- The symbols that the worker holds a reference for. -/
def WorkerThread.references : WorkerThread → List String
  | .pushed _ symbol | .evicting _ symbol _ => [symbol]
  | _ => []

/-- The symbols that the scheduler has met in the map. -/
def SchedulerThread.references : SchedulerThread → List String
  | .idle => []
  | .iterating started _ => started
  | .locked started _ symbol | .computing started _ symbol _ => symbol :: started

/-- The passes that the scheduler has made over its symbol. -/
def SchedulerThread.passesMade : SchedulerThread → Nat
  | .computing _ _ _ n => n
  | _ => 0

/-- What the threads refer to is in the map, and no pass is made twice. -/
structure Located (σ : System) : Prop where
  worker : ∀ k ∈ σ.worker.references, k ∈ σ.symbolStates.keys
  scheduler : ∀ k ∈ σ.scheduler.references, k ∈ σ.symbolStates.keys
  passes : σ.scheduler.passesMade ≤ calcTypes.length

variable {P : Platform} {σ σ' : System} {os : List Output} {a : Act}

theorem located_start : Located {} where
  worker := by simp [WorkerThread.references]
  scheduler := by simp [SchedulerThread.references]
  passes := Nat.zero_le _

/-- No step removes a key, so no reference is left without its element. -/
theorem located_step (hσ : Located σ) (hmove : Moves P σ a σ' os) : Located σ' := by
  have hkeys : ∀ k ∈ σ.symbolStates.keys, k ∈ σ'.symbolStates.keys := fun k hk =>
    (mem_keys_step hmove k).mpr (.inl hk)
  obtain ⟨hworker, hscheduler, hpasses⟩ := hσ
  have hworker' : ∀ k ∈ σ.worker.references, k ∈ σ'.symbolStates.keys := fun k hk =>
    hkeys k (hworker k hk)
  have hscheduler' : ∀ k ∈ σ.scheduler.references, k ∈ σ'.symbolStates.keys := fun k hk =>
    hkeys k (hscheduler k hk)
  cases hmove with
  | loop hat =>
      refine ⟨?_, hscheduler', hpasses⟩
      cases hstop : σ.stopRequested <;> simp [WorkerThread.references]
  | timeout hat | dequeue hat hq =>
      exact ⟨by simp [WorkerThread.references], hscheduler', hpasses⟩
  | push hat hpush =>
      refine ⟨fun k hk => ?_, hscheduler', hpasses⟩
      obtain ⟨_, _, _, rfl⟩ := pushItem_eq_ok hpush
      simp only [WorkerThread.references, List.mem_singleton] at hk
      exact mem_keys_pushed.mpr (.inl hk)
  | readClock hat hts =>
      rw [hat] at hworker'
      exact ⟨hworker', hscheduler', hpasses⟩
  | evictEnd hat hs hend => exact ⟨by simp [WorkerThread.references], hscheduler', hpasses⟩
  | tick hat hrun =>
      exact ⟨hworker', fun k hk => hk, Nat.zero_le _⟩
  | lock hat hsymbol =>
      rw [hat] at hscheduler'
      refine ⟨hworker', fun k hk => ?_, Nat.zero_le _⟩
      rcases List.mem_cons.mp hk with rfl | hk
      · exact hsymbol.1
      · exact hscheduler' k hk
  | reset hat hs =>
      rw [hat] at hscheduler'
      exact ⟨hworker', hscheduler', Nat.zero_le _⟩
  | pass hat hc hs hpass =>
      rw [hat] at hscheduler'
      exact ⟨hworker', hscheduler', (List.getElem?_eq_some_iff.mp hc).1⟩
  | release hat =>
      rw [hat] at hscheduler'
      exact ⟨hworker', fun k hk => hscheduler' k (List.mem_cons_of_mem _ hk), Nat.zero_le _⟩
  | finish hat hall => exact ⟨hworker', by simp [SchedulerThread.references], Nat.zero_le _⟩
  | _ => exact ⟨hworker', hscheduler', hpasses⟩

theorem located_of_execute {as : List Act}
    (h : execute (System.step P) as {} = some (σ, os)) : Located σ :=
  execute_invariant_init (fun _ σ => Located σ)
    (fun _ _ _ _ _ hσ hstep => located_step hσ (step_moves hstep)) located_start h

/-! ## A thread stops for no other reason -/

/-- What `Moves` says an action does, it does. -/
theorem step_of_moves (hmove : Moves P σ a σ' os) : System.step P a σ = some (σ', os) := by
  cases hmove with
  | receive hio => simp only [System.step, Act.thread, System.ioStep, hio]
  | enqueue hio hitem => simp only [System.step, Act.thread, System.ioStep, hio, hitem]
  | messageEnd hio hend => simp only [System.step, Act.thread, System.ioStep, hio, hend]
  | requestStop => rfl
  | loop hworker | timeout hworker =>
      simp only [System.step, Act.thread, System.workerStep, hworker]
  | dequeue hworker hq => simp only [System.step, Act.thread, System.workerStep, hworker, hq]
  | push hworker hpush => simp only [System.step, Act.thread, System.workerStep, hworker, hpush]
  | readClock hworker hts => simp only [System.step, Act.thread, System.workerStep, hworker, hts]
  | pop hworker hs hpop =>
      simp only [System.step, Act.thread, System.workerStep, hworker, hs, hpop]
  | evictEnd hworker hs hend =>
      simp only [System.step, Act.thread, System.workerStep, hworker, hs, hend]
  | tick hscheduler hrun =>
      simp only [System.step, Act.thread, System.schedulerStep, hscheduler, if_neg hrun]
  | lock hscheduler hsymbol =>
      simp only [System.step, Act.thread, System.schedulerStep, hscheduler, if_pos hsymbol]
  | reset hscheduler hs =>
      simp only [System.step, Act.thread, System.schedulerStep, hscheduler, hs]
  | pass hscheduler hc hs hpass =>
      simp only [System.step, Act.thread, System.schedulerStep, hscheduler, hc, hs, hpass]
  | release hscheduler =>
      simp only [System.step, Act.thread, System.schedulerStep, hscheduler, if_true]
  | finish hscheduler hall =>
      simp only [System.step, Act.thread, System.schedulerStep, hscheduler, if_pos hall]

theorem Moves.enabled (hmove : Moves P σ a σ' os) : Enabled P σ a.thread :=
  ⟨a, σ', os, rfl, step_of_moves hmove⟩

theorem io_goes_on (P : Platform) (σ : System) : Enabled P σ .io ∨ AboutToRaise P σ .io := by
  cases hio : σ.io with
  | idle => exact .inl ⟨.receive .nullValue, _, _, rfl, step_of_moves (.receive hio)⟩
  | sending root i =>
      rcases messageStep_cases root i with ⟨_, item, _, _, _, hstep⟩ | ⟨_, hstep⟩ | ⟨e, hstep⟩
      · exact .inl (Moves.enqueue hio hstep).enabled
      · exact .inl (Moves.messageEnd hio hstep).enabled
      · exact .inr (.message hio hstep)

theorem worker_goes_on (hσ : Located σ) :
    Enabled P σ .worker ∨ AboutToRaise P σ .worker ∨ Ended σ .worker := by
  have hreferences := hσ.worker
  cases hworker : σ.worker with
  | looping item => exact .inl (Moves.loop hworker).enabled
  | waiting item => exact .inl (Moves.timeout hworker).enabled
  | dequeued item =>
      cases hpush : pushItem P item σ.symbolStates with
      | ok r m => exact .inl (Moves.push hworker hpush).enabled
      | error e m => exact .inr (.inl (.push hworker hpush))
  | pushed item symbol =>
      cases hts : item.readInt64 "t" with
      | ok r => exact .inl ⟨.readClock 0, _, _, rfl, step_of_moves (.readClock hworker hts)⟩
      | error e => exact .inr (.inl (.readClock hworker hts))
  | evicting item symbol cutoff_ms =>
      rw [hworker] at hreferences
      have hsymbol := mem_keys_iff.mp (hreferences symbol (List.mem_singleton_self symbol))
      obtain ⟨s, hs⟩ := Option.isSome_iff_exists.mp hsymbol
      cases hfront : evictFront cutoff_ms s.trades with
      | error e => exact .inr (.inl (.evict hworker hs hfront))
      | ok r =>
          obtain ⟨trades, popped⟩ := r
          cases popped with
          | true => exact .inl (Moves.pop hworker hs hfront).enabled
          | false => exact .inl (Moves.evictEnd hworker hs hfront).enabled
  | stopped => exact .inr (.inr (.worker hworker))

theorem scheduler_goes_on (hσ : Located σ) :
    Enabled P σ .scheduler ∨ AboutToRaise P σ .scheduler ∨ Ended σ .scheduler := by
  have hreferences := hσ.scheduler
  have hpasses := hσ.passes
  cases hscheduler : σ.scheduler with
  | idle =>
      by_cases hstop : σ.stopRequested = true
      · exact .inr (.inr (.scheduler hscheduler hstop))
      · exact .inl (Moves.tick hscheduler hstop).enabled
  | iterating started visited =>
      rw [hscheduler] at hreferences
      by_cases hall : started.all (· ∈ visited) = true
      · exact .inl (Moves.finish hscheduler hall).enabled
      · simp only [List.all_eq_true, decide_eq_true_eq, not_forall] at hall
        obtain ⟨k, hk, hnew⟩ := hall
        exact .inl (Moves.lock hscheduler ⟨hreferences k hk, hnew⟩).enabled
  | locked started visited symbol =>
      rw [hscheduler] at hreferences
      have hsymbol := mem_keys_iff.mp (hreferences symbol List.mem_cons_self)
      obtain ⟨s, hs⟩ := Option.isSome_iff_exists.mp hsymbol
      exact .inl (Moves.reset hscheduler hs).enabled
  | computing started visited symbol n =>
      rw [hscheduler] at hreferences hpasses
      have hsymbol := mem_keys_iff.mp (hreferences symbol List.mem_cons_self)
      obtain ⟨s, hs⟩ := Option.isSome_iff_exists.mp hsymbol
      rcases Nat.lt_or_eq_of_le hpasses with hlt | heq
      · have hc : calcTypes[n]? = some calcTypes[n] := List.getElem?_eq_getElem hlt
        cases hpass : calcTypes[n].process s with
        | ok u s' => exact .inl (Moves.pass hscheduler hc hs hpass).enabled
        | error e s' => exact .inr (.inl (.pass hscheduler hc hs hpass))
      · rw [show n = calcTypes.length from heq] at hscheduler
        exact .inl (Moves.release hscheduler).enabled

/-- A thread that raises makes no step. -/
theorem not_enabled_of_raises {thread : Thread} (h : AboutToRaise P σ thread) :
    ¬ Enabled P σ thread := by
  rintro ⟨a, σ', os, hthread, hstep⟩
  have hmove := step_moves hstep
  cases h with
  | message hio hraises | push hworker hraises | readClock hworker hraises
  | evict hworker hs hraises | pass hscheduler hc hs hraises =>
      cases hmove <;> grind [Act.thread]

theorem not_enabled_of_ended {thread : Thread} (h : Ended σ thread) : ¬ Enabled P σ thread := by
  rintro ⟨a, σ', os, hthread, hstep⟩
  have hmove := step_moves hstep
  cases h with
  | worker hworker => cases hmove <;> simp_all [Act.thread]
  | scheduler hscheduler hstop => cases hmove <;> simp_all [Act.thread]

/-- In a reachable state a thread has no next step exactly when its next statement
raises or it has ended: no reference into the map is ever without its element, and no
thread waits for another one. -/
theorem not_enabled_iff {as : List Act} (h : execute (System.step P) as {} = some (σ, os))
    (thread : Thread) :
    ¬ Enabled P σ thread ↔ AboutToRaise P σ thread ∨ Ended σ thread := by
  refine ⟨fun hnot => ?_, fun h => h.elim not_enabled_of_raises not_enabled_of_ended⟩
  have hlocated := located_of_execute h
  cases thread with
  | io => exact .inl ((io_goes_on P σ).resolve_left hnot)
  | worker => exact (worker_goes_on hlocated).resolve_left hnot
  | scheduler => exact (scheduler_goes_on hlocated).resolve_left hnot
  | signal => exact absurd Moves.requestStop.enabled hnot

end TradeProcessor
