/-
  Shutdown.lean --- what is left to do once the stop flag is set.

  Neither `process` nor `computeFeatures` looks at the token in the middle of its work:
  the worker finishes the item that it has, and may still get one from a wait that it
  is in, and the scheduler goes through the whole map.  Meanwhile messages keep coming.
  How many steps that takes is bounded by the state in which the flag was set, whatever
  the io thread and the interleaving do.
-/
import Mathlib.Data.Finset.Lattice.Fold
import TradeProcessor.Consistency
import TradeProcessor.Stopping
import TradeProcessor.Survival

set_option autoImplicit false

namespace TradeProcessor

open TradeProcessor.Json TradeProcessor.Library

/-! ## The work that is left -/

/-- The length of the deque of a symbol. -/
def SymbolMap.depth (m : SymbolMap) (k : String) : Nat := (held (m.lookup k)).length

/-- The length of the longest deque. -/
def SymbolMap.longest (m : SymbolMap) : Nat := m.keys.toFinset.sup m.depth

/-- The keys that the loop of `computeFeatures` has not been through. -/
def SymbolMap.pending (m : SymbolMap) (visited : List String) : Nat :=
  (m.keys.toFinset \ visited.toFinset).card

/-- The steps that one symbol takes: `lock`, `resetFeatures`, the passes and `release`. -/
def roundSteps : Nat := calcTypes.length + 3

/-- The steps of `process`, after an item at most, and those of `computeFeatures` for a
symbol that the item brings into the map. -/
def WorkerThread.remaining (m : SymbolMap) : WorkerThread → Nat
  | .looping _ => 1
  | .waiting _ => m.longest + 6 + roundSteps
  | .dequeued _ => m.longest + 5 + roundSteps
  | .pushed _ symbol => m.depth symbol + 3
  | .evicting _ symbol _ => m.depth symbol + 2
  | .stopped => 0

/-- The steps of `computeFeatures`. -/
def SchedulerThread.remaining (m : SymbolMap) : SchedulerThread → Nat
  | .idle => 0
  | .iterating _ visited => roundSteps * m.pending visited + 1
  | .locked _ visited symbol => roundSteps * m.pending (symbol :: visited) + roundSteps
  | .computing _ visited symbol n =>
      roundSteps * m.pending (symbol :: visited) + (calcTypes.length - n) + 2

/-- The steps that the worker and the scheduler have left when the flag is set. -/
def System.remaining (σ : System) : Nat :=
  σ.worker.remaining σ.symbolStates + σ.scheduler.remaining σ.symbolStates

/-- The action is one of the worker or of the scheduler. -/
def Act.works (a : Act) : Bool :=
  match a.thread with
  | .worker | .scheduler => true
  | _ => false

variable {P : Platform} {σ σ' : System} {os : List Output} {a : Act}

theorem depth_le_longest (m : SymbolMap) (k : String) : m.depth k ≤ m.longest := by
  by_cases hk : k ∈ m.keys
  · exact Finset.le_sup (f := m.depth) (List.mem_toFinset.mpr hk)
  · have hnone : m.lookup k = none := by
      rw [mem_keys_iff] at hk
      simpa using hk
    simp [SymbolMap.depth, hnone, held]

theorem longest_le {m : SymbolMap} {n : Nat} (h : ∀ k, m.depth k ≤ n) : m.longest ≤ n :=
  Finset.sup_le fun k _ => h k

theorem longest_mono {m m' : SymbolMap} (h : ∀ k, m'.depth k ≤ m.depth k) :
    m'.longest ≤ m.longest :=
  longest_le fun k => (h k).trans (depth_le_longest m k)

theorem pending_eq {m m' : SymbolMap} (h : ∀ k, k ∈ m'.keys ↔ k ∈ m.keys)
    (visited : List String) :
    m'.pending visited = m.pending visited := by
  have hkeys : m'.keys.toFinset = m.keys.toFinset := by
    ext k
    simp [h]
  rw [SymbolMap.pending, SymbolMap.pending, hkeys]

/-- A symbol that is new adds one key at most. -/
theorem pending_pushed_le (m : SymbolMap) (k : String) (item : Value) (visited : List String) :
    (m.pushed k item).pending visited ≤ m.pending visited + 1 := by
  have hsub : (m.pushed k item).keys.toFinset \ visited.toFinset ⊆
      insert k (m.keys.toFinset \ visited.toFinset) := by
    intro j hj
    simp only [Finset.mem_sdiff, List.mem_toFinset, mem_keys_pushed, Finset.mem_insert] at hj ⊢
    rcases hj with ⟨rfl | hold, hnew⟩
    · exact .inl rfl
    · exact .inr ⟨hold, hnew⟩
  exact (Finset.card_le_card hsub).trans (Finset.card_insert_le _ _)

/-- A key that the loop goes to is one less to go. -/
theorem pending_cons {m : SymbolMap} {k : String} {visited : List String} (hk : k ∈ m.keys)
    (hnew : k ∉ visited) : m.pending (k :: visited) + 1 = m.pending visited := by
  have herase : m.keys.toFinset \ (k :: visited).toFinset =
      (m.keys.toFinset \ visited.toFinset).erase k := by
    ext j
    simp only [List.toFinset_cons, Finset.mem_sdiff, List.mem_toFinset, Finset.mem_insert,
      Finset.mem_erase]
    tauto
  have hmem : k ∈ m.keys.toFinset \ visited.toFinset := by simp [hk, hnew]
  rw [SymbolMap.pending, herase, Finset.card_erase_add_one hmem]
  rfl

theorem depth_insert (m : SymbolMap) (j k : String) (s : SymbolState) :
    SymbolMap.depth (m.insert j s) k = if k = j then s.trades.length else m.depth k := by
  unfold SymbolMap.depth
  rw [held_insert]
  split <;> rfl

theorem depth_pushed_le (m : SymbolMap) (j k : String) (item : Value) :
    (m.pushed j item).depth k ≤ m.longest + 1 := by
  have hk := depth_le_longest m k
  by_cases hkj : k = j
  · subst hkj
    rw [SymbolMap.depth, lookup_pushed]
    simpa [held, SymbolState.pushBack, SymbolMap.depth] using hk
  · rw [SymbolMap.depth, lookup_pushed_ne hkj]
    exact hk.trans (Nat.le_succ _)

/-! ## Each step is one less -/

/-- What the scheduler has left changes with the keys only. -/
theorem scheduler_remaining_eq {m m' : SymbolMap} (h : ∀ k, k ∈ m'.keys ↔ k ∈ m.keys)
    (scheduler : SchedulerThread) : scheduler.remaining m' = scheduler.remaining m := by
  cases scheduler <;> simp [SchedulerThread.remaining, pending_eq h]

theorem scheduler_remaining_pushed_le (m : SymbolMap) (k : String) (item : Value)
    (scheduler : SchedulerThread) :
    scheduler.remaining (m.pushed k item) ≤ scheduler.remaining m + roundSteps := by
  have hpending : ∀ visited, roundSteps * (m.pushed k item).pending visited ≤
      roundSteps * m.pending visited + roundSteps := fun visited =>
    Nat.mul_le_mul_left roundSteps (pending_pushed_le m k item visited)
  cases scheduler with
  | idle => exact Nat.zero_le _
  | iterating started visited =>
      have := hpending visited
      simp only [SchedulerThread.remaining]
      omega
  | locked started visited symbol =>
      have := hpending (symbol :: visited)
      simp only [SchedulerThread.remaining]
      omega
  | computing started visited symbol n =>
      have := hpending (symbol :: visited)
      simp only [SchedulerThread.remaining]
      omega

/-- What the worker has left grows with the deques only. -/
theorem worker_remaining_mono {m m' : SymbolMap} (h : ∀ k, m'.depth k ≤ m.depth k)
    (worker : WorkerThread) : worker.remaining m' ≤ worker.remaining m := by
  have hlongest := longest_mono h
  cases worker with
  | pushed item symbol =>
      have := h symbol
      simp only [WorkerThread.remaining]
      omega
  | evicting item symbol cutoff_ms =>
      have := h symbol
      simp only [WorkerThread.remaining]
      omega
  | _ =>
      simp only [WorkerThread.remaining]
      omega

/-- Writing to a symbol that is there. -/
theorem mem_keys_write {m : SymbolMap} {j : String} {s : SymbolState} (hs : m.lookup j = some s)
    (s' : SymbolState) (k : String) : k ∈ (m.insert j s').keys ↔ k ∈ m.keys :=
  mem_keys_insert hs

/-- Writing to a symbol that is there, without lengthening its deque. -/
theorem depth_write_le {m : SymbolMap} {j : String} {s : SymbolState} (hs : m.lookup j = some s)
    (s' : SymbolState) (hlength : s'.trades.length ≤ s.trades.length) (k : String) :
    SymbolMap.depth (m.insert j s') k ≤ m.depth k := by
  rw [depth_insert]
  split
  · rename_i hk
    rw [hk, SymbolMap.depth, hs]
    exact hlength
  · exact le_rfl

/-- With the flag set, an action of the worker or of the scheduler uses up one of the
steps that are left, and no other action adds one. -/
theorem remaining_step (hstop : σ.stopRequested = true) (hmove : Moves P σ a σ' os) :
    σ'.remaining + a.works.toNat ≤ σ.remaining := by
  unfold System.remaining
  cases hmove with
  | receive hio | enqueue hio hitem | messageEnd hio hend | requestStop =>
      simp [Act.works, Act.thread]
  | loop hworker =>
      simp [Act.works, Act.thread, hworker, hstop, WorkerThread.remaining]
  | timeout hworker =>
      simp only [Act.works, Act.thread, hworker, WorkerThread.remaining, Bool.toNat_true]
      omega
  | dequeue hworker hq =>
      simp only [Act.works, Act.thread, hworker, WorkerThread.remaining, Bool.toNat_true]
      omega
  | @push item item' symbol m hworker hpush =>
      obtain ⟨_, _, rfl, rfl⟩ := pushItem_eq_ok hpush
      have hdepth := depth_pushed_le σ.symbolStates symbol symbol (admitted item)
      have hscheduler := scheduler_remaining_pushed_le σ.symbolStates symbol (admitted item)
        σ.scheduler
      simp only [Act.works, Act.thread, hworker, WorkerThread.remaining, Bool.toNat_true]
      omega
  | readClock hworker hts =>
      simp only [Act.works, Act.thread, hworker, WorkerThread.remaining, Bool.toNat_true]
      omega
  | @pop item symbol cutoff_ms s trades hworker hs hpop =>
      obtain ⟨front, hfront⟩ := evictFront_eq_true hpop
      have hscheduler := scheduler_remaining_eq
        (mem_keys_write hs { s with trades := trades }) σ.scheduler
      have hdepth : σ.symbolStates.depth symbol = trades.length + 1 := by
        rw [SymbolMap.depth, hs]
        simp [held, hfront]
      simp only [Act.works, Act.thread, hworker, WorkerThread.remaining, Bool.toNat_true,
        hscheduler, depth_insert, if_true, hdepth]
      omega
  | @evictEnd item symbol cutoff_ms s trades hworker hs hend =>
      have hscheduler := scheduler_remaining_eq
        (mem_keys_write hs { s with trades := trades }) σ.scheduler
      simp only [Act.works, Act.thread, hworker, WorkerThread.remaining, Bool.toNat_true,
        hscheduler]
      omega
  | tick hscheduler hrun => exact absurd hstop hrun
  | lock hscheduler hsymbol =>
      have hpending := pending_cons hsymbol.1 hsymbol.2
      simp only [Act.works, Act.thread, hscheduler, SchedulerThread.remaining, Bool.toNat_true,
        ← hpending, Nat.mul_add]
      omega
  | @reset started visited symbol s hscheduler hs =>
      have hworker := worker_remaining_mono
        (depth_write_le hs s.resetFeatures le_rfl) σ.worker
      have hpending := pending_eq (mem_keys_write hs s.resetFeatures) (symbol :: visited)
      simp only [Act.works, Act.thread, hscheduler, SchedulerThread.remaining, Bool.toNat_true,
        hpending, roundSteps]
      omega
  | @pass started visited symbol n c s s' hscheduler hc hs hpass =>
      have hlength : s'.trades.length ≤ s.trades.length :=
        (CalcType.process_sameEntries _ hpass).length_eq.le
      have hworker := worker_remaining_mono (depth_write_le hs s' hlength) σ.worker
      have hpending := pending_eq (mem_keys_write hs s') (symbol :: visited)
      have hn : n < calcTypes.length := (List.getElem?_eq_some_iff.mp hc).1
      simp only [Act.works, Act.thread, hscheduler, SchedulerThread.remaining, Bool.toNat_true,
        hpending]
      omega
  | release hscheduler =>
      simp only [Act.works, Act.thread, hscheduler, SchedulerThread.remaining, Bool.toNat_true]
      omega
  | finish hscheduler hall =>
      simp only [Act.works, Act.thread, hscheduler, SchedulerThread.remaining, Bool.toNat_true]
      omega

/-- Once the stop flag is set, the worker and the scheduler have a bounded number of
steps left, a calculator pass being one, whatever messages come and however the steps
interleave; when neither can make one, each of them has ended, unless its next statement
raises.  After sound messages alone, both have ended. -/
theorem stops_within {as bs : List Act} {os' : List Output}
    (h : execute (System.step P) as {} = some (σ, os)) (hstop : σ.stopRequested = true)
    (h' : execute (System.step P) bs σ = some (σ', os')) :
    bs.countP Act.works ≤ σ.remaining ∧
    ((∀ b, b.works = true → System.step P b σ' = none) → ∀ thread ∈ [Thread.worker, .scheduler],
      (Ended σ' thread ∨ AboutToRaise P σ' thread) ∧
      (Receives (Sound P) (as ++ bs) → Ended σ' thread)) := by
  have hstep : ∀ a (σ σ' : System) os, σ.stopRequested = true →
      System.step P a σ = some (σ', os) →
      σ'.stopRequested = true ∧ σ'.remaining + a.works.toNat ≤ σ.remaining := by
    intro a σ σ' os hσ hnext
    have hmove := step_moves hnext
    exact ⟨stopRequested_step hmove hσ, remaining_step hσ hmove⟩
  have hbudget := countP_le_budget hstep hstop h'
  refine ⟨by omega, fun hquiet thread hthread => ?_⟩
  have hrun := execute_append h h'
  have hstuck : ¬ Enabled P σ' thread := by
    rintro ⟨b, σ₂, os₂, hb, hstep⟩
    have hworks : b.works = true := by
      simp only [List.mem_cons, List.not_mem_nil, or_false] at hthread
      rcases hthread with rfl | rfl <;> simp [Act.works, hb]
    rw [hquiet b hworks] at hstep
    cases hstep
  have hended := ((not_enabled_iff hrun thread).mp hstuck).symm
  refine ⟨hended, fun hfeed => hended.resolve_right ?_⟩
  exact (sane_of_execute hrun hfeed).not_aboutToRaise thread

/-- The stop flag is set in the middle of a round: all of the budget is used. -/
theorem stops_within_sample : ∃ σ os σ' os',
    execute (System.step Platform.listed) (untilReset ++ [.requestStop]) {} = some (σ, os) ∧
    execute (System.step Platform.listed)
      ([.loop] ++ List.replicate 6 .pass ++ [.release, .finish]) σ = some (σ', os') ∧
    9 ≤ σ.remaining ∧ (Ended σ' .worker ∨ AboutToRaise Platform.listed σ' .worker) ∧
    (Ended σ' .scheduler ∨ AboutToRaise Platform.listed σ' .scheduler) := by
  have hrun : ((execute (System.step Platform.listed) (untilReset ++ [.requestStop]) {}).bind
      fun r => (execute (System.step Platform.listed)
        ([.loop] ++ List.replicate 6 .pass ++ [.release, .finish]) r.1).map fun r' =>
          (r.1.stopRequested, r'.1.stopRequested, r'.1.scheduler, r'.1.worker.isStopped)) =
      some (true, true, .idle, true) := by
    decide +kernel
  obtain ⟨⟨σ, os⟩, hexec, hrest⟩ := Option.bind_eq_some_iff.mp hrun
  obtain ⟨⟨σ', os'⟩, hexec', heq⟩ := Option.map_eq_some_iff.mp hrest
  simp only [Prod.mk.injEq] at heq
  obtain ⟨hstop, hstop', hscheduler, hworker⟩ := heq
  have hstopped : σ'.worker = .stopped := by
    cases hat : σ'.worker with
    | stopped => rfl
    | _ => simp [WorkerThread.isStopped, hat] at hworker
  obtain ⟨hcount, hended⟩ := stops_within hexec hstop hexec'
  have hquiet : ∀ b, b.works = true → System.step Platform.listed b σ' = none := by
    intro b hb
    by_contra hsome
    obtain ⟨⟨σ₂, os₂⟩, hstep⟩ := Option.ne_none_iff_exists'.mp hsome
    cases hthread : b.thread with
    | worker => exact not_enabled_of_ended (.worker hstopped) ⟨b, σ₂, os₂, hthread, hstep⟩
    | scheduler =>
        exact not_enabled_of_ended (.scheduler hscheduler hstop') ⟨b, σ₂, os₂, hthread, hstep⟩
    | io | signal => simp [Act.works, hthread] at hb
  exact ⟨σ, os, σ', os', hexec, hexec', hcount,
    (hended hquiet .worker (by simp)).1, (hended hquiet .scheduler (by simp)).1⟩

end TradeProcessor
