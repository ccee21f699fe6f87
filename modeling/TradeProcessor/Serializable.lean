/-
  Serializable.lean --- threads that keep apart do what the sequential program does.

  `process` writes to a deque without the mutex that `computeFeatures` holds for it.
  Where the two never meet in one symbol, as they would not if `process` took the
  mutex too, a run ends like a sequence of calls of `processItem` and
  `computeFeatures`.  The sequence is put together from one history for each symbol:
  a round of the scheduler comes to the symbols one after the other, and in the
  sequence it comes to all of them at once.
-/
import TradeProcessor.Histories
import TradeProcessor.Library.Barriers
import TradeProcessor.NonInterference
import TradeProcessor.Rehash
import TradeProcessor.Sequential

set_option autoImplicit false

namespace TradeProcessor

open TradeProcessor.Json TradeProcessor.Library

variable {P : Platform} {σ σ' : System} {os os' : List Output} {a : Act} {k : String}

/-! ## The round of the scheduler -/

/-- The symbols that the round has been through. -/
def SchedulerThread.visited : SchedulerThread → List String
  | .idle => []
  | .iterating _ visited | .locked _ visited _ | .computing _ visited _ _ => visited

/-- The symbol was not there when the round began, and the round has not met it. -/
def SchedulerThread.Misses (k : String) : SchedulerThread → Prop
  | .idle => False
  | .iterating started visited | .locked started visited _ | .computing started visited _ _ =>
      k ∉ started ∧ k ∉ visited

/-- The computations of a symbol, when `r` rounds have been finished. -/
def SchedulerThread.computations (r : Nat) (k : String) (scheduler : SchedulerThread) : Nat :=
  if k ∈ scheduler.visited then r + 1 else r

def Act.finishes : Act → Bool
  | .finish => true
  | _ => false

/-! ## All symbols -/

/-- An item of the symbol, with a reading of the clock. -/
def Told (P : Platform) (as : List Act) (k : String) (e : Event) : Prop :=
  ∃ item now, e = .ingest item now ∧ Admissible P item ∧ symbolOf P item = some k ∧
    Act.readClock now ∈ as

/-- The history of a symbol, from its items between the computations. -/
def history (segments : Nat → String → List Event) (k : String) (r : Nat) : List Event :=
  stream .compute (fun i => segments i k) r

/-- The items between the computations are those of the run, and `r` rounds have been
finished. -/
structure Serial (P : Platform) (as : List Act) (os : List Output) (σ : System)
    (segments : Nat → String → List Event) (r : Nat) : Prop where
  told : ∀ i k, ∀ e ∈ segments i k, Told P as k e
  ahead : ∀ i k, σ.scheduler.computations r k < i → segments i k = []
  late : ∀ k, σ.scheduler.Misses k → ∀ i < r, segments i k = []
  follows : ∀ k, Follows P os σ k (history segments k (σ.scheduler.computations r k))
  rounds : as.countP Act.finishes = r
  unvisited : ∀ k, σ.scheduler.holds = some k → k ∉ σ.scheduler.visited
  stamped : StampedMap σ.symbolStates

variable {as : List Act} {segments : Nat → String → List Event} {r : Nat}

theorem Told.mono {e : Event} (htold : Told P as k e) (a : Act) : Told P (as ++ [a]) k e := by
  obtain ⟨item, now, he, hadm, hk, hnow⟩ := htold
  exact ⟨item, now, he, hadm, hk, List.mem_append_left _ hnow⟩

theorem some_ne_some_of_ne {symbol : String} (hks : k ≠ symbol) : some symbol ≠ some k :=
  (Option.some_injective String).ne hks.symm

theorem Serial.keep (hserial : Serial P as os σ segments r) (hmove : Moves P σ a σ' os')
    (hfinishes : a.finishes = false) (hvisited : σ'.scheduler.visited = σ.scheduler.visited)
    (hmisses : ∀ k, σ'.scheduler.Misses k → σ.scheduler.Misses k)
    (hunvisited : ∀ k, σ'.scheduler.holds = some k → k ∉ σ'.scheduler.visited)
    (hfollows : ∀ k h, Follows P os σ k h → Follows P (os ++ os') σ' k h) :
    Serial P (as ++ [a]) (os ++ os') σ' segments r := by
  have hsame : ∀ k, σ'.scheduler.computations r k = σ.scheduler.computations r k := fun k => by
    rw [SchedulerThread.computations, SchedulerThread.computations, hvisited]
  constructor
  · exact fun i k e he => (hserial.told i k e he).mono a
  · exact fun i k hi => hserial.ahead i k (hsame k ▸ hi)
  · exact fun k hk => hserial.late k (hmisses k hk)
  · intro k
    rw [hsame]
    exact hfollows k _ (hserial.follows k)
  · rw [List.countP_append, hserial.rounds, List.countP_singleton, hfinishes]
    rfl
  · exact hunvisited
  · exact stamped_step hserial.stamped hmove

/-- The threads stay where they are, as far as the symbols can tell. -/
theorem Serial.frame (hserial : Serial P as os σ segments r) (hmove : Moves P σ a σ' os')
    (hfinishes : a.finishes = false) (hscheduler : σ'.scheduler = σ.scheduler)
    (hworker : σ'.worker = σ.worker ∨ σ.worker.writes = none ∧ σ'.worker.writes = none)
    (hmap : σ'.symbolStates = σ.symbolStates) (hos : ∀ k, pushedTo k os' = []) :
    Serial P (as ++ [a]) (os ++ os') σ' segments r := by
  refine hserial.keep hmove hfinishes (by rw [hscheduler])
    (fun k => by rw [hscheduler]; exact id)
    (fun k => by rw [hscheduler]; exact hserial.unvisited k) fun k h hfollows => ?_
  refine hfollows.frame (hworker.imp_right fun hnone => ?_) (.inl hscheduler) (by rw [hmap])
    (hos k)
  exact ⟨by simp [hnone.1], by simp [hnone.2]⟩

/-- The worker writes to one symbol, or is in the middle of it. -/
theorem Serial.work (hserial : Serial P as os σ segments r) (hmove : Moves P σ a σ' os')
    (hfinishes : a.finishes = false) (hscheduler : σ'.scheduler = σ.scheduler)
    {symbol : String}
    (hwrites : ∀ k ≠ symbol, σ.worker.writes ≠ some k ∧ σ'.worker.writes ≠ some k)
    (hmap : ∀ k ≠ symbol, σ'.symbolStates.lookup k = σ.symbolStates.lookup k)
    (hos : ∀ k ≠ symbol, pushedTo k os' = [])
    (hfollows : ∀ h, Follows P os σ symbol h → Follows P (os ++ os') σ' symbol h) :
    Serial P (as ++ [a]) (os ++ os') σ' segments r := by
  refine hserial.keep hmove hfinishes (by rw [hscheduler])
    (fun k => by rw [hscheduler]; exact id)
    (fun k => by rw [hscheduler]; exact hserial.unvisited k) fun k h hk => ?_
  by_cases hsymbol : k = symbol
  · subst hsymbol
    exact hfollows h hk
  · exact hk.frame (.inr (hwrites k hsymbol)) (.inl hscheduler) (hmap k hsymbol) (hos k hsymbol)

/-- The scheduler works on one symbol, or is about to. -/
theorem Serial.compute (hserial : Serial P as os σ segments r) (hmove : Moves P σ a σ' os')
    (hfinishes : a.finishes = false) (hworker : σ'.worker = σ.worker)
    {symbol : String} (hholds : σ'.scheduler.holds = some symbol)
    (hunvisited : symbol ∉ σ.scheduler.visited)
    (hvisited : σ'.scheduler.visited = σ.scheduler.visited)
    (hmisses : ∀ k, σ'.scheduler.Misses k → σ.scheduler.Misses k)
    (hcomputes : ∀ k ≠ symbol, σ.scheduler.computes ≠ some k ∧ σ'.scheduler.computes ≠ some k)
    (hmap : ∀ k ≠ symbol, σ'.symbolStates.lookup k = σ.symbolStates.lookup k)
    (hos : ∀ k, pushedTo k os' = [])
    (hfollows : ∀ h, Follows P os σ symbol h → Follows P (os ++ os') σ' symbol h) :
    Serial P (as ++ [a]) (os ++ os') σ' segments r := by
  refine hserial.keep hmove hfinishes hvisited hmisses (fun k hk => ?_) fun k h hk => ?_
  · rw [hholds] at hk
    cases hk
    rwa [hvisited]
  · by_cases hsymbol : k = symbol
    · subst hsymbol
      exact hfollows h hk
    · exact hk.frame (.inl hworker) (.inr (hcomputes k hsymbol)) (hmap k hsymbol) (hos k)

/-- One more event of the symbol after its `n`-th computation. -/
def recorded (segments : Nat → String → List Event) (n : Nat) (symbol : String) (e : Event) :
    Nat → String → List Event :=
  fun i k => if i = n ∧ k = symbol then segments i k ++ [e] else segments i k

theorem history_recorded_self (segments : Nat → String → List Event) (n : Nat) (k : String)
    (e : Event) : history (recorded segments n k e) k n = history segments k n ++ [e] := by
  rw [history, history, ← stream_update]
  congr 1
  funext i
  by_cases hi : i = n
  · subst hi
    simp [recorded]
  · simp [recorded, hi]

theorem history_recorded_ne (segments : Nat → String → List Event) (n i : Nat) {j k : String}
    (hjk : j ≠ k) (e : Event) :
    history (recorded segments n k e) j i = history segments j i := by
  simp [history, recorded, hjk]

/-- The clock is read: the item takes its place after the last computation. -/
theorem serial_readClock {item item' : Value} {symbol : String} {now : Int}
    (hserial : Serial P as os σ segments r) (hworker : σ.worker = .pushed item symbol)
    (hmove : Moves P σ (.readClock now)
      { σ with worker := .evicting item' symbol (cutoffMs now) } []) :
    ∃ segments', Serial P (as ++ [.readClock now]) (os ++ [])
      { σ with worker := .evicting item' symbol (cutoffMs now) } segments' r := by
  have hsymbol := hserial.follows symbol
  obtain ⟨item₀, hadm, hk, hfollows⟩ := hsymbol.readClock hworker item' now
  have htold : Told P (as ++ [.readClock now]) symbol (.ingest item₀ now) :=
    ⟨item₀, now, rfl, hadm, hk, by simp⟩
  refine ⟨recorded segments (σ.scheduler.computations r symbol) symbol (.ingest item₀ now), ?_⟩
  constructor
  · intro i k e he
    simp only [recorded] at he
    split at he
    · rename_i hat
      rcases List.mem_append.mp he with hold | hnew
      · exact (hserial.told i k e hold).mono _
      · rw [List.mem_singleton.mp hnew, hat.2]
        exact htold
    · exact (hserial.told i k e he).mono _
  · intro i k hi
    have hne : ¬ (i = σ.scheduler.computations r symbol ∧ k = symbol) := by
      rintro ⟨rfl, rfl⟩
      exact lt_irrefl _ hi
    rw [recorded, if_neg hne]
    exact hserial.ahead i k hi
  · intro k hmisses i hi
    have hlate := hserial.late k hmisses i hi
    have hne : ¬ (i = σ.scheduler.computations r symbol ∧ k = symbol) := by
      rintro ⟨rfl, rfl⟩
      have hle : r ≤ σ.scheduler.computations r k := by
        unfold SchedulerThread.computations
        split <;> omega
      omega
    rw [recorded, if_neg hne, hlate]
  · intro k
    rw [List.append_nil]
    by_cases hks : k = symbol
    · subst hks
      rw [history_recorded_self]
      exact hfollows
    · rw [history_recorded_ne segments _ _ hks, ← List.append_nil os]
      refine (hserial.follows k).frame (.inr ⟨?_, ?_⟩) (.inl rfl) rfl rfl
      · rw [hworker]
        exact some_ne_some_of_ne hks
      · exact some_ne_some_of_ne hks
  · rw [List.countP_append, hserial.rounds]
    rfl
  · exact hserial.unvisited
  · exact stamped_step hserial.stamped hmove

/-- The round comes to the next symbol: its computation comes after all its items. -/
theorem serial_release {started visited : List String} {symbol : String}
    (hserial : Serial P as os σ segments r) (hapart : Apart σ)
    (hscheduler : σ.scheduler = .computing started visited symbol calcTypes.length) :
    Serial P (as ++ [.release]) (os ++ [.released symbol])
      { σ with scheduler := .iterating started (symbol :: visited) } segments r := by
  have hholds : σ.scheduler.holds = some symbol := by rw [hscheduler]; rfl
  have hvisited : σ.scheduler.visited = visited := by rw [hscheduler]; rfl
  have hnew : symbol ∉ visited := hvisited ▸ hserial.unvisited symbol hholds
  have hbefore : ∀ k, σ.scheduler.computations r k = if k ∈ visited then r + 1 else r := by
    intro k
    rw [SchedulerThread.computations, hvisited]
  have hwriting := not_writes_of_holds hapart hholds
  constructor
  · exact fun i k e he => (hserial.told i k e he).mono _
  · intro i k hi
    refine hserial.ahead i k ?_
    rw [hbefore]
    simp only [SchedulerThread.computations, SchedulerThread.visited, List.mem_cons] at hi
    split at hi <;> split <;> first | omega | simp_all
  · intro k hmisses
    refine hserial.late k ?_
    rw [hscheduler]
    exact ⟨hmisses.1, fun hk => hmisses.2 (List.mem_cons_of_mem symbol hk)⟩
  · intro k
    have hk := hserial.follows k
    rw [hbefore] at hk
    by_cases hks : k = symbol
    · subst hks
      rw [if_neg hnew] at hk
      have hnone : segments (r + 1) k = [] := hserial.ahead (r + 1) k (by
        rw [hbefore, if_neg hnew]
        exact Nat.lt_succ_self r)
      have hlonger : history segments k (r + 1) = history segments k r ++ [.compute] := by
        rw [history, stream_succ, hnone]
        rfl
      have hnow : SchedulerThread.computations r k (.iterating started (k :: visited)) = r + 1 :=
        if_pos List.mem_cons_self
      rw [hnow, hlonger]
      exact hk.release hscheduler hwriting
    · have hnow : SchedulerThread.computations r k (.iterating started (symbol :: visited)) =
          if k ∈ visited then r + 1 else r := by
        simp [SchedulerThread.computations, SchedulerThread.visited, hks]
      rw [hnow]
      refine hk.frame (.inl rfl) (.inr ⟨?_, (Option.some_ne_none k).symm⟩) rfl rfl
      rw [hscheduler]
      exact some_ne_some_of_ne hks
  · rw [List.countP_append, hserial.rounds]
    rfl
  · intro k hk
    cases hk
  · exact hserial.stamped

/-- A symbol that is not in the map has no items. -/
theorem Serial.absent (hserial : Serial P as os σ segments r)
    (hs : σ.symbolStates.lookup k = none) {i : Nat} (hi : i ≤ σ.scheduler.computations r k) :
    segments i k = [] := by
  refine List.eq_nil_iff_forall_not_mem.mpr fun e he => ?_
  obtain ⟨item, now, rfl, _, hk, _⟩ := hserial.told i k e he
  exact (hserial.follows k).no_item hs hk now (mem_stream_iff.mpr (.inr ⟨i, hi, he⟩))

/-- A round begins. -/
theorem serial_tick (hserial : Serial P as os σ segments r) (hscheduler : σ.scheduler = .idle) :
    Serial P (as ++ [.tick]) (os ++ [])
      { σ with scheduler := .iterating σ.symbolStates.keys [] } segments r := by
  have hbefore : ∀ k, σ.scheduler.computations r k = r := fun k => by
    simp [SchedulerThread.computations, SchedulerThread.visited, hscheduler]
  have hnow : ∀ k, SchedulerThread.computations r k (.iterating σ.symbolStates.keys []) = r :=
    fun k => by simp [SchedulerThread.computations, SchedulerThread.visited]
  constructor
  · exact fun i k e he => (hserial.told i k e he).mono _
  · intro i k hi
    rw [hnow] at hi
    exact hserial.ahead i k (by rwa [hbefore])
  · intro k hmisses i hi
    refine hserial.absent ?_ (by rw [hbefore]; exact hi.le)
    exact AList.lookup_eq_none.mpr hmisses.1
  · intro k
    have hk := hserial.follows k
    rw [hbefore] at hk
    rw [hnow]
    refine hk.frame (.inl rfl) (.inr ⟨?_, (Option.some_ne_none k).symm⟩) rfl rfl
    rw [hscheduler]
    exact (Option.some_ne_none k).symm
  · rw [List.countP_append, hserial.rounds]
    rfl
  · intro k hk
    cases hk
  · exact hserial.stamped

/-- The items of the symbols that the round has not been to come after its
computation. -/
def delayed (segments : Nat → String → List Event) (r : Nat) (visited : List String) :
    Nat → String → List Event :=
  fun i k => if k ∈ visited then segments i k else if i = r + 1 then segments r k else []

/-- The round has been to all symbols that were there when it began. -/
theorem serial_finish {started visited : List String} (hserial : Serial P as os σ segments r)
    (hscheduler : σ.scheduler = .iterating started visited)
    (hall : started.all (· ∈ visited) = true) :
    Serial P (as ++ [.finish]) (os ++ []) { σ with scheduler := .idle }
      (delayed segments r visited) (r + 1) := by
  have hbefore : ∀ k, σ.scheduler.computations r k = if k ∈ visited then r + 1 else r := by
    intro k
    rw [hscheduler]
    rfl
  have hnow : ∀ k, SchedulerThread.computations (r + 1) k .idle = r + 1 := fun k => by
    simp [SchedulerThread.computations, SchedulerThread.visited]
  constructor
  · intro i k e he
    simp only [delayed] at he
    split at he
    · exact (hserial.told i k e he).mono _
    · split at he
      · exact (hserial.told r k e he).mono _
      · cases he
  · intro i k hi
    rw [hnow] at hi
    rw [delayed]
    split
    · rename_i hk
      exact hserial.ahead i k (by rwa [hbefore, if_pos hk])
    · rw [if_neg hi.ne']
  · exact fun _ => False.elim
  · intro k
    have hk := hserial.follows k
    rw [hbefore] at hk
    rw [hnow]
    have hframe : ∀ {h}, Follows P os σ k h →
        Follows P (os ++ []) { σ with scheduler := .idle } k h := fun hfollows => by
      refine hfollows.frame (.inl rfl) (.inr ⟨?_, (Option.some_ne_none k).symm⟩) rfl rfl
      rw [hscheduler]
      exact (Option.some_ne_none k).symm
    refine hframe ?_
    by_cases hvisited : k ∈ visited
    · have hsame : history (delayed segments r visited) k (r + 1) =
        history segments k (r + 1) := by
        simp [history, delayed, hvisited]
      rw [hsame]
      rwa [if_pos hvisited] at hk
    · have hnew : k ∉ started := fun hstarted =>
        hvisited (of_decide_eq_true (List.all_eq_true.mp hall k hstarted))
      have hlate : ∀ i < r, segments i k = [] := hserial.late k (by
        rw [hscheduler]
        exact ⟨hnew, hvisited⟩)
      have hdelayed : history (delayed segments r visited) k (r + 1) =
          .compute :: history segments k r := by
        have hfirst : ∀ i < r + 1, delayed segments r visited i k = [] := fun i hi => by
          simp [delayed, hvisited, hi.ne]
        rw [history, history, stream_of_late hfirst, stream_of_late hlate, List.replicate_succ,
          List.cons_append]
        simp [delayed, hvisited]
      rw [hdelayed]
      rw [if_neg hvisited] at hk
      exact hk.delay
  · rw [List.countP_append, hserial.rounds]
    rfl
  · intro k hk
    cases hk
  · exact hserial.stamped

/-! ## Runs -/

theorem serial_start : Serial P [] [] {} (fun _ _ => []) 0 where
  told := fun _ _ _ he => absurd he List.not_mem_nil
  ahead := fun _ _ _ => rfl
  late := fun _ hmisses => hmisses.elim
  follows := fun k =>
    ⟨⟨none, rfl, .settled (Option.some_ne_none k).symm (Option.some_ne_none k).symm⟩, rfl⟩
  rounds := rfl
  unvisited := fun k hk => absurd hk (Option.some_ne_none k).symm
  stamped := stampedMap_empty

theorem serial_step (hserial : Serial P as os σ segments r) (hapart : Apart σ)
    (hapart' : Apart σ')
    (hmove : Moves P σ a σ' os') :
    ∃ segments' r', Serial P (as ++ [a]) (os ++ os') σ' segments' r' := by
  have hmove' := hmove
  cases hmove with
  | receive hio | enqueue hio hitem =>
      exact ⟨_, _, hserial.frame hmove' rfl rfl (.inl rfl) rfl fun _ => rfl⟩
  | messageEnd hio hend =>
      exact ⟨_, _, hserial.frame hmove' rfl rfl (.inl rfl) rfl fun _ => rfl⟩
  | requestStop => exact ⟨_, _, hserial.frame hmove' rfl rfl (.inl rfl) rfl fun _ => rfl⟩
  | loop hworker =>
      refine ⟨_, _, hserial.frame hmove' rfl rfl (.inr ⟨by rw [hworker]; rfl, ?_⟩) rfl
        fun _ => rfl⟩
      dsimp only
      split <;> rfl
  | timeout hworker | dequeue hworker hq =>
      exact ⟨_, _, hserial.frame hmove' rfl rfl (.inr ⟨by rw [hworker]; rfl, rfl⟩) rfl
        fun _ => rfl⟩
  | @push item _ symbol _ hworker hpush =>
      obtain ⟨hadm, hk, rfl, rfl⟩ := pushItem_eq_ok hpush
      have hcomputes := not_computes_of_writes (k := symbol) hapart' rfl
      have hnone : ∀ k, σ.worker.writes ≠ some k := fun k => by
        rw [hworker]
        exact (Option.some_ne_none k).symm
      refine ⟨_, _, hserial.work hmove' rfl rfl (fun k hks => ⟨hnone k, ?_⟩)
        (fun k hks => lookup_pushed_ne hks _ _) (fun k hks => ?_)
        fun h hfollows => hfollows.push hworker hcomputes hadm hk⟩
      · exact some_ne_some_of_ne hks
      · simp [pushedTo, hks.symm]
  | readClock hworker hts =>
      obtain ⟨segments', h⟩ := serial_readClock hserial hworker hmove'
      exact ⟨segments', r, h⟩
  | @pop item symbol cutoff_ms s trades hworker hs hpop =>
      have hother : ∀ k ≠ symbol, σ.worker.writes ≠ some k := fun k hks => by
        rw [hworker]
        exact some_ne_some_of_ne hks
      exact ⟨_, _, hserial.work hmove' rfl rfl (fun k hks => ⟨hother k hks, hother k hks⟩)
        (fun k hks => AList.lookup_insert_ne hks) (fun k hks => rfl)
        fun h hfollows => hfollows.pop hworker hs (hserial.stamped _ _ hs) hpop⟩
  | @evictEnd item symbol cutoff_ms s trades hworker hs hend =>
      have hother : ∀ k ≠ symbol, σ.worker.writes ≠ some k := fun k hks => by
        rw [hworker]
        exact some_ne_some_of_ne hks
      have hcomputes := not_computes_of_writes (k := symbol) hapart (by rw [hworker]; rfl)
      refine ⟨_, _, hserial.work hmove' rfl rfl
        (fun k hks => ⟨hother k hks, (Option.some_ne_none k).symm⟩)
        (fun k hks => AList.lookup_insert_ne hks) (fun k hks => rfl) fun h hfollows => ?_⟩
      rw [List.append_nil]
      exact hfollows.evictEnd hworker hcomputes hs (hserial.stamped _ _ hs) hend
  | tick hscheduler hrun => exact ⟨_, _, serial_tick hserial hscheduler⟩
  | @lock started visited symbol hscheduler hsymbol =>
      have hidle : ∀ k, σ.scheduler.computes ≠ some k := fun k => by
        rw [hscheduler]
        exact (Option.some_ne_none k).symm
      have hholds : (SchedulerThread.locked started visited symbol).holds = some symbol := rfl
      refine ⟨_, _, hserial.compute hmove' rfl rfl hholds ?_ ?_ (fun k => ?_)
        (fun k _ => ⟨hidle k, (Option.some_ne_none k).symm⟩) (fun _ _ => rfl) (fun _ => rfl)
        fun h hfollows => hfollows.frame (.inl rfl)
          (.inr ⟨hidle symbol, (Option.some_ne_none symbol).symm⟩) rfl rfl⟩
      · rw [hscheduler]
        exact hsymbol.2
      · rw [hscheduler]
        rfl
      · rw [hscheduler]
        exact id
  | @reset started visited symbol s hscheduler hs =>
      have hholds : σ.scheduler.holds = some symbol := by rw [hscheduler]; rfl
      refine ⟨_, _, hserial.compute hmove' rfl rfl rfl (hserial.unvisited symbol hholds) ?_
        (fun k => ?_) (fun k hks => ⟨?_, ?_⟩) (fun k hks => AList.lookup_insert_ne hks)
        (fun _ => rfl) fun h hfollows => ?_⟩
      · rw [hscheduler]
        rfl
      · rw [hscheduler]
        exact id
      · rw [hscheduler]
        exact (Option.some_ne_none k).symm
      · exact some_ne_some_of_ne hks
      · rw [List.append_nil]
        exact hfollows.reset (not_writes_of_holds hapart hholds) hscheduler hs
  | @pass started visited symbol n c s s' hscheduler hc hs hpass =>
      have hholds : σ.scheduler.holds = some symbol := by rw [hscheduler]; rfl
      refine ⟨_, _, hserial.compute hmove' rfl rfl rfl (hserial.unvisited symbol hholds) ?_
        (fun k => ?_) (fun k hks => ⟨?_, ?_⟩) (fun k hks => AList.lookup_insert_ne hks)
        (fun _ => rfl) fun h hfollows => ?_⟩
      · rw [hscheduler]
        rfl
      · rw [hscheduler]
        exact id
      · rw [hscheduler]
        exact some_ne_some_of_ne hks
      · exact some_ne_some_of_ne hks
      · exact hfollows.pass hscheduler (not_writes_of_holds hapart hholds) hc hs hpass
  | release hscheduler => exact ⟨_, _, serial_release hserial hapart hscheduler⟩
  | finish hscheduler hall => exact ⟨_, _, serial_finish hserial hscheduler hall⟩

/-- The run of threads that keep apart has a history for each symbol. -/
theorem serial_of_execute (h : execute (System.step P) as {} = some (σ, os))
    (hapart : EachStep (System.step P) (fun _ => Apart) as {}) (hend : Apart σ) :
    ∃ segments r, Serial P as os σ segments r := by
  have hinv := execute_invariant_actions
    (fun as os σ => Apart σ → ∃ segments r, Serial P as os σ segments r)
    (fun as os σ a σ' os' hserial hσ hstep hσ' => by
      obtain ⟨segments, r, hserial⟩ := hserial hσ
      exact serial_step hserial hσ hσ' (step_moves hstep))
    (fun _ => ⟨_, _, serial_start⟩) hapart h
  simpa using hinv hend

theorem Resting.apart (h : Resting σ) : Apart σ := by
  intro symbol hwrites
  rw [h.worker] at hwrites
  cases hwrites

/-- The items of a symbol are in its part of a sequence of events. -/
theorem arrived_projection (k : String) (es : List Event) :
    arrived P k (projection P k es) = arrived P k es := by
  rw [arrived, arrived, arrivals, arrivals, projection, List.filterMap_filter]
  congr 1
  refine List.filterMap_congr fun e _ => ?_
  cases e with
  | compute => rfl
  | ingest item now =>
      simp only [Event.concerns, Event.arrival, decide_eq_true_eq]
      split <;> rfl

theorem Resting.computations (h : Resting σ) (r : Nat) (k : String) :
    σ.scheduler.computations r k = r := by
  simp [SchedulerThread.computations, SchedulerThread.visited, h.scheduler]

/-- The sequence of events has the history of each symbol as its part. -/
theorem Serial.projection_merge (hserial : Serial P as os σ segments r) (hresting : Resting σ)
    (k : String) :
    projection P k (merge .compute σ.symbolStates.keys segments r) = history segments k r := by
  refine filter_merge σ.symbolStates.nodupKeys rfl (fun i j _ e he => ?_) fun hk i => ?_
  · obtain ⟨item, now, rfl, _, hj, _⟩ := hserial.told i j e he
    simp [Event.concerns, hj]
  · rcases le_or_gt i r with hi | hi
    · exact hserial.absent (AList.lookup_eq_none.mpr hk) (by rwa [hresting.computations])
    · exact hserial.ahead i k (by rwa [hresting.computations])

theorem Serial.mem_merge (hserial : Serial P as os σ segments r) {keys : List String} {e : Event}
    (he : e ∈ merge .compute keys segments r) : e = .compute ∨ ∃ k, Told P as k e := by
  rcases mem_stream_iff.mp he with ⟨_, hcompute⟩ | ⟨i, _, hmem⟩
  · exact .inl hcompute
  · obtain ⟨k, _, hmem⟩ := List.mem_flatMap.mp hmem
    exact .inr ⟨k, hserial.told i k e hmem⟩

def Event.isCompute : Event → Bool
  | .compute => true
  | .ingest _ _ => false

/-- Put together, the histories are a sequence that completes with the states of the
symbols. -/
theorem Serial.sequence (hserial : Serial P as os σ segments r) (hresting : Resting σ) :
    ∃ es m, run P es ∅ = .ok () m ∧ (∀ k, m.lookup k = σ.symbolStates.lookup k) ∧
      (∀ k, arrived P k es = pushedTo k os) ∧
      (∀ now ∈ clockReadings es, Act.readClock now ∈ as) ∧
      es.countP Event.isCompute = as.countP Act.finishes := by
  have hfollows : ∀ k, Follows P os σ k (history segments k r) := fun k =>
    hresting.computations r k ▸ hserial.follows k
  have hworker : ∀ k, σ.worker.writes ≠ some k := fun k => by
    rw [hresting.worker]
    exact (Option.some_ne_none k).symm
  have hpart := hserial.projection_merge hresting
  have hlocal : ∀ k, LocalRun P k (merge .compute σ.symbolStates.keys segments r) none
      (σ.symbolStates.lookup k) := fun k => by
    rw [← localRun_projection_iff, hpart]
    refine (hfollows k).settled (hworker k) ?_
    rw [hresting.scheduler]
    exact (Option.some_ne_none k).symm
  have haccepted : ∀ e ∈ merge Event.compute σ.symbolStates.keys segments r, e.Accepted P := by
    intro e he
    rcases hserial.mem_merge he with rfl | ⟨k, item, now, rfl, hadm, _⟩
    · trivial
    · exact hadm
  obtain ⟨m, hm⟩ := run_completes stampedMap_empty haccepted fun k => ⟨_, hlocal k⟩
  obtain ⟨_, _, hruns⟩ := run_eq_ok stampedMap_empty hm
  refine ⟨_, m, hm, fun k => localRun_unique (hruns k) (hlocal k), fun k => ?_,
    fun now hnow => ?_, ?_⟩
  · rw [← arrived_projection, hpart]
    have hpushed := (hfollows k).pushed
    rwa [unclocked_eq_nil (hworker k), List.append_nil] at hpushed
  · obtain ⟨e, he, heq⟩ := List.mem_filterMap.mp hnow
    rcases hserial.mem_merge he with rfl | ⟨k, item, now', rfl, _, _, hmem⟩
    · cases heq
    · cases heq
      exact hmem
  · rw [hserial.rounds]
    refine countP_stream rfl fun i _ e he => ?_
    obtain ⟨k, _, hmem⟩ := List.mem_flatMap.mp he
    obtain ⟨item, now, rfl, _⟩ := hserial.told i k e hmem
    rfl

/-- The same where the map has buckets. -/
theorem serial_of_hashed {grow : Nat → Nat} {buckets : Nat} {η : HashedSystem}
    (h : execute (HashedSystem.step P grow) as { buckets := buckets } = some (η, os))
    (hapart : EachStep (HashedSystem.step P grow) (fun a η => η.Steady P a ∧ Apart η.system) as
      { buckets := buckets })
    (hresting : Resting η.system) : ∃ segments r, Serial P as os η.system segments r := by
  have hrun : execute (System.step P) as {} = some (η.system, os) ∧
      EachStep (System.step P) (fun _ => Apart) as {} :=
    execute_of_steady (fun _ _ ha => ha) h hapart
  exact serial_of_execute hrun.1 hrun.2 hresting.apart

/-- Threads that keep apart refine the sequential program, as long as no insertion
rehashes the map under the loop of `computeFeatures`.  Whenever the scheduler is
between two rounds and the worker between two items, the map is what some sequence of
`processItem` and `computeFeatures` calls leaves, with the items of each symbol in the
order they were pushed, the clock as it was read, and one computation for each round. -/
theorem serializes {grow : Nat → Nat} {buckets : Nat} {η : HashedSystem}
    (h : execute (HashedSystem.step P grow) as { buckets := buckets } = some (η, os))
    (hapart : EachStep (HashedSystem.step P grow) (fun a η => η.Steady P a ∧ Apart η.system) as
      { buckets := buckets })
    (hresting : Resting η.system) :
    ∃ es m, run P es ∅ = .ok () m ∧ (∀ k, m.lookup k = η.system.symbolStates.lookup k) ∧
      (∀ k, arrived P k es = pushedTo k os) ∧
      (∀ now ∈ clockReadings es, Act.readClock now ∈ as) ∧
      es.countP Event.isCompute = as.countP Act.finishes := by
  obtain ⟨segments, r, hserial⟩ := serial_of_hashed h hapart hresting
  exact hserial.sequence hresting

/-- A trade of `A` and a trade of `B`. -/
def twoSymbols : Value :=
  .objectValue [("data", .arrayValue [feedItem "A" 1990000 2 10, feedItem "B" 1995000 3 7])]

/-- The trade of `B` is pushed while the features of `A` are computed; the round ends
without `B`. -/
def acrossARound : List Act :=
  [.receive twoSymbols, .message, .message, .message, .loop, .dequeue, .push,
    .readClock 2000000000000, .evict, .tick, .lock "A", .reset, .pass, .loop, .dequeue, .push] ++
    List.replicate 5 .pass ++ [.readClock 2000000000000, .release, .evict, .finish]

theorem serializes_sample : ∃ η os es m,
    execute (HashedSystem.step Platform.listed id) acrossARound { buckets := 1031 } =
      some (η, os) ∧
    run Platform.listed es ∅ = .ok () m ∧ (∀ k, m.lookup k = η.system.symbolStates.lookup k) ∧
    (arrived Platform.listed "B" es).length = 1 ∧ es.countP Event.isCompute = 1 := by
  have hrun : (execute (HashedSystem.step Platform.listed id) acrossARound
      { buckets := 1031 }).map (fun r =>
        (r.1.system.worker.writes, r.1.system.scheduler, (pushedTo "B" r.2).length)) =
      some (none, .idle, 1) := by
    decide +kernel
  have hapart : EachStep (HashedSystem.step Platform.listed id)
      (fun a η => η.Steady Platform.listed a ∧ Apart η.system) acrossARound
      { buckets := 1031 } := by
    decide +kernel
  obtain ⟨⟨η, os⟩, hexec, heq⟩ := Option.map_eq_some_iff.mp hrun
  simp only [Prod.mk.injEq] at heq
  obtain ⟨hworker, hscheduler, hpushed⟩ := heq
  obtain ⟨es, m, hm, hlookup, harrived, _, hrounds⟩ :=
    serializes hexec hapart ⟨hworker, hscheduler⟩
  exact ⟨η, os, es, m, hexec, hm, hlookup, by rw [harrived]; exact hpushed, hrounds⟩

/-! ## Every sequence is a run -/

/-- The worker is at its loop condition, with this item as its local, and everything
else is at rest. -/
def ready (item : Value) (m : SymbolMap) : System :=
  { worker := .looping item, symbolStates := m }

theorem scheduler_of_moves (hmove : Moves P σ a σ' os) (ha : a.thread ≠ .scheduler) :
    σ'.scheduler = σ.scheduler := by
  cases hmove <;> first | rfl | exact absurd rfl ha

theorem worker_of_moves (hmove : Moves P σ a σ' os) (ha : a.thread = .scheduler) :
    σ'.worker = σ.worker := by
  cases hmove <;> first | rfl | cases ha

/-- A message with one item. -/
def messageWith (item : Value) : Value := .objectValue [("data", .arrayValue [item])]

/-- The io thread and the worker take one item from a message to its deque. -/
theorem reaches_ingest {item item' last : Value} {now : Int} {m m' : SymbolMap}
    (h : processItem P now item m = .ok item' m') :
    Reaches (System.step P) (·.thread ≠ .scheduler) (ready last m) (ready item' m') := by
  have hreceive : System.step P (.receive (messageWith item)) (ready last m) =
      some ({ ready last m with io := .sending (messageWith item) 0 },
        [.received (messageWith item)]) := rfl
  have henqueue : enqueueFrom (messageWith item) 0 [] = .ok () [item] :=
    enqueueFrom_array [] 0 rfl rfl (Nat.zero_le _)
  have hio : Reaches (System.step P) (·.thread ≠ .scheduler)
      { ready last m with io := .sending (messageWith item) 0 }
        { ready last m with q := [item] } :=
    (io_runs_enqueueFrom (ready last m) _ 0 henqueue).mono fun a ha => by
      rw [ha]
      intro heq
      cases heq
  have hloop : System.step P .loop { ready last m with q := [item] } =
      some ({ ready last m with worker := .waiting last, q := [item] }, []) := rfl
  have hdequeue : System.step P .dequeue
      { ready last m with worker := .waiting last, q := [item] } =
      some ({ ready last m with worker := .dequeued item }, [.dequeued item]) := rfl
  have hworker : Reaches (System.step P) (·.thread ≠ .scheduler)
      { ready last m with worker := .dequeued item } (ready item' m') :=
    (worker_runs_processItem (σ := { ready last m with worker := .dequeued item }) rfl h).mono
      fun a ha => by
        rw [ha]
        intro heq
        cases heq
  exact .head (by simp [Act.thread]) hreceive (hio.trans
    (.head (by simp [Act.thread]) hloop (.head (by simp [Act.thread]) hdequeue hworker)))

/-- The scheduler goes through some symbols of its round. -/
theorem reaches_round (started : List String) (last : Value) {visited ks : List String}
    {m m' : SymbolMap}
    (h : forM ks (fun symbol => atSymbol symbol (computeSymbol calcTypes)) m = .ok () m')
    (hnodup : ks.Nodup) (hks : ∀ k ∈ ks, k ∈ m.keys ∧ k ∉ visited) :
    Reaches (System.step P) (·.thread = .scheduler)
      { ready last m with scheduler := .iterating started visited }
      { ready last m' with scheduler := .iterating started (ks.reverse ++ visited) } := by
  induction ks generalizing m visited with
  | nil =>
      cases h
      exact .refl _ _
  | cons k ks ih =>
      obtain ⟨hk, hrest⟩ := List.nodup_cons.mp hnodup
      obtain ⟨hkey, hnew⟩ := hks k List.mem_cons_self
      obtain ⟨s, hs⟩ := Option.isSome_iff_exists.mp (AList.lookup_isSome.mpr hkey)
      rw [List.forM_cons, seq_eq_ok_iff] at h
      obtain ⟨mid, hhead, htail⟩ := h
      cases hcompute : computeSymbol calcTypes s with
      | error e s' =>
          rw [atSymbol_of_error hs hcompute] at hhead
          cases hhead
      | ok u s' =>
          rw [atSymbol_of_ok hs hcompute] at hhead
          cases hhead
          have hlock : System.step P (.lock k)
              { ready last m with scheduler := .iterating started visited } =
              some ({ ready last m with scheduler := .locked started visited k }, [.locked k]) :=
            if_pos ⟨hkey, hnew⟩
          have hsymbol := scheduler_runs_computeSymbol (P := P)
            (σ := { ready last m with scheduler := .locked started visited k }) rfl hs hcompute
          have hks' : ∀ j ∈ ks, j ∈ (m.insert k s').keys ∧ j ∉ k :: visited := by
            intro j hj
            obtain ⟨hkey', hnew'⟩ := hks j (List.mem_cons_of_mem k hj)
            refine ⟨(mem_keys_insert hs).mpr hkey', fun hmem => ?_⟩
            rcases List.mem_cons.mp hmem with rfl | hmem
            · exact hk hj
            · exact hnew' hmem
          rw [List.reverse_cons, List.append_assoc, List.singleton_append]
          exact .head rfl hlock (hsymbol.trans (ih htail hrest hks'))

/-- The scheduler makes one round. -/
theorem reaches_compute {last : Value} {m m' : SymbolMap}
    (h : computeFeatures P calcTypes m = .ok () m') :
    Reaches (System.step P) (·.thread = .scheduler) (ready last m) (ready last m') := by
  rw [computeFeatures, bind_of_ok (get_apply m)] at h
  have htick : System.step P .tick (ready last m) =
      some ({ ready last m with scheduler := .iterating m.keys [] }, []) := rfl
  have hkeys : ∀ k, k ∈ P.visit m ↔ k ∈ m.keys := fun k => (P.visit_perm m).mem_iff
  have hround := reaches_round (P := P) m.keys last h (P.visit_nodup m) fun k hk =>
    ⟨(hkeys k).mp hk, List.not_mem_nil⟩
  have hall : m.keys.all (· ∈ (P.visit m).reverse ++ []) = true := by
    simp [hkeys]
  have hfinish : System.step P .finish { ready last m' with
      scheduler := .iterating m.keys ((P.visit m).reverse ++ []) } = some (ready last m', []) :=
    if_pos hall
  exact .head rfl htick (hround.trans (.single rfl hfinish))

/-- The worker and the scheduler are not in the middle of one symbol together, and items
are filed between two rounds. -/
def InTurn (a : Act) (σ : System) : Prop :=
  Apart σ ∧ (a.thread = .scheduler ∨ σ.scheduler = .idle)

/-- One event, by threads that keep apart: while one of them makes its steps the other
is at rest. -/
theorem exists_event_run {e : Event} {m m' : SymbolMap} (last : Value)
    (h : e.apply P m = .ok () m') :
    ∃ as last' os, execute (System.step P) as (ready last m) = some (ready last' m', os) ∧
      EachStep (System.step P) InTurn as (ready last m) := by
  cases e with
  | ingest item now =>
      obtain ⟨item', hitem⟩ := Event.apply_ingest_eq_ok_iff.mp h
      have hturn : ∀ a (σ : System), a.thread ≠ .scheduler → σ.scheduler = .idle →
          InTurn a σ := by
        refine fun a σ _ hidle => ⟨fun symbol _ hholds => ?_, .inr hidle⟩
        rw [hidle] at hholds
        cases hholds
      have hkeeps : ∀ a (σ σ' : System) os, a.thread ≠ .scheduler → σ.scheduler = .idle →
          System.step P a σ = some (σ', os) → σ'.scheduler = .idle :=
            fun a σ σ' os ha hat hstep =>
        (scheduler_of_moves (step_moves hstep) ha).trans hat
      obtain ⟨as, os, hexec, hapart⟩ := (reaches_ingest hitem).eachStep _ hturn hkeeps rfl
      exact ⟨as, item', os, hexec, hapart⟩
  | compute =>
      have hturn : ∀ a (σ : System), a.thread = .scheduler → σ.worker = .looping last →
          InTurn a σ := by
        refine fun a σ ha hat => ⟨fun symbol hwrites => ?_, .inl ha⟩
        rw [hat] at hwrites
        cases hwrites
      have hkeeps : ∀ a (σ σ' : System) os, a.thread = .scheduler → σ.worker = .looping last →
          System.step P a σ = some (σ', os) → σ'.worker = .looping last :=
        fun a σ σ' os ha hat hstep => (worker_of_moves (step_moves hstep) ha).trans hat
      obtain ⟨as, os, hexec, hapart⟩ := (reaches_compute h).eachStep _ hturn hkeeps rfl
      exact ⟨as, last, os, hexec, hapart⟩

/-- Every sequence of events, by threads that keep apart. -/
theorem exists_apart_run {es : List Event} {m m' : SymbolMap} (last : Value)
    (h : run P es m = .ok () m') :
    ∃ as last' os, execute (System.step P) as (ready last m) = some (ready last' m', os) ∧
      EachStep (System.step P) InTurn as (ready last m) := by
  induction es generalizing m last with
  | nil =>
      cases h
      exact ⟨[], last, [], rfl, eachStep_nil⟩
  | cons e es ih =>
      rw [run_cons, seq_eq_ok_iff] at h
      obtain ⟨mid, hfirst, hrest⟩ := h
      obtain ⟨as, last₁, os, hexec, hapart⟩ := exists_event_run last hfirst
      obtain ⟨bs, last₂, os', hexec', hapart'⟩ := ih last₁ hrest
      exact ⟨as ++ bs, last₂, os ++ os', execute_append hexec hexec',
        hapart.append hexec hapart'⟩

/-- Threads that keep apart do what the sequential program does, no less and no more, as
long as no insertion rehashes the map under the loop of `computeFeatures`: the states
of the symbols that their runs come to rest with are those that sequences of
`processItem` and `computeFeatures` calls end with, however many buckets the map has
and a rehash makes. -/
theorem serializable_iff (P : Platform) (grow : Nat → Nat) (buckets : Nat)
    (f : String → Option SymbolState) :
    (∃ m, Reachable P m ∧ ∀ k, m.lookup k = f k) ↔
      ∃ as η os, execute (HashedSystem.step P grow) as { buckets := buckets } = some (η, os) ∧
        EachStep (HashedSystem.step P grow) (fun a η => η.Steady P a ∧ Apart η.system) as
          { buckets := buckets } ∧
        Resting η.system ∧ ∀ k, η.system.symbolStates.lookup k = f k := by
  constructor
  · rintro ⟨m, ⟨es, hes⟩, hlookup⟩
    obtain ⟨as, last, os, hexec, hturn⟩ := exists_apart_run .nullValue hes
    obtain ⟨η, hexec', hη, hsteady⟩ := execute_hashed buckets (fun _ _ ha => ha.2) hexec hturn
    refine ⟨as, η, os, hexec', hsteady.mono fun a η ha => ⟨ha.2, ha.1.1⟩, ?_⟩
    rw [hη]
    exact ⟨⟨rfl, rfl⟩, hlookup⟩
  · rintro ⟨as, η, os, hexec, hapart, hresting, hlookup⟩
    obtain ⟨segments, r, hserial⟩ := serial_of_hashed hexec hapart hresting
    obtain ⟨es, m, hm, hsame, _⟩ := hserial.sequence hresting
    exact ⟨m, ⟨es, hm⟩, fun k => (hsame k).trans (hlookup k)⟩

end TradeProcessor
