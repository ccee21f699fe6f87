/-
  Holders.lean --- every mutex of a symbol is given back.

  The scheduler and the logger wait for each other at the mutexes of the symbols, and
  for nothing else.  A thread holds one mutex at a time and waits for none meanwhile,
  so what is left to say is that a thread that holds one comes to give it back: it
  always has a next step, and only a bounded number of steps before that one.  The
  worker may add to them by pushing on the deque that the scheduler goes over.
-/
import TradeProcessor.Stretches
import TradeProcessor.Survival

set_option autoImplicit false

namespace TradeProcessor

open TradeProcessor.Json TradeProcessor.Library

/-- The scheduler or the logger, if it is the one that makes the action. -/
def LogAct.by : LogAct → Option Owner
  | .program a =>
      match a.thread with
      | .scheduler => some .scheduler
      | _ => none
  | .evict => none
  | .lock _ | .reset | .beginPass | .entry | .strayEntry _ _ | .endPass | .release =>
      some .scheduler
  | .wake | .logLock _ | .copy | .logUnlock | .print | .endRound => some .logger

/-- The action by which the thread gives its mutex back. -/
def Owner.givesBack : Owner → LogAct
  | .scheduler => .release
  | .logger => .logUnlock

/-- How long the deque of the symbol is. -/
def LoggedSystem.entries (l : LoggedSystem) (symbol : String) : Nat :=
  (held (l.system.symbolStates.lookup symbol)).length

/-- The steps of the scheduler before it gives back the mutex that it holds; each of the
passes that are left begins, extent, and has an entry for every trade. -/
def SchedulerThread.stepsLeft (entries : String → Nat) : SchedulerThread → Iterator → Nat
  | .locked _ _ symbol, _ => calcTypes.length * (entries symbol + 2) + 1
  | .computing _ _ symbol n, .before => (calcTypes.length - n) * (entries symbol + 2)
  | .computing _ _ symbol n, .entry i =>
      entries symbol - i + 1 + (calcTypes.length - (n + 1)) * (entries symbol + 2)
  | _, _ => 0

/-- The steps of a thread before it gives back the mutex that it holds. -/
def LoggedSystem.remaining (l : LoggedSystem) : Owner → Nat
  | .scheduler => l.system.scheduler.stepsLeft l.entries l.iterator
  | .logger =>
      match l.logger with
      | .locked _ _ _ => 1
      | _ => 0

variable {P : Platform} {l l' : LoggedSystem} {out out' : List LogOutput} {a : LogAct}
    {k : String}

/-! ## The iterator stays in the deque -/

/-- A deque grows by the pushes and shrinks by the pops. -/
theorem length_held_step {σ σ' : System} {b : Act} {os : List Output}
    (hσ : StampedMap σ.symbolStates) (hmove : Moves P σ b σ' os) (k : String) :
    (held (σ'.symbolStates.lookup k)).length + poppedFrom k os =
      (held (σ.symbolStates.lookup k)).length + (pushedTo k os).length := by
  cases hmove with
  | @push item _ symbol _ hworker hpush =>
      obtain ⟨_, _, rfl, rfl⟩ := pushItem_eq_ok hpush
      rcases eq_or_ne symbol k with rfl | hk
      · rw [lookup_pushed]
        simp [held, SymbolState.pushBack, poppedFrom, pushedTo]
      · rw [lookup_pushed_ne hk.symm]
        simp [poppedFrom, pushedTo, hk]
  | @pop item symbol _ s trades hworker hs hpop =>
      obtain ⟨front, hfront⟩ := evictFront_eq_true hpop
      rw [held_insert]
      rcases eq_or_ne symbol k with rfl | hk
      · simp [hs, held, hfront, poppedFrom, pushedTo]
      · simp [poppedFrom, pushedTo, hk, hk.symm]
  | evictEnd hworker hs hend =>
      have htrades := evictFront_eq_false hend fun x hx => (hσ _ _ hs x hx).1
      rw [held_insert_same hs htrades]
      simp [poppedFrom, pushedTo]
  | reset hscheduler hs =>
      rw [held_insert_same hs (SymbolState.resetFeatures_trades _)]
      simp [poppedFrom, pushedTo]
  | @pass started visited symbol n c s s' hscheduler hc hs hpass =>
      rw [held_insert]
      rcases eq_or_ne k symbol with rfl | hk
      · simp [hs, held, poppedFrom, pushedTo, (c.process_sameEntries hpass).length_eq]
      · simp [poppedFrom, pushedTo, hk]
  | _ => simp [poppedFrom, pushedTo]

/-- Reading entries leaves them stamped. -/
theorem StampedMap.sameEntries {m : SymbolMap} (hm : StampedMap m) {symbol : String}
    {s s' : SymbolState} (hs : m.lookup symbol = some s)
    (hsame : SameEntries s.trades s'.trades) :
    StampedMap (m.insert symbol s') := by
  refine hm.insert fun x hx => ?_
  obtain ⟨old, hold, haccess⟩ := hsame.exists_source hx
  exact (hm symbol s hs old hold).accessed haccess

/-- What the scheduler refers to is there. -/
structure Ranged (l : LoggedSystem) : Prop where
  located : Located l.system
  stamped : StampedMap l.system.symbolStates
  index : ∀ started visited symbol n i,
    l.system.scheduler = .computing started visited symbol n →
    l.iterator = .entry i → n < calcTypes.length ∧ i ≤ l.entries symbol

theorem ranged_start : Ranged {} where
  located := located_start
  stamped := stampedMap_empty
  index := by simp

/-- A step of another thread than the scheduler: it moves the end of the deque, or its
beginning together with the iterator. -/
theorem Ranged.frame (h : Ranged l) (hlocated : Located l'.system)
    (hstamped : StampedMap l'.system.symbolStates)
    (hscheduler : l'.system.scheduler = l.system.scheduler)
    (hit : ∀ j, l.system.scheduler.holds = some j →
      l'.iterator = l.iterator ∧ l.entries j ≤ l'.entries j ∨
        l'.iterator = l.iterator.popFront ∧ l.entries j = l'.entries j + 1) : Ranged l' where
  located := hlocated
  stamped := hstamped
  index := by
    intro started visited symbol n i hat hentry
    rw [hscheduler] at hat
    rcases hit symbol (holds_of_computing hat) with ⟨hsame, hle⟩ | ⟨hpop, hone⟩
    · obtain ⟨hn, hi⟩ := h.index started visited symbol n i hat (hsame ▸ hentry)
      exact ⟨hn, hi.trans hle⟩
    · rw [hpop] at hentry
      obtain ⟨hn, hi⟩ := h.index started visited symbol n (i + 1) hat
        (popFront_eq_entry_iff.mp hentry)
      exact ⟨hn, by omega⟩

/-- A plain step is one of another thread, or the scheduler makes it under no mutex. -/
theorem plain_scheduler {σ σ' : System} {b : Act} {os : List Output} (hb : b.plain = true)
    (hmove : Moves P σ b σ' os) : b.thread ≠ .scheduler ∧ σ'.scheduler = σ.scheduler ∨
      σ.scheduler.holds = none ∧ σ'.scheduler.holds = none := by
  cases hmove with
  | tick hscheduler _ | finish hscheduler _ => exact .inr ⟨by rw [hscheduler]; rfl, rfl⟩
  | lock _ _ | reset _ _ | pass _ _ _ _ | release _ => cases hb
  | _ => exact .inl ⟨nofun, rfl⟩

/-- Only `push` changes the length of a deque. -/
theorem entries_program {system : System} {b : Act} {os : List Output} (h : Ranged l)
    (hb : b.plain = true) (hmove : Moves P l.system b system os) (j : String) :
    LoggedSystem.entries { l with system := system } j =
      l.entries j + (pushedTo j os).length := by
  have hlength := length_held_step h.stamped hmove j
  have hnone : poppedFrom j os = 0 := by
    cases hmove with
    | pop _ _ _ => cases hb
    | _ => simp [poppedFrom]
  rw [hnone, Nat.add_zero] at hlength
  exact hlength

/-- A pop moves the iterator with the entry that it is at. -/
theorem entries_evict {system : System} {os : List Output} (h : Ranged l)
    (hmove : Moves P l.system .evict system os) {j : String}
    (hj : l.system.scheduler.holds = some j) :
    l.iteratorAfter os = l.iterator ∧
      LoggedSystem.entries { l with system := system } j = l.entries j ∨
    l.iteratorAfter os = l.iterator.popFront ∧
      l.entries j = LoggedSystem.entries { l with system := system } j + 1 := by
  have hlength := length_held_step h.stamped hmove j
  cases hmove with
  | @pop item symbol _ s trades hworker hs hpop =>
      by_cases hsymbol : symbol = j
      · subst hsymbol
        refine .inr ⟨if_pos hj, ?_⟩
        simpa [poppedFrom, pushedTo, LoggedSystem.entries] using hlength.symm
      · refine .inl ⟨if_neg ?_, ?_⟩
        · rw [hj]
          exact fun heq => hsymbol (Option.some.inj heq).symm
        · simpa [poppedFrom, pushedTo, hsymbol, LoggedSystem.entries] using hlength
  | evictEnd hworker hs hend =>
      exact .inl ⟨rfl, by simpa [poppedFrom, pushedTo, LoggedSystem.entries] using hlength⟩

/-- A write to a symbol that is there. -/
theorem Located.write {σ : System} (h : Located σ) {symbol : String} {s s' : SymbolState}
    (hs : σ.symbolStates.lookup symbol = some s) {scheduler : SchedulerThread}
    (hreferences : scheduler.references = σ.scheduler.references)
    (hpasses : scheduler.passesMade ≤ calcTypes.length) :
    Located { σ with
      scheduler := scheduler, symbolStates := σ.symbolStates.insert symbol s' } where
  worker := fun k hk => (mem_keys_insert hs).mpr (h.worker k hk)
  scheduler := fun k hk => (mem_keys_insert hs).mpr (h.scheduler k (hreferences ▸ hk))
  passes := hpasses

theorem ranged_step (h : Ranged l) (hmove : l.Moves P a l' out')
    (hsteady : ∀ stray it, a ≠ .strayEntry stray it) : Ranged l' := by
  cases hmove with
  | program hplain hstep =>
      have hinner := step_moves hstep
      have hlocated := located_step h.located hinner
      have hstamped := stamped_step h.stamped hinner
      rcases plain_scheduler hplain hinner with ⟨_, hsame⟩ | ⟨_, hnone⟩
      · refine h.frame hlocated hstamped hsame fun j _ => .inl ⟨rfl, ?_⟩
        rw [entries_program h hplain hinner j]
        exact Nat.le_add_right _ _
      · refine ⟨hlocated, hstamped, fun _ _ _ _ _ hat => ?_⟩
        rw [show _ = some _ from holds_of_computing hat] at hnone
        cases hnone
  | evict hstep =>
      have hinner := step_moves hstep
      have hscheduler := (plain_step hinner (.inr rfl)).1
      refine h.frame (located_step h.located hinner) (stamped_step h.stamped hinner) ?_
        fun j hj =>
        (entries_evict h hinner hj).imp (fun hat => ⟨hat.1, hat.2.ge⟩) id
      cases hinner <;> rfl
  | lock _ hstep | release _ hstep =>
      have hinner := step_moves hstep
      refine ⟨located_step h.located hinner, stamped_step h.stamped hinner, ?_⟩
      cases hinner
      exact nofun
  | reset hstep =>
      have hinner := step_moves hstep
      exact ⟨located_step h.located hinner, stamped_step h.stamped hinner,
        fun _ _ _ _ _ _ => nofun⟩
  | beginPass hscheduler hit hn =>
      refine ⟨h.located, h.stamped, fun _ _ _ _ _ hat hentry => ?_⟩
      cases hentry
      cases hscheduler.symm.trans hat
      exact ⟨hn, Nat.zero_le _⟩
  | @entry started visited symbol n i c s s' hscheduler hit hc hs hi hentry =>
      have hsame := c.processEntry_sameEntries hentry
      refine ⟨h.located.write hs rfl h.located.passes, h.stamped.sameEntries hs hsame,
        fun started' visited' symbol' n' i' hat hnext => ?_⟩
      cases hnext
      cases hscheduler.symm.trans hat
      obtain ⟨hn, hle⟩ := h.index _ _ _ _ _ hscheduler hit
      have hlength : l.entries symbol = s.trades.length := by
        rw [LoggedSystem.entries, hs]
        rfl
      refine ⟨hn, ?_⟩
      rw [LoggedSystem.entries, AList.lookup_insert]
      dsimp only [held, Option.getD_some]
      rw [hsame.length_eq]
      omega
  | strayEntry _ _ _ => exact absurd rfl (hsteady _ _)
  | endPass hscheduler hit hs hi =>
      obtain ⟨hn, _⟩ := h.index _ _ _ _ _ hscheduler hit
      refine ⟨h.located.write hs ?_ hn, h.stamped.insert (h.stamped _ _ hs),
        fun _ _ _ _ _ _ => nofun⟩
      rw [hscheduler]
      rfl
  | _ => exact ⟨h.located, h.stamped, h.index⟩

/-! ## Steps under a mutex -/

theorem passes_grow {m : Nat} (hm : m ≤ calcTypes.length) (n p : Nat) :
    m * (n + p + 2) ≤ m * (n + 2) + calcTypes.length * p := by
  have hp : m * p ≤ calcTypes.length * p := Nat.mul_le_mul_right p hm
  have hsplit : m * (n + p + 2) = m * (n + 2) + m * p := by ring
  omega

/-- A trade more on the deque is at most an entry more in each pass. -/
theorem stepsLeft_grow {scheduler : SchedulerThread} {entries entries' : String → Nat} {p : Nat}
    (hk : scheduler.holds = some k) (h : entries' k = entries k + p) (it : Iterator) :
    scheduler.stepsLeft entries' it ≤ scheduler.stepsLeft entries it + calcTypes.length * p := by
  cases scheduler with
  | locked started visited symbol =>
      cases hk
      have hgrow := passes_grow (le_refl calcTypes.length) (entries k) p
      simp only [SchedulerThread.stepsLeft, h]
      omega
  | computing started visited symbol n =>
      cases hk
      cases it with
      | before =>
          simp only [SchedulerThread.stepsLeft, h]
          exact passes_grow (Nat.sub_le _ _) _ _
      | entry i =>
          -- the entry may still be ahead of the iterator in this pass
          have hrest : calcTypes.length - (n + 1) + 1 ≤ calcTypes.length :=
            (Nat.add_le_add_right (Nat.sub_le_sub_left (Nat.le_add_left 1 n) _) 1).trans
              (by decide)
          have hp := Nat.mul_le_mul_right p hrest
          have hsplit : (calcTypes.length - (n + 1)) * (entries k + p + 2) + p =
              (calcTypes.length - (n + 1)) * (entries k + 2) +
                (calcTypes.length - (n + 1) + 1) * p := by
            ring
          simp only [SchedulerThread.stepsLeft, h]
          omega
      | dangling => exact Nat.zero_le _
  | _ => cases hk

/-- A trade less is an entry less. -/
theorem stepsLeft_popFront {scheduler : SchedulerThread} {entries entries' : String → Nat}
    (hk : scheduler.holds = some k) (h : entries k = entries' k + 1) (it : Iterator) :
    scheduler.stepsLeft entries' it.popFront ≤ scheduler.stepsLeft entries it := by
  cases scheduler with
  | locked started visited symbol =>
      cases hk
      simp only [SchedulerThread.stepsLeft, h]
      gcongr
      omega
  | computing started visited symbol n =>
      cases hk
      cases it with
      | before =>
          simp only [Iterator.popFront, SchedulerThread.stepsLeft, h]
          gcongr
          omega
      | entry i =>
          cases i with
          | zero => exact Nat.zero_le _
          | succ i =>
              simp only [Iterator.popFront, SchedulerThread.stepsLeft, h, Nat.add_sub_add_right]
              gcongr
              omega
      | dangling => exact Nat.zero_le _
  | _ => cases hk

section OwnSteps

variable {started visited : List String} {n i : Nat} {entries entries' : String → Nat}

theorem stepsLeft_reset (h : entries' k = entries k) (it : Iterator) :
    (SchedulerThread.computing started visited k 0).stepsLeft entries' .before + 1 ≤
      (SchedulerThread.locked started visited k).stepsLeft entries it := by
  simp only [SchedulerThread.stepsLeft, h, Nat.sub_zero]
  exact le_rfl

theorem stepsLeft_beginPass (hn : n < calcTypes.length) :
    (SchedulerThread.computing started visited k n).stepsLeft entries (.entry 0) + 1 ≤
      (SchedulerThread.computing started visited k n).stepsLeft entries .before := by
  have hsplit : (calcTypes.length - n) * (entries k + 2) =
      (calcTypes.length - (n + 1)) * (entries k + 2) + (entries k + 2) := by
    rw [← Nat.succ_mul]
    congr 1
    omega
  simp only [SchedulerThread.stepsLeft, hsplit]
  omega

theorem stepsLeft_entry (h : entries' k = entries k) (hi : i < entries k) :
    (SchedulerThread.computing started visited k n).stepsLeft entries' (.entry (i + 1)) + 1 ≤
      (SchedulerThread.computing started visited k n).stepsLeft entries (.entry i) := by
  simp only [SchedulerThread.stepsLeft, h]
  omega

theorem stepsLeft_endPass (h : entries' k = entries k) :
    (SchedulerThread.computing started visited k (n + 1)).stepsLeft entries' .before + 1 ≤
      (SchedulerThread.computing started visited k n).stepsLeft entries (.entry i) := by
  simp only [SchedulerThread.stepsLeft, h]
  omega

end OwnSteps

/-- A write that keeps the number of entries. -/
theorem entries_insert {σ : System} {symbol : String} {s : SymbolState}
    (hs : σ.symbolStates.lookup symbol = some s) (s' : SymbolState)
    (hlength : s'.trades.length = s.trades.length) :
    (held ((σ.symbolStates.insert symbol s').lookup symbol)).length =
      (held (σ.symbolStates.lookup symbol)).length := by
  rw [AList.lookup_insert, hs]
  exact hlength

/-- The logger copies the features, once. -/
theorem logger_under_mutex (hholds : l.logger.holds = some k) (hmove : l.Moves P a l' out')
    (hkeeps : a ≠ .logUnlock) : l'.logger.holds = some k ∧
      l'.remaining .logger + (decide (a.by = some .logger)).toNat ≤ l.remaining .logger := by
  cases hmove with
  | @program b _ _ hplain hstep =>
      have hby : (LogAct.program b).by ≠ some .logger := by
        dsimp only [LogAct.by]
        split <;> nofun
      exact ⟨hholds, by simp [hby, LoggedSystem.remaining]⟩
  | copy hlogger =>
      rw [hlogger] at hholds
      exact ⟨hholds, by simp [LoggedSystem.remaining, hlogger, LogAct.by]⟩
  | logUnlock _ => exact absurd rfl hkeeps
  | wake hlogger | logLock hlogger _ | print hlogger | endRound hlogger _ =>
      rw [hlogger] at hholds
      cases hholds
  | _ => exact ⟨hholds, le_rfl⟩

/-- The scheduler makes its passes; only a trade pushed on their deque adds to them. -/
theorem scheduler_under_mutex (h : Ranged l) (hholds : l.system.scheduler.holds = some k)
    (hmove : l.Moves P a l' out') (hsteady : ∀ stray it, a ≠ .strayEntry stray it)
    (hkeeps : a ≠ .release) : l'.system.scheduler.holds = some k ∧
      l'.remaining .scheduler + (decide (a.by = some .scheduler)).toNat ≤
        l.remaining .scheduler + calcTypes.length * (pushedTo k (programOf out')).length := by
  unfold LoggedSystem.remaining
  cases hmove with
  | @program b _ _ hplain hstep =>
      have hinner := step_moves hstep
      rcases plain_scheduler hplain hinner with ⟨hthread, hsame⟩ | ⟨hnone, _⟩
      · have hby : (LogAct.program b).by ≠ some .scheduler := by
          dsimp only [LogAct.by]
          split
          · contradiction
          · nofun
        refine ⟨hsame ▸ hholds, ?_⟩
        rw [programOf_map, decide_eq_false hby]
        dsimp only
        rw [hsame]
        exact stepsLeft_grow hholds (entries_program h hplain hinner k) _
      · rw [hnone] at hholds
        cases hholds
  | @evict system os hstep =>
      have hinner := step_moves hstep
      have hsame : system.scheduler = l.system.scheduler := by cases hinner <;> rfl
      refine ⟨hsame ▸ hholds, ?_⟩
      dsimp only
      rw [hsame]
      rcases entries_evict h hinner hholds with ⟨hit, hentries⟩ | ⟨hit, hentries⟩
      · rw [hit]
        exact (stepsLeft_grow (p := 0) hholds hentries _).trans
          (Nat.add_le_add_left (Nat.zero_le _) _)
      · rw [hit]
        exact (stepsLeft_popFront hholds hentries _).trans (Nat.le_add_right _ _)
  | lock _ hstep =>
      cases step_moves hstep with
      | lock hscheduler _ =>
          rw [hscheduler] at hholds
          cases hholds
  | reset hstep =>
      cases step_moves hstep with
      | @reset started visited symbol s hscheduler hs =>
          rw [hscheduler] at hholds ⊢
          cases hholds
          exact ⟨rfl, (stepsLeft_reset (entries_insert hs s.resetFeatures rfl) _).trans
            (Nat.le_add_right _ _)⟩
  | beginPass hscheduler hit hn =>
      rw [hit]
      dsimp only
      rw [hscheduler] at hholds ⊢
      cases hholds
      exact ⟨rfl, (stepsLeft_beginPass hn).trans (Nat.le_add_right _ _)⟩
  | @entry started visited symbol n i c s s' hscheduler hit hc hs hi hentry =>
      obtain ⟨_, hle⟩ := h.index _ _ _ _ _ hscheduler hit
      have hlength : l.entries symbol = s.trades.length := by
        rw [LoggedSystem.entries, hs]
        rfl
      have hsame := entries_insert hs _ (c.processEntry_sameEntries hentry).length_eq
      rw [hit]
      dsimp only
      rw [hscheduler] at hholds ⊢
      cases hholds
      exact ⟨rfl, (stepsLeft_entry hsame (by omega)).trans (Nat.le_add_right _ _)⟩
  | strayEntry _ _ _ => exact absurd rfl (hsteady _ _)
  | endPass hscheduler hit hs hi =>
      rw [hit]
      dsimp only
      rw [hscheduler] at hholds ⊢
      cases hholds
      exact ⟨rfl, (stepsLeft_endPass (entries_insert hs _ rfl)).trans (Nat.le_add_right _ _)⟩
  | release _ _ => exact absurd rfl hkeeps
  | _ => exact ⟨hholds, Nat.le_add_right _ _⟩

/-- At most six passes over what is on the deque. -/
theorem remaining_le (t : Owner) (hholds : l.holds t = some k) :
    l.remaining t ≤ calcTypes.length * (l.entries k + 2) + 1 := by
  cases t with
  | logger =>
      have hone : l.remaining .logger ≤ 1 := by
        dsimp only [LoggedSystem.remaining]
        split <;> omega
      omega
  | scheduler =>
      have hheld : l.system.scheduler.holds = some k := hholds
      dsimp only [LoggedSystem.remaining]
      cases hat : l.system.scheduler with
      | locked started visited symbol =>
          rw [hat] at hheld
          cases hheld
          exact le_rfl
      | computing started visited symbol n =>
          rw [hat] at hheld
          cases hheld
          have hpasses : (calcTypes.length - n) * (l.entries k + 2) ≤
              calcTypes.length * (l.entries k + 2) := Nat.mul_le_mul_right _ (Nat.sub_le _ _)
          cases l.iterator with
          | before => exact hpasses.trans (Nat.le_succ _)
          | entry i =>
              have hrest : calcTypes.length - (n + 1) ≤ 5 :=
                Nat.sub_le_sub_left (Nat.le_add_left 1 n) 6
              have hlater := Nat.mul_le_mul_right (l.entries k + 2) hrest
              change l.entries k - i + 1 + (calcTypes.length - (n + 1)) * (l.entries k + 2) ≤
                6 * (l.entries k + 2) + 1
              omega
          | dangling => exact Nat.zero_le _
      | _ =>
          rw [hat] at hheld
          cases hheld

/-! ## A holder goes on -/

/-- A write that reads entries only. -/
theorem Sane.write {σ : System} (h : Sane P σ) {symbol : String} {s s' : SymbolState}
    (hs : σ.symbolStates.lookup symbol = some s) (hsame : SameEntries s.trades s'.trades)
    (scheduler : SchedulerThread) : Sane P { σ with
      scheduler := scheduler, symbolStates := σ.symbolStates.insert symbol s' } where
  message := h.message
  queue := h.queue
  dequeued := h.dequeued
  pushed := h.pushed
  stamped := h.stamped.sameEntries hs hsame
  readable := by
    refine h.readable.insert fun x hx => ?_
    obtain ⟨old, hold, haccess⟩ := hsame.exists_source hx
    obtain ⟨ht, hv, hp⟩ := h.readable symbol s hs old hold
    exact ⟨(converts_accessed_iff haccess).mpr ht, (converts_accessed_iff haccess).mpr hv,
      (converts_accessed_iff haccess).mpr hp⟩

theorem sane_logged_step (h : Sane P l.system) (hmove : l.Moves P a l' out')
    (hfeed : ∀ root, a = .program (.receive root) → Sound P root) : Sane P l'.system := by
  cases hmove with
  | program _ hstep =>
      exact sane_step h (step_moves hstep) fun root hroot => hfeed root (by rw [hroot])
  | evict hstep | lock _ hstep | reset hstep | release _ hstep =>
      exact sane_step h (step_moves hstep) nofun
  | @entry _ _ _ _ _ c _ _ hscheduler hit hc hs hi hentry =>
      exact h.write hs (c.processEntry_sameEntries hentry) _
  | @strayEntry _ _ _ _ s stray _ hscheduler hit hs =>
      have hsame : SameEntries s.trades { stray with trades := s.trades }.trades :=
        SameEntries.refl _
      exact h.write hs hsame _
  | endPass hscheduler hit hs hi => exact h.write hs (SameEntries.refl _) _
  | _ => exact h

/-- The thread has a next step of its own. -/
def LoggedSystem.Enabled (P : Platform) (t : Owner) (l : LoggedSystem) : Prop :=
  ∃ a l' out', a.by = some t ∧ LoggedSystem.step P a l = some (l', out')

theorem enabled_of_isSome {t : Owner} (hby : a.by = some t)
    (h : (LoggedSystem.step P a l).isSome = true) : LoggedSystem.Enabled P t l := by
  obtain ⟨⟨l', out'⟩, hstep⟩ := Option.isSome_iff_exists.mp h
  exact ⟨a, l', out', hby, hstep⟩

/-- The scheduler has a next step while it holds a mutex, unless the worker has popped the
entry that its iterator is at. -/
theorem scheduler_holder_goes_on (hsane : Sane P l.system) (h : Ranged l)
    (hholds : l.system.scheduler.holds = some k) :
    LoggedSystem.Enabled P .scheduler l ∨ l.iterator = .dangling := by
  have hkeys := h.located.scheduler
  have hpasses := h.located.passes
  cases hscheduler : l.system.scheduler with
  | locked started visited symbol =>
      rw [hscheduler] at hkeys
      obtain ⟨s, hs⟩ := Option.isSome_iff_exists.mp
        (mem_keys_iff.mp (hkeys symbol List.mem_cons_self))
      have hstep := step_of_moves (Moves.reset (P := P) hscheduler hs)
      refine .inl (enabled_of_isSome (a := .reset) rfl ?_)
      simp [LoggedSystem.step, LoggedSystem.programStep, hstep, within]
  | computing started visited symbol n =>
      rw [hscheduler] at hkeys hpasses
      obtain ⟨s, hs⟩ := Option.isSome_iff_exists.mp
        (mem_keys_iff.mp (hkeys symbol List.mem_cons_self))
      rcases Nat.lt_or_eq_of_le hpasses with hn | heq
      · obtain ⟨c, hc⟩ : ∃ c, calcTypes[n]? = some c := ⟨_, List.getElem?_eq_getElem hn⟩
        cases hit : l.iterator with
        | before =>
            refine .inl (enabled_of_isSome (a := .beginPass) rfl ?_)
            simp [LoggedSystem.step, LoggedSystem.programStep, hscheduler, hit,
              show n < calcTypes.length from hn]
        | entry i =>
            by_cases hend : i = s.trades.length
            · refine .inl (enabled_of_isSome (a := .endPass) rfl ?_)
              simp [LoggedSystem.step, LoggedSystem.programStep, hscheduler, hit, hs, hend]
            · obtain ⟨_, hle⟩ := h.index _ _ _ _ _ hscheduler hit
              obtain ⟨w, hreads⟩ := exists_readsAs (hsane.readable symbol s hs)
              have hlt : i < w.length := by
                rw [LoggedSystem.entries, hs] at hle
                rw [← hreads.length_eq]
                exact lt_of_le_of_ne hle hend
              obtain ⟨s', hentry⟩ : ∃ s', c.processEntry i s = .ok () s' := by
                obtain ⟨trades, _, hrun⟩ := c.processEntry_spec hreads hlt
                exact ⟨_, hrun⟩
              refine .inl (enabled_of_isSome (a := .entry) rfl ?_)
              simp [LoggedSystem.step, LoggedSystem.programStep, hscheduler, hit, hc, hs, hend,
                hentry]
        | dangling => exact .inr rfl
      · rw [show n = calcTypes.length from heq] at hscheduler
        have hstep := step_of_moves (Moves.release (P := P) hscheduler)
        refine .inl (enabled_of_isSome (a := .release) rfl ?_)
        simp [LoggedSystem.step, LoggedSystem.programStep, holds_of_computing hscheduler,
          hstep, within]
  | _ =>
      rw [hscheduler] at hholds
      cases hholds

/-- So does the logger. -/
theorem logger_holder_goes_on (hholds : l.logger.holds = some k) :
    LoggedSystem.Enabled P .logger l := by
  cases hlogger : l.logger with
  | locked started visited symbol =>
      refine enabled_of_isSome (a := .copy) rfl ?_
      simp [LoggedSystem.step, LoggedSystem.loggerStep, hlogger]
  | copied started visited symbol snapshot =>
      refine enabled_of_isSome (a := .logUnlock) rfl ?_
      simp [LoggedSystem.step, LoggedSystem.loggerStep, hlogger]
  | _ =>
      rw [hlogger] at hholds
      cases hholds

/-! ## Every holder gives back -/

theorem ranged_of_execute {as : List LogAct}
    (h : execute (LoggedSystem.step P) as {} = some (l, out)) (hsteady : Steady as) : Ranged l :=
  execute_invariant_eachStep_init (fun _ l => Ranged l)
    (fun _ _ _ _ _ hl hnot hstep => ranged_step hl (logged_moves hstep) hnot) ranged_start
    (eachStep_of_steady hsteady _) h

theorem sane_of_logged {as : List LogAct}
    (h : execute (LoggedSystem.step P) as {} = some (l, out))
    (hfeed : ∀ root, LogAct.program (.receive root) ∈ as → Sound P root) : Sane P l.system := by
  have hreaches : Reaches (LoggedSystem.step P) (· ∈ as) {} l := ⟨as, out, fun a ha => ha, h⟩
  refine hreaches.keeps (fun l => Sane P l.system) (fun a l l' out ha hl hstep => ?_) sane_start
  exact sane_logged_step hl (logged_moves hstep) fun root hroot => hfeed root (hroot ▸ ha)

/-- A step that does not give the mutex back leaves it with its holder. -/
theorem remaining_under_mutex {t : Owner} (h : Ranged l) (hholds : l.holds t = some k)
    (hmove : l.Moves P a l' out') (hsteady : ∀ stray it, a ≠ .strayEntry stray it)
    (hkeeps : a ≠ t.givesBack) : l'.holds t = some k ∧
      l'.remaining t + (decide (a.by = some t)).toNat ≤
        l.remaining t + calcTypes.length * (pushedTo k (programOf out')).length := by
  cases t with
  | scheduler => exact scheduler_under_mutex h hholds hmove hsteady hkeeps
  | logger =>
      obtain ⟨hheld, hless⟩ := logger_under_mutex hholds hmove hkeeps
      exact ⟨hheld, hless.trans (Nat.le_add_right _ _)⟩

/-- The scheduler has just taken the mutex. -/
def untilLocked : List LogAct := ingestOne ++ [.program .tick, .lock "A", .reset]

/-- The message of `ingestOne`. -/
def oneTrade : Value := .objectValue [("data", .arrayValue [feedItem "A" 1990000 2 10])]

theorem sound_oneTrade : Sound Platform.listed oneTrade where
  subscriptable := rfl
  data := nofun
  items := by
    intro item hitem
    have heq : item = feedItem "A" 1990000 2 10 := List.mem_singleton.mp hitem
    rw [heq]
    exact ⟨⟨rfl, ⟨"A", rfl⟩, ⟨1990000, rfl⟩, ⟨2, by decide +kernel⟩⟩, rfl, 10, rfl⟩

end TradeProcessor
