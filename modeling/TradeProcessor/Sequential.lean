/-
  Sequential.lean --- a thread that is left alone does what its function does.

  The steps of `System` cut the functions of the program where other threads can
  come in.  Put together again, without other threads in between, they are
  `processItem`, the loop of `on_message` and what `computeFeatures` does for one
  symbol.
-/
import TradeProcessor.System

set_option autoImplicit false

namespace TradeProcessor

open TradeProcessor.Json TradeProcessor.Library

variable {P : Platform}

/-! ## The worker -/

/-- The eviction loop, one evaluation of its condition at a time. -/
theorem worker_evicts {σ : System} {item : Value} {k : String} {cutoff_ms : Int}
    {s : SymbolState} {trades : List Value} (hworker : σ.worker = .evicting item k cutoff_ms)
    (hs : σ.symbolStates.lookup k = some s)
    (h : popExpired cutoff_ms s.trades = .ok () trades) :
    Reaches (System.step P) (·.thread = .worker) σ { σ with
      worker := .looping item
      symbolStates := σ.symbolStates.insert k { s with trades := trades } } := by
  induction hl : s.trades generalizing σ s with
  | nil =>
      rw [hl] at h
      cases h
      have hstep : System.step P .evict σ = some ({ σ with
          worker := .looping item
          symbolStates := σ.symbolStates.insert k { s with trades := [] } }, []) := by
        simp only [System.step, Act.thread, System.workerStep, hworker, hs, hl, evictFront]
      exact .head rfl hstep (.refl _ _)
  | cons front rest ih =>
      rw [hl, popExpired_eq] at h
      cases hfront : evictFront cutoff_ms (front :: rest) with
      | error e =>
          rw [hfront] at h
          cases h
      | ok r =>
          obtain ⟨trades', goesOn⟩ := r
          rw [hfront] at h
          cases goesOn with
          | true =>
              obtain ⟨_, hcons⟩ := evictFront_eq_true hfront
              cases hcons
              have hstep : System.step P .evict σ = some ({ σ with
                  symbolStates := σ.symbolStates.insert k { s with trades := rest } },
                  [.popped k]) := by
                simp only [System.step, Act.thread, System.workerStep, hworker, hs, hl, hfront]
              refine .head rfl hstep ?_
              have hrest := ih (σ := { σ with
                symbolStates := σ.symbolStates.insert k { s with trades := rest } })
                hworker (AList.lookup_insert _) h rfl
              rw [AList.insert_insert] at hrest
              exact hrest
          | false =>
              cases h
              have hstep : System.step P .evict σ = some ({ σ with
                  worker := .looping item
                  symbolStates := σ.symbolStates.insert k { s with trades := trades } },
                []) := by
                simp only [System.step, Act.thread, System.workerStep, hworker, hs, hl, hfront]
              exact .head rfl hstep (.refl _ _)

/-- From a dequeued item on, the worker alone runs one iteration of `process`. -/
theorem worker_runs_processItem {σ : System} {item item' : Value} {now : Int}
    {m' : SymbolMap} (hworker : σ.worker = .dequeued item)
    (h : processItem P now item σ.symbolStates = .ok item' m') :
    Reaches (System.step P) (·.thread = .worker) σ
      { σ with worker := .looping item', symbolStates := m' } := by
  rw [processItem_eq, bind_eq_ok_iff] at h
  obtain ⟨⟨pushedItem, k⟩, m₁, hpush, hrest⟩ := h
  have hlookup : m₁.lookup k =
      some (SymbolState.pushBack (admitted item) ((σ.symbolStates.lookup k).getD {})) := by
    obtain ⟨_, _, _, rfl⟩ := pushItem_eq_ok hpush
    exact lookup_pushed _ _ _
  have hstepPush : System.step P .push σ =
      some ({ σ with worker := .pushed pushedItem k, symbolStates := m₁ },
        [.pushed k pushedItem]) := by
    simp only [System.step, Act.thread, System.workerStep, hworker, hpush]
  refine .head rfl hstepPush ?_
  cases hts : pushedItem.readInt64 "t" with
  | error e =>
      rw [jsonRead, hts, bind_of_error (evaluate_error_apply _ _ _)] at hrest
      cases hrest
  | ok r =>
      obtain ⟨item₂, ts⟩ := r
      rw [jsonRead, hts, bind_of_ok (evaluate_ok_apply _ _ _), seq_eq_ok_iff] at hrest
      obtain ⟨m₂, hevict, hpure⟩ := hrest
      cases hpure
      have hstepClock : System.step P (.readClock now)
          { σ with worker := .pushed pushedItem k, symbolStates := m₁ } =
          some ({ σ with worker := .evicting item' k (cutoffMs now), symbolStates := m₁ },
            []) := by
        simp only [System.step, Act.thread, System.workerStep, hts]
      refine .head rfl hstepClock ?_
      simp only [atSymbol, hlookup, evict] at hevict
      cases hpop : popExpired (cutoffMs now)
          (SymbolState.pushBack (admitted item) ((σ.symbolStates.lookup k).getD {})).trades with
      | error e trades =>
          rw [hpop] at hevict
          cases hevict
      | ok u trades =>
          rw [hpop] at hevict
          cases hevict
          exact worker_evicts rfl hlookup hpop

/-! ## The io thread -/

/-- The io thread alone runs the loop of `on_message`. -/
theorem io_runs_enqueueFrom (σ : System) (root : Value) (i : Nat) {q q' : List Value}
    (h : enqueueFrom root i q = .ok () q') :
    Reaches (System.step P) (·.thread = .io) { σ with io := .sending root i, q := q }
      { σ with io := .idle, q := q' } := by
  induction root, i using enqueueFrom.induct generalizing q with
  | case1 root i e hstep =>
      rw [enqueueFrom_of_error hstep] at h
      cases h
  | case2 root i root' hstep =>
      rw [enqueueFrom_of_end hstep] at h
      cases h
      have hmessage : System.step P .message { σ with io := .sending root i, q := q' } =
          some ({ σ with io := .idle, q := q' }, []) := by
        simp only [System.step, Act.thread, System.ioStep, hstep]
      exact .head rfl hmessage (.refl _ _)
  | case3 root i root' item hstep ih =>
      rw [enqueueFrom_of_item hstep] at h
      have hmessage : System.step P .message { σ with io := .sending root i, q := q } =
          some ({ σ with io := .sending root' (i + 1), q := q ++ [item] },
            [.enqueued item]) := by
        simp only [System.step, Act.thread, System.ioStep, hstep]
      exact .head rfl hmessage (ih h)

/-! ## The scheduler -/

/-- The remaining passes over one symbol. -/
theorem scheduler_passes (σ : System) (started visited : List String) (k : String) (n : Nat)
    {s s' : SymbolState} (h : passes (calcTypes.drop n) s = .ok () s')
    (hn : n ≤ calcTypes.length) :
    Reaches (System.step P) (·.thread = .scheduler)
      { σ with
        scheduler := .computing started visited k n
        symbolStates := σ.symbolStates.insert k s }
      { σ with
        scheduler := .iterating started (k :: visited)
        symbolStates := σ.symbolStates.insert k s' } := by
  induction hl : calcTypes.drop n generalizing n s with
  | nil =>
      have hlength : n = calcTypes.length := by
        have hle := List.drop_eq_nil_iff.mp hl
        omega
      rw [hl] at h
      cases h
      have hrelease : System.step P .release
          { σ with
            scheduler := .computing started visited k n
            symbolStates := σ.symbolStates.insert k s' } =
          some ({ σ with
            scheduler := .iterating started (k :: visited)
            symbolStates := σ.symbolStates.insert k s' }, [.released k]) := by
        simp only [System.step, Act.thread, System.schedulerStep, hlength, if_true]
      exact .head rfl hrelease (.refl _ _)
  | cons c rest ih =>
      have hlt : n < calcTypes.length := by
        by_contra hge
        rw [List.drop_of_length_le (by omega)] at hl
        cases hl
      have hcons := List.drop_eq_getElem_cons hlt
      rw [hl, List.cons.injEq] at hcons
      have hc : calcTypes[n]? = some c := by
        rw [List.getElem?_eq_getElem hlt, hcons.1]
      rw [hl, passes_cons, seq_eq_ok_iff] at h
      obtain ⟨mid, hpass, hrest⟩ := h
      have hstep : System.step P .pass
          { σ with
            scheduler := .computing started visited k n
            symbolStates := σ.symbolStates.insert k s } =
          some ({ σ with
            scheduler := .computing started visited k (n + 1)
            symbolStates := σ.symbolStates.insert k mid }, [.passed k s.trades]) := by
        simp only [System.step, Act.thread, System.schedulerStep, hc, AList.lookup_insert, hpass,
          AList.insert_insert]
      refine .head rfl hstep (ih (n + 1) ?_ hlt hcons.2.symm)
      rw [← hcons.2]
      exact hrest

/-- From the lock on, the scheduler alone does what `computeFeatures` does for the
symbol. -/
theorem scheduler_runs_computeSymbol {σ : System} {started visited : List String} {k : String}
    {s s' : SymbolState} (hscheduler : σ.scheduler = .locked started visited k)
    (hs : σ.symbolStates.lookup k = some s) (h : computeSymbol calcTypes s = .ok () s') :
    Reaches (System.step P) (·.thread = .scheduler) σ { σ with
      scheduler := .iterating started (k :: visited)
      symbolStates := σ.symbolStates.insert k s' } := by
  have hreset : System.step P .reset σ = some ({ σ with
      scheduler := .computing started visited k 0
      symbolStates := σ.symbolStates.insert k s.resetFeatures }, []) := by
    simp only [System.step, Act.thread, System.schedulerStep, hscheduler, hs]
  rw [computeSymbol_eq] at h
  exact .head rfl hreset (scheduler_passes σ started visited k 0 h (Nat.zero_le _))

end TradeProcessor
