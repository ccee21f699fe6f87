/-
  Runs.lean --- sequences of ingest iterations and `computeFeatures` calls.

  A run applies events to the symbol map one after the other.  The main result of
  the file is that a run is a family of runs, one per symbol: what an event does
  to a symbol depends on the event and on the state of that symbol only
  (`LocalStep`), and a run completes exactly when all its items are admissible
  and it completes for every symbol.
-/
import TradeProcessor.Ingest

set_option autoImplicit false

namespace TradeProcessor

open TradeProcessor.Json TradeProcessor.Library

/-- What happens to the symbol map: an item that is dequeued when the clock reads
`now`, or a call of `computeFeatures`. -/
inductive Event where
  | ingest (item : Value) (now : Int)
  | compute

variable {N Q : Type} [Zero N] [Zero Q] [Add N] [Sub N] [Mul N] [Div N] [LT N] [DecidableLT N]
  [DecidableEq N] [Arithmetic N Q] (P : Platform N Q)

/-- The code that runs at an event. -/
def Event.apply : Event → Action Fault (SymbolMap N Q) Unit
  | .ingest item now => do
      let _ ← processItem P now item
  | .compute => computeFeatures P calcTypes

/-- A sequence of events. -/
def run (es : List Event) : Action Fault (SymbolMap N Q) Unit := forM es (Event.apply P)

/-- The maps that a sequence of events can lead to. -/
def Reachable (m : SymbolMap N Q) : Prop := ∃ es, run P es ∅ = .ok () m

/-- An event as the symbol `k` sees it. -/
def LocalStep (k : String) : Event → Option (SymbolState N Q) → Option (SymbolState N Q) → Prop
  | .ingest item now, before, after =>
      if symbolOf P item = some k then
        after = some (ingested now (admitted item) (before.getD {}))
      else after = before
  | .compute, before, after => ActsOn (computeSymbol calcTypes) before after

/-- A sequence of events as the symbol `k` sees it. -/
def LocalRun (k : String) :
    List Event → Option (SymbolState N Q) → Option (SymbolState N Q) → Prop
  | [], before, after => after = before
  | e :: es, before, after => ∃ mid, LocalStep P k e before mid ∧ LocalRun k es mid after

/-- The event does not raise because of its item. -/
def Event.Accepted : Event → Prop
  | .ingest item _ => Admissible P item
  | .compute => True

/-- The platform of concrete runs: keys are visited in list order. -/
def Platform.listed : Platform where
  realText := fun _ => "real"
  visit := fun m => m.keys
  visit_perm := fun _ => List.Perm.refl _

/-- A trade as the feed sends it. -/
def feedItem (s : String) (t : Int64) (v p : ℚ) : Value :=
  .objectValue [("p", .realValue p), ("s", .stringValue s), ("t", .intValue t),
    ("v", .realValue v)]

/-- A short history of two symbols, with a computation in it; the last trade of
`A` expires its first one. -/
def sampleHistory : List Event :=
  [.ingest (feedItem "A" 1500000 2 10) 2000000000000,
    .ingest (feedItem "B" 1600000 1 7) 2000000000000,
    .compute,
    .ingest (feedItem "A" 1900000 3 11) 2200000000000]

/-- The history completes. -/
theorem sampleHistory_run : ∃ m, run Platform.listed sampleHistory ∅ = .ok () m := by
  have hcompletes : Completes (run Platform.listed sampleHistory) ∅ := by decide +kernel
  obtain ⟨_, m, hrun⟩ := hcompletes
  exact ⟨m, hrun⟩

variable {P}

theorem run_cons (e : Event) (es : List Event) :
    run P (e :: es) = e.apply P >>= fun _ => run P es := by
  simp [run]

theorem run_append (es₁ es₂ : List Event) :
    run P (es₁ ++ es₂) = run P es₁ >>= fun _ => run P es₂ := by
  simp [run]

theorem run_append_eq_ok_iff {es₁ es₂ : List Event} {m m'' : SymbolMap N Q} :
    run P (es₁ ++ es₂) m = .ok () m'' ↔
      ∃ m', run P es₁ m = .ok () m' ∧ run P es₂ m' = .ok () m'' := by
  rw [run_append, seq_eq_ok_iff]

theorem run_singleton_eq_ok_iff {e : Event} {m m' : SymbolMap N Q} :
    run P [e] m = .ok () m' ↔ e.apply P m = .ok () m' := by
  rw [run_cons, seq_eq_ok_iff]
  constructor
  · rintro ⟨_, h, hnil⟩
    cases hnil
    exact h
  · intro h
    exact ⟨m', h, rfl⟩

theorem Event.apply_ingest_eq_ok_iff {item : Value} {now : Int} {m m' : SymbolMap N Q} :
    Event.apply P (.ingest item now) m = .ok () m' ↔
      ∃ item', processItem P now item m = .ok item' m' := by
  rw [Event.apply, bind_eq_ok_iff]
  simp only [pure_apply]
  constructor
  · rintro ⟨item', _, h, hpure⟩
    cases hpure
    exact ⟨item', h⟩
  · rintro ⟨item', h⟩
    exact ⟨item', m', h, rfl⟩

/-! ## One event -/

theorem localStep_unique {k : String} {e : Event} {before a b : Option (SymbolState N Q)}
    (ha : LocalStep P k e before a) (hb : LocalStep P k e before b) : a = b := by
  cases e with
  | ingest item now =>
      simp only [LocalStep] at ha hb
      split at ha
      · rename_i hk
        rw [if_pos hk] at hb
        exact ha.trans hb.symm
      · rename_i hk
        rw [if_neg hk] at hb
        exact ha.trans hb.symm
  | compute => exact actsOn_unique ha hb

/-- A completed event accepts its item and is a local step of every symbol. -/
theorem Event.apply_eq_ok {e : Event} {m m' : SymbolMap N Q} (hm : StampedMap m)
    (h : e.apply P m = .ok () m') :
    e.Accepted P ∧ ∀ k, LocalStep P k e (m.lookup k) (m'.lookup k) := by
  cases e with
  | ingest item now =>
      obtain ⟨item', hrun⟩ := Event.apply_ingest_eq_ok_iff.mp h
      have hadm := admissible_of_processItem hrun
      obtain ⟨symbol, hsymbol⟩ := hadm.exists_symbol
      obtain ⟨m₁, hrun₁, hself, hother⟩ :=
        processItem_of_admissible now hadm hsymbol hm
      rw [hrun] at hrun₁
      cases hrun₁
      refine ⟨hadm, fun k => ?_⟩
      simp only [LocalStep, hsymbol, Option.some.injEq]
      split
      · rename_i hk
        subst hk
        exact hself
      · rename_i hk
        exact hother k (Ne.symm hk)
  | compute => exact ⟨trivial, computeFeatures_eq_ok h⟩

/-- An accepted event that has a local step for every symbol completes. -/
theorem Event.apply_completes {e : Event} {m : SymbolMap N Q} (hm : StampedMap m)
    (hacc : e.Accepted P) (hlocal : ∀ k, ∃ after, LocalStep P k e (m.lookup k) after) :
    ∃ m', e.apply P m = .ok () m' := by
  cases e with
  | ingest item now =>
      have hadm : Admissible P item := hacc
      obtain ⟨symbol, hsymbol⟩ := hadm.exists_symbol
      obtain ⟨m', hrun, _⟩ := processItem_of_admissible now hadm hsymbol hm
      exact ⟨m', Event.apply_ingest_eq_ok_iff.mpr ⟨_, hrun⟩⟩
  | compute =>
      have hcomputes : Completes (computeFeatures P calcTypes) m := by
        apply completes_computeFeatures_iff.mpr
        intro k s hs
        obtain ⟨after, hact⟩ := hlocal k
        rw [hs] at hact
        obtain ⟨s', hrun, _⟩ := hact
        exact ⟨(), s', hrun⟩
      obtain ⟨_, m', hm'⟩ := hcomputes
      exact ⟨m', hm'⟩

/-- What holds of every admitted item and survives accesses, no event takes away
from the entries of a deque. -/
theorem localStep_entries {I : Value → Prop}
    (hadm : ∀ item, Admissible P item → I (admitted item))
    (haccessed : ∀ a b, Value.Accessed entryKeys a b → I a → I b) {k : String} {e : Event}
    {before after : Option (SymbolState N Q)} (hacc : e.Accepted P)
    (hstep : LocalStep P k e before after)
    (hbefore : ∀ s, before = some s → ∀ item ∈ s.trades, I item) :
    ∀ s, after = some s → ∀ item ∈ s.trades, I item := by
  intro s hs item hitem
  cases e with
  | ingest new now =>
      simp only [LocalStep] at hstep
      split at hstep
      · rw [hstep] at hs
        cases hs
        have hmem := (expire_suffix timeOf _ _).subset hitem
        rcases List.mem_append.mp hmem with hold | hnew
        · cases before with
          | none => simp at hold
          | some s => exact hbefore s rfl item hold
        · rw [List.mem_singleton.mp hnew]
          exact hadm new hacc
      · rw [hstep] at hs
        exact hbefore s hs item hitem
  | compute =>
      cases before with
      | none =>
          rw [show after = none from hstep] at hs
          cases hs
      | some s₀ =>
          obtain ⟨s₁, hrun, rfl⟩ := hstep
          cases hs
          obtain ⟨old, hold, haccess⟩ := (computeSymbol_sameEntries hrun).exists_source hitem
          exact haccessed old item haccess (hbefore s₀ rfl old hold)

theorem Event.apply_stamped {e : Event} {m m' : SymbolMap N Q} (hm : StampedMap m)
    (h : e.apply P m = .ok () m') : StampedMap m' := by
  obtain ⟨hacc, hlocal⟩ := Event.apply_eq_ok hm h
  intro k
  exact localStep_entries (fun _ => stamped_admitted) (fun _ _ hab h => h.accessed hab) hacc
    (hlocal k) (hm k)

/-! ## Whole runs -/

theorem localRun_unique {k : String} {es : List Event} {before a b : Option (SymbolState N Q)}
    (ha : LocalRun P k es before a) (hb : LocalRun P k es before b) : a = b := by
  induction es generalizing before with
  | nil => exact Eq.trans ha (Eq.symm hb)
  | cons e es ih =>
      obtain ⟨mid, hstep, hrest⟩ := ha
      obtain ⟨mid', hstep', hrest'⟩ := hb
      cases localStep_unique hstep hstep'
      exact ih hrest hrest'

theorem localRun_entries {I : Value → Prop}
    (hadm : ∀ item, Admissible P item → I (admitted item))
    (haccessed : ∀ a b, Value.Accessed entryKeys a b → I a → I b) {k : String} {es : List Event}
    {before after : Option (SymbolState N Q)} (hacc : ∀ e ∈ es, e.Accepted P)
    (hrun : LocalRun P k es before after)
    (hbefore : ∀ s, before = some s → ∀ item ∈ s.trades, I item) :
    ∀ s, after = some s → ∀ item ∈ s.trades, I item := by
  induction es generalizing before with
  | nil =>
      rw [show after = before from hrun]
      exact hbefore
  | cons e es ih =>
      obtain ⟨mid, hstep, hrest⟩ := hrun
      exact ih (fun e' he' => hacc e' (by simp [he'])) hrest
        (localStep_entries hadm haccessed (hacc e (by simp)) hstep hbefore)

/-- A completed run accepts every item and is a local run of every symbol. -/
theorem run_eq_ok {es : List Event} {m m' : SymbolMap N Q} (hm : StampedMap m)
    (h : run P es m = .ok () m') :
    StampedMap m' ∧ (∀ e ∈ es, e.Accepted P) ∧
      ∀ k, LocalRun P k es (m.lookup k) (m'.lookup k) := by
  induction es generalizing m with
  | nil =>
      cases h
      exact ⟨hm, by simp, fun _ => rfl⟩
  | cons e es ih =>
      rw [run_cons, seq_eq_ok_iff] at h
      obtain ⟨mid, hhead, htail⟩ := h
      obtain ⟨hacc, hstep⟩ := Event.apply_eq_ok hm hhead
      obtain ⟨hm', haccs, hlocal⟩ := ih (Event.apply_stamped hm hhead) htail
      refine ⟨hm', ?_, fun k => ⟨_, hstep k, hlocal k⟩⟩
      rintro e' he'
      rcases List.mem_cons.mp he' with rfl | he'
      · exact hacc
      · exact haccs e' he'

/-- A run of accepted items that completes for every symbol completes. -/
theorem run_completes {es : List Event} {m : SymbolMap N Q} (hm : StampedMap m)
    (hacc : ∀ e ∈ es, e.Accepted P)
    (hlocal : ∀ k, ∃ after, LocalRun P k es (m.lookup k) after) :
    ∃ m', run P es m = .ok () m' := by
  induction es generalizing m with
  | nil => exact ⟨m, rfl⟩
  | cons e es ih =>
      obtain ⟨mid, hmid⟩ := Event.apply_completes hm (hacc e (by simp)) fun k => by
        obtain ⟨after, b, hstep, _⟩ := hlocal k
        exact ⟨b, hstep⟩
      obtain ⟨_, hstep⟩ := Event.apply_eq_ok hm hmid
      obtain ⟨m', hm'⟩ := ih (Event.apply_stamped hm hmid)
        (fun e' he' => hacc e' (by simp [he'])) fun k => by
          obtain ⟨after, b, hstep', hrest⟩ := hlocal k
          cases localStep_unique hstep' (hstep k)
          exact ⟨after, hrest⟩
      exact ⟨m', by rw [run_cons, bind_of_ok hmid, hm']⟩

/-- What holds of every admitted item and survives accesses holds of the entries
of every reachable map. -/
theorem Reachable.entries {m : SymbolMap N Q} (h : Reachable P m) (I : Value → Prop)
    (hadm : ∀ item, Admissible P item → I (admitted item))
    (haccessed : ∀ a b, Value.Accessed entryKeys a b → I a → I b) :
    ∀ k s, m.lookup k = some s → ∀ item ∈ s.trades, I item := by
  obtain ⟨es, hrun⟩ := h
  obtain ⟨_, hacc, hlocal⟩ := run_eq_ok stampedMap_empty hrun
  intro k
  exact localRun_entries hadm haccessed hacc (hlocal k) (by simp)

/-- Every reachable map has stamped entries only. -/
theorem Reachable.stamped {m : SymbolMap N Q} (h : Reachable P m) : StampedMap m :=
  h.entries Stamped (fun _ => stamped_admitted) fun _ _ hab h => h.accessed hab

end TradeProcessor
