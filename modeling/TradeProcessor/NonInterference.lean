/-
  NonInterference.lean --- symbols do not interfere.

  One tuple of calculators serves all symbols and `computeFeatures` walks over all
  of them, so nothing in the text of the program keeps two symbols apart.  They
  are apart because a run is a family of local runs: the events of other symbols
  can be deleted, and the streams of different symbols can be merged in any way.

  This is so as long as nothing raises.  An exception ends the program for all
  symbols, whichever symbol it came from.
-/
import TradeProcessor.Runs

set_option autoImplicit false

namespace TradeProcessor

open TradeProcessor.Json TradeProcessor.Library

/-- The event concerns the symbol: every `computeFeatures` does, an item does if
it is one of the symbol's. -/
def Event.concerns (P : Platform) (k : String) : Event → Bool
  | .ingest item _ => symbolOf P item = some k
  | .compute => true

/-- The item of the event, if it has one, belongs to some symbol. -/
def Event.sorted (P : Platform) : Event → Bool
  | .ingest item _ => (symbolOf P item).isSome
  | .compute => true

/-- A history with the items of all other symbols deleted. -/
def projection (P : Platform) (k : String) (es : List Event) : List Event :=
  es.filter (Event.concerns P k)

variable {P : Platform}

/-! ## Projections of a local run -/

/-- An event of another symbol leaves the state of this one alone. -/
theorem localStep_of_not_concerns {k : String} {e : Event} {before after : Option SymbolState}
    (he : e.concerns P k = false) : LocalStep P k e before after ↔ after = before := by
  cases e with
  | ingest item now =>
      have hk : ¬ symbolOf P item = some k := by simpa [Event.concerns] using he
      simp [LocalStep, hk]
  | compute => simp [Event.concerns] at he

/-- A symbol sees a history through its projection. -/
theorem localRun_projection_iff {k : String} {es : List Event}
    {before after : Option SymbolState} :
    LocalRun P k (projection P k es) before after ↔ LocalRun P k es before after := by
  induction es generalizing before with
  | nil => exact Iff.rfl
  | cons e es ih =>
      cases he : e.concerns P k with
      | true =>
          rw [projection, List.filter_cons_of_pos he]
          simp only [LocalRun]
          exact exists_congr fun mid => and_congr Iff.rfl ih
      | false =>
          rw [projection, List.filter_cons_of_neg (by simp [he]), ← projection, ih]
          constructor
          · intro h
            exact ⟨before, (localStep_of_not_concerns he).mpr rfl, h⟩
          · rintro ⟨mid, hstep, h⟩
            rw [(localStep_of_not_concerns he).mp hstep] at h
            exact h

/-- Computations alone do not create a symbol. -/
theorem localStep_none {k : String} {e : Event} (he : e.concerns P k = true → e = .compute) :
    LocalStep P k e none none := by
  cases hc : e.concerns P k with
  | true =>
      rw [he hc]
      rfl
  | false => exact (localStep_of_not_concerns hc).mpr rfl

theorem localRun_none {k : String} {es : List Event}
    (hes : ∀ e ∈ es, e.concerns P k = true → e = .compute) : LocalRun P k es none none := by
  induction es with
  | nil => rfl
  | cons e es ih =>
      exact ⟨none, localStep_none (hes e (by simp)), ih fun e' he' => hes e' (by simp [he'])⟩

/-- In the projection to one symbol, another symbol has no item. -/
theorem eq_compute_of_mem_projection {j k : String} (hjk : j ≠ k) {es : List Event} {e : Event}
    (he : e ∈ projection P k es) (hj : e.concerns P j = true) : e = .compute := by
  have hk : e.concerns P k = true := (List.mem_filter.mp he).2
  cases e with
  | ingest item now =>
      simp only [Event.concerns, decide_eq_true_eq] at hj hk
      rw [hj] at hk
      exact absurd (Option.some.inj hk) hjk
  | compute => rfl

/-! ## Deleting and merging streams -/

/-- Without the items of the other symbols, the run completes with the same state
of the symbol. -/
theorem run_projection {es : List Event} {m : SymbolMap} (h : run P es ∅ = .ok () m)
    (k : String) : ∃ m', run P (projection P k es) ∅ = .ok () m' ∧ m'.lookup k = m.lookup k := by
  obtain ⟨_, hacc, hlocal⟩ := run_eq_ok stampedMap_empty h
  have hproj : LocalRun P k (projection P k es) none (m.lookup k) :=
    localRun_projection_iff.mpr (hlocal k)
  have hruns : ∃ m', run P (projection P k es) ∅ = .ok () m' := by
    apply run_completes stampedMap_empty
    · intro e he
      exact hacc e (List.mem_filter.mp he).1
    · intro j
      by_cases hjk : j = k
      · subst hjk
        exact ⟨_, hproj⟩
      · exact ⟨none, localRun_none fun e he => eq_compute_of_mem_projection hjk he⟩
  obtain ⟨m', hm'⟩ := hruns
  refine ⟨m', hm', ?_⟩
  obtain ⟨_, _, hlocal'⟩ := run_eq_ok stampedMap_empty hm'
  exact localRun_unique (hlocal' k) hproj

/-- A history whose items all belong to symbols and which has the projections of
an accepted history is accepted. -/
theorem accepted_of_projection_eq {es es' : List Event} (hacc : ∀ e ∈ es, e.Accepted P)
    (heq : ∀ k, projection P k es' = projection P k es)
    (hsorted : ∀ e ∈ es', e.sorted P = true) : ∀ e ∈ es', e.Accepted P := by
  intro e he
  cases e with
  | ingest item now =>
      obtain ⟨k, hk⟩ := Option.isSome_iff_exists.mp (hsorted _ he)
      have hmem : Event.ingest item now ∈ projection P k es' :=
        List.mem_filter.mpr ⟨he, by simp [Event.concerns, hk]⟩
      rw [heq k] at hmem
      exact hacc _ (List.mem_filter.mp hmem).1
  | compute => trivial

/-- A merge of the same streams around the same computations completes with the
same map. -/
theorem run_merge {es es' : List Event} {m : SymbolMap} (h : run P es ∅ = .ok () m)
    (heq : ∀ k, projection P k es' = projection P k es)
    (hsorted : ∀ e ∈ es', e.sorted P = true) :
    ∃ m', run P es' ∅ = .ok () m' ∧ ∀ k, m'.lookup k = m.lookup k := by
  obtain ⟨_, hacc, hlocal⟩ := run_eq_ok stampedMap_empty h
  have hlocal' : ∀ k, LocalRun P k es' none (m.lookup k) := by
    intro k
    rw [← localRun_projection_iff, heq k, localRun_projection_iff]
    exact hlocal k
  obtain ⟨m', hm'⟩ := run_completes stampedMap_empty
    (accepted_of_projection_eq hacc heq hsorted) fun k => ⟨_, hlocal' k⟩
  obtain ⟨_, _, hrun'⟩ := run_eq_ok stampedMap_empty hm'
  exact ⟨m', hm', fun k => localRun_unique (hrun' k) (hlocal' k)⟩

/-- Per-symbol non-interference of a run that completes: a symbol ends as in the run
without the items of the others, and the map does not depend on how the streams are
interleaved. -/
theorem noninterference {es : List Event} {m : SymbolMap} (h : run P es ∅ = .ok () m) :
    (∀ k, ∃ m', run P (projection P k es) ∅ = .ok () m' ∧ m'.lookup k = m.lookup k) ∧
    ∀ es', (∀ k, projection P k es' = projection P k es) →
      (∀ e ∈ es', e.sorted P = true) →
      ∃ m', run P es' ∅ = .ok () m' ∧ ∀ k, m'.lookup k = m.lookup k :=
  ⟨run_projection h, fun _ heq hsorted => run_merge h heq hsorted⟩

/-- The trade of `B` neither shows in the state of `A` nor matters when it comes
later. -/
theorem noninterference_sample : ∃ m, run Platform.listed sampleHistory ∅ = .ok () m ∧
    (∀ k, ∃ m', run Platform.listed (projection Platform.listed k sampleHistory) ∅ = .ok () m' ∧
      m'.lookup k = m.lookup k) ∧
    ∀ es', (∀ k, projection Platform.listed k es' = projection Platform.listed k sampleHistory) →
      (∀ e ∈ es', e.sorted Platform.listed = true) →
      ∃ m', run Platform.listed es' ∅ = .ok () m' ∧ ∀ k, m'.lookup k = m.lookup k := by
  obtain ⟨m, hrun⟩ := sampleHistory_run
  exact ⟨m, hrun, noninterference hrun⟩

/-! ## A run that raises -/

/-- The map that a run leaves, also where it raises. -/
def mapLeft : EStateM.Result Fault SymbolMap Unit → SymbolMap
  | .ok _ m | .error _ m => m

/-- A trade of `A`, one of `B` whose volume is no `int64`, and a computation. -/
def raisingHistory : List Event :=
  [.ingest (feedItem "A" 1900000 2 10) 2000000000000,
    .ingest (feedItem "B" 1900000 10000000000000000000 10) 2000000000000,
    .compute]

/-- The trade of `B` keeps the features of `A` from being computed. -/
theorem interference_of_raise : ∃ s s', ¬ Completes (run Platform.listed raisingHistory) ∅ ∧
    (mapLeft (run Platform.listed raisingHistory ∅)).lookup "A" = some s ∧
    (mapLeft
      (run Platform.listed (projection Platform.listed "A" raisingHistory) ∅)).lookup "A" =
      some s' ∧
    s.features.vol = 0 ∧ s'.features.vol = 2 := by
  have hleft : ((mapLeft (run Platform.listed raisingHistory ∅)).lookup "A").map
      (·.features.vol) = some 0 := by decide +kernel
  have hprojection : ((mapLeft (run Platform.listed
      (projection Platform.listed "A" raisingHistory) ∅)).lookup "A").map
      (·.features.vol) = some 2 := by decide +kernel
  have hraises : ¬ Completes (run Platform.listed raisingHistory) ∅ := by decide +kernel
  obtain ⟨s, hs, hvol⟩ := Option.map_eq_some_iff.mp hleft
  obtain ⟨s', hs', hvol'⟩ := Option.map_eq_some_iff.mp hprojection
  exact ⟨s, s', hraises, hs, hs', hvol, hvol'⟩

end TradeProcessor
