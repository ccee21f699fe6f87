/-
  TickCounters.lean --- how far the tick counters come.

  The counters are `int`s, and no reset brings them back, so the number that has
  to fit is not the number of ticks in one window but the number of ticks in all
  windows that `computeFeatures` has gone over.  The ledger of a symbol is that
  number.
-/
import TradeProcessor.Entries
import TradeProcessor.History

set_option autoImplicit false

namespace TradeProcessor

open TradeProcessor.Json TradeProcessor.Library

/-- In every call of `computeFeatures` in the run, at every entry that has a
neighbour to look back at, the computations in `int` fit, and the sum is positive
as soon as a tick has been counted. -/
def TicksFit (P : Platform) (es : List Event) : Prop :=
  ∀ es₁ es₂ m k s i s', es = es₁ ++ .compute :: es₂ → run P es₁ ∅ = .ok () m →
    m.lookup k = some s → 0 < i → AtEntry s .tickImbalanceCalc i s' →
    s'.tiState.FitsInt ∧ (s'.tiState.upticks ≠ 0 ∨ s'.tiState.downticks ≠ 0 →
      s'.tiState.upticks + s'.tiState.downticks > 0)

variable {P : Platform} {k : String} {es : List Event} {m : SymbolMap} {s : SymbolState}

/-! ## What a ledger holds -/

/-- The window and the counters of a symbol after a run. -/
theorem run_window (h : run P es ∅ = .ok () m) (hk : m.lookup k = some s) :
    windowOf s.trades = windowOf (ledger P k es).1 ∧ s.tiState = (ledger P k es).2 := by
  have hentries := run_sameEntries h k
  have hcounted := run_counted (k := k) h
  rw [hk, ← ledger_fst] at hentries
  rw [hk] at hcounted
  exact ⟨hentries.windowOf_eq, hcounted⟩

theorem ledger_compute (k : String) (es : List Event) :
    ledger P k (es ++ [.compute]) =
      ((ledger P k es).1, Window.countTicks (ledger P k es).2 (windowOf (ledger P k es).1)) :=
  ledger_concat k es .compute

/-- An event never takes a tick out of a ledger. -/
theorem total_ledger_le (k : String) (es es' : List Event) :
    (ledger P k es).2.total ≤ (ledger P k (es ++ es')).2.total := by
  induction es' using List.reverseRecOn with
  | nil => rw [List.append_nil]
  | append_singleton es' e ih =>
      rw [← List.append_assoc, ledger_concat]
      refine ih.trans ?_
      cases e with
      | ingest item now => exact le_rfl
      | compute =>
          simp only [Event.tick, Window.countTicks, TIState.total]
          omega

/-- A symbol that is not in the map has an empty window. -/
theorem ledger_of_none (h : run P es ∅ = .ok () m) (hk : m.lookup k = none) :
    (ledger P k es).1 = [] := by
  have hentries := run_sameEntries h k
  rw [hk, ← ledger_fst] at hentries
  exact List.forall₂_nil_right_iff.mp hentries

/-! ## The ledger bounds the counters -/

/-- The counters at an entry, in terms of the ledger of the run before the call. -/
theorem tiState_of_atEntry {i : Nat} {s' : SymbolState} (h : run P es ∅ = .ok () m)
    (hk : m.lookup k = some s) (hentry : AtEntry s .tickImbalanceCalc i s') :
    s'.tiState = Window.countTicks (ledger P k es).2
      ((windowOf (ledger P k es).1).take (i + 1)) := by
  obtain ⟨w, hreads⟩ := hentry.readable
  obtain ⟨hwindow, hcounters⟩ := run_window h hk
  rw [(hentry.tiState hreads).2, foldl_tickStep_rat, hreads.eq_windowOf, hwindow, hcounters]

/-- A ledger that fits keeps every computation of every call in range. -/
theorem ticksFit_of_total_le (hle : ∀ k, (ledger P k es).2.total ≤ 2 ^ 31 - 1) :
    TicksFit P es := by
  intro es₁ es₂ m₁ k s i s' hes hrun hk _ hentry
  have hstate := tiState_of_atEntry hrun hk hentry
  obtain ⟨hup, hdown⟩ := ledger_nonneg (P := P) k es₁
  obtain ⟨hupTake, hdownTake⟩ :=
    Window.countTicks_take_le (ledger P k es₁).2 (windowOf (ledger P k es₁).1) (i + 1)
  have hcall : (ledger P k (es₁ ++ [.compute])).2.total ≤ 2 ^ 31 - 1 := by
    have hgrow := total_ledger_le (P := P) k (es₁ ++ [.compute]) es₂
    rw [List.append_assoc, List.singleton_append, ← hes] at hgrow
    exact hgrow.trans (hle k)
  rw [ledger_compute] at hcall
  have hup' : 0 ≤ s'.tiState.upticks := by
    rw [hstate]
    simp only [Window.countTicks]
    omega
  have hdown' : 0 ≤ s'.tiState.downticks := by
    rw [hstate]
    simp only [Window.countTicks]
    omega
  refine ⟨(TIState.fitsInt_iff hup' hdown').mpr ?_, fun _ => by omega⟩
  rw [hstate]
  simp only [TIState.total] at hcall ⊢
  omega

/-- The last entry of the last call has counted the whole ledger. -/
theorem total_le_of_ticksFit (h : run P es ∅ = .ok () m) (hfit : TicksFit P es) (k : String) :
    (ledger P k es).2.total ≤ 2 ^ 31 - 1 := by
  induction es using List.reverseRecOn generalizing m with
  | nil => simp [ledger, TIState.total]
  | append_singleton es e ih =>
      obtain ⟨mid, hrun, hlast⟩ := run_append_eq_ok_iff.mp h
      have hprefix : (ledger P k es).2.total ≤ 2 ^ 31 - 1 := by
        apply ih hrun
        intro es₁ es₂ m₁ j s i s' hes
        exact hfit es₁ (es₂ ++ [e]) m₁ j s i s' (by rw [hes, List.append_assoc]; rfl)
      cases e with
      | ingest item now =>
          rw [ledger_concat]
          exact hprefix
      | compute =>
          rw [ledger_compute]
          rcases lt_or_ge (windowOf (ledger P k es).1).length 2 with hshort | hlong
          · rw [Window.countTicks_of_length_lt _ hshort]
            exact hprefix
          · cases hk : mid.lookup k with
            | none =>
                rw [ledger_of_none hrun hk] at hlong
                simp [windowOf] at hlong
            | some s =>
                rw [run_singleton_eq_ok_iff] at hlast
                have hact := computeFeatures_eq_ok hlast k
                rw [hk] at hact
                obtain ⟨_, hcompute, _⟩ := hact
                obtain ⟨w, hreads⟩ := readable_of_computeSymbol hcompute
                have hw : w = windowOf (ledger P k es).1 := by
                  rw [hreads.eq_windowOf, (run_window hrun hk).1]
                rw [← hw] at hlong ⊢
                obtain ⟨s', hentry⟩ :=
                  exists_atEntry .tickImbalanceCalc hreads (i := w.length - 1) (by omega)
                have hfits := (hfit es [] mid k s _ s' rfl hrun hk (by omega) hentry).1
                have hstate := tiState_of_atEntry hrun hk hentry
                rw [← hw, List.take_of_length_le (by omega)] at hstate
                rw [← hstate]
                exact hfits.sum.2

/-- A run over well-formed items followed by calls only. -/
theorem run_computes (h : run P es ∅ = .ok () m) (hwf : ∀ e ∈ es, e.WellFormed) (n : Nat) :
    ∃ m', run P (es ++ List.replicate n .compute) ∅ = .ok () m' ∧
      ∀ e ∈ es ++ List.replicate n .compute, e.WellFormed := by
  induction n with
  | zero => exact ⟨m, by simpa using h, by simpa using hwf⟩
  | succ n ih =>
      obtain ⟨mid, hmid, hwf'⟩ := ih
      obtain ⟨m', hm', _⟩ := computeFeatures_after_run hmid hwf'
      refine ⟨m', ?_, ?_⟩
      · rw [List.replicate_succ', ← List.append_assoc, run_append_eq_ok_iff]
        exact ⟨mid, hmid, run_singleton_eq_ok_iff.mpr hm'⟩
      · intro e he
        rcases List.mem_append.mp he with he | he
        · exact hwf e he
        · rw [List.eq_of_mem_replicate he]
          trivial

/-- Each call enters the ticks of the window once more. -/
theorem ledger_computes (k : String) (es : List Event) (n : Nat) :
    (ledger P k (es ++ List.replicate n .compute)).1 = (ledger P k es).1 ∧
      (ledger P k (es ++ List.replicate n .compute)).2.upticks =
        (ledger P k es).2.upticks + n * Window.upticks (windowOf (ledger P k es).1) := by
  induction n with
  | zero => simp
  | succ n ih =>
      rw [List.replicate_succ', ← List.append_assoc, ledger_compute]
      obtain ⟨hdeque, hup⟩ := ih
      refine ⟨hdeque, ?_⟩
      simp only [Window.countTicks, hdeque, hup]
      push_cast
      ring

/-- Calls bring no arrivals. -/
theorem arrivals_computes (k : String) (es : List Event) (n : Nat) :
    arrivals P k (es ++ List.replicate n .compute) = arrivals P k es := by
  unfold arrivals
  rw [List.filterMap_append, List.filterMap_replicate]
  simp [Event.arrival]

theorem length_arrivals_le_append (k : String) (es₁ es₂ : List Event) :
    (arrivals P k es₁).length ≤ (arrivals P k (es₁ ++ es₂)).length := by
  unfold arrivals
  rw [List.filterMap_append, List.length_append]
  exact Nat.le_add_right _ _

/-- A deque is no longer than what has arrived for it. -/
theorem length_trades_le_arrivals {k : String} {s : SymbolState} (h : run P es ∅ = .ok () m)
    (hwf : ∀ e ∈ es, e.WellFormed) (hk : m.lookup k = some s) :
    s.trades.length ≤ (arrivals P k es).length := by
  have hheld := run_held (k := k) h fun _ => hasMember_of_wellFormed hwf
  rw [hk] at hheld
  have hsuffix := (slideAll_suffix timeOf (arrivals P k es)).length_le
  rw [List.length_map] at hsuffix
  calc s.trades.length = (slideAll timeOf [] (arrivals P k es)).length :=
    congrArg List.length hheld
    _ ≤ (arrivals P k es).length := hsuffix

/-- Two trades of `A`, the second one dearer. -/
def oneTick : List Event :=
  [.ingest (feedItem "A" 1900000 1 10) 2000000000000,
    .ingest (feedItem "A" 1900001 1 11) 2000000000000]

theorem oneTick_wellFormed : ∀ e ∈ oneTick, e.WellFormed := by
  intro e he
  simp only [oneTick, List.mem_cons, List.not_mem_nil, or_false] at he
  rcases he with rfl | rfl
  · exact wellFormed_feedItem "A" _ (by norm_num) (by norm_num)
  · exact wellFormed_feedItem "A" _ (by norm_num) (by norm_num)

/-- As many calls over a window of two trades as an `int` cannot count. -/
theorem not_ticksFit_of_computes {n : Nat} (hn : 2 ^ 31 ≤ n) :
    ∃ m, run Platform.listed (oneTick ++ List.replicate n .compute) ∅ = .ok () m ∧
      (∀ e ∈ oneTick ++ List.replicate n .compute, e.WellFormed) ∧
      (∀ es₁ es₂ m₁ k s, oneTick ++ List.replicate n .compute = es₁ ++ .compute :: es₂ →
        run Platform.listed es₁ ∅ = .ok () m₁ → m₁.lookup k = some s →
        s.trades.length < 2 ^ 31) ∧
      ¬ TicksFit Platform.listed (oneTick ++ List.replicate n .compute) := by
  have hcompletes : Completes (run Platform.listed oneTick) ∅ := by decide +kernel
  obtain ⟨_, m₀, hrun₀⟩ := hcompletes
  obtain ⟨m, hrun, hwf⟩ := run_computes hrun₀ oneTick_wellFormed n
  refine ⟨m, hrun, hwf, fun es₁ es₂ m₁ k s hes hrun₁ hk => ?_, fun hfit => ?_⟩
  · -- At most two items have ever arrived.
    have hwf₁ : ∀ e ∈ es₁, e.WellFormed := fun e he => hwf e (by rw [hes]; simp [he])
    have htrades := length_trades_le_arrivals hrun₁ hwf₁ hk
    have harrivals := length_arrivals_le_append (P := Platform.listed) k es₁ (.compute :: es₂)
    rw [← hes, arrivals_computes] at harrivals
    have htwo : (arrivals Platform.listed k oneTick).length ≤ oneTick.length :=
      List.length_filterMap_le _ _
    have hlength : oneTick.length = 2 := rfl
    omega
  · have hle := total_le_of_ticksFit hrun hfit "A"
    have hup := (ledger_computes (P := Platform.listed) "A" oneTick n).2
    have hone : Window.upticks (windowOf (ledger Platform.listed "A" oneTick).1) = 1 := by
      decide +kernel
    have hzero : (ledger Platform.listed "A" oneTick).2.upticks = 0 := by decide +kernel
    obtain ⟨_, hdown⟩ :=
      ledger_nonneg (P := Platform.listed) "A" (oneTick ++ List.replicate n .compute)
    rw [hone, hzero] at hup
    unfold TIState.total at hle
    omega

end TradeProcessor
