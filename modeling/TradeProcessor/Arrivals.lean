/-
  Arrivals.lean --- the deque of a symbol is front eviction over its arrivals.

  The items of one symbol, each with the cutoff of the iteration that pushed it,
  are the arrivals of the symbol.  The deque after a run is `slideAll` over them:
  the other symbols and the calculators do not show.  What eviction at every
  arrival amounts to, and how it compares with filtering, follows from the
  library.
-/
import TradeProcessor.NonInterference

set_option autoImplicit false

namespace TradeProcessor

open TradeProcessor.Json TradeProcessor.Library

/-! ## Well-formed items -/

/-- The number of an integer value. -/
def Json.Value.integer : Value → Option Int
  | .intValue i => some i.toInt
  | .uintValue n => some n.toNat
  | _ => none

/-- The number of a numeric value. -/
def Json.Value.number : Value → Option ℚ
  | .intValue i => some i.toInt
  | .uintValue n => some n.toNat
  | .realValue x => some x
  | _ => none

/-- A trade as the feed documents it: an object with a string `s`, an integer `t`
and nonnegative numbers `v` and `p`. -/
structure WellFormed (item : Value) : Prop where
  s : ∃ symbol, item.member "s" = .stringValue symbol
  t : ∃ t, (item.member "t").integer = some t
  v : ∃ v, (item.member "v").number = some v ∧ 0 ≤ v
  p : ∃ p, (item.member "p").number = some p ∧ 0 ≤ p

theorem Json.Value.asDouble_of_number {v : Value} {x : ℚ} (h : v.number = some x) :
    v.asDouble = .ok x := by
  cases v <;> simp_all [Value.number, Value.asDouble]

theorem WellFormed.hasMember {item : Value} (h : WellFormed item) {key : String}
    (hkey : key ∈ ["s", "t", "v", "p"]) : item.hasMember key = true := by
  apply Value.hasMember_of_member_ne
  intro hnull
  simp only [List.mem_cons, List.not_mem_nil, or_false] at hkey
  rcases hkey with rfl | rfl | rfl | rfl
  · obtain ⟨_, hs⟩ := h.s
    simp [hnull] at hs
  · obtain ⟨_, ht⟩ := h.t
    simp [hnull, Value.integer] at ht
  · obtain ⟨_, hv, _⟩ := h.v
    simp [hnull, Value.number] at hv
  · obtain ⟨_, hp, _⟩ := h.p
    simp [hnull, Value.number] at hp

/-- Nothing has to be inserted into a well-formed item. -/
theorem WellFormed.admitted_eq {item : Value} (h : WellFormed item) : admitted item = item := by
  rw [admitted, Value.withMember_of_hasMember (h.hasMember (by simp)),
    Value.withMember_of_hasMember (h.hasMember (by simp)),
    Value.withMember_of_hasMember (h.hasMember (by simp))]

/-- Calculators insert nothing into well-formed entries. -/
theorem full_of_wellFormed {trades : List Value} (h : ∀ x ∈ trades, WellFormed x) :
    Full trades := by
  intro x hx key hkey
  simp only [entryKeys, List.mem_cons, List.not_mem_nil, or_false] at hkey
  rcases hkey with rfl | rfl | rfl
  · exact (h x hx).hasMember (by simp)
  · exact (h x hx).hasMember (by simp)
  · exact (h x hx).hasMember (by simp)

/-- The item of the event, if it has one, is well formed. -/
def Event.WellFormed : Event → Prop
  | .ingest item _ => TradeProcessor.WellFormed item
  | .compute => True

theorem wellFormed_feedItem (s : String) (t : Int64) {v p : ℚ} (hv : 0 ≤ v) (hp : 0 ≤ p) :
    WellFormed (feedItem s t v p) where
  s := ⟨s, rfl⟩
  t := ⟨t.toInt, rfl⟩
  v := ⟨v, rfl, hv⟩
  p := ⟨p, rfl, hp⟩

/-! ## Arrivals -/

/-- What an event pushes on the deque of the symbol, and the cutoff it evicts
with. -/
def Event.arrival (P : Platform) (k : String) : Event → Option (Value × Int)
  | .ingest item now =>
      if symbolOf P item = some k then some (admitted item, cutoffMs now) else none
  | .compute => none

/-- The arrivals of a symbol. -/
def arrivals (P : Platform) (k : String) (es : List Event) : List (Value × Int) :=
  es.filterMap (Event.arrival P k)

/-- The items of a symbol in the order they arrived. -/
def arrived (P : Platform) (k : String) (es : List Event) : List Value :=
  (arrivals P k es).map Prod.fst

/-- The clock readings of the iterations. -/
def clockReadings (es : List Event) : List Int :=
  es.filterMap fun e =>
    match e with
    | .ingest _ now => some now
    | .compute => none

/-- The deque of a symbol, empty if the symbol is unknown. -/
def held (o : Option SymbolState) : List Value := (o.getD {}).trades

/-- The tick counters of a symbol, zero if the symbol is unknown. -/
def counted (o : Option SymbolState) : TIState := (o.getD {}).tiState

variable {P : Platform}

/-- A deque that is not empty belongs to a symbol in the map. -/
theorem exists_held {k : String} {m : SymbolMap} (h : held (m.lookup k) ≠ []) :
    ∃ s, m.lookup k = some s ∧ held (m.lookup k) = s.trades := by
  cases hs : m.lookup k with
  | none => simp [hs, held] at h
  | some s => exact ⟨s, rfl, rfl⟩

theorem arrival_ingest {k : String} {item : Value} (now : Int) (hk : symbolOf P item = some k) :
    Event.arrival P k (.ingest item now) = some (admitted item, cutoffMs now) := by
  simp [Event.arrival, hk]

theorem arrivals_concat {k : String} {item : Value} (es : List Event) (now : Int)
    (hk : symbolOf P item = some k) :
    arrivals P k (es ++ [Event.ingest item now]) =
      arrivals P k es ++ [(admitted item, cutoffMs now)] := by
  simp [arrivals, arrival_ingest now hk]

/-- `cutoff_ms` never decreases with the clock. -/
theorem cutoffMs_mono {now now' : Int} (h : now ≤ now') : cutoffMs now ≤ cutoffMs now' := by
  have hle : now - windowSize * 60 * 1000000000 ≤ now' - windowSize * 60 * 1000000000 :=
    Int.sub_le_sub_right h _
  exact Int.tdiv_le_tdiv (by norm_num) hle

/-- From ten minutes after the epoch on, the cutoff is the reading in milliseconds
less the window. -/
theorem cutoffMs_eq {now : Int} (h : windowSize * 60 * 1000000000 ≤ now) :
    cutoffMs now = toMilliseconds now - windowSize * 60 * 1000 := by
  simp only [windowSize] at h ⊢
  simp only [cutoffMs, toMilliseconds, windowSize]
  rw [Int.tdiv_eq_ediv_of_nonneg (by omega), Int.tdiv_eq_ediv_of_nonneg (by omega)]
  omega

/-- With a clock that never goes backwards the cutoffs of a symbol never
decrease. -/
theorem arrivals_cutoffs_sorted {k : String} {es : List Event}
    (hclock : (clockReadings es).Pairwise (· ≤ ·)) :
    (arrivals P k es).Pairwise fun a b => a.2 ≤ b.2 := by
  induction es with
  | nil => exact .nil
  | cons e es ih =>
      cases e with
      | compute => exact ih hclock
      | ingest item now =>
          have hcons : clockReadings (.ingest item now :: es) = now :: clockReadings es := rfl
          rw [hcons, List.pairwise_cons] at hclock
          obtain ⟨hfirst, hrest⟩ := hclock
          rw [arrivals, List.filterMap_cons]
          cases harr : Event.arrival P k (.ingest item now) with
          | none => exact ih hrest
          | some a =>
              simp only [List.pairwise_cons]
              refine ⟨fun b hb => ?_, ih hrest⟩
              obtain ⟨e', he', hb⟩ := List.mem_filterMap.mp hb
              cases e' with
              | compute => simp [Event.arrival] at hb
              | ingest item' now' =>
                  have hnow' : now' ∈ clockReadings es :=
                    List.mem_filterMap.mpr ⟨_, he', rfl⟩
                  simp only [Event.arrival, Option.ite_none_right_eq_some,
                    Option.some.injEq] at harr hb
                  rw [← harr.2, ← hb.2]
                  exact cutoffMs_mono (hfirst now' hnow')

/-! ## The deque of a run -/

/-- The items that arrived are admitted, so they have the members that the debug
line read. -/
theorem mem_arrived {k : String} {es : List Event} {x : Value} (hx : x ∈ arrived P k es) :
    ∃ item now, Event.ingest item now ∈ es ∧ symbolOf P item = some k ∧ x = admitted item := by
  obtain ⟨a, ha, rfl⟩ := List.mem_map.mp hx
  obtain ⟨e, he, hea⟩ := List.mem_filterMap.mp ha
  cases e with
  | compute => simp [Event.arrival] at hea
  | ingest item now =>
      simp only [Event.arrival, Option.ite_none_right_eq_some, Option.some.injEq] at hea
      obtain ⟨hk, rfl⟩ := hea
      exact ⟨item, now, he, hk, rfl⟩

/-- Accepted items that come with a price have all the members that the
calculators read. -/
theorem full_arrived {k : String} {es : List Event} (hacc : ∀ e ∈ es, e.Accepted P)
    (hprice : ∀ x ∈ arrived P k es, x.hasMember "p" = true) : Full (arrived P k es) := by
  intro x hx key hkey
  have hp := hprice x hx
  obtain ⟨item, now, he, _, rfl⟩ := mem_arrived hx
  have hsub : item.subscriptable = true := (hacc _ he).subscriptable
  simp only [entryKeys, List.mem_cons, List.not_mem_nil, or_false] at hkey
  rcases hkey with rfl | rfl | rfl
  · exact hasMember_admitted hsub (by simp)
  · exact hasMember_admitted hsub (by simp)
  · exact hp

theorem arrivals_cons (k : String) (e : Event) (es : List Event) :
    arrivals P k (e :: es) = (e.arrival P k).toList ++ arrivals P k es := by
  rw [arrivals, List.filterMap_cons]
  cases e.arrival P k <;> rfl

/-- An iteration slides the deque by its arrival, if it has one. -/
theorem localStep_held {k : String} {item : Value} {now : Int}
    {before after : Option SymbolState}
    (h : LocalStep P k (.ingest item now) before after) :
    held after =
      ((Event.ingest item now).arrival P k).toList.foldl (slide timeOf) (held before) := by
  simp only [LocalStep] at h
  by_cases hk : symbolOf P item = some k
  · rw [if_pos hk] at h
    rw [h, arrival_ingest now hk]
    rfl
  · rw [if_neg hk] at h
    rw [h, Event.arrival, if_neg hk]
    rfl

/-- Without computations the deque is slid by the arrivals. -/
theorem localRun_held {k : String} {es : List Event} {before after : Option SymbolState}
    (h : LocalRun P k es before after) (hingest : Event.compute ∉ es) :
    held after = slideAll timeOf (held before) (arrivals P k es) := by
  induction es generalizing before with
  | nil =>
      rw [show after = before from h]
      rfl
  | cons e es ih =>
      obtain ⟨mid, hstep, hrest⟩ := h
      rw [List.mem_cons, not_or] at hingest
      cases e with
      | compute => exact absurd rfl hingest.1
      | ingest item now =>
          rw [ih hrest hingest.2, localStep_held hstep, arrivals_cons, slideAll, slideAll,
            List.foldl_append]

theorem timeOf_accessed {keys : List String} {a b : Value} (h : Value.Accessed keys a b) :
    timeOf a = timeOf b := by
  rw [timeOf, timeOf, h.member]

/-- Sliding two deques with the same entries by the same arrivals. -/
theorem sameEntries_slide {trades trades' : List Value} (h : SameEntries trades trades')
    (arrivals : List (Value × Int)) :
    SameEntries (arrivals.foldl (slide timeOf) trades)
      (arrivals.foldl (slide timeOf) trades') := by
  induction arrivals generalizing trades trades' with
  | nil => exact h
  | cons arrival arrivals ih =>
      apply ih
      have hpush : SameEntries (trades ++ [arrival.1]) (trades' ++ [arrival.1]) :=
        List.rel_append h (SameEntries.refl [arrival.1])
      exact forall₂_expire timeOf (fun _ _ hab => timeOf_accessed hab) arrival.2 hpush

/-- With computations in between, the entries are the same up to null members. -/
theorem localRun_sameEntries {k : String} {es : List Event} {before after : Option SymbolState}
    (h : LocalRun P k es before after) :
    SameEntries (slideAll timeOf (held before) (arrivals P k es)) (held after) := by
  induction es generalizing before with
  | nil =>
      rw [show after = before from h]
      exact SameEntries.refl _
  | cons e es ih =>
      obtain ⟨mid, hstep, hrest⟩ := h
      refine SameEntries.trans ?_ (ih hrest)
      rw [arrivals_cons, slideAll, List.foldl_append]
      apply sameEntries_slide
      cases e with
      | ingest item now =>
          rw [localStep_held hstep]
          exact SameEntries.refl _
      | compute =>
          cases before with
          | none =>
              rw [show mid = none from hstep]
              exact SameEntries.refl _
          | some s =>
              obtain ⟨s', hrun, rfl⟩ := hstep
              exact computeSymbol_sameEntries hrun

/-- After a run the deque of a symbol has the entries of its arrivals, evicted from
the front. -/
theorem run_sameEntries {es : List Event} {m : SymbolMap} (h : run P es ∅ = .ok () m)
    (k : String) :
    SameEntries (slideAll timeOf [] (arrivals P k es)) (held (m.lookup k)) := by
  obtain ⟨_, _, hlocal⟩ := run_eq_ok stampedMap_empty h
  exact localRun_sameEntries (hlocal k)

/-- It is these entries, if nothing was computed or nothing had to be inserted. -/
theorem run_held {k : String} {es : List Event} {m : SymbolMap} (h : run P es ∅ = .ok () m)
    (hprice : .compute ∈ es → ∀ x ∈ arrived P k es, x.hasMember "p" = true) :
    held (m.lookup k) = slideAll timeOf [] (arrivals P k es) := by
  obtain ⟨_, hacc, hlocal⟩ := run_eq_ok stampedMap_empty h
  by_cases hcompute : Event.compute ∈ es
  · apply (run_sameEntries h k).eq_of_full
    intro x hx
    exact full_arrived hacc (hprice hcompute) x ((slideAll_suffix timeOf _).subset hx)
  · exact localRun_held (hlocal k) hcompute

/-! ## Eviction at every arrival -/

/-- Incremental eviction is one-shot eviction.  For the arrivals of a symbol, with
cutoff `c` at the last one: the deque is a suffix of the arrived items, it is empty
or has a front that `c` spares, and with cutoffs that never decrease it is what
one pass with `c` leaves of everything that arrived, so that no item that `c`
spares is lost, duplicated or moved. -/
theorem incremental_eviction {k : String} {es : List Event} {m : SymbolMap} {x : Value} {c : Int}
    (h : run P es ∅ = .ok () m)
    (hprice : .compute ∈ es → ∀ x ∈ arrived P k es, x.hasMember "p" = true)
    (hlast : (arrivals P k es).getLast? = some (x, c)) :
    held (m.lookup k) <:+ arrived P k es ∧
    (∀ front, (held (m.lookup k)).head? = some front → c ≤ timeOf front) ∧
    ((arrivals P k es).Pairwise (fun a b => a.2 ≤ b.2) →
      held (m.lookup k) = expire timeOf c (arrived P k es) ∧
      unexpired timeOf c (held (m.lookup k)) = unexpired timeOf c (arrived P k es)) := by
  rw [run_held h hprice]
  refine ⟨slideAll_suffix timeOf _, slideAll_head timeOf hlast, fun hmono => ?_⟩
  have hexpire := slideAll_eq_expire timeOf hmono hlast
  refine ⟨hexpire, ?_⟩
  rw [hexpire]
  exact unexpired_expire timeOf c _

theorem incremental_eviction_sample : ∃ m x, run Platform.listed sampleHistory ∅ = .ok () m ∧
    (arrivals Platform.listed "A" sampleHistory).getLast? = some (x, 1600000) ∧
    held (m.lookup "A") <:+ arrived Platform.listed "A" sampleHistory ∧
    (∀ front, (held (m.lookup "A")).head? = some front → 1600000 ≤ timeOf front) ∧
    ((arrivals Platform.listed "A" sampleHistory).Pairwise (fun a b => a.2 ≤ b.2) →
      held (m.lookup "A") = expire timeOf 1600000 (arrived Platform.listed "A" sampleHistory) ∧
      unexpired timeOf 1600000 (held (m.lookup "A")) =
        unexpired timeOf 1600000 (arrived Platform.listed "A" sampleHistory)) := by
  obtain ⟨m, hrun⟩ := sampleHistory_run
  have hlast : (arrivals Platform.listed "A" sampleHistory).getLast? =
      some (admitted (feedItem "A" 1900000 3 11), 1600000) := by rfl
  have hprice : ∀ x ∈ arrived Platform.listed "A" sampleHistory, x.hasMember "p" = true := by
    decide +kernel
  exact ⟨m, _, hrun, hlast, incremental_eviction hrun (fun _ => hprice) hlast⟩

/-! ## Eviction against filtering -/

theorem hasMember_of_wellFormed {k : String} {es : List Event}
    (hwf : ∀ e ∈ es, e.WellFormed) : ∀ x ∈ arrived P k es, x.hasMember "p" = true := by
  intro x hx
  obtain ⟨item, now, he, _, rfl⟩ := mem_arrived hx
  have hitem : WellFormed item := hwf _ he
  rw [hitem.admitted_eq]
  exact hitem.hasMember (by simp)

/-- The window at ingest.  Right after an iteration for a symbol, with a clock that
never goes backwards, its deque is what arrived from the first unexpired trade on.
No unexpired trade was dropped, and no expired one remains exactly when none
arrived behind an unexpired one, as when the trades arrive in the order of their
times. -/
theorem window_at_ingest {k : String} {es : List Event} {item : Value} {now : Int}
    {m : SymbolMap} (hlast : es.getLast? = some (.ingest item now))
    (hk : symbolOf P item = some k) (h : run P es ∅ = .ok () m)
    (hwf : ∀ e ∈ es, e.WellFormed) (hclock : (clockReadings es).Pairwise (· ≤ ·)) :
    held (m.lookup k) = expire timeOf (cutoffMs now) (arrived P k es) ∧
    unexpired timeOf (cutoffMs now) (held (m.lookup k)) =
      unexpired timeOf (cutoffMs now) (arrived P k es) ∧
    (held (m.lookup k) = unexpired timeOf (cutoffMs now) (arrived P k es) ↔
      (arrived P k es).Pairwise fun x y => cutoffMs now ≤ timeOf x → cutoffMs now ≤ timeOf y) ∧
    ((arrived P k es).Pairwise (fun x y => timeOf x ≤ timeOf y) →
      held (m.lookup k) = unexpired timeOf (cutoffMs now) (arrived P k es)) ∧
    (windowSize * 60 * 1000000000 ≤ now →
      cutoffMs now = toMilliseconds now - windowSize * 60 * 1000) := by
  have harrival : (arrivals P k es).getLast? = some (admitted item, cutoffMs now) := by
    obtain ⟨earlier, rfl⟩ := List.getLast?_eq_some_iff.mp hlast
    rw [arrivals_concat earlier now hk]
    simp
  have hheld : held (m.lookup k) = expire timeOf (cutoffMs now) (arrived P k es) := by
    rw [run_held h fun _ => hasMember_of_wellFormed hwf]
    exact slideAll_eq_expire timeOf (arrivals_cutoffs_sorted hclock) harrival
  rw [hheld]
  exact ⟨rfl, unexpired_expire timeOf _ _, expire_eq_unexpired_iff timeOf _ _,
    expire_eq_unexpired_of_sorted timeOf, cutoffMs_eq⟩

/-- Two trades of `A` under one clock reading, the second one already expired. -/
def shieldedHistory : List Event :=
  [.ingest (feedItem "A" 1500000 1 10) 2000000000000,
    .ingest (feedItem "A" 1300000 1 10) 2000000000000]

theorem shieldedHistory_run : ∃ m, run Platform.listed shieldedHistory ∅ = .ok () m := by
  have hcompletes : Completes (run Platform.listed shieldedHistory) ∅ := by decide +kernel
  obtain ⟨_, m, hrun⟩ := hcompletes
  exact ⟨m, hrun⟩

theorem shieldedHistory_wellFormed : ∀ e ∈ shieldedHistory, e.WellFormed := by
  intro e he
  simp only [shieldedHistory, List.mem_cons, List.not_mem_nil, or_false] at he
  rcases he with rfl | rfl
  · exact wellFormed_feedItem "A" _ (by norm_num) (by norm_num)
  · exact wellFormed_feedItem "A" _ (by norm_num) (by norm_num)

/-- The expired trade stays behind the fresh one. -/
theorem expired_trade_shielded : ∃ m, run Platform.listed shieldedHistory ∅ = .ok () m ∧
    (∀ e ∈ shieldedHistory, e.WellFormed) ∧
    (clockReadings shieldedHistory).Pairwise (· ≤ ·) ∧
    held (m.lookup "A") ≠
      unexpired timeOf (cutoffMs 2000000000000)
        (arrived Platform.listed "A" shieldedHistory) := by
  obtain ⟨m, hrun⟩ := shieldedHistory_run
  refine ⟨m, hrun, shieldedHistory_wellFormed, by decide, fun heq => ?_⟩
  rw [run_held hrun fun _ => hasMember_of_wellFormed shieldedHistory_wellFormed] at heq
  have hlength : (slideAll timeOf [] (arrivals Platform.listed "A" shieldedHistory)).length ≠
      (unexpired timeOf (cutoffMs 2000000000000)
        (arrived Platform.listed "A" shieldedHistory)).length := by decide +kernel
  exact hlength (congrArg List.length heq)

theorem window_at_ingest_shielded : ∃ m, run Platform.listed shieldedHistory ∅ = .ok () m ∧
    held (m.lookup "A") = arrived Platform.listed "A" shieldedHistory := by
  obtain ⟨m, hrun⟩ := shieldedHistory_run
  have hk : symbolOf Platform.listed (feedItem "A" 1300000 1 10) = some "A" := by decide +kernel
  have hlast : shieldedHistory.getLast? =
      some (.ingest (feedItem "A" 1300000 1 10) 2000000000000) := rfl
  obtain ⟨hheld, _⟩ := window_at_ingest hlast hk hrun shieldedHistory_wellFormed (by decide)
  refine ⟨m, hrun, ?_⟩
  rw [hheld]
  rfl

end TradeProcessor
