/-
  Differences.lean --- the time differences that `computeFeatures` takes in int64.

  `MaxTimeGapCalc` subtracts the previous time at every entry, before it looks at
  whether there is one; `TradespersecCalc` subtracts the time of the front from the
  time of the back.  Eviction stops at the first trade that is fresh, so the front
  of a deque has a time that is not negative, and the trades behind it have any.
-/
import TradeProcessor.Entries
import TradeProcessor.Admission

set_option autoImplicit false

namespace TradeProcessor

open TradeProcessor.Json TradeProcessor.Library
open SymbolState (access)

/-! ## The difference of an entry -/

/-- `ts - s.maxGapState.prevTime`, at the entry. -/
def MaxTimeGapCalc.difference (entry : Nat) (s : SymbolState) : Option Int :=
  s.trades[entry]?.map fun item => timeOf item - s.maxGapState.prevTime

/-- `s.trades.back()["t"].asInt64() - s.trades.front()["t"].asInt64()`. -/
def TradespersecCalc.difference (s : SymbolState) : Option Int :=
  match s.trades.getLast?, s.trades.head? with
  | some back, some front => some (timeOf back - timeOf front)
  | _, _ => none

/-- The difference that a calculator takes at an entry, in the state that it finds. -/
def CalcType.difference (entry : Nat) (s : SymbolState) : CalcType → Option Int
  | maxTimeGapCalc => MaxTimeGapCalc.difference entry s
  | tradespersecCalc => TradespersecCalc.difference s
  | volumeCalc | weightedAvgPriceCalc | maxPriceCalc | tickImbalanceCalc => none

variable {s s' : SymbolState} {entry i : Nat}

/-- The entry works with this difference. -/
theorem MaxTimeGapCalc.uses_difference (h : processEntry entry s = .ok () s') :
    ∃ d, difference entry s = some d ∧
      s'.features.maxGap =
        if (d : ℚ) > s.features.maxGap ∧ s.maxGapState.prevTime > 0 then (d : ℚ)
        else s.features.maxGap := by
  rw [processEntry, bind_eq_ok_iff] at h
  obtain ⟨ts, s₁, hread, hwrite⟩ := h
  obtain ⟨item, item', hitem, hok, rfl⟩ := SymbolState.access_eq_ok_iff.mp hread
  obtain ⟨_, hts, rfl⟩ := Value.readInt64_eq_ok_iff.mp hok
  rw [modify_apply] at hwrite
  cases hwrite
  refine ⟨ts - s.maxGapState.prevTime, ?_, ?_⟩
  · rw [difference, hitem, Option.map_some, timeOf_eq hts]
  · simp only [double_rat, long_rat]
    split <;> rfl

/-- So does an entry of a deque that is not empty. -/
theorem TradespersecCalc.uses_difference (hne : s.trades ≠ [])
    (h : processEntry entry s = .ok () s') :
    ∃ d, difference s = some d ∧
      s'.features.tps =
        if s.trades.length = 1 ∨ (d : ℚ) = 0 then 0 else s.trades.length / (d : ℚ) * 1000 := by
  have hsize : s.trades.length ≠ 0 := by simpa using hne
  rw [processEntry, bind_of_ok (get_apply s), if_neg hsize, bind_eq_ok_iff] at h
  obtain ⟨back, s₁, hback, h⟩ := h
  rw [bind_eq_ok_iff] at h
  obtain ⟨front, s₂, hfront, hwrite⟩ := h
  rw [modify_apply] at hwrite
  cases hwrite
  obtain ⟨backItem, _, hbackItem, hbackRead, rfl⟩ := SymbolState.access_eq_ok_iff.mp hback
  obtain ⟨_, hbackTime, rfl⟩ := Value.readInt64_eq_ok_iff.mp hbackRead
  obtain ⟨frontItem', _, hfrontItem', hfrontRead, rfl⟩ :=
    SymbolState.access_eq_ok_iff.mp hfront
  obtain ⟨_, hfrontTime, rfl⟩ := Value.readInt64_eq_ok_iff.mp hfrontRead
  -- The read of the back may have put a null member into the front.
  have hsame : SameEntries s.trades
      (s.trades.set (s.trades.length - 1) (backItem.withMember "t")) :=
    sameEntries_set (SameEntries.refl _) hbackItem (by simp [entryKeys])
  obtain ⟨frontItem, hfrontItem, hacc⟩ := forall₂_getElem? (List.Forall₂.flip hsame) hfrontItem'
  have htime : timeOf frontItem = front := (timeOf_accessed hacc).trans (timeOf_eq hfrontTime)
  refine ⟨back - front, ?_, rfl⟩
  rw [difference, List.getLast?_eq_getElem?, List.head?_eq_getElem?, hbackItem, hfrontItem]
  simp only [timeOf_eq hbackTime, htime]

/-! ## On the way to an entry -/

/-- While `computeFeatures` works on a symbol in the state `s`, the calculator `c` is about
to process the entry `i` and finds `s'`. -/
def EntersEntry (s : SymbolState) (c : CalcType) (i : Nat) (s' : SymbolState) : Prop :=
  ∃ mid, passes c.before s.resetFeatures = .ok () mid ∧ i < mid.trades.length ∧
    forRange i c.processEntry mid = .ok () s'

theorem EntersEntry.sameEntries {c : CalcType} (h : EntersEntry s c i s') :
    SameEntries s.trades s'.trades := by
  obtain ⟨mid, hbefore, _, hentries⟩ := h
  exact (passes_sameEntries hbefore).trans (c.entries_sameEntries hentries)

/-- The previous time at an entry of a pass that starts from no time. -/
def previousTime (times : List Int) : Nat → Int
  | 0 => 0
  | i + 1 => times[i]?.getD 0

theorem previousTime_succ {trades : List Value} {item : Value} (hitem : trades[i]? = some item) :
    previousTime (trades.map timeOf) (i + 1) = timeOf item := by
  simp [previousTime, hitem]

/-- Over entries whose times convert, the time gap pass comes to every entry, with the
time of the entry before. -/
theorem MaxTimeGapCalc.entries_previousTime (htime : ∀ item ∈ s.trades, HasTime item)
    (hstart : s.maxGapState = {}) (hi : i ≤ s.trades.length) :
    ∃ s', forRange i processEntry s = .ok () s' ∧ SameEntries s.trades s'.trades ∧
      s'.maxGapState.prevTime = previousTime (s.trades.map timeOf) i := by
  refine forRange_ok (fun i (s' : SymbolState) => SameEntries s.trades s'.trades ∧
    s'.maxGapState.prevTime = previousTime (s.trades.map timeOf) i) i processEntry (s := s)
    ⟨SameEntries.refl _, by rw [hstart]; rfl⟩ ?_
  rintro j hj mid ⟨hsame, _⟩
  have hitem : s.trades[j]? = some s.trades[j] := List.getElem?_eq_getElem (by omega)
  obtain ⟨item', hitem', hacc⟩ := forall₂_getElem? hsame hitem
  obtain ⟨hsub, t, ht⟩ := (converts_accessed_iff hacc).mpr
    (htime _ (List.getElem_mem (by omega)))
  have hread : access (Value.readInt64 "t") j mid =
      .ok t { mid with trades := mid.trades.set j (item'.withMember "t") } :=
    SymbolState.access_ok hitem' (Value.readInt64_ok hsub ht)
  refine ⟨_, processEntry_ok (x := ⟨t, 0, 0⟩) hread,
    sameEntries_set hsame hitem' (by simp [entryKeys]), ?_⟩
  rw [previousTime_succ hitem, timeOf_accessed hacc, timeOf_eq ht]
  rfl

/-- The difference of the time gap pass, in terms of the deque. -/
theorem EntersEntry.maxTimeGap_iff (htime : ∀ item ∈ s.trades, HasTime item) {d : Int} :
    (∃ s', EntersEntry s .maxTimeGapCalc i s' ∧
      CalcType.maxTimeGapCalc.difference i s' = some d) ↔
      ∃ item, s.trades[i]? = some item ∧
        d = timeOf item - previousTime (s.trades.map timeOf) i := by
  have hentry : ∀ item, s.trades[i]? = some item → ∃ s', EntersEntry s .maxTimeGapCalc i s' ∧
      CalcType.maxTimeGapCalc.difference i s' =
        some (timeOf item - previousTime (s.trades.map timeOf) i) := by
    intro item hitem
    have hi : i < s.trades.length := (List.getElem?_eq_some_iff.mp hitem).1
    obtain ⟨s', hrun, hsame, hprev⟩ :=
      MaxTimeGapCalc.entries_previousTime (s := s.resetFeatures) htime rfl hi.le
    obtain ⟨item', hitem', hacc⟩ := forall₂_getElem? hsame hitem
    refine ⟨s', ⟨s.resetFeatures, rfl, hi, hrun⟩, ?_⟩
    simp only [CalcType.difference, MaxTimeGapCalc.difference, hitem', Option.map_some, hprev,
      SymbolState.resetFeatures_trades, timeOf_accessed hacc]
  constructor
  · rintro ⟨s', henters, hd⟩
    obtain ⟨mid, hbefore, hi, hrun⟩ := henters
    cases hbefore
    obtain ⟨s'', hs'', hd''⟩ := hentry _ (List.getElem?_eq_getElem hi)
    obtain ⟨mid, hbefore, _, hrun''⟩ := hs''
    cases hbefore
    rw [hrun] at hrun''
    cases hrun''
    rw [hd] at hd''
    exact ⟨_, List.getElem?_eq_getElem hi, Option.some.inj hd''⟩
  · rintro ⟨item, hitem, rfl⟩
    exact hentry item hitem

/-- The two ends, by their times. -/
theorem TradespersecCalc.difference_eq (s : SymbolState) :
    difference s = (do
      let back ← (s.trades.map timeOf).getLast?
      let front ← (s.trades.map timeOf).head?
      return back - front) := by
  unfold difference
  rw [List.getLast?_map, List.head?_map]
  cases s.trades.getLast? <;> cases s.trades.head? <;> rfl

theorem SameEntries.map_timeOf {trades trades' : List Value} (h : SameEntries trades trades') :
    trades'.map timeOf = trades.map timeOf := by
  induction h with
  | nil => rfl
  | cons hacc _ ih => rw [List.map_cons, List.map_cons, ih, timeOf_accessed hacc]

/-- The difference of the trades per second, in terms of the deque.  The pass comes
after passes that raise at a price that does not convert. -/
theorem EntersEntry.tradespersec_iff
    (hread : ∀ item ∈ s.trades, HasTime item ∧ HasVolume item) {d : Int} :
    (∃ i s', EntersEntry s .tradespersecCalc i s' ∧
        CalcType.tradespersecCalc.difference i s' = some d) ↔
      (∀ item ∈ s.trades, poisoned item = false) ∧ TradespersecCalc.difference s = some d := by
  have hends : ∀ {i s'}, EntersEntry s .tradespersecCalc i s' →
      CalcType.tradespersecCalc.difference i s' = TradespersecCalc.difference s := by
    intro i s' henters
    rw [CalcType.difference, TradespersecCalc.difference_eq, TradespersecCalc.difference_eq,
      henters.sameEntries.map_timeOf]
  constructor
  · rintro ⟨i, s', henters, hd⟩
    rw [hends henters] at hd
    obtain ⟨mid, hbefore, _⟩ := henters
    have hpasses : passes [.maxTimeGapCalc, .volumeCalc, .weightedAvgPriceCalc, .maxPriceCalc]
        s.resetFeatures = .ok () mid := hbefore
    obtain ⟨w, hreads⟩ := readable_of_passes hpasses
    refine ⟨fun item hitem => ?_, hd⟩
    have hprice := (hreads.readable item hitem).2.2
    by_contra hpoisoned
    exact (poisoned_iff hprice.1).mp (by simpa using hpoisoned) hprice
  · rintro ⟨hclean, hd⟩
    have hreadable : ∀ item ∈ s.trades, HasTime item ∧ HasVolume item ∧ HasPrice item := by
      intro item hitem
      obtain ⟨htime, hvolume⟩ := hread item hitem
      refine ⟨htime, hvolume, ?_⟩
      by_contra hprice
      have hpoisoned := hclean item hitem
      rw [(poisoned_iff htime.1).mpr hprice] at hpoisoned
      cases hpoisoned
    obtain ⟨w, hreads⟩ := exists_readsAs hreadable
    obtain ⟨mid, hbefore, hreads', _⟩ := passes_before .tradespersecCalc hreads
    have hne : s.trades ≠ [] := by
      intro hnil
      rw [TradespersecCalc.difference, hnil] at hd
      cases hd
    have henters : EntersEntry s .tradespersecCalc 0 mid := by
      refine ⟨mid, hbefore, ?_, rfl⟩
      rw [hreads'.length_eq, ← hreads.length_eq]
      exact List.length_pos_of_ne_nil hne
    exact ⟨0, mid, henters, by rw [hends henters, hd]⟩

/-! ## Differences that fit -/

/-- The two times are not a negative one and another one 2^63 or more away from it. -/
def FitsApart (a b : Int) : Prop := (a < 0 → b < 2 ^ 63 + a) ∧ (b < 0 → a ≤ 2 ^ 63 + b)

/-- Times of one sign are never too far apart. -/
theorem sub_inInt64_iff {a b : Int} (ha : InInt64 a) (hb : InInt64 b) :
    InInt64 (b - a) ↔ FitsApart a b := by
  unfold InInt64 minInt64 maxInt64 at *
  unfold FitsApart
  constructor
  · rintro ⟨hlo, hhi⟩
    omega
  · rintro ⟨hlo, hhi⟩
    omega

theorem inInt64_timeOf (item : Value) : InInt64 (timeOf item) := by
  unfold timeOf
  cases ht : (item.member "t").asInt64 with
  | ok t => exact Value.asInt64_mem ht
  | error e => exact (by decide : InInt64 0)

/-- Every difference that `computeFeatures` takes on the map, at every entry of every
pass, is an int64. -/
def DifferencesFit (m : SymbolMap) : Prop :=
  ∀ k s c i s' d, m.lookup k = some s → EntersEntry s c i s' → c.difference i s' = some d →
    InInt64 d

/-- No trade with a negative time stands beside one that is too far away, and none that
far from the first one is the last of a deque that the calculators can read. -/
structure Close (trades : List Value) : Prop where
  neighbours : ∀ q ∈ adjacent (trades.map timeOf), FitsApart q.1 q.2
  ends : (∀ item ∈ trades, poisoned item = false) → ∀ front back, trades.head? = some front →
    trades.getLast? = some back → timeOf back < 0 → timeOf front ≤ 2 ^ 63 + timeOf back

/-- The time gap pass subtracts neighbours, and nothing from the first time. -/
theorem gap_differences_fit_iff (trades : List Value) :
    (∀ i item, trades[i]? = some item →
        InInt64 (timeOf item - previousTime (trades.map timeOf) i)) ↔
      ∀ q ∈ adjacent (trades.map timeOf), FitsApart q.1 q.2 := by
  constructor
  · rintro hfits ⟨a, b⟩ hq
    obtain ⟨i, hfst, hsnd⟩ := mem_adjacent_iff.mp hq
    rw [List.getElem?_map, Option.map_eq_some_iff] at hfst hsnd
    obtain ⟨x, hx, rfl⟩ := hfst
    obtain ⟨y, hy, rfl⟩ := hsnd
    have hdifference := hfits (i + 1) y hy
    rw [previousTime_succ hx] at hdifference
    exact (sub_inInt64_iff (inInt64_timeOf x) (inInt64_timeOf y)).mp hdifference
  · intro hapart i y hy
    cases i with
    | zero =>
        rw [previousTime, sub_zero]
        exact inInt64_timeOf y
    | succ i =>
        have hi : i + 1 < trades.length := (List.getElem?_eq_some_iff.mp hy).1
        have hx : trades[i]? = some trades[i] := List.getElem?_eq_getElem (by omega)
        rw [previousTime_succ hx, sub_inInt64_iff (inInt64_timeOf _) (inInt64_timeOf y)]
        apply hapart (timeOf trades[i], timeOf y)
        refine mem_adjacent_iff.mpr ⟨i, ?_, ?_⟩
        · rw [List.getElem?_map, hx]
          rfl
        · rw [List.getElem?_map, hy]
          rfl

/-- Behind a front that is not negative, only a negative back can be too far away. -/
theorem end_difference_fits_iff
    (hfront : ∀ front, s.trades.head? = some front → 0 ≤ timeOf front) :
    (∀ d, TradespersecCalc.difference s = some d → InInt64 d) ↔
      ∀ front back, s.trades.head? = some front → s.trades.getLast? = some back →
        timeOf back < 0 → timeOf front ≤ 2 ^ 63 + timeOf back := by
  constructor
  · intro hfits front back hhead hlast
    have hd : TradespersecCalc.difference s = some (timeOf back - timeOf front) := by
      rw [TradespersecCalc.difference, hhead, hlast]
    exact ((sub_inInt64_iff (inInt64_timeOf front) (inInt64_timeOf back)).mp (hfits _ hd)).2
  · intro hends d hd
    unfold TradespersecCalc.difference at hd
    split at hd
    · rename_i back front hlast hhead
      cases hd
      rw [sub_inInt64_iff (inInt64_timeOf front) (inInt64_timeOf back)]
      refine ⟨fun hneg => ?_, hends front back hhead hlast⟩
      exact absurd hneg (not_lt.mpr (hfront front hhead))
    · cases hd

/-- For one symbol. -/
theorem differences_fit_iff_close
    (hread : ∀ item ∈ s.trades, HasTime item ∧ HasVolume item)
    (hfront : ∀ front, s.trades.head? = some front → 0 ≤ timeOf front) :
    (∀ c i s' d, EntersEntry s c i s' → c.difference i s' = some d → InInt64 d) ↔
      Close s.trades := by
  have htime : ∀ item ∈ s.trades, HasTime item := fun item hitem => (hread item hitem).1
  constructor
  · intro hfits
    constructor
    · rw [← gap_differences_fit_iff]
      intro i item hitem
      obtain ⟨s', henters, hd⟩ := (EntersEntry.maxTimeGap_iff htime).mpr ⟨item, hitem, rfl⟩
      exact hfits _ i s' _ henters hd
    · intro hclean
      rw [← end_difference_fits_iff hfront]
      intro d hd
      obtain ⟨i, s', henters, hd'⟩ := (EntersEntry.tradespersec_iff hread).mpr ⟨hclean, hd⟩
      exact hfits _ i s' d henters hd'
  · rintro ⟨hneighbours, hends⟩ c i s' d henters hd
    cases c with
    | maxTimeGapCalc =>
        obtain ⟨item, hitem, rfl⟩ := (EntersEntry.maxTimeGap_iff htime).mp ⟨s', henters, hd⟩
        exact (gap_differences_fit_iff s.trades).mpr hneighbours i item hitem
    | tradespersecCalc =>
        obtain ⟨hclean, hd'⟩ := (EntersEntry.tradespersec_iff hread).mp ⟨i, s', henters, hd⟩
        exact (end_difference_fits_iff hfront).mpr (hends hclean) d hd'
    | volumeCalc => cases hd
    | weightedAvgPriceCalc => cases hd
    | maxPriceCalc => cases hd
    | tickImbalanceCalc => cases hd

/-! ## Runs -/

variable {P : Platform} {es : List Event} {m : SymbolMap}

/-- With a clock that has passed ten minutes no deque has a negative time in front. -/
theorem front_nonneg (h : run P es ∅ = .ok () m)
    (hclock : ∀ now ∈ clockReadings es, windowSize * 60 * 1000000000 < now) {k : String}
    (hk : m.lookup k = some s) : ∀ front, s.trades.head? = some front → 0 ≤ timeOf front := by
  intro front hhead
  have hsame := run_sameEntries h k
  rw [hk] at hsame
  have hhead' : (slideAll timeOf [] (arrivals P k es)).head?.map timeOf =
      some (timeOf front) := by
    rw [← List.head?_map, ← hsame.map_timeOf, List.head?_map]
    exact congrArg (Option.map timeOf) hhead
  obtain ⟨first, hfirst, htime⟩ := Option.map_eq_some_iff.mp hhead'
  have hne : arrivals P k es ≠ [] := by
    intro hnil
    rw [hnil] at hfirst
    cases hfirst
  obtain ⟨⟨x, c⟩, hlast⟩ : ∃ arrival, (arrivals P k es).getLast? = some arrival :=
    ⟨_, List.getLast?_eq_some_getLast hne⟩
  have hspared := slideAll_head timeOf hlast first hfirst
  rw [htime] at hspared
  refine le_trans ?_ hspared
  -- The cutoff of the last arrival comes from a reading of the clock.
  obtain ⟨e, he, harrival⟩ := List.mem_filterMap.mp (List.mem_of_getLast? hlast)
  cases e with
  | compute => cases harrival
  | ingest item now =>
      simp only [Event.arrival, Option.ite_none_right_eq_some, Option.some.injEq,
        Prod.mk.injEq] at harrival
      obtain ⟨_, _, rfl⟩ := harrival
      have hnow := hclock now (List.mem_filterMap.mpr ⟨_, he, rfl⟩)
      unfold cutoffMs toMilliseconds
      exact Int.tdiv_nonneg (by omega) (by norm_num)

/-- The differences of every call fit exactly as long as no trade with a negative time
is in a deque beside one that is 2^63 milliseconds or more away from it, nor last
in a deque whose first trade is.  Among times that are not negative, in any order,
they always fit. -/
theorem differences_fit_iff (h : run P es ∅ = .ok () m)
    (hclock : ∀ now ∈ clockReadings es, windowSize * 60 * 1000000000 < now) :
    (DifferencesFit m ↔ ∀ k s, m.lookup k = some s → Close s.trades) ∧
      ((∀ item now, .ingest item now ∈ es → 0 ≤ timeOf item) → DifferencesFit m) := by
  have hiff : DifferencesFit m ↔ ∀ k s, m.lookup k = some s → Close s.trades := by
    have hread := Reachable.hasTime_hasVolume (P := P) ⟨es, h⟩
    constructor
    · intro hfits k s hk
      exact (differences_fit_iff_close (hread k s hk) (front_nonneg h hclock hk)).mp
        fun c i s' d => hfits k s c i s' d hk
    · intro hclose k s c i s' d hk
      exact (differences_fit_iff_close (hread k s hk) (front_nonneg h hclock hk)).mpr
        (hclose k s hk) c i s' d
  refine ⟨hiff, fun hnonneg => hiff.mpr fun k s hk => ?_⟩
  have htimes : ∀ item ∈ s.trades, 0 ≤ timeOf item := by
    have hsame := run_sameEntries h k
    rw [hk] at hsame
    intro item hitem
    obtain ⟨x, hx, hacc⟩ := hsame.exists_source hitem
    obtain ⟨new, now, hnew, _, rfl⟩ := mem_arrived ((slideAll_suffix timeOf _).subset hx)
    rw [← timeOf_accessed hacc, timeOf, member_admitted]
    exact hnonneg new now hnew
  constructor
  · rintro ⟨a, b⟩ hq
    obtain ⟨ha, hb⟩ := mem_of_mem_adjacent hq
    obtain ⟨x, hx, rfl⟩ := List.mem_map.mp ha
    obtain ⟨y, hy, rfl⟩ := List.mem_map.mp hb
    exact ⟨fun hneg => absurd hneg (not_lt.mpr (htimes x hx)),
      fun hneg => absurd hneg (not_lt.mpr (htimes y hy))⟩
  · intro _ front back _ hlast hneg
    exact absurd hneg (not_lt.mpr (htimes back (List.mem_of_getLast? hlast)))

theorem differences_fit_iff_sample : ∃ m, run Platform.listed sampleHistory ∅ = .ok () m ∧
    (DifferencesFit m ↔ ∀ k s, m.lookup k = some s → Close s.trades) ∧ DifferencesFit m := by
  obtain ⟨m, hrun⟩ := sampleHistory_run
  obtain ⟨hiff, hnonneg⟩ := differences_fit_iff hrun (by decide)
  refine ⟨m, hrun, hiff, hnonneg fun item now hitem => ?_⟩
  simp only [sampleHistory, List.mem_cons, List.not_mem_nil, or_false, reduceCtorEq,
    false_or, Event.ingest.injEq] at hitem
  rcases hitem with ⟨rfl, _⟩ | ⟨rfl, _⟩ | ⟨rfl, _⟩ <;> decide +kernel

/-- A fresh trade of `A`, and behind it one with the least time there is. -/
def leastTime : List Event :=
  [.ingest (feedItem "A" 1900000 1 10) 2000000000000,
    .ingest (feedItem "A" Int64.minValue 1 10) 2000000000000]

/-- The time gap pass leaves the int64 range. -/
theorem difference_overflows : ∃ m, run Platform.listed leastTime ∅ = .ok () m ∧
    (∀ e ∈ leastTime, e.WellFormed) ∧
    (∀ now ∈ clockReadings leastTime, windowSize * 60 * 1000000000 < now) ∧
    ¬ DifferencesFit m := by
  have hcompletes : Completes (run Platform.listed leastTime) ∅ := by decide +kernel
  obtain ⟨_, m, hrun⟩ := hcompletes
  have hwf : ∀ e ∈ leastTime, e.WellFormed := by
    intro e he
    simp only [leastTime, List.mem_cons, List.not_mem_nil, or_false] at he
    rcases he with rfl | rfl
    · exact wellFormed_feedItem "A" _ (by norm_num) (by norm_num)
    · exact wellFormed_feedItem "A" _ (by norm_num) (by norm_num)
  have hheld : held (m.lookup "A") =
      [feedItem "A" 1900000 1 10, feedItem "A" Int64.minValue 1 10] := by
    rw [run_held hrun fun _ => hasMember_of_wellFormed hwf]
    rfl
  obtain ⟨s, hs, htrades⟩ := exists_held (by rw [hheld]; simp)
  rw [hheld] at htrades
  refine ⟨m, hrun, hwf, by decide, fun hfits => ?_⟩
  have hread := Reachable.hasTime_hasVolume (P := Platform.listed) ⟨_, hrun⟩ "A" s hs
  obtain ⟨s', henters, hd⟩ := (EntersEntry.maxTimeGap_iff (i := 1)
    (fun item hitem => (hread item hitem).1)).mpr ⟨_, by rw [← htrades]; rfl, rfl⟩
  have hfit := hfits "A" s _ 1 s' _ hs henters hd
  rw [← htrades] at hfit
  exact absurd hfit (by decide +kernel)

end TradeProcessor
