/-
  Admission.lean --- which items are let in, and which of them can be read.

  `process` and the calculators decode an item independently: `process` asks for
  `s`, `t` and `v`, the calculators for `t`, `v` and `p`, and no exception is
  caught on either side.  An item is let in by the first group of reads; what it
  lacks for the second group stays in the window as a poisoned entry.
-/
import TradeProcessor.Arrivals

set_option autoImplicit false

namespace TradeProcessor

open TradeProcessor.Json TradeProcessor.Library

/-! ## Poisoned entries -/

/-- The price of the item is of a kind that `asDouble` does not convert. -/
def poisoned (item : Value) : Bool :=
  match item.member "p" with
  | .stringValue _ | .arrayValue _ | .objectValue _ => true
  | _ => false

theorem poisoned_iff {item : Value} (hsub : item.subscriptable = true) :
    poisoned item = true ↔ ¬ HasPrice item := by
  simp only [poisoned, HasPrice, Converts, hsub, true_and]
  cases item.member "p" <;> simp [Value.asDouble]

section

variable {N Q : Type} [Zero N] [Zero Q] {P : Platform N Q}

theorem hasTime_admitted {item : Value} (h : Admissible P item) : HasTime (admitted item) := by
  obtain ⟨t, ht⟩ := h.t
  exact ⟨by simpa using h.subscriptable, t, by simpa using ht⟩

theorem hasVolume_admitted {item : Value} (h : Admissible P item) :
    HasVolume (admitted item) := by
  obtain ⟨n, hn⟩ := h.v
  obtain ⟨v, hv⟩ := Value.asDouble_of_asInt64 hn
  exact ⟨by simpa using h.subscriptable, v, by simpa using hv⟩

variable [Add N] [Sub N] [Mul N] [Div N] [LT N] [DecidableLT N] [DecidableEq N] [Arithmetic N Q]

/-- In a reachable map the times and volumes of all entries convert. -/
theorem Reachable.hasTime_hasVolume {m : SymbolMap N Q} (h : Reachable P m) :
    ∀ k s, m.lookup k = some s → ∀ item ∈ s.trades, HasTime item ∧ HasVolume item := by
  apply h.entries fun item => HasTime item ∧ HasVolume item
  · intro item hadm
    exact ⟨hasTime_admitted hadm, hasVolume_admitted hadm⟩
  · intro a b hab hread
    exact ⟨(converts_accessed_iff hab).mpr hread.1, (converts_accessed_iff hab).mpr hread.2⟩

/-- In a reachable map a symbol can be computed exactly when none of its entries is
poisoned. -/
theorem completes_computeSymbol_of_reachable {m : SymbolMap N Q} (h : Reachable P m) {k : String}
    {s : SymbolState N Q} (hk : m.lookup k = some s) :
    Completes (computeSymbol calcTypes) s ↔ ∀ item ∈ s.trades, poisoned item = false := by
  have hread := h.hasTime_hasVolume k s hk
  rw [completes_computeSymbol_iff]
  constructor
  · intro hw item hitem
    obtain ⟨w, hw⟩ := hw
    obtain ⟨_, _, hprice⟩ := hw.readable item hitem
    rw [← Bool.not_eq_true, poisoned_iff hprice.1, not_not]
    exact hprice
  · intro hclean
    apply exists_readsAs
    intro item hitem
    obtain ⟨htime, hvolume⟩ := hread item hitem
    have hnot : ¬ poisoned item = true := by rw [hclean item hitem]; simp
    rw [poisoned_iff htime.1, not_not] at hnot
    exact ⟨htime, hvolume, hnot⟩

end

variable {P : Platform}

/-- Admission soundness, where it holds.  In every reachable map each admitted entry
has a time and a volume that convert, and `computeFeatures` raises exactly when
the price of some entry is a string, an array or an object. -/
theorem computeFeatures_raises_iff {m : SymbolMap} (h : Reachable P m) :
    (∀ k s, m.lookup k = some s → ∀ item ∈ s.trades, HasTime item ∧ HasVolume item) ∧
    (Raises (computeFeatures P calcTypes) m ↔
      ∃ k s item, m.lookup k = some s ∧ item ∈ s.trades ∧ poisoned item = true) := by
  refine ⟨h.hasTime_hasVolume, ?_⟩
  rw [← not_completes_iff, completes_computeFeatures_iff]
  constructor
  · intro hnot
    push Not at hnot
    obtain ⟨k, s, hk, hraises⟩ := hnot
    rw [completes_computeSymbol_of_reachable h hk] at hraises
    push Not at hraises
    obtain ⟨item, hitem, hpoisoned⟩ := hraises
    exact ⟨k, s, item, hk, hitem, by simpa using hpoisoned⟩
  · intro hpoisoned hall
    obtain ⟨k, s, item, hk, hitem, hp⟩ := hpoisoned
    have hclean := (completes_computeSymbol_of_reachable h hk).mp (hall k s hk) item hitem
    rw [hp] at hclean
    cases hclean

/-- A trade of `A` whose price came as a string. -/
def poisonedItem : Value :=
  .objectValue [("p", .stringValue "10"), ("s", .stringValue "A"), ("t", .intValue 1900000),
    ("v", .realValue 1)]

theorem poisonedItem_run :
    ∃ m, run Platform.listed [.ingest poisonedItem 2000000000000] ∅ = .ok () m := by
  have hcompletes : Completes (run Platform.listed [.ingest poisonedItem 2000000000000]) ∅ := by
    decide +kernel
  obtain ⟨_, m, hrun⟩ := hcompletes
  exact ⟨m, hrun⟩

/-- It is let in, and the next `computeFeatures` raises. -/
theorem poisoned_item_admitted : ∃ m,
    run Platform.listed [.ingest poisonedItem 2000000000000] ∅ = .ok () m ∧
    Raises (computeFeatures Platform.listed calcTypes) m := by
  have hraises : ¬ Completes
      (run Platform.listed ([.ingest poisonedItem 2000000000000] ++ [Event.compute])) ∅ := by
    decide +kernel
  obtain ⟨m, hrun⟩ := poisonedItem_run
  refine ⟨m, hrun, not_completes_iff.mp fun hcompute => hraises ?_⟩
  obtain ⟨_, m', hm'⟩ := hcompute
  refine ⟨(), m', run_append_eq_ok_iff.mpr ⟨m, hrun, ?_⟩⟩
  exact run_singleton_eq_ok_iff.mpr hm'

theorem computeFeatures_raises_iff_poisoned_item : ∃ m, Reachable Platform.listed m ∧
    ((∀ k s, m.lookup k = some s → ∀ item ∈ s.trades, HasTime item ∧ HasVolume item) ∧
    (Raises (computeFeatures Platform.listed calcTypes) m ↔
      ∃ k s item, m.lookup k = some s ∧ item ∈ s.trades ∧ poisoned item = true)) := by
  obtain ⟨m, hrun⟩ := poisonedItem_run
  have hreach : Reachable Platform.listed m := ⟨_, hrun⟩
  exact ⟨m, hreach, computeFeatures_raises_iff hreach⟩

/-! ## One iteration in any reachable state -/

/-- The accessors convert what the program needs of the item: a string for `s`, an
int64 for `t` and a double for `v`. -/
structure Decodable (P : Platform) (item : Value) : Prop where
  subscriptable : item.subscriptable = true
  s : ∃ symbol, (item.member "s").asString P.realText = .ok symbol
  t : ∃ t, (item.member "t").asInt64 = .ok t
  v : ∃ v, (item.member "v").asDouble = .ok v

/-- The number that a value is, if it is one, fits into an int64. -/
def FitsInt64 (v : Value) : Prop :=
  ∀ x, v.number = some x → (minInt64 : ℚ) ≤ x ∧ x ≤ maxInt64

theorem asInt64_of_asDouble {v : Value} {x : ℚ} (h : v.asDouble = .ok x) (hfits : FitsInt64 v) :
    ∃ n, v.asInt64 = .ok n := by
  cases v with
  | uintValue n =>
      have hle : ((n.toNat : Int) : ℚ) ≤ maxInt64 := (hfits n.toNat rfl).2
      have hle' : (n.toNat : Int) ≤ maxInt64 := by exact_mod_cast hle
      exact ⟨n.toNat, if_pos hle'⟩
  | realValue y => exact ⟨Value.truncate y, if_pos (hfits y rfl)⟩
  | nullValue => exact ⟨0, rfl⟩
  | intValue i => exact ⟨i.toInt, rfl⟩
  | booleanValue b => exact ⟨_, rfl⟩
  | stringValue s => cases h
  | arrayValue elements => cases h
  | objectValue members => cases h

/-- Where the volume fits into an int64, the debug line stands in nobody's way. -/
theorem admissible_iff_decodable {item : Value} (hfits : FitsInt64 (item.member "v")) :
    Admissible P item ↔ Decodable P item := by
  constructor
  · intro h
    obtain ⟨n, hn⟩ := h.v
    exact ⟨h.subscriptable, h.s, h.t, Value.asDouble_of_asInt64 hn⟩
  · intro h
    obtain ⟨v, hv⟩ := h.v
    exact ⟨h.subscriptable, h.s, h.t, asInt64_of_asDouble hv hfits⟩

/-- A well-formed item whose time fits into an int64 can be decoded. -/
theorem WellFormed.decodable {item : Value} (h : WellFormed item)
    (hfits : FitsInt64 (item.member "t")) : Decodable P item := by
  obtain ⟨symbol, hs⟩ := h.s
  obtain ⟨t, ht⟩ := h.t
  obtain ⟨v, hv, _⟩ := h.v
  refine ⟨Value.subscriptable_of_hasMember (h.hasMember (List.mem_of_mem_head? rfl)), ?_, ?_, ?_⟩
  · exact ⟨symbol, by rw [hs]; rfl⟩
  · have hdouble : ∃ x, (item.member "t").asDouble = .ok x := by
      cases hm : item.member "t" <;> simp_all [Value.integer, Value.asDouble]
    obtain ⟨x, hx⟩ := hdouble
    exact asInt64_of_asDouble hx hfits
  · exact ⟨v, Value.asDouble_of_number hv⟩

/-- Ingest of any item in any reachable state, volumes beyond int64 apart.  An item
that can be decoded is pushed on the deque of its symbol before the eviction, and
nothing else changes; any other item raises out of the iteration and leaves the
whole map as it was.  Well-formed items with an int64 time are of the first kind. -/
theorem processItem_reachable {m : SymbolMap} {item : Value} (now : Int) (h : Reachable P m)
    (hfits : FitsInt64 (item.member "v")) :
    (Decodable P item → ∃ k m', symbolOf P item = some k ∧
      processItem P now item m = .ok (admitted item) m' ∧
      m'.lookup k = some (ingested now (admitted item) ((m.lookup k).getD {})) ∧
      ∀ j, j ≠ k → m'.lookup j = m.lookup j) ∧
    (¬ Decodable P item → ∃ e, processItem P now item m = .error (.json e) m) ∧
    (WellFormed item → FitsInt64 (item.member "t") → Decodable P item) := by
  rw [← admissible_iff_decodable hfits]
  refine ⟨?_, processItem_of_not_admissible now m, fun hwf ht => ?_⟩
  · intro hadm
    obtain ⟨k, hk⟩ := hadm.exists_symbol
    obtain ⟨m', hrun, hself, hother⟩ := processItem_of_admissible now hadm hk h.stamped
    exact ⟨k, m', hk, hrun, hself, hother⟩
  · exact (admissible_iff_decodable hfits).mpr (hwf.decodable ht)

/-- The two ways in which garbage is not ignored: a string raises, and null is taken
for a trade of the symbol with the empty name. -/
theorem garbage_not_ignored : Reachable Platform.listed ∅ ∧
    Raises (processItem Platform.listed 2000000000000 (.stringValue "ping")) ∅ ∧
    ∃ item m, processItem Platform.listed 2000000000000 .nullValue ∅ = .ok item m ∧
      (m.lookup "").isSome = true := by
  refine ⟨⟨[], rfl⟩, not_completes_iff.mp (by decide +kernel), ?_⟩
  have hadm : Admissible Platform.listed .nullValue := ⟨rfl, ⟨_, rfl⟩, ⟨_, rfl⟩, ⟨_, rfl⟩⟩
  have hk : symbolOf Platform.listed .nullValue = some "" := rfl
  obtain ⟨m, hrun, hself, _⟩ := processItem_of_admissible 2000000000000 hadm hk stampedMap_empty
  exact ⟨_, m, hrun, by rw [hself]; rfl⟩

theorem processItem_reachable_sample :
    (∃ k m', symbolOf Platform.listed (feedItem "A" 1900000 2 10) = some k ∧
      processItem Platform.listed 2000000000000 (feedItem "A" 1900000 2 10) ∅ =
        .ok (admitted (feedItem "A" 1900000 2 10)) m' ∧
      m'.lookup k = some (ingested 2000000000000 (admitted (feedItem "A" 1900000 2 10)) {})) ∧
    ∃ e, processItem Platform.listed 2000000000000 (.stringValue "ping") ∅ =
      .error (.json e) ∅ := by
  have hreach : Reachable Platform.listed ∅ := ⟨[], rfl⟩
  constructor
  · have hfits : FitsInt64 ((feedItem "A" 1900000 2 10).member "v") := by
      intro x hx
      have hx : x = 2 := (Option.some.inj hx).symm
      rw [hx]
      exact ⟨by norm_num [minInt64], by norm_num [maxInt64]⟩
    have htime : FitsInt64 ((feedItem "A" 1900000 2 10).member "t") := by
      intro x hx
      have hx : x = 1900000 := (Option.some.inj hx).symm
      rw [hx]
      exact ⟨by norm_num [minInt64], by norm_num [maxInt64]⟩
    obtain ⟨haccept, _, hwf⟩ := processItem_reachable 2000000000000 hreach hfits
    obtain ⟨k, m', hk, hrun, hself, _⟩ := haccept
      (hwf (wellFormed_feedItem "A" _ (by norm_num) (by norm_num)) htime)
    exact ⟨k, m', hk, hrun, hself⟩
  · have hfits : FitsInt64 ((Value.stringValue "ping").member "v") := by
      intro x hx
      cases hx
    obtain ⟨_, hreject, _⟩ := processItem_reachable 2000000000000 hreach hfits
    exact hreject fun h => by cases h.subscriptable

end TradeProcessor
