/-
  MergeLaws.lean --- what a window has from its parts.

  The calculators go over a window from the front to the back.  This file says how
  what they compute of two windows in a row comes from what they compute of each:
  sums add up, maxima are maxima, and the passes that look back at a neighbour have
  one neighbour more, where the windows meet.  What does not look at neighbours does
  not depend on the order of the trades.
-/
import TradeProcessor.FeatureLaws

set_option autoImplicit false

namespace TradeProcessor

open TradeProcessor.Json TradeProcessor.Library

namespace Window

/-! ## Two windows in a row -/

variable {w w' w₁ w₂ : List Trade} {last first : Trade}

theorem volume_append (w₁ w₂ : List Trade) :
    volume (w₁ ++ w₂) = volume w₁ + volume w₂ := by
  simp [volume]

theorem tradedValue_append (w₁ w₂ : List Trade) :
    tradedValue (w₁ ++ w₂) = tradedValue w₁ + tradedValue w₂ := by
  simp [tradedValue]

theorem maxPrice_append (w₁ w₂ : List Trade) :
    maxPrice 0 (w₁ ++ w₂) = max (maxPrice 0 w₁) (maxPrice 0 w₂) := by
  simp only [maxPrice_eq_foldl_max, List.map_append, foldl_max_append]

/-- Where the windows meet there is one step more. -/
theorem steps_append (hlast : w₁.getLast? = some last) (hfirst : w₂.head? = some first) :
    steps (w₁ ++ w₂) = steps w₁ ++ (first.t - last.t) :: steps w₂ := by
  have htimes : (times w₁).getLast? = some last.t := by
    rw [times, List.getLast?_map, hlast]
    rfl
  have htimes' : (times w₂).head? = some first.t := by
    rw [times, List.head?_map, hfirst]
    rfl
  rw [steps, times, List.map_append, ← times, ← times, adjacent_append htimes htimes',
    List.map_append, List.map_cons]
  rfl

theorem maxGap_append (hlast : w₁.getLast? = some last) (hfirst : w₂.head? = some first) :
    maxGap (w₁ ++ w₂) = max (max (maxGap w₁) (maxGap w₂)) (first.t - last.t) := by
  have hmeet : List.foldl max 0 ((first.t - last.t) :: steps w₂) =
      max (maxGap w₂) (first.t - last.t) := by
    have hsplit := foldl_max_append 0 [first.t - last.t] (steps w₂)
    rw [List.singleton_append] at hsplit
    rw [hsplit, ← maxGap, max_comm, List.foldl_cons, List.foldl_nil, ← max_assoc,
      max_eq_left (maxGap_nonneg w₂)]
  rw [maxGap, steps_append hlast hfirst, foldl_max_append, hmeet, ← maxGap, max_assoc]

theorem upticks_append (hlast : w₁.getLast? = some last) (hfirst : w₂.head? = some first) :
    upticks (w₁ ++ w₂) = upticks w₁ + upticks w₂ + if last.p < first.p then 1 else 0 := by
  rw [upticks, adjacent_append hlast hfirst, List.countP_append, List.countP_cons, ← upticks,
    ← upticks, ← add_assoc]
  simp

theorem downticks_append (hlast : w₁.getLast? = some last) (hfirst : w₂.head? = some first) :
    downticks (w₁ ++ w₂) = downticks w₁ + downticks w₂ + if first.p < last.p then 1 else 0 := by
  rw [downticks, adjacent_append hlast hfirst, List.countP_append, List.countP_cons,
    ← downticks, ← downticks, ← add_assoc]
  simp

/-! ## The order of the trades -/

theorem volume_perm (h : w.Perm w') : volume w = volume w' := (h.map _).sum_eq

theorem tradedValue_perm (h : w.Perm w') : tradedValue w = tradedValue w' := (h.map _).sum_eq

theorem maxPrice_perm (h : w.Perm w') : maxPrice 0 w = maxPrice 0 w' := by
  rw [maxPrice_eq_foldl_max, maxPrice_eq_foldl_max]
  exact (h.map _).foldl_eq _

end Window

/-! ## Fresh symbols -/

/-- `computeFeatures` leaves this state of a symbol that is fresh but for its deque,
whatever else is in the map. -/
def LeavesFresh (P : Platform) (trades : List Value) (s' : SymbolState) : Prop :=
  ∀ m k, Readable m → m.lookup k = some { trades := trades } →
    ∃ m', computeFeatures P calcTypes m = .ok () m' ∧ m'.lookup k = some s'

/-- The state is that of the window. -/
theorem exists_leavesFresh (P : Platform) {trades : List Value} {w : List Trade}
    (hreads : ReadsAs trades w) :
    ∃ trades', LeavesFresh P trades
      { SymbolState.computed w { trades := trades } with trades := trades' } := by
  obtain ⟨trades', _, hrun⟩ :=
    computeSymbol_ok (s := { trades := trades }) (w := w) hreads
  refine ⟨trades', fun m k hm hk => ?_⟩
  obtain ⟨m', hm'⟩ := completes_of_readable (P := P) hm
  have hact := computeFeatures_eq_ok hm' k
  rw [hk] at hact
  obtain ⟨s', hrun', hs'⟩ := hact
  rw [hrun] at hrun'
  cases hrun'
  exact ⟨m', hm', hs'⟩

/-- The merge law.  Of two windows in a row, in terms of what is computed of each one
alone: the sums are the sums, the maxima are the maxima, and there is one time gap
and one tick more, between the last trade of the one and the first of the other.
The sums, the weighted average and the maximum price are those of every
permutation of the window. -/
theorem merge_law (P : Platform) {trades₁ trades₂ : List Value} {w₁ w₂ : List Trade}
    {last first : Trade} (hreads₁ : ReadsAs trades₁ w₁) (hreads₂ : ReadsAs trades₂ w₂)
    (hpos₁ : ∀ x ∈ w₁, 0 < x.t) (hpos₂ : ∀ x ∈ w₂, 0 < x.t)
    (hlast : w₁.getLast? = some last) (hfirst : w₂.head? = some first) :
    ∃ s₁ s₂ s, LeavesFresh P trades₁ s₁ ∧ LeavesFresh P trades₂ s₂ ∧
      LeavesFresh P (trades₁ ++ trades₂) s ∧
      s.features.vol = s₁.features.vol + s₂.features.vol ∧
      s.wapState.numer = s₁.wapState.numer + s₂.wapState.numer ∧
      s.wapState.denom = s₁.wapState.denom + s₂.wapState.denom ∧
      s.features.maxPrice = max s₁.features.maxPrice s₂.features.maxPrice ∧
      s.features.maxGap = max (max s₁.features.maxGap s₂.features.maxGap)
        ((first.t : ℚ) - last.t) ∧
      s.tiState.upticks = s₁.tiState.upticks + s₂.tiState.upticks +
        (if last.p < first.p then 1 else 0) ∧
      s.tiState.downticks = s₁.tiState.downticks + s₂.tiState.downticks +
        (if first.p < last.p then 1 else 0) ∧
      ∀ trades' w', ReadsAs trades' w' → w'.Perm (w₁ ++ w₂) → ∃ s',
        LeavesFresh P trades' s' ∧ s'.features.vol = s.features.vol ∧
        s'.features.weightedAvgPrice = s.features.weightedAvgPrice ∧
        s'.features.maxPrice = s.features.maxPrice := by
  have hreads : ReadsAs (trades₁ ++ trades₂) (w₁ ++ w₂) := List.rel_append hreads₁ hreads₂
  obtain ⟨trades₁', hfresh₁⟩ := exists_leavesFresh P hreads₁
  obtain ⟨trades₂', hfresh₂⟩ := exists_leavesFresh P hreads₂
  obtain ⟨trades', hfresh⟩ := exists_leavesFresh P hreads
  refine ⟨_, _, _, hfresh₁, hfresh₂, hfresh, Window.volume_append w₁ w₂,
    Window.tradedValue_append w₁ w₂, Window.volume_append w₁ w₂, Window.maxPrice_append w₁ w₂,
    ?_, ?_, ?_, ?_⟩
  · have hpos : ∀ x ∈ w₁ ++ w₂, 0 < x.t := by
      intro x hx
      rcases List.mem_append.mp hx with hx | hx
      · exact hpos₁ x hx
      · exact hpos₂ x hx
    simp only [SymbolState.computed, Window.features, Window.gaps_eq_maxGap hpos,
      Window.gaps_eq_maxGap hpos₁, Window.gaps_eq_maxGap hpos₂,
      Window.maxGap_append hlast hfirst]
    push_cast
    rfl
  · simp only [SymbolState.computed, Window.countTicks_zero,
      Window.upticks_append hlast hfirst]
    push_cast
    rfl
  · simp only [SymbolState.computed, Window.countTicks_zero,
      Window.downticks_append hlast hfirst]
    push_cast
    rfl
  · intro items w hitems hperm
    obtain ⟨items', hfresh'⟩ := exists_leavesFresh P hitems
    refine ⟨_, hfresh', Window.volume_perm hperm, ?_, Window.maxPrice_perm hperm⟩
    have hnil : w = [] ↔ w₁ ++ w₂ = [] := by rw [← List.length_eq_zero_iff, hperm.length_eq,
      List.length_eq_zero_iff]
    simp only [SymbolState.computed, Window.features, hnil, Window.volume_perm hperm,
      Window.tradedValue_perm hperm]

theorem merge_law_three_trades : ∃ s₁ s₂ s,
    LeavesFresh Platform.listed (threeItems.take 1) s₁ ∧
    LeavesFresh Platform.listed (threeItems.drop 1) s₂ ∧
    LeavesFresh Platform.listed threeItems s ∧
    s.features.maxGap = max (max s₁.features.maxGap s₂.features.maxGap) 2000 ∧
    s.tiState.upticks = s₁.tiState.upticks + s₂.tiState.upticks + 1 := by
  have hreads₁ : ReadsAs (threeItems.take 1) (threeWindow.take 1) :=
    List.forall₂_take 1 readsAs_threeWindow
  have hreads₂ : ReadsAs (threeItems.drop 1) (threeWindow.drop 1) :=
    List.forall₂_drop 1 readsAs_threeWindow
  obtain ⟨s₁, s₂, s, hfresh₁, hfresh₂, hfresh, _, _, _, _, hgap, hup, _⟩ :=
    merge_law Platform.listed hreads₁ hreads₂ (by decide) (by decide)
      (show _ = some (⟨1000, 2, 10⟩ : Trade) from rfl)
      (show _ = some (⟨3000, 1, 40⟩ : Trade) from rfl)
  refine ⟨s₁, s₂, s, hfresh₁, hfresh₂, hfresh, ?_, ?_⟩
  · rw [hgap]
    norm_num
  · rw [hup]
    norm_num

end TradeProcessor
