/-
  Published.lean --- what `computeFeatures` publishes after a run.

  After a run over well-formed items every deque can be read by every calculator,
  so a further `computeFeatures` completes and publishes the features of the
  window that each deque reads as.  Two questions about the published numbers are
  settled here: how old the trades behind them can be, and what they depend on
  besides the window.
-/
import TradeProcessor.Arrivals

set_option autoImplicit false

namespace TradeProcessor

open TradeProcessor.Json TradeProcessor.Library

/-! ## The window of a deque -/

/-- `item[key].asDouble()`, where it converts. -/
def doubleOf (key : String) (item : Value) : ℚ :=
  match (item.member key).asDouble with
  | .ok x => x
  | .error _ => 0

/-- The numbers of an item, where they convert. -/
def tradeOf (item : Value) : Trade where
  t := timeOf item
  v := doubleOf "v" item
  p := doubleOf "p" item

/-- The window that a deque reads as. -/
def windowOf (trades : List Value) : List Trade := trades.map tradeOf

@[simp] theorem length_windowOf (trades : List Value) :
    (windowOf trades).length = trades.length := by
  simp [windowOf]

theorem doubleOf_eq {key : String} {item : Value} {x : ℚ}
    (h : (item.member key).asDouble = .ok x) : doubleOf key item = x := by
  simp [doubleOf, h]

/-- An item that reads as some trade reads as `tradeOf`. -/
theorem reads_tradeOf {item : Value} {x : Trade} (h : Reads item x) :
    Reads item (tradeOf item) where
  subscriptable := h.subscriptable
  t := by rw [h.t, tradeOf, timeOf_eq h.t]
  v := by rw [h.v, tradeOf, doubleOf_eq h.v]
  p := by rw [h.p, tradeOf, doubleOf_eq h.p]

theorem readsAs_windowOf {trades : List Value} (h : ∀ item ∈ trades, ∃ x, Reads item x) :
    ReadsAs trades (windowOf trades) := by
  rw [ReadsAs, windowOf, List.forall₂_map_right_iff]
  apply List.forall₂_same.mpr
  intro item hitem
  obtain ⟨x, hx⟩ := h item hitem
  exact reads_tradeOf hx

/-- A deque reads as one window only. -/
theorem ReadsAs.eq_windowOf {trades : List Value} {w : List Trade} (h : ReadsAs trades w) :
    w = windowOf trades := by
  induction h with
  | nil => rfl
  | @cons item x _ _ hread _ ih =>
      have hx : tradeOf item = x := by
        unfold tradeOf
        rw [timeOf_eq hread.t, doubleOf_eq hread.v, doubleOf_eq hread.p]
      rw [windowOf, List.map_cons, hx, ih]
      rfl

/-- Accesses do not change what a deque reads as. -/
theorem SameEntries.windowOf_eq {trades trades' : List Value} (h : SameEntries trades trades') :
    windowOf trades' = windowOf trades := by
  induction h with
  | nil => rfl
  | @cons a b _ _ hacc _ ih =>
      have hb : tradeOf b = tradeOf a := by
        unfold tradeOf timeOf doubleOf
        rw [hacc.member, hacc.member, hacc.member]
      simp only [windowOf, List.map_cons, hb] at ih ⊢
      rw [ih]

/-- An admissible well-formed item can be read by every calculator. -/
theorem WellFormed.exists_reads {P : Platform} {item : Value} (h : WellFormed item)
    (hadm : Admissible P item) : ∃ x, Reads item x := by
  obtain ⟨t, ht⟩ := hadm.t
  obtain ⟨v, hv, _⟩ := h.v
  obtain ⟨p, hp, _⟩ := h.p
  exact ⟨⟨t, v, p⟩, hadm.subscriptable, ht, Value.asDouble_of_number hv,
    Value.asDouble_of_number hp⟩

variable {P : Platform}

/-- What is held after a run came from an accepted item. -/
theorem mem_held {k : String} {es : List Event} {m : SymbolMap} (h : run P es ∅ = .ok () m)
    (hwf : ∀ e ∈ es, e.WellFormed) {x : Value} (hx : x ∈ held (m.lookup k)) :
    WellFormed x ∧ Admissible P x := by
  obtain ⟨_, hacc, _⟩ := run_eq_ok stampedMap_empty h
  rw [run_held h fun _ => hasMember_of_wellFormed hwf] at hx
  have hmem : x ∈ arrived P k es := (slideAll_suffix timeOf _).subset hx
  obtain ⟨item, now, he, _, rfl⟩ := mem_arrived hmem
  have hitem : WellFormed item := hwf _ he
  rw [hitem.admitted_eq]
  exact ⟨hitem, hacc _ he⟩

/-- After a run over well-formed items `computeFeatures` completes, and every symbol
gets the features of its window. -/
theorem computeFeatures_after_run {es : List Event} {m : SymbolMap} (h : run P es ∅ = .ok () m)
    (hwf : ∀ e ∈ es, e.WellFormed) :
    ∃ m', computeFeatures P calcTypes m = .ok () m' ∧
      ∀ k s, m.lookup k = some s → m'.lookup k = some (s.computed (windowOf s.trades)) := by
  have hreads : ∀ k s, m.lookup k = some s → ReadsAs s.trades (windowOf s.trades) := by
    intro k s hs
    apply readsAs_windowOf
    intro x hx
    obtain ⟨hwfx, hadm⟩ := mem_held (k := k) h hwf (by rw [hs]; exact hx)
    exact hwfx.exists_reads hadm
  have hfull : ∀ k s, m.lookup k = some s → Full s.trades := by
    intro k s hs
    apply full_of_wellFormed
    intro x hx
    exact (mem_held (k := k) h hwf (by rw [hs]; exact hx)).1
  obtain ⟨m', hm'⟩ := completes_of_readable (P := P) fun k s hs => ⟨_, hreads k s hs⟩
  refine ⟨m', hm', fun k s hs => ?_⟩
  obtain ⟨trades, hsame, hs'⟩ := computeFeatures_publishes hm' hs (hreads k s hs)
  have htrades : trades = s.trades := hsame.eq_of_full (hfull k s hs)
  rw [hs', htrades]
  rfl

/-! ## How old the trades are -/

/-- A symbol that is in the map has arrivals. -/
theorem arrivals_ne_nil {k : String} {es : List Event} {m : SymbolMap} {s : SymbolState}
    (h : run P es ∅ = .ok () m) (hk : m.lookup k = some s) : arrivals P k es ≠ [] := by
  intro hnil
  obtain ⟨_, _, hlocal⟩ := run_eq_ok stampedMap_empty h
  have hnone : LocalRun P k es none none := by
    apply localRun_none
    intro e he hconcerns
    cases e with
    | compute => rfl
    | ingest item now =>
        have hitem : symbolOf P item = some k := by simpa [Event.concerns] using hconcerns
        have hnot := List.filterMap_eq_nil_iff.mp hnil _ he
        rw [arrival_ingest now hitem] at hnot
        cases hnot
  have heq := localRun_unique (hlocal k) hnone
  rw [hk] at heq
  cases heq

/-- Behind a front that the cutoff spares, sorted times are spared as well. -/
theorem le_of_sorted {trades : List Value} {c : Int}
    (hhead : ∀ front, trades.head? = some front → c ≤ timeOf front)
    (hsorted : trades.Pairwise fun x y => timeOf x ≤ timeOf y) : ∀ x ∈ trades, c ≤ timeOf x := by
  intro x hx
  cases trades with
  | nil => cases hx
  | cons front rest =>
      have hfront : c ≤ timeOf front := hhead front rfl
      rcases List.mem_cons.mp hx with rfl | hrest
      · exact hfront
      · exact hfront.trans (List.rel_of_pairwise_cons hsorted hrest)

/-- Freshness, relative to the last ingest.  When the trades of a symbol arrive in
the order of their times, no entry of its deque is older than the cutoff of the
last iteration for that symbol; so the features that a further `computeFeatures`
publishes for it are those of a window without any such trade. -/
theorem published_window_fresh {k : String} {es : List Event} {m : SymbolMap} {s : SymbolState}
    (h : run P es ∅ = .ok () m)
    (hsorted : (arrived P k es).Pairwise fun x y => timeOf x ≤ timeOf y)
    (hk : m.lookup k = some s) :
    ∃ x c, (arrivals P k es).getLast? = some (x, c) ∧ (∀ item ∈ s.trades, c ≤ timeOf item) ∧
      ∀ m', computeFeatures P calcTypes m = .ok () m' → ∃ s' w, m'.lookup k = some s' ∧
        ReadsAs s.trades w ∧ s'.features = Window.features s.tiState w ∧
        ∀ trade ∈ w, c ≤ trade.t := by
  obtain ⟨⟨x, c⟩, hlast⟩ : ∃ arrival, (arrivals P k es).getLast? = some arrival :=
    ⟨_, List.getLast?_eq_some_getLast (arrivals_ne_nil h hk)⟩
  have hslid : ∀ y ∈ slideAll timeOf [] (arrivals P k es), c ≤ timeOf y :=
    le_of_sorted (slideAll_head timeOf hlast)
      (hsorted.sublist (slideAll_suffix timeOf (arrivals P k es)).sublist)
  have hsame : SameEntries (slideAll timeOf [] (arrivals P k es)) s.trades := by
    have hentries := run_sameEntries h k
    rw [hk] at hentries
    exact hentries
  have hfresh : ∀ item ∈ s.trades, c ≤ timeOf item := by
    intro item hitem
    obtain ⟨y, hy, hacc⟩ := hsame.exists_source hitem
    rw [← timeOf_accessed hacc]
    exact hslid y hy
  refine ⟨x, c, hlast, hfresh, fun m' hm' => ?_⟩
  have hact := computeFeatures_eq_ok hm' k
  rw [hk] at hact
  obtain ⟨_, hrun, _⟩ := hact
  obtain ⟨w, hreads⟩ := readable_of_computeSymbol hrun
  obtain ⟨trades, _, hs'⟩ := computeFeatures_publishes hm' hk hreads
  refine ⟨_, w, hs', hreads, rfl, fun trade htrade => ?_⟩
  obtain ⟨i, hi⟩ := List.mem_iff_getElem?.mp htrade
  obtain ⟨item, hitem, hread⟩ := hreads.getElem? hi
  rw [← timeOf_eq hread.t]
  exact hfresh item (List.mem_of_getElem? hitem)

theorem published_window_fresh_sample : ∃ m s x c,
    run Platform.listed sampleHistory ∅ = .ok () m ∧ m.lookup "A" = some s ∧
    (arrivals Platform.listed "A" sampleHistory).getLast? = some (x, c) ∧
    (∀ item ∈ s.trades, c ≤ timeOf item) ∧
    ∀ m', computeFeatures Platform.listed calcTypes m = .ok () m' → ∃ s' w,
      m'.lookup "A" = some s' ∧ ReadsAs s.trades w ∧
      s'.features = Window.features s.tiState w ∧ ∀ trade ∈ w, c ≤ trade.t := by
  obtain ⟨m, hrun⟩ := sampleHistory_run
  have hlength :
      (slideAll timeOf [] (arrivals Platform.listed "A" sampleHistory)).length = 1 := by
    decide +kernel
  have hheld : (held (m.lookup "A")).length = 1 :=
    (run_sameEntries hrun "A").length_eq.trans hlength
  obtain ⟨s, hs, _⟩ := exists_held (List.ne_nil_of_length_pos (by rw [hheld]; exact one_pos))
  have hsorted : (arrived Platform.listed "A" sampleHistory).Pairwise
      fun x y => timeOf x ≤ timeOf y := by decide +kernel
  obtain ⟨x, c, hfresh⟩ := published_window_fresh hrun hsorted hs
  exact ⟨m, s, x, c, hrun, hs, hfresh⟩

/-- One trade of `A`, ten seconds old when it is dequeued. -/
def singleTrade : List Event := [.ingest (feedItem "A" 1990000 2 10) 2000000000000]

/-- An hour later `computeFeatures` still publishes the features of that trade. -/
theorem stale_trade_published : ∃ m s m' s',
    run Platform.listed singleTrade ∅ = .ok () m ∧ (∀ e ∈ singleTrade, e.WellFormed) ∧
    (clockReadings singleTrade ++ [5600000000000]).Pairwise (· ≤ ·) ∧
    (arrived Platform.listed "A" singleTrade).Pairwise (fun x y => timeOf x ≤ timeOf y) ∧
    m.lookup "A" = some s ∧ computeFeatures Platform.listed calcTypes m = .ok () m' ∧
    m'.lookup "A" = some s' ∧
    s'.features = Window.features s.tiState (windowOf s.trades) ∧ s'.features.vol = 2 ∧
    ∃ trade ∈ windowOf s.trades, trade.t < toMilliseconds 5600000000000 - 600000 := by
  have hcompletes : Completes (run Platform.listed singleTrade) ∅ := by decide +kernel
  obtain ⟨_, m, hrun⟩ := hcompletes
  have hwf : ∀ e ∈ singleTrade, e.WellFormed := by
    intro e he
    rw [List.mem_singleton.mp he]
    exact wellFormed_feedItem "A" _ (by norm_num) (by norm_num)
  have hheld : held (m.lookup "A") = [feedItem "A" 1990000 2 10] := by
    rw [run_held hrun fun _ => hasMember_of_wellFormed hwf]
    rfl
  obtain ⟨s, hs, htrades⟩ := exists_held (by rw [hheld]; simp)
  rw [hheld] at htrades
  obtain ⟨m', hm', hlookup⟩ := computeFeatures_after_run hrun hwf
  refine ⟨m, s, m', _, hrun, hwf, by decide, by decide +kernel, hs, hm', hlookup "A" s hs, rfl,
    ?_, ?_⟩
  · rw [← htrades]
    change Window.volume (windowOf [feedItem "A" 1990000 2 10]) = 2
    decide +kernel
  · rw [← htrades]
    decide +kernel

end TradeProcessor
