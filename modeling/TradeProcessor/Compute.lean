/-
  Compute.lean --- `computeFeatures`, for one symbol and over the whole map.

  For one symbol: the passes of a tuple compose, and the tuple of `main` leaves what
  `SymbolState.passed` says, in any arithmetic; with exact numbers it publishes
  `Window.features`.  Over the map: `computeFeatures` completes exactly when it
  completes for each symbol, and acts on each symbol alone, whatever order the map is
  visited in.
-/
import TradeProcessor.CalcFrame
import TradeProcessor.CalcSpec
import TradeProcessor.StreamProcessor

set_option autoImplicit false

namespace TradeProcessor

open TradeProcessor.Json TradeProcessor.Library
open Arithmetic (quotient)

section

variable {N Q : Type} [Zero N] [Zero Q] [Add N] [Sub N] [Mul N] [Div N] [LT N] [DecidableLT N]
  [DecidableEq N] [Arithmetic N Q] {s s' : SymbolState N Q} {w : List Trade}

/-! ## The tuple of calculators -/

/-- The passes of a list of calculators, in order. -/
def passes (calcs : List CalcType) : Action Fault (SymbolState N Q) Unit :=
  forM calcs CalcType.process

/-- What the passes of a list of calculators do, in order. -/
def allPasses (w : List Trade) (calcs : List CalcType) (s : SymbolState N Q) :
    SymbolState N Q :=
  calcs.foldl (fun s c => c.pass w s) s

theorem passes_cons (c : CalcType) (calcs : List CalcType) :
    (passes (c :: calcs) : Action Fault (SymbolState N Q) Unit) =
      c.process >>= fun _ => passes calcs := by
  simp [passes]

theorem tupleProcess_succ {calcs : List CalcType} {n : Nat} (hn : n < calcs.length) :
    (tupleProcess calcs (n + 1) : Action Fault (SymbolState N Q) Unit) =
      tupleProcess calcs n >>= fun _ => calcs[n].process := by
  have hget : calcs[n]? = some calcs[n] := List.getElem?_eq_getElem hn
  cases n with
  | zero => simp [tupleProcess, hget]
  | succ n => simp [tupleProcess, hget]

/-- The template recursion runs the passes of the tuple in order, each once. -/
theorem tupleProcess_eq_passes {calcs : List CalcType} {n : Nat} (hn : n ≤ calcs.length) :
    (tupleProcess calcs n : Action Fault (SymbolState N Q) Unit) = passes (calcs.take n) := by
  induction n with
  | zero => simp [tupleProcess, passes]
  | succ n ih =>
      have hlt : n < calcs.length := hn
      rw [tupleProcess_succ hlt, ih hlt.le,
        take_succ_of_getElem? (List.getElem?_eq_getElem hlt)]
      simp only [passes, List.forM_append, List.forM_cons, List.forM_nil, bind_pure_unit]

theorem computeSymbol_eq (calcs : List CalcType) (s : SymbolState N Q) :
    computeSymbol calcs s = passes calcs s.resetFeatures := by
  rw [computeSymbol, bind_of_ok (modify_apply SymbolState.resetFeatures s),
    tupleProcess_eq_passes le_rfl, List.take_length]

theorem allPasses_trades (w : List Trade) (calcs : List CalcType) (s : SymbolState N Q)
    (trades : List Value) :
    allPasses w calcs { s with trades := trades } =
      { allPasses w calcs s with trades := trades } := by
  induction calcs generalizing s with
  | nil => rfl
  | cons c calcs ih =>
      rw [allPasses, List.foldl_cons, c.pass_trades w s trades]
      exact ih (c.pass w s)

/-- Over a readable deque every pass of a tuple completes, and they compose. -/
theorem passes_pass (calcs : List CalcType) (hreads : ReadsAs s.trades w) :
    ∃ trades, SameEntries s.trades trades ∧
      passes calcs s = .ok () { allPasses w calcs s with trades := trades } := by
  induction calcs generalizing s with
  | nil => exact ⟨s.trades, SameEntries.refl _, rfl⟩
  | cons c calcs ih =>
      obtain ⟨trades₁, hsame₁, hpass⟩ := c.process_pass hreads
      obtain ⟨trades₂, hsame₂, hrest⟩ :=
        ih (s := { c.pass w s with trades := trades₁ }) (hreads.sameEntries hsame₁)
      refine ⟨trades₂, hsame₁.trans hsame₂, ?_⟩
      rw [passes_cons, bind_of_ok hpass]
      rw [allPasses_trades] at hrest
      exact hrest

theorem passes_sameEntries {calcs : List CalcType} (h : passes calcs s = .ok () s') :
    SameEntries s.trades s'.trades := by
  induction calcs generalizing s with
  | nil =>
      cases h
      exact SameEntries.refl _
  | cons c calcs ih =>
      rw [passes_cons, seq_eq_ok_iff] at h
      obtain ⟨mid, hc, hrest⟩ := h
      exact (c.process_sameEntries hc).trans (ih hrest)

/-! ## One symbol -/

/-- The features that the passes over a window publish, from these counters. -/
def Pass.features (ti : TIState) (w : List Trade) : Features N Q where
  maxGap := (w.foldl Pass.gapStep (0, 0)).1
  vol := w.foldl Pass.volStep 0
  weightedAvgPrice :=
    let acc := w.foldl Pass.wapStep ({} : WAPState N)
    if w = [] then 0 else quotient acc.numer acc.denom
  maxPrice := w.foldl Pass.priceStep 0
  tps := if w = [] then 0 else Pass.tps w
  tickImbalance :=
    if w.length < 2 then 0 else Pass.imbalance ((adjacent w).foldl (Pass.tickStep N) ti)

/-- The state that a computation over the window leaves behind. -/
def SymbolState.passed (w : List Trade) (s : SymbolState N Q) : SymbolState N Q where
  trades := s.trades
  features := Pass.features s.tiState w
  maxGapState := { prevTime := (w.foldl Pass.gapStep ((0 : N), 0)).2 }
  wapState := w.foldl Pass.wapStep {}
  tiState := (adjacent w).foldl (Pass.tickStep N) s.tiState

theorem allPasses_calcTypes (w : List Trade) (s : SymbolState N Q) :
    allPasses w calcTypes s.resetFeatures = s.passed w := rfl

/-- `computeFeatures` on one symbol with a readable deque, in any arithmetic. -/
theorem computeSymbol_pass (hreads : ReadsAs s.trades w) :
    ∃ trades, SameEntries s.trades trades ∧
      computeSymbol calcTypes s = .ok () { s.passed w with trades := trades } := by
  obtain ⟨trades, hsame, hrun⟩ := passes_pass (s := s.resetFeatures) calcTypes hreads
  refine ⟨trades, hsame, ?_⟩
  rw [computeSymbol_eq, hrun, allPasses_calcTypes]

theorem computeSymbol_sameEntries {calcs : List CalcType}
    (h : computeSymbol calcs s = .ok () s') : SameEntries s.trades s'.trades := by
  rw [computeSymbol_eq] at h
  exact passes_sameEntries (s := s.resetFeatures) h

/-- The first four passes read every member that a calculator reads. -/
theorem readable_of_passes {rest : List CalcType}
    (h : passes
      (.maxTimeGapCalc :: .volumeCalc :: .weightedAvgPriceCalc :: .maxPriceCalc :: rest) s =
        .ok () s') : ∃ w, ReadsAs s.trades w := by
  simp only [passes_cons, seq_eq_ok_iff] at h
  obtain ⟨s₁, hgap, s₂, hvol, s₃, hwap, s₄, hmax, _⟩ := h
  have hsame₁ := CalcType.process_sameEntries _ hgap
  have hsame₂ := hsame₁.trans (CalcType.process_sameEntries _ hvol)
  have hsame₃ := hsame₂.trans (CalcType.process_sameEntries _ hwap)
  apply exists_readsAs
  intro item hitem
  refine ⟨MaxTimeGapCalc.process_hasTime hgap item hitem, ?_, ?_⟩
  · obtain ⟨b, hb, hacc⟩ := hsame₁.exists_target hitem
    exact (converts_accessed_iff hacc).mp (VolumeCalc.process_hasVolume hvol b hb)
  · obtain ⟨b, hb, hacc⟩ := hsame₃.exists_target hitem
    exact (converts_accessed_iff hacc).mp (MaxPriceCalc.process_hasPrice hmax b hb)

/-- A completed computation has read the whole deque. -/
theorem readable_of_computeSymbol (h : computeSymbol calcTypes s = .ok () s') :
    ∃ w, ReadsAs s.trades w := by
  rw [computeSymbol_eq] at h
  exact readable_of_passes (s := s.resetFeatures) h

/-- `computeFeatures` completes on a symbol exactly when its deque is readable. -/
theorem completes_computeSymbol_iff :
    Completes (computeSymbol calcTypes) s ↔ ∃ w, ReadsAs s.trades w := by
  constructor
  · rintro ⟨_, s', h⟩
    exact readable_of_computeSymbol h
  · rintro ⟨w, hreads⟩
    obtain ⟨trades, _, h⟩ := computeSymbol_pass hreads
    exact ⟨_, _, h⟩

end

/-! ### With exact numbers -/

section

variable {s : SymbolState} {w : List Trade}

/-- The effects of a list of calculators, in order. -/
def effects (w : List Trade) (calcs : List CalcType) (s : SymbolState) : SymbolState :=
  calcs.foldl (fun s c => c.effect w s) s

theorem allPasses_eq_effects (w : List Trade) (calcs : List CalcType) (s : SymbolState) :
    allPasses w calcs s = effects w calcs s := by
  simp only [allPasses, effects, CalcType.pass_eq_effect]

/-- Over a readable deque every pass of a tuple completes, and their effects
compose. -/
theorem passes_ok (calcs : List CalcType) (hreads : ReadsAs s.trades w) :
    ∃ trades, SameEntries s.trades trades ∧
      passes calcs s = .ok () { effects w calcs s with trades := trades } := by
  rw [← allPasses_eq_effects]
  exact passes_pass calcs hreads

/-- The state that a computation over the window leaves behind. -/
def SymbolState.computed (w : List Trade) (s : SymbolState) : SymbolState where
  trades := s.trades
  features := Window.features s.tiState w
  maxGapState := { prevTime := (Window.gaps (0, 0) w).2 }
  wapState := { numer := Window.tradedValue w, denom := Window.volume w }
  tiState := Window.countTicks s.tiState w

theorem effects_calcTypes (w : List Trade) (s : SymbolState) :
    effects w calcTypes s.resetFeatures = s.computed w := by
  simp [effects, calcTypes, CalcType.effect, SymbolState.computed, Window.features]

theorem passed_eq_computed (w : List Trade) (s : SymbolState) : s.passed w = s.computed w := by
  rw [← allPasses_calcTypes, allPasses_eq_effects, effects_calcTypes]

/-- `computeFeatures` on one symbol with a readable deque. -/
theorem computeSymbol_ok (hreads : ReadsAs s.trades w) :
    ∃ trades, SameEntries s.trades trades ∧
      computeSymbol calcTypes s = .ok () { s.computed w with trades := trades } := by
  rw [← passed_eq_computed]
  exact computeSymbol_pass hreads

end

/-! ## The whole map -/

section

variable {N Q : Type} [Zero N] [Zero Q]

theorem atSymbol_of_ok {k : String} {x : Action Fault (SymbolState N Q) Unit} {m : SymbolMap N Q}
    {s s' : SymbolState N Q} (hs : m.lookup k = some s) (hx : x s = .ok () s') :
    atSymbol k x m = .ok () (m.insert k s') := by
  unfold atSymbol
  rw [hs]
  simp only [hx]

theorem atSymbol_of_error {k : String} {x : Action Fault (SymbolState N Q) Unit}
    {m : SymbolMap N Q} {s s' : SymbolState N Q} {e : Fault} (hs : m.lookup k = some s)
    (hx : x s = .error e s') : atSymbol k x m = .error e (m.insert k s') := by
  unfold atSymbol
  rw [hs]
  simp only [hx]

theorem atSymbol_of_none {k : String} {x : Action Fault (SymbolState N Q) Unit}
    {m : SymbolMap N Q} (hs : m.lookup k = none) : atSymbol k x m = .ok () m := by
  unfold atSymbol
  rw [hs]

/-- `x` takes the state of one key, or its absence, from one map to the other. -/
def ActsOn (x : Action Fault (SymbolState N Q) Unit) (before after : Option (SymbolState N Q)) :
    Prop :=
  match before with
  | none => after = none
  | some s => ∃ s', x s = .ok () s' ∧ after = some s'

theorem actsOn_unique {x : Action Fault (SymbolState N Q) Unit}
    {before a b : Option (SymbolState N Q)}
    (ha : ActsOn x before a) (hb : ActsOn x before b) : a = b := by
  cases before with
  | none => exact Eq.trans ha (Eq.symm hb)
  | some s =>
      obtain ⟨sa, hsa, rfl⟩ := ha
      obtain ⟨sb, hsb, rfl⟩ := hb
      rw [hsa] at hsb
      cases hsb
      rfl

/-- A run at one key acts there and nowhere else. -/
theorem atSymbol_eq_ok {k : String} {x : Action Fault (SymbolState N Q) Unit}
    {m m' : SymbolMap N Q} (h : atSymbol k x m = .ok () m') :
    ActsOn x (m.lookup k) (m'.lookup k) ∧ ∀ j, j ≠ k → m'.lookup j = m.lookup j := by
  cases hs : m.lookup k with
  | none =>
      rw [atSymbol_of_none hs] at h
      cases h
      exact ⟨hs, fun _ _ => rfl⟩
  | some s =>
      cases hx : x s with
      | error e s' =>
          rw [atSymbol_of_error hs hx] at h
          cases h
      | ok a s' =>
          rw [atSymbol_of_ok hs hx] at h
          cases h
          exact ⟨⟨s', hx, AList.lookup_insert m⟩, fun j hj => AList.lookup_insert_ne hj⟩

theorem forM_atSymbol_eq_ok {x : Action Fault (SymbolState N Q) Unit} {ks : List String}
    (hnodup : ks.Nodup) {m m' : SymbolMap N Q}
    (h : forM ks (fun k => atSymbol k x) m = .ok () m') (k : String) :
    (k ∈ ks → ActsOn x (m.lookup k) (m'.lookup k)) ∧ (k ∉ ks → m'.lookup k = m.lookup k) := by
  induction ks generalizing m with
  | nil =>
      cases h
      simp
  | cons j ks ih =>
      rw [List.nodup_cons] at hnodup
      rw [List.forM_cons, seq_eq_ok_iff] at h
      obtain ⟨mid, hhead, htail⟩ := h
      obtain ⟨hact, hother⟩ := atSymbol_eq_ok hhead
      obtain ⟨hin, hout⟩ := ih hnodup.2 htail
      constructor
      · intro hmem
        by_cases hkj : k = j
        · subst hkj
          rw [hout hnodup.1]
          exact hact
        · rw [← hother k hkj]
          exact hin (by simpa [hkj] using hmem)
      · intro hmem
        simp only [List.mem_cons, not_or] at hmem
        rw [hout hmem.2, hother k hmem.1]

theorem forM_atSymbol_completes {x : Action Fault (SymbolState N Q) Unit} {ks : List String}
    (hnodup : ks.Nodup) {m : SymbolMap N Q}
    (h : ∀ k ∈ ks, ∀ s, m.lookup k = some s → Completes x s) :
    Completes (forM ks fun k => atSymbol k x) m := by
  induction ks generalizing m with
  | nil => exact ⟨(), m, rfl⟩
  | cons j ks ih =>
      rw [List.nodup_cons] at hnodup
      have hhead : ∃ mid, atSymbol j x m = .ok () mid := by
        cases hs : m.lookup j with
        | none => exact ⟨m, atSymbol_of_none hs⟩
        | some s =>
            obtain ⟨_, s', hx⟩ := h j (by simp) s hs
            exact ⟨_, atSymbol_of_ok hs hx⟩
      obtain ⟨mid, hmid⟩ := hhead
      have htail : Completes (forM ks fun k => atSymbol k x) mid := by
        apply ih hnodup.2
        intro k hk s hs
        have hkj : k ≠ j := by
          rintro rfl
          exact hnodup.1 hk
        rw [(atSymbol_eq_ok hmid).2 k hkj] at hs
        exact h k (by simp [hk]) s hs
      obtain ⟨_, m', hm'⟩ := htail
      exact ⟨(), m', by rw [List.forM_cons, bind_of_ok hmid, hm']⟩

theorem Platform.visit_nodup (P : Platform N Q) (m : SymbolMap N Q) : (P.visit m).Nodup :=
  (P.visit_perm m).nodup_iff.mpr m.nodupKeys

theorem Platform.mem_visit_iff (P : Platform N Q) {m : SymbolMap N Q} {k : String} :
    k ∈ P.visit m ↔ ∃ s, m.lookup k = some s := by
  rw [(P.visit_perm m).mem_iff, ← AList.mem_keys, ← AList.lookup_isSome,
    Option.isSome_iff_exists]

variable [Add N] [Sub N] [Mul N] [Div N] [LT N] [DecidableLT N] [DecidableEq N] [Arithmetic N Q]

/-- `computeFeatures` acts on every symbol, each on its own. -/
theorem computeFeatures_eq_ok {P : Platform N Q} {calcs : List CalcType} {m m' : SymbolMap N Q}
    (h : computeFeatures P calcs m = .ok () m') (k : String) :
    ActsOn (computeSymbol calcs) (m.lookup k) (m'.lookup k) := by
  rw [computeFeatures, bind_of_ok (get_apply m)] at h
  obtain ⟨hin, hout⟩ := forM_atSymbol_eq_ok (P.visit_nodup m) h k
  cases hs : m.lookup k with
  | none =>
      have hnot : k ∉ P.visit m := by
        rw [P.mem_visit_iff, hs]
        simp
      exact (hout hnot).trans hs
  | some s =>
      rw [← hs]
      exact hin (P.mem_visit_iff.mpr ⟨s, hs⟩)

/-- `computeFeatures` completes exactly when it completes on every symbol. -/
theorem completes_computeFeatures_iff {P : Platform N Q} {calcs : List CalcType}
    {m : SymbolMap N Q} :
    Completes (computeFeatures P calcs) m ↔
      ∀ k s, m.lookup k = some s → Completes (computeSymbol calcs) s := by
  constructor
  · rintro ⟨_, m', h⟩ k s hs
    have hact := computeFeatures_eq_ok h k
    rw [hs] at hact
    obtain ⟨s', hrun, _⟩ := hact
    exact ⟨(), s', hrun⟩
  · intro h
    obtain ⟨_, m', hm'⟩ := forM_atSymbol_completes (P.visit_nodup m) fun k _ s hs => h k s hs
    exact ⟨(), m', by rw [computeFeatures, bind_of_ok (get_apply m), hm']⟩

/-! ## What a call publishes -/

/-- Every deque of the map can be read by every calculator. -/
def Readable (m : SymbolMap N Q) : Prop := ∀ k s, m.lookup k = some s → ∃ w, ReadsAs s.trades w

theorem completes_of_readable {P : Platform N Q} {m : SymbolMap N Q} (hm : Readable m) :
    ∃ m', computeFeatures P calcTypes m = .ok () m' := by
  have hcompletes : Completes (computeFeatures P calcTypes) m :=
    completes_computeFeatures_iff.mpr fun k s hs => completes_computeSymbol_iff.mpr (hm k s hs)
  obtain ⟨_, m', hm'⟩ := hcompletes
  exact ⟨m', hm'⟩

/-- After a completed call the state of a symbol is what the passes over its window
leave, in any arithmetic. -/
theorem computeFeatures_pass {P : Platform N Q} {m m' : SymbolMap N Q} {k : String}
    {s : SymbolState N Q} {w : List Trade} (h : computeFeatures P calcTypes m = .ok () m')
    (hk : m.lookup k = some s) (hreads : ReadsAs s.trades w) :
    ∃ trades, SameEntries s.trades trades ∧
      m'.lookup k = some { s.passed w with trades := trades } := by
  have hact := computeFeatures_eq_ok h k
  rw [hk] at hact
  obtain ⟨s', hrun, hs'⟩ := hact
  obtain ⟨trades, hsame, hok⟩ := computeSymbol_pass hreads
  rw [hok] at hrun
  cases hrun
  exact ⟨trades, hsame, hs'⟩

end

/-- After a completed call the state of a symbol is that of its window. -/
theorem computeFeatures_publishes {P : Platform} {m m' : SymbolMap} {k : String}
    {s : SymbolState} {w : List Trade} (h : computeFeatures P calcTypes m = .ok () m')
    (hk : m.lookup k = some s) (hreads : ReadsAs s.trades w) :
    ∃ trades, SameEntries s.trades trades ∧
      m'.lookup k = some { s.computed w with trades := trades } := by
  rw [← passed_eq_computed]
  exact computeFeatures_pass h hk hreads

end TradeProcessor
