/-
  Stretches.lean --- what the features are while `process` writes to the deque.

  `computeFeatures` holds the mutex of a symbol, but `process` takes no mutex: it
  pushes and pops while a calculator is in the middle of its pass.  Entry by entry,
  the iterator then has a position of its own among all trades that came for the
  symbol: the number of pops plus its index.  A push and a pop leave it there, an
  entry moves it on by one.  So a pass goes over a stretch of the received trades
  whatever the worker does, as long as the worker does not pop the entry that the
  iterator is at.
-/
import TradeProcessor.EntrySpec
import TradeProcessor.Rounds
import TradeProcessor.Snapshots
import TradeProcessor.WindowLaws

set_option autoImplicit false

namespace TradeProcessor

open TradeProcessor.Json TradeProcessor.Library

/-! ## Stretches -/

/-- The trades from one position on, up to another. -/
def stretch (trades : List Value) (span : Nat × Nat) : List Trade :=
  windowOf ((trades.take span.2).drop span.1)

/-- Where the deque of the symbol begins and ends, among the trades pushed on it. -/
def extent (k : String) (os : List Output) : Nat × Nat :=
  (poppedFrom k os, (pushedTo k os).length)

section Lists

variable {trades trades' : List Value} {span : Nat × Nat}

theorem stretch_of_isPrefix (h : trades <+: trades') (hspan : span.2 ≤ trades.length) :
    stretch trades' span = stretch trades span := by
  obtain ⟨rest, rfl⟩ := h
  rw [stretch, stretch, List.take_append_of_le_length hspan]

theorem stretch_nil (h : span.2 ≤ span.1) : stretch trades span = [] := by
  rw [stretch, List.drop_of_length_le (by rw [List.length_take]; omega)]
  rfl

theorem stretch_succ {b e : Nat} (hle : b ≤ e) {x : Trade}
    (hx : (windowOf trades)[e]? = some x) :
    stretch trades (b, e + 1) = stretch trades (b, e) ++ [x] := by
  simp only [stretch, windowOf, List.map_drop, List.map_take] at hx ⊢
  have hlt := (List.getElem?_eq_some_iff.mp hx).1
  rw [take_succ_of_getElem? hx, List.drop_append_of_le_length (by rw [List.length_take]; omega)]

theorem stretch_whole (n : Nat) :
    stretch trades (n, trades.length) = windowOf (trades.drop n) := by
  rw [stretch, List.take_length]

end Lists

/-! ## Where a round has come to -/

/-- The place of a calculator in the tuple. -/
def CalcType.place (c : CalcType) : Nat := calcTypes.idxOf c

theorem place_iff {n : Nat} {c : CalcType} : calcTypes[n]? = some c ↔ c.place = n := by
  constructor
  · intro h
    obtain ⟨hn, rfl⟩ := List.getElem?_eq_some_iff.mp h
    have hnodup : calcTypes.Nodup := by decide
    exact hnodup.idxOf_getElem n hn
  · rintro rfl
    cases c <;> rfl

theorem place_injective {c d : CalcType} (h : c.place = d.place) : c = d :=
  Option.some.inj ((place_iff.mpr h).symm.trans (place_iff.mpr rfl))

/-- The stretch so far, with the iterator at index `i` in the pass of the calculator. -/
structure InPass (k : String) (pre os : List Output) (i : Nat) (c : CalcType)
    (span : Nat × Nat) : Prop where
  since : (extent k pre).1 ≤ span.1
  front : span.1 ≤ (extent k os).1
  seen : (extent k os).1 + i ≤ span.2
  single : c.single = true → span.2 = (extent k os).1 + i

/-- A round of `computeFeatures` that began after the outputs `pre`, with `n` passes made
and the iterator of the next one: the state of the symbol is what the calculators make
of the stretches. -/
structure Spanned (k : String) (pre os : List Output) (n : Nat) (it : Iterator) (s : SymbolState)
    (span : CalcType → Nat × Nat) : Prop where
  since : extent k pre ≤ extent k os
  bounded : ∀ c : CalcType, (span c).2 ≤ (extent k os).2
  shows : ∀ c : CalcType, c ≠ .tickImbalanceCalc →
    c.written s = c.written (c.effect (stretch (pushedTo k os) (span c)) {})
  made : ∀ c : CalcType, c.place < n → extent k pre ≤ span c ∧ span c ≤ extent k os
  ordered : ∀ c d : CalcType, c.place < d.place → d.place < n → span c ≤ span d
  begun : ∀ c : CalcType, c.place = n → ∀ i, it = .entry i → InPass k pre os i c (span c) ∧
    ∀ d : CalcType, d.place < n → (span d).1 ≤ (span c).1
  ahead : ∀ c : CalcType, n < c.place ∨ c.place = n ∧ it = .before → span c = (0, 0)

theorem popFront_eq_entry_iff {it : Iterator} {i : Nat} :
    it.popFront = .entry i ↔ it = .entry (i + 1) := by
  cases it with
  | entry j => cases j <;> simp [Iterator.popFront]
  | _ => simp [Iterator.popFront]

theorem popFront_eq_before_iff {it : Iterator} : it.popFront = .before ↔ it = .before := by
  cases it with
  | entry j => cases j <;> simp [Iterator.popFront]
  | _ => simp [Iterator.popFront]

section Round

variable {k : String} {pre os os' : List Output} {n i : Nat} {it it' : Iterator}
  {s s' : SymbolState} {span : CalcType → Nat × Nat} {c : CalcType}

/-- `resetFeatures` begins with empty stretches. -/
theorem spanned_reset (h : extent k pre ≤ extent k os) (s : SymbolState) :
    Spanned k pre os 0 .before s.resetFeatures fun _ => (0, 0) where
  since := h
  bounded := fun _ => Nat.zero_le _
  shows := by
    intro c hc
    rw [stretch_nil le_rfl, c.effect_nil]
    cases c with
    | tickImbalanceCalc => exact absurd rfl hc
    | _ => rfl
  made := fun _ hc => absurd hc (Nat.not_lt_zero _)
  ordered := fun _ _ _ hd => absurd hd (Nat.not_lt_zero _)
  begun := fun _ _ _ hit => nomatch hit
  ahead := fun _ _ => rfl

/-- What the worker does between two entries: the stretches stay where they are. -/
theorem Spanned.frame (h : Spanned k pre os n it s span)
    (hpushed : pushedTo k os <+: pushedTo k os')
    (hwritten : ∀ c : CalcType, c.written s' = c.written s)
    (hit : it' = it ∧ poppedFrom k os' = poppedFrom k os ∨
      it' = it.popFront ∧ poppedFrom k os' = poppedFrom k os + 1) :
    Spanned k pre os' n it' s' span := by
  have hends : extent k os ≤ extent k os' := by
    refine ⟨?_, hpushed.length_le⟩
    rcases hit with ⟨_, hsame⟩ | ⟨_, hone⟩
    · exact hsame.ge
    · exact (Nat.le_succ _).trans hone.ge
  refine ⟨h.since.trans hends, fun c => (h.bounded c).trans hends.2, fun c hc => ?_,
    fun c hc => ⟨(h.made c hc).1, (h.made c hc).2.trans hends⟩, h.ordered, fun c hc j hj => ?_,
    fun c hc => h.ahead c (hc.imp id fun hat => ⟨hat.1, ?_⟩)⟩
  · rw [hwritten, h.shows c hc, stretch_of_isPrefix hpushed (h.bounded c)]
  · rcases hit with ⟨rfl, hsame⟩ | ⟨rfl, hone⟩
    · obtain ⟨hpass, hlater⟩ := h.begun c hc j hj
      have hat : (extent k os').1 = (extent k os).1 := hsame
      exact ⟨⟨hpass.since, hat ▸ hpass.front, hat ▸ hpass.seen, hat ▸ hpass.single⟩, hlater⟩
    · obtain ⟨hpass, hlater⟩ := h.begun c hc (j + 1) (popFront_eq_entry_iff.mp hj)
      have hat : (extent k os').1 + j = (extent k os).1 + (j + 1) := by
        rw [extent, hone, extent]
        omega
      exact ⟨⟨hpass.since, hpass.front.trans hends.1, hat ▸ hpass.seen, hat ▸ hpass.single⟩,
        hlater⟩
  · rcases hit with ⟨rfl, _⟩ | ⟨rfl, _⟩
    · exact hat.2
    · exact popFront_eq_before_iff.mp hat.2

/-- A step of the pass of a calculator: it moves its own stretch, and writes nothing of
the others. -/
theorem Spanned.advance (h : Spanned k pre os n it s span) (hc : c.place = n) (own : Nat × Nat)
    (hothers : ∀ d : CalcType, d ≠ c → d.written s' = d.written s)
    (hshows : c ≠ .tickImbalanceCalc →
      c.written s' = c.written (c.effect (stretch (pushedTo k os) own) {}))
    (hbounded : own.2 ≤ (extent k os).2) (hpass : InPass k pre os i c own)
    (hlater : ∀ d : CalcType, d.place < n → (span d).1 ≤ own.1) :
    Spanned k pre os n (.entry i) s' (Function.update span c own) := by
  have hother : ∀ {d : CalcType}, d.place ≠ n → Function.update span c own d = span d := by
    intro d hd
    exact Function.update_of_ne (by rintro rfl; exact hd hc) _ _
  refine ⟨h.since, fun d => ?_, fun d hd => ?_, fun d hd => ?_, fun d e hde he => ?_,
    fun d hd j hj => ?_, fun d hd => ?_⟩
  · rcases eq_or_ne d c with rfl | hdc
    · rwa [Function.update_self]
    · rw [Function.update_of_ne hdc]
      exact h.bounded d
  · rcases eq_or_ne d c with rfl | hdc
    · rw [Function.update_self]
      exact hshows hd
    · rw [Function.update_of_ne hdc, hothers d hdc]
      exact h.shows d hd
  · rw [hother hd.ne]
    exact h.made d hd
  · rw [hother (hde.trans he).ne, hother he.ne]
    exact h.ordered d e hde he
  · cases hj
    rw [place_injective (hd.trans hc.symm), Function.update_self]
    refine ⟨hpass, fun e he => ?_⟩
    rw [hother he.ne]
    exact hlater e he
  · rcases hd with hd | ⟨_, hit⟩
    · rw [hother hd.ne']
      exact h.ahead d (.inl hd)
    · cases hit

/-- `begin()` is the front of the deque. -/
theorem Spanned.beginPass (h : Spanned k pre os n .before s span)
    (hle : (extent k os).1 ≤ (extent k os).2) (hc : c.place = n) :
    ∃ span', Spanned k pre os n (.entry 0) s span' := by
  refine ⟨_, h.advance hc ((extent k os).1, (extent k os).1) (fun _ _ => rfl) (fun htick => ?_)
    hle ⟨h.since.1, le_rfl, le_rfl, fun _ => rfl⟩ fun d hd => (h.made d hd).2.1⟩
  have hempty := h.shows c htick
  rw [h.ahead c (.inr ⟨hc, rfl⟩), stretch_nil le_rfl] at hempty
  rw [stretch_nil le_rfl, hempty]

/-- One entry: the stretch of its calculator grows by this entry.  That of
`TradespersecCalc`, which looks at the two ends, becomes the whole deque. -/
theorem Spanned.entry (h : Spanned k pre os n (.entry i) s span) (hc : c.place = n)
    (htrades : s.trades = (pushedTo k os).drop (poppedFrom k os)) (hi : i < s.trades.length) :
    ∃ span', Spanned k pre os n (.entry (i + 1)) (c.effect (c.glance (windowOf s.trades) i) s)
      span' := by
  obtain ⟨hpass, hlater⟩ := h.begun c hc i rfl
  have hlength : (extent k os).1 + s.trades.length ≤ (extent k os).2 := by
    rw [htrades, List.length_drop, extent]
    rw [htrades, List.length_drop] at hi
    omega
  have hothers : ∀ d : CalcType, d ≠ c →
      d.written (c.effect (c.glance (windowOf s.trades) i) s) = d.written s := fun d hd =>
    CalcType.effect_frame _ s hd
  have hgrown : (extent k os).1 + (i + 1) ≤ (extent k os).2 := by omega
  by_cases htps : c = .tradespersecCalc
  · subst htps
    have hne : windowOf s.trades ≠ [] := by
      rw [← List.length_pos_iff, length_windowOf]
      omega
    refine ⟨_, h.advance hc (extent k os) hothers (fun _ => ?_) le_rfl
      ⟨h.since.1, le_rfl, hgrown, nofun⟩ fun d hd => (h.made d hd).2.1⟩
    rw [extent, stretch_whole, ← htrades]
    exact (if_neg hne).trans (if_neg hne).symm
  · have hfront : (span c).1 ≤ (extent k os).1 + i := hpass.front.trans (Nat.le_add_right _ _)
    refine ⟨_, h.advance hc ((span c).1, (extent k os).1 + (i + 1)) hothers (fun htick => ?_)
      hgrown ⟨hpass.since, hpass.front, le_rfl, fun _ => rfl⟩ hlater⟩
    have hsingle : c.single = true := by cases c <;> first | rfl | contradiction
    obtain ⟨x, hx⟩ : ∃ x, (windowOf s.trades)[i]? = some x :=
      ⟨_, List.getElem?_eq_getElem (by rwa [length_windowOf])⟩
    have hx' : (windowOf (pushedTo k os))[(extent k os).1 + i]? = some x := by
      rw [htrades, windowOf, List.map_drop, List.getElem?_drop] at hx
      exact hx
    have hspan : span c = ((span c).1, (extent k os).1 + i) :=
      Prod.ext rfl (hpass.single hsingle)
    rw [glance_single hsingle hx, ← Nat.add_assoc, stretch_succ hfront hx',
      c.effect_concat hsingle, ← hspan]
    exact c.effect_own [x] (h.shows c htick)

/-- `end()` is the back of the deque. -/
theorem Spanned.endPass (h : Spanned k pre os n (.entry i) s span)
    (hi : (extent k os).1 + i = (extent k os).2) : Spanned k pre os (n + 1) .before s span := by
  have hback : ∀ d : CalcType, d.place = n → (span d).2 = (extent k os).2 := fun d hd =>
    le_antisymm (h.bounded d) (hi ▸ (h.begun d hd i rfl).1.seen)
  refine ⟨h.since, h.bounded, h.shows, fun d hd => ?_, fun d e hde he => ?_,
    fun _ _ _ hit => (nomatch hit), fun d hd => h.ahead d (.inl ?_)⟩
  · rcases Nat.lt_succ_iff_lt_or_eq.mp hd with hlt | heq
    · exact h.made d hlt
    · obtain ⟨hpass, _⟩ := h.begun d heq i rfl
      exact ⟨⟨hpass.since, hback d heq ▸ h.since.2⟩, hpass.front, (hback d heq).le⟩
  · rcases Nat.lt_succ_iff_lt_or_eq.mp he with hlt | heq
    · exact h.ordered d e hde hlt
    · obtain ⟨_, hlater⟩ := h.begun e heq i rfl
      exact ⟨hlater d (heq ▸ hde), hback e heq ▸ h.bounded d⟩
  · rcases hd with hlt | ⟨heq, _⟩ <;> omega

/-- The iterator is inside the deque, or at its end. -/
theorem Spanned.index_le (h : Spanned k pre os n (.entry i) s span) (hc : c.place = n) :
    (extent k os).1 + i ≤ (extent k os).2 :=
  (h.begun c hc i rfl).1.seen.trans (h.bounded c)

end Round

/-! ## The tick counters -/

/-- The counters are not negative, and the feature they give is a ratio. -/
structure Ticked (s : SymbolState) : Prop where
  upticks : 0 ≤ s.tiState.upticks
  downticks : 0 ≤ s.tiState.downticks
  ratio : -1 ≤ s.features.tickImbalance ∧ s.features.tickImbalance ≤ 1

theorem Ticked.effect {s : SymbolState} (h : Ticked s) (c : CalcType) (w : List Trade) :
    Ticked (c.effect w s) := by
  cases c with
  | tickImbalanceCalc =>
      have hup : 0 ≤ (Window.countTicks s.tiState w).upticks :=
        Int.add_nonneg h.upticks (Int.natCast_nonneg _)
      have hdown : 0 ≤ (Window.countTicks s.tiState w).downticks :=
        Int.add_nonneg h.downticks (Int.natCast_nonneg _)
      refine ⟨hup, hdown, ?_⟩
      dsimp only [CalcType.effect]
      split
      · exact h.ratio
      · exact TIState.imbalance_mem hup hdown
  | _ => exact ⟨h.upticks, h.downticks, h.ratio⟩

theorem Ticked.reset {s : SymbolState} (h : Ticked s) : Ticked s.resetFeatures :=
  ⟨h.upticks, h.downticks, by norm_num [SymbolState.resetFeatures]⟩

theorem ticked_default : Ticked {} := ⟨le_rfl, le_rfl, by norm_num⟩

/-- Every symbol of the map has such counters. -/
def TickedMap (m : SymbolMap) : Prop := ∀ k s, m.lookup k = some s → Ticked s

theorem TickedMap.insert {m : SymbolMap} (hm : TickedMap m) {k : String} {s : SymbolState}
    (hs : Ticked s) : TickedMap (m.insert k s) := by
  intro j t ht
  rcases eq_or_ne j k with rfl | hjk
  · rw [AList.lookup_insert] at ht
    cases ht
    exact hs
  · rw [AList.lookup_insert_ne hjk] at ht
    exact hm j t ht

theorem TickedMap.pushed {m : SymbolMap} (hm : TickedMap m) (k : String) (item : Value) :
    TickedMap (m.pushed k item) := by
  intro j t ht
  rcases eq_or_ne j k with rfl | hjk
  · rw [lookup_pushed] at ht
    cases ht
    cases hs : m.lookup j with
    | none => exact ⟨le_rfl, le_rfl, ticked_default.ratio⟩
    | some s =>
        have hold := hm j s hs
        exact ⟨hold.upticks, hold.downticks, hold.ratio⟩
  · rw [lookup_pushed_ne hjk] at ht
    exact hm j t ht

/-! ## The machine, entry by entry -/

/-- What the program puts out. -/
def programOf (out : List LogOutput) : List Output :=
  out.filterMap fun o =>
    match o with
    | .program o => some o
    | _ => none

@[simp] theorem programOf_append (out out' : List LogOutput) :
    programOf (out ++ out') = programOf out ++ programOf out' := by
  simp [programOf]

@[simp] theorem programOf_map (os : List Output) : programOf (os.map .program) = os := by
  induction os with
  | nil => rfl
  | cons o os ih => exact congrArg (o :: ·) ih

/-- No entry is read through a dangling iterator. -/
def Steady (as : List LogAct) : Prop := ∀ stray it, LogAct.strayEntry stray it ∉ as

variable {P : Platform} {l l' : LoggedSystem} {out out' : List LogOutput} {a : LogAct}
    {k : String}

/-- A write to a symbol that keeps its deque. -/
theorem InOrder.write {σ : System} {os : List Output} (h : InOrder P os σ) {j : String}
    {s s' : SymbolState} (hs : σ.symbolStates.lookup j = some s) (htrades : s'.trades = s.trades)
    (scheduler : SchedulerThread) :
    InOrder P os { σ with
      scheduler := scheduler, symbolStates := σ.symbolStates.insert j s' } where
  message := h.message
  queue := h.queue
  worker := h.worker
  symbols := h.symbols
  deques := by
    intro k
    rw [held_insert_same hs htrades]
    exact h.deques k

/-- What is kept of the program along a steady run that is fed with messages of the feed. -/
structure Carried (P : Platform) (out : List LogOutput) (l : LoggedSystem) : Prop where
  inOrder : InOrder P (programOf out) l.system
  stamped : StampedMap l.system.symbolStates
  ticked : TickedMap l.system.symbolStates

theorem carried_start (P : Platform) : Carried P [] {} where
  inOrder := inOrder_init
  stamped := stampedMap_empty
  ticked := by
    intro k s hs
    simp at hs

/-- The trades of a symbol are well formed, and they are its deque. -/
theorem Carried.entries (h : Carried P out l)
    (hwf : ∀ x ∈ receivedOf (programOf out), WellFormed x) {s : SymbolState}
    (hs : l.system.symbolStates.lookup k = some s) :
    (∀ x ∈ s.trades, WellFormed x) ∧
      s.trades = (pushedTo k (programOf out)).drop (poppedFrom k (programOf out)) := by
  have hheld := (h.inOrder.deques k).1
  rw [hs] at hheld
  exact ⟨fun x hx => hwf x (h.inOrder.held_subset k (by rw [hs]; exact hx)), hheld⟩

/-! ## The round that is going on -/

/-- The mutex of the symbol was taken last after the outputs `pre`. -/
def Opened (k : String) (pre out : List LogOutput) : Prop :=
  ∃ mid, out = pre ++ .program (.locked k) :: mid ∧ LogOutput.program (.locked k) ∉ mid

theorem Opened.append {pre : List LogOutput} (h : Opened k pre out)
    (hout : LogOutput.program (.locked k) ∉ out') : Opened k pre (out ++ out') := by
  obtain ⟨mid, rfl, hmid⟩ := h
  refine ⟨mid ++ out', by simp, fun hmem => ?_⟩
  rcases List.mem_append.mp hmem with hold | hnew
  · exact hmid hold
  · exact hout hnew

theorem Opened.extent_le {pre : List LogOutput} (h : Opened k pre out) :
    extent k (programOf pre) ≤ extent k (programOf out) := by
  obtain ⟨mid, rfl, _⟩ := h
  rw [programOf_append]
  refine ⟨?_, ?_⟩
  · rw [extent, extent, poppedFrom_append]
    exact Nat.le_add_right _ _
  · exact (pushedTo_isPrefix k (List.prefix_append _ _)).length_le

/-- The round that `computeFeatures` is in the middle of, if it is. -/
def UnderWay (out : List LogOutput) (l : LoggedSystem) : Prop :=
  match l.system.scheduler with
  | .locked _ _ symbol => ∃ pre, Opened symbol pre out
  | .computing _ _ symbol n => ∃ pre span s, Opened symbol pre out ∧
      l.system.symbolStates.lookup symbol = some s ∧
      Spanned symbol (programOf pre) (programOf out) n l.iterator s span
  | _ => True

/-- A step of another thread than the scheduler. -/
theorem UnderWay.frame (h : UnderWay out l)
    (hscheduler : l'.system.scheduler = l.system.scheduler)
    (hout : ∀ j, LogOutput.program (.locked j) ∉ out')
    (hmap : ∀ j s, l.system.symbolStates.lookup j = some s →
      ∃ s', l'.system.symbolStates.lookup j = some s' ∧
        ∀ c : CalcType, c.written s' = c.written s)
    (hit : ∀ j, l.system.scheduler.holds = some j →
      l'.iterator = l.iterator ∧ poppedFrom j (programOf out') = 0 ∨
        l'.iterator = l.iterator.popFront ∧ poppedFrom j (programOf out') = 1) :
    UnderWay (out ++ out') l' := by
  unfold UnderWay at h ⊢
  rw [hscheduler]
  cases hat : l.system.scheduler with
  | locked started visited symbol =>
      rw [hat] at h
      obtain ⟨pre, hopened⟩ := h
      exact ⟨pre, hopened.append (hout symbol)⟩
  | computing started visited symbol n =>
      rw [hat] at h
      obtain ⟨pre, span, s, hopened, hs, hspanned⟩ := h
      obtain ⟨s', hs', hwritten⟩ := hmap symbol s hs
      refine ⟨pre, span, s', hopened.append (hout symbol), hs', hspanned.frame ?_ hwritten ?_⟩
      · rw [programOf_append]
        exact pushedTo_isPrefix symbol (List.prefix_append _ _)
      · rw [programOf_append, poppedFrom_append]
        refine (hit symbol (by rw [hat]; rfl)).imp ?_ ?_ <;> rintro ⟨hiterator, hpopped⟩ <;>
          exact ⟨hiterator, by omega⟩
  | _ => trivial

/-- A step that touches neither the map nor the iterator. -/
theorem UnderWay.keep (h : UnderWay out l)
    (hscheduler : l'.system.scheduler = l.system.scheduler)
    (hmap : l'.system.symbolStates = l.system.symbolStates) (hit : l'.iterator = l.iterator)
    (hout : ∀ j, LogOutput.program (.locked j) ∉ out')
    (hpopped : ∀ j, poppedFrom j (programOf out') = 0) : UnderWay (out ++ out') l' :=
  h.frame hscheduler hout (fun j s hs => ⟨s, by rw [hmap]; exact hs, fun _ => rfl⟩)
    fun j _ => .inl ⟨hit, hpopped j⟩

/-- A write to one deque writes no features. -/
theorem written_insert {m : SymbolMap} {j : String} {t : SymbolState} (ht : m.lookup j = some t)
    (trades : List Value) (k : String) (s : SymbolState) (hs : m.lookup k = some s) :
    ∃ s', (m.insert j { t with trades := trades }).lookup k = some s' ∧
      ∀ c : CalcType, c.written s' = c.written s := by
  rcases eq_or_ne k j with rfl | hkj
  · rw [hs] at ht
    cases ht
    refine ⟨_, AList.lookup_insert _, fun c => ?_⟩
    cases c <;> rfl
  · exact ⟨s, by rw [AList.lookup_insert_ne hkj]; exact hs, fun _ => rfl⟩

theorem written_pushed (m : SymbolMap) (j : String) (item : Value) (k : String) (s : SymbolState)
    (hs : m.lookup k = some s) : ∃ s', (m.pushed j item).lookup k = some s' ∧
      ∀ c : CalcType, c.written s' = c.written s := by
  rcases eq_or_ne k j with rfl | hkj
  · rw [lookup_pushed, hs]
    refine ⟨_, rfl, fun c => ?_⟩
    cases c <;> rfl
  · exact ⟨s, by rw [lookup_pushed_ne hkj]; exact hs, fun _ => rfl⟩

/-- A step of the program that is no step of the calculators. -/
theorem underWay_program {b : Act} {system : System} {os : List Output} (h : UnderWay out l)
    (hplain : b.plain = true) (hmove : Moves P l.system b system os) :
    UnderWay (out ++ os.map .program) { l with system := system } := by
  cases hmove with
  | push hworker hpush =>
      obtain ⟨_, _, _, rfl⟩ := pushItem_eq_ok hpush
      exact h.frame rfl (by simp) (written_pushed _ _ _) fun j _ =>
        .inl ⟨rfl, by simp [programOf, poppedFrom]⟩
  | tick hscheduler _ => trivial
  | finish hscheduler _ => trivial
  | pop _ _ _ | evictEnd _ _ _ | lock _ _ | reset _ _ | pass _ _ _ _ | release _ => cases hplain
  | _ => exact h.keep rfl rfl rfl (by simp) (by simp [programOf, poppedFrom])

/-- The worker pops the deque, or finds that it has not to. -/
theorem underWay_evict {system : System} {os : List Output} (h : UnderWay out l)
    (hmove : Moves P l.system .evict system os) : UnderWay (out ++ os.map .program)
      { l with system := system, iterator := l.iteratorAfter os } := by
  cases hmove with
  | @pop item symbol _ s trades hworker hs hpop =>
      refine h.frame rfl (by simp) (written_insert hs trades) fun j hj => ?_
      by_cases hsymbol : symbol = j
      · subst hsymbol
        exact .inr ⟨if_pos hj, by simp [programOf, poppedFrom]⟩
      · refine .inl ⟨if_neg ?_, by simp [programOf, poppedFrom, hsymbol]⟩
        rw [hj]
        exact fun heq => hsymbol (Option.some.inj heq).symm
  | evictEnd hworker hs hend =>
      exact h.frame rfl (by simp) (written_insert hs _) fun j _ => .inl ⟨rfl, rfl⟩

/-- The iterator is inside the deque, so the entry is read, and what is written is the
effect of its calculator. -/
theorem entry_eq {started visited : List String} {symbol : String} {n i : Nat} {c : CalcType}
    {s s' : SymbolState} (hcarried : Carried P out l) (h : UnderWay out l)
    (hwf : ∀ x ∈ receivedOf (programOf out), WellFormed x)
    (hscheduler : l.system.scheduler = .computing started visited symbol n)
    (hit : l.iterator = .entry i) (hc : calcTypes[n]? = some c)
    (hs : l.system.symbolStates.lookup symbol = some s) (hi : i ≠ s.trades.length)
    (hentry : c.processEntry i s = .ok () s') :
    i < s.trades.length ∧ s' = c.effect (c.glance (windowOf s.trades) i) s := by
  rw [UnderWay, hscheduler, hit] at h
  obtain ⟨pre, span, _, _, hlookup, hspanned⟩ := h
  cases hs.symm.trans hlookup
  obtain ⟨hwell, htrades⟩ := hcarried.entries hwf hs
  have hle := hspanned.index_le (place_iff.mp hc)
  have hlength : s.trades.length = (extent symbol (programOf out)).2 -
      (extent symbol (programOf out)).1 := by
    rw [htrades, List.length_drop]
    rfl
  have hlt : i < s.trades.length := by omega
  have hrun := c.processEntry_of_full (hcarried.inOrder.readsAs hwf hcarried.stamped hs)
    (full_of_wellFormed hwell) (by rwa [length_windowOf])
  rw [hrun] at hentry
  cases hentry
  exact ⟨hlt, rfl⟩

theorem underWay_step (hcarried : Carried P out l) (h : UnderWay out l)
    (hwf : ∀ x ∈ receivedOf (programOf out), WellFormed x) (hmove : l.Moves P a l' out')
    (hsteady : ∀ stray it, a ≠ .strayEntry stray it) : UnderWay (out ++ out') l' := by
  cases hmove with
  | program hplain hstep => exact underWay_program h hplain (step_moves hstep)
  | evict hstep => exact underWay_evict h (step_moves hstep)
  | @lock symbol _ _ howner hstep =>
      cases step_moves hstep
      exact ⟨out, [], rfl, List.not_mem_nil⟩
  | reset hstep =>
      cases step_moves hstep with
      | @reset started visited symbol s hscheduler hs =>
          rw [UnderWay, hscheduler] at h
          obtain ⟨pre, hopened⟩ := h
          rw [List.map_nil, List.append_nil]
          exact ⟨pre, _, _, hopened, AList.lookup_insert _, spanned_reset hopened.extent_le s⟩
  | @beginPass started visited symbol n hscheduler hit hn =>
      rw [List.append_nil]
      unfold UnderWay at h ⊢
      rw [hscheduler] at h
      dsimp only
      rw [hscheduler]
      obtain ⟨pre, span, s, hopened, hs, hspanned⟩ := h
      obtain ⟨c, hc⟩ : ∃ c, calcTypes[n]? = some c := ⟨_, List.getElem?_eq_getElem hn⟩
      rw [hit] at hspanned
      obtain ⟨span', hspanned'⟩ := hspanned.beginPass (hcarried.inOrder.deques symbol).2
        (place_iff.mp hc)
      exact ⟨pre, span', s, hopened, hs, hspanned'⟩
  | @entry started visited symbol n i c s s' hscheduler hit hc hs hi hentry =>
      obtain ⟨hlt, rfl⟩ := entry_eq hcarried h hwf hscheduler hit hc hs hi hentry
      rw [List.append_nil]
      unfold UnderWay at h ⊢
      rw [hscheduler] at h
      dsimp only
      rw [hscheduler]
      obtain ⟨pre, span, _, hopened, hlookup, hspanned⟩ := h
      cases hs.symm.trans hlookup
      rw [hit] at hspanned
      obtain ⟨span', hspanned'⟩ := hspanned.entry (place_iff.mp hc)
        (hcarried.entries hwf hs).2 hlt
      exact ⟨pre, span', _, hopened, AList.lookup_insert _, hspanned'⟩
  | strayEntry _ _ _ => exact absurd rfl (hsteady _ _)
  | @endPass started visited symbol n i s hscheduler hit hs hi =>
      rw [List.append_nil]
      unfold UnderWay at h ⊢
      rw [hscheduler] at h
      obtain ⟨pre, span, _, hopened, hlookup, hspanned⟩ := h
      cases hs.symm.trans hlookup
      rw [hit] at hspanned
      obtain ⟨_, htrades⟩ := hcarried.entries hwf hs
      have hends : (extent symbol (programOf out)).1 + i =
          (extent symbol (programOf out)).2 := by
        have hle := (hcarried.inOrder.deques symbol).2
        rw [hi, htrades, List.length_drop, extent]
        omega
      exact ⟨pre, span, s, hopened, AList.lookup_insert _, hspanned.endPass hends⟩
  | release hholds hstep =>
      cases step_moves hstep
      trivial
  | wake _ | logLock _ _ | copy _ | logUnlock _ | print _ | endRound _ _ =>
      exact h.keep rfl rfl rfl (by simp) (by simp [programOf, poppedFrom])

/-- A step of the program that is no step of the calculators keeps the counters. -/
theorem ticked_step {σ σ' : System} {b : Act} {os : List Output} (h : TickedMap σ.symbolStates)
    (hb : b ≠ .pass) (hmove : Moves P σ b σ' os) : TickedMap σ'.symbolStates := by
  cases hmove with
  | push hworker hpush =>
      obtain ⟨_, _, _, rfl⟩ := pushItem_eq_ok hpush
      exact h.pushed _ _
  | pop hworker hs hpop | evictEnd hworker hs hend =>
      have hold := h _ _ hs
      exact h.insert ⟨hold.upticks, hold.downticks, hold.ratio⟩
  | reset hscheduler hs => exact h.insert (h _ _ hs).reset
  | pass _ _ _ _ => exact absurd rfl hb
  | _ => exact h

theorem carried_step (h : Carried P out l) (hunderWay : UnderWay out l)
    (hwf : ∀ x ∈ receivedOf (programOf out), WellFormed x) (hmove : l.Moves P a l' out')
    (hsteady : ∀ stray it, a ≠ .strayEntry stray it) : Carried P (out ++ out') l' := by
  have hprogram : ∀ {b : Act} {system : System} {os : List Output},
      Moves P l.system b system os → b ≠ .pass → InOrder P (programOf out ++ os) system ∧
        StampedMap system.symbolStates ∧ TickedMap system.symbolStates := fun hinner hb =>
    ⟨h.inOrder.step hwf hinner, stamped_step h.stamped hinner, ticked_step h.ticked hb hinner⟩
  cases hmove with
  | program hplain hstep =>
      obtain ⟨hinOrder, hstamped, hticked⟩ :=
        hprogram (step_moves hstep) (by rintro rfl; cases hplain)
      exact ⟨by simpa using hinOrder, hstamped, hticked⟩
  | evict hstep | lock _ hstep | reset hstep =>
      obtain ⟨hinOrder, hstamped, hticked⟩ := hprogram (step_moves hstep) nofun
      exact ⟨by simpa using hinOrder, hstamped, hticked⟩
  | release _ hstep =>
      obtain ⟨hinOrder, hstamped, hticked⟩ := hprogram (step_moves hstep) nofun
      exact ⟨by simpa [programOf] using hinOrder, hstamped, hticked⟩
  | @entry started visited symbol n i c s s' hscheduler hit hc hs hi hentry =>
      obtain ⟨_, rfl⟩ := entry_eq h hunderWay hwf hscheduler hit hc hs hi hentry
      have htrades := c.trades_effect (c.glance (windowOf s.trades) i) s
      rw [List.append_nil]
      refine ⟨h.inOrder.write hs htrades _, h.stamped.insert ?_,
        h.ticked.insert ((h.ticked _ _ hs).effect _ _)⟩
      rw [htrades]
      exact h.stamped symbol s hs
  | strayEntry _ _ _ => exact absurd rfl (hsteady _ _)
  | endPass hscheduler hit hs hi =>
      rw [List.append_nil]
      exact ⟨h.inOrder.write hs rfl _, h.stamped.insert (h.stamped _ _ hs),
        h.ticked.insert (h.ticked _ _ hs)⟩
  | beginPass _ _ _ =>
      rw [List.append_nil]
      exact ⟨h.inOrder, h.stamped, h.ticked⟩
  | _ => exact ⟨by simpa [programOf] using h.inOrder, h.stamped, h.ticked⟩

/-! ## What is published -/

/-- The features are those of stretches of the trades, one for each calculator. -/
structure OverStretches (trades : List Value) (span : CalcType → Nat × Nat)
    (features : Features) : Prop where
  maxGap : features.maxGap = (Window.features {} (stretch trades (span .maxTimeGapCalc))).maxGap
  vol : features.vol = (Window.features {} (stretch trades (span .volumeCalc))).vol
  weightedAvgPrice : features.weightedAvgPrice =
    (Window.features {} (stretch trades (span .weightedAvgPriceCalc))).weightedAvgPrice
  maxPrice : features.maxPrice =
    (Window.features {} (stretch trades (span .maxPriceCalc))).maxPrice
  tps : features.tps = (Window.features {} (stretch trades (span .tradespersecCalc))).tps
  tickImbalance : -1 ≤ features.tickImbalance ∧ features.tickImbalance ≤ 1

theorem Spanned.overStretches {pre os : List Output} {n : Nat} {it : Iterator} {s : SymbolState}
    {span : CalcType → Nat × Nat} (h : Spanned k pre os n it s span) (hticked : Ticked s) :
    OverStretches (pushedTo k os) span s.features where
  maxGap := congrArg Prod.fst (h.shows .maxTimeGapCalc nofun)
  vol := by
    have hshows : s.features.vol = 0 + Window.volume _ := h.shows .volumeCalc nofun
    rw [hshows, zero_add]
    rfl
  weightedAvgPrice := by
    have hshows := congrArg Prod.fst (h.shows .weightedAvgPriceCalc nofun)
    simpa [CalcType.written, CalcType.effect, Window.features] using hshows
  maxPrice := h.shows .maxPriceCalc nofun
  tps := h.shows .tradespersecCalc nofun
  tickImbalance := hticked.ratio

theorem OverStretches.extend {trades trades' : List Value} {span : CalcType → Nat × Nat}
    {features : Features} (h : OverStretches trades span features) (htrades : trades <+: trades')
    (hspan : ∀ c, (span c).2 ≤ trades.length) : OverStretches trades' span features := by
  have hsame : ∀ c, stretch trades' (span c) = stretch trades (span c) := fun c =>
    stretch_of_isPrefix htrades (hspan c)
  constructor
  · rw [hsame, h.maxGap]
  · rw [hsame, h.vol]
  · rw [hsame, h.weightedAvgPrice]
  · rw [hsame, h.maxPrice]
  · rw [hsame, h.tps]
  · exact h.tickImbalance

/-- The features that an output publishes are those of stretches that the passes of the
round went over, one pass after the other. -/
def OverStretch (before : List LogOutput) (o : LogOutput) : Prop :=
  ∀ k features, o = .published k features → ∃ pre span, Opened k pre before ∧
    (∀ c : CalcType, extent k (programOf pre) ≤ span c ∧ span c ≤ extent k (programOf before)) ∧
    (∀ c d : CalcType, c.place < d.place → span c ≤ span d) ∧
    OverStretches (pushedTo k (programOf before)) span features

theorem place_lt (c : CalcType) : c.place < calcTypes.length := by
  cases c <;> decide

/-- `release` publishes after six passes. -/
theorem overStretch_release {started visited : List String} {symbol : String}
    (hcarried : Carried P out l) (h : UnderWay out l)
    (hscheduler : l.system.scheduler = .computing started visited symbol calcTypes.length) :
    OverStretch (out ++ [.program (.released symbol)])
      (.published symbol (featuresOf (l.system.symbolStates.lookup symbol))) := by
  rintro k features ⟨⟩
  rw [UnderWay, hscheduler] at h
  obtain ⟨pre, span, s, hopened, hs, hspanned⟩ := h
  have hprogram : programOf (out ++ [.program (.released symbol)]) =
      programOf out ++ [.released symbol] := by simp [programOf]
  have hends : extent symbol (programOf out ++ [.released symbol]) =
      extent symbol (programOf out) := by
    simp [extent, poppedFrom, pushedTo]
  have hpushed : pushedTo symbol (programOf out ++ [.released symbol]) =
      pushedTo symbol (programOf out) := by simp [pushedTo]
  refine ⟨pre, span, hopened.append (by simp), fun c => ?_, fun c d hcd => ?_, ?_⟩
  · rw [hprogram, hends]
    exact hspanned.made c (place_lt c)
  · exact hspanned.ordered c d hcd (place_lt d)
  · rw [hprogram, hpushed, hs]
    exact hspanned.overStretches (hcarried.ticked symbol s hs)

/-- Only `release` publishes. -/
theorem overStretch_step (hcarried : Carried P out l) (h : UnderWay out l)
    (hmove : l.Moves P a l' out') :
    EachOutput (fun before o => OverStretch (out ++ before) o) out' := by
  cases hmove with
  | @release symbol _ _ hholds hstep =>
      cases step_moves hstep with
      | @release started visited symbol' hscheduler =>
          cases hholds.symm.trans (holds_of_computing hscheduler)
          exact EachOutput.append (eachOutput_singleton.mpr nofun)
            (eachOutput_singleton.mpr (overStretch_release hcarried h hscheduler))
  | _ => exact EachOutput.of_forall (by simp [OverStretch])

theorem eachStep_of_steady {as : List LogAct} (h : Steady as) (s : LoggedSystem) :
    EachStep (LoggedSystem.step P) (fun a _ => ∀ stray it, a ≠ .strayEntry stray it) as s := by
  rintro bs a cs _ _ rfl _ stray it rfl
  exact h stray it (by simp)

theorem stretches_of_execute {as : List LogAct}
    (h : execute (LoggedSystem.step P) as {} = some (l, out))
    (hfeed : ∀ root, Output.received root ∈ programOf out → FeedMessage root)
    (hsteady : Steady as) :
    Carried P out l ∧ EachOutput OverStretch out := by
  have hall : Carried P out l ∧ UnderWay out l ∧ EachOutput OverStretch out := by
    refine execute_invariant_eachStep_init (fun out l =>
      (∀ root, Output.received root ∈ programOf out → FeedMessage root) →
        Carried P out l ∧ UnderWay out l ∧ EachOutput OverStretch out) ?_
      (fun _ => ⟨carried_start P, trivial, eachOutput_nil⟩) (eachStep_of_steady hsteady _) h
        hfeed
    intro out l a l' out' hinv hnot hstep hfeed'
    have hfeed : ∀ root, Output.received root ∈ programOf out → FeedMessage root :=
      fun root hroot =>
      hfeed' root (by simp [hroot])
    obtain ⟨hcarried, hunderWay, hstretch⟩ := hinv hfeed
    have hwf := wellFormed_of_received hfeed
    have hmove := logged_moves hstep
    exact ⟨carried_step hcarried hunderWay hwf hmove hnot,
      underWay_step hcarried hunderWay hwf hmove hnot,
      hstretch.append (overStretch_step hcarried hunderWay hmove)⟩
  exact ⟨hall.1, hall.2.2⟩

theorem mem_programOf {o : Output} : o ∈ programOf out ↔ LogOutput.program o ∈ out := by
  rw [programOf, List.mem_filterMap]
  constructor
  · rintro ⟨x, hx, heq⟩
    cases x with
    | program o' =>
        cases heq
        exact hx
    | _ => cases heq
  · exact fun h => ⟨_, h, rfl⟩

/-- Messages come from the network only. -/
theorem received_of_logged {as : List LogAct} {s : LoggedSystem}
    (h : execute (LoggedSystem.step P) as s = some (l, out)) {root : Value}
    (hroot : Output.received root ∈ programOf out) : .program (.receive root) ∈ as := by
  obtain ⟨a, ha, t, t', os, hstep, hmem⟩ := exists_step_of_output h (mem_programOf.mp hroot)
  cases logged_moves hstep with
  | program _ hinner => cases step_moves hinner <;> simp_all
  | evict hinner | lock _ hinner | reset hinner | release _ hinner =>
      cases step_moves hinner <;> simp at hmem
  | _ => simp at hmem

/-- The second trade is pushed in the middle of the first pass, and the first one popped
behind the iterator. -/
def pushAndPopInPass : List LogAct :=
  [.program (.receive twoTrades), .program .message, .program .message, .program .message,
    .program .loop, .program .dequeue, .program .push, .program (.readClock 2000000000000),
      .evict,
    .program .tick, .lock "A", .reset, .beginPass, .entry, .program .loop, .program .dequeue,
    .program .push, .entry, .program (.readClock 2500001000000), .evict, .evict, .endPass] ++
    (List.replicate 5 onePass).flatten ++ [.release]

end TradeProcessor
