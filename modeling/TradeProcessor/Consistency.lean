/-
  Consistency.lean --- one window for all passes, while nobody writes between them.

  `computeFeatures` makes six passes over a deque and holds the mutex of the symbol
  meanwhile, but the worker pushes and pops without it.  A section is what happens
  to one symbol since its mutex was last taken: the contents that the passes went
  over, and whether the deque was written between two of them.  In an undisturbed
  section the passes add up to `computeSymbol` over one deque.
-/
import TradeProcessor.Pipeline

set_option autoImplicit false

namespace TradeProcessor

open TradeProcessor.Json TradeProcessor.Library

/-- The passes over a symbol since its mutex was last taken. -/
structure Section where
  /-- what each pass went over -/
  seen : List (List Value) := []
  /-- the deque was written after the first pass and before the last one -/
  disturbed : Bool := false

/-- A write to the deque of the symbol. -/
def Section.write (sec : Section) : Section :=
  if 0 < sec.seen.length ∧ sec.seen.length < calcTypes.length then { sec with disturbed := true }
  else sec

/-- What an output tells about the section of the symbol. -/
def Section.next (k : String) (sec : Section) : Output → Section
  | .locked symbol => if symbol = k then {} else sec
  | .passed symbol trades =>
      if symbol = k then { sec with seen := sec.seen ++ [trades] } else sec
  | .pushed symbol _ => if symbol = k then sec.write else sec
  | .popped symbol => if symbol = k then sec.write else sec
  | _ => sec

/-- The section of a symbol after some outputs. -/
def sectionOf (k : String) (os : List Output) : Section := os.foldl (Section.next k) {}

theorem sectionOf_concat (k : String) (os : List Output) (o : Output) :
    sectionOf k (os ++ [o]) = (sectionOf k os).next k o := by
  simp [sectionOf]

/-! ## An undisturbed section -/

section Undisturbed

/- What is known of the counters at the start of the section. -/
variable (opened : TIState → Prop)

/-- After `n` passes of an undisturbed section the state of the symbol is what the
first `n` calculators make of one reset state, whose deque is what they all saw.
The deque itself may be written again once all passes are through. -/
def Undisturbed (sec : Section) (n : Nat) (o : Option SymbolState) : Prop :=
  ∃ s₀ s₁ s, o = some s ∧ s₀.resetFeatures = s₀ ∧ opened s₀.tiState ∧
    passes (calcTypes.take n) s₀ = .ok () s₁ ∧
    s = { s₁ with trades := s.trades } ∧ (n < calcTypes.length → s.trades = s₁.trades) ∧
    ∀ trades ∈ sec.seen, SameEntries s₀.trades trades

/-- What the section says about the state of the symbol, by what the scheduler is
doing. -/
def Tracked (k : String) (sec : Section) (scheduler : SchedulerThread)
    (o : Option SymbolState) : Prop :=
  match scheduler with
  | .locked _ _ symbol => symbol = k → sec.seen = [] ∧ opened (counted o)
  | .computing _ _ symbol n => symbol = k → sec.seen.length = n ∧
      (sec.disturbed = false → Undisturbed opened sec n o)
  | _ => True

variable {opened}

/-- A reset starts an undisturbed section. -/
theorem undisturbed_reset {sec : Section} {s : SymbolState} (hseen : sec.seen = [])
    (hopened : opened s.tiState) : Undisturbed opened sec 0 (some s.resetFeatures) :=
  ⟨s.resetFeatures, s.resetFeatures, s.resetFeatures, rfl, rfl, hopened, rfl, rfl, fun _ => rfl,
    by simp [hseen]⟩

/-- The next pass of an undisturbed section. -/
theorem Undisturbed.pass {sec : Section} {n : Nat} {s s' : SymbolState} {c : CalcType}
    (h : Undisturbed opened sec n (some s)) (hc : calcTypes[n]? = some c)
    (hpass : c.process s = .ok () s') :
    Undisturbed opened { sec with seen := sec.seen ++ [s.trades] } (n + 1) (some s') := by
  obtain ⟨s₀, s₁, t, ht, hreset, hopened, hpasses, heq, htrades, hseen⟩ := h
  cases ht
  have hn : n < calcTypes.length := (List.getElem?_eq_some_iff.mp hc).1
  have hs : s = s₁ := by
    rw [heq, htrades hn]
  subst hs
  refine ⟨s₀, s', s', rfl, hreset, hopened, ?_, rfl, fun _ => rfl, fun trades htr => ?_⟩
  · rw [take_succ_of_getElem? hc, passes, List.forM_append, List.forM_cons, List.forM_nil]
    exact (bind_of_ok hpasses).trans (by simpa using hpass)
  · rcases List.mem_append.mp htr with hold | hnew
    · exact hseen trades hold
    · rw [List.mem_singleton.mp hnew]
      exact passes_sameEntries hpasses

/-- A write before the first pass or after the last one. -/
theorem Undisturbed.write {sec : Section} {n : Nat} {o : Option SymbolState}
    (hlength : sec.seen.length = n) (h : sec.disturbed = false → Undisturbed opened sec n o)
    (trades : List Value) (hd : sec.write.disturbed = false) :
    Undisturbed opened sec.write n (some { o.getD {} with trades := trades }) := by
  unfold Section.write at hd ⊢
  split at hd
  · cases hd
  · rename_i hoff
    rw [if_neg hoff]
    obtain ⟨s₀, s₁, s, ho, hreset, hopened, hpasses, heq, htrades, hseen⟩ := h hd
    subst ho
    cases n with
    | zero =>
        have hnil : sec.seen = [] := List.eq_nil_of_length_eq_zero hlength
        have hs : s = s₀ := by
          have hs₁ : s₀ = s₁ := by
            cases hpasses
            rfl
          rw [heq, htrades (by decide), hs₁]
        subst hs
        refine ⟨{ s with trades := trades }, { s with trades := trades }, _, rfl, ?_, hopened,
          rfl, rfl, fun _ => rfl, by simp [hnil]⟩
        exact congrArg (fun t : SymbolState => { t with trades := trades }) hreset
    | succ n =>
        have hend : ¬ n + 1 < calcTypes.length := by
          intro hlt
          exact hoff ⟨by omega, by omega⟩
        refine ⟨s₀, s₁, _, rfl, hreset, hopened, hpasses, ?_, fun hlt => absurd hlt hend, hseen⟩
        rw [Option.getD_some, heq]

theorem Section.write_seen (sec : Section) : sec.write.seen = sec.seen := by
  unfold Section.write
  split <;> rfl

/-! ## The steps -/

/-- A write to the deque of the symbol, by a push or a pop. -/
theorem Tracked.write {k : String} {sec : Section} {scheduler : SchedulerThread}
    {o : Option SymbolState} (h : Tracked opened k sec scheduler o) (trades : List Value) :
    Tracked opened k sec.write scheduler (some { o.getD {} with trades := trades }) := by
  cases scheduler with
  | idle => trivial
  | iterating started visited => trivial
  | locked started visited symbol =>
      intro hk
      rw [Section.write_seen]
      exact h hk
  | computing started visited symbol n =>
      intro hk
      obtain ⟨hlength, hundisturbed⟩ := h hk
      rw [Section.write_seen]
      exact ⟨hlength, Undisturbed.write hlength hundisturbed trades⟩

/-- What is known at the start of the section stays known. -/
theorem Tracked.mono {opened' : TIState → Prop} {k : String} {sec : Section}
    {scheduler : SchedulerThread} {o : Option SymbolState} (h : Tracked opened k sec scheduler o)
    (hle : ∀ ti, opened ti → opened' ti) : Tracked opened' k sec scheduler o := by
  cases scheduler with
  | idle | iterating _ _ => trivial
  | locked _ _ symbol => exact fun hk => ⟨(h hk).1, hle _ (h hk).2⟩
  | computing _ _ symbol n =>
      refine fun hk => ⟨(h hk).1, fun hd => ?_⟩
      obtain ⟨s₀, s₁, s, ho, hreset, hopened, hrest⟩ := (h hk).2 hd
      exact ⟨s₀, s₁, s, ho, hreset, hle _ hopened, hrest⟩

variable {P : Platform} {σ σ' : System} {os os' : List Output} {a : Act}

theorem tracked_step {k : String} (hσ : StampedMap σ.symbolStates)
    (h : Tracked opened k (sectionOf k os) σ.scheduler (σ.symbolStates.lookup k))
    (hlock : a = .lock k → opened (counted (σ.symbolStates.lookup k)))
    (hmove : Moves P σ a σ' os') :
    Tracked opened k (sectionOf k (os ++ os')) σ'.scheduler (σ'.symbolStates.lookup k) := by
  cases hmove with
  | receive hio => rw [sectionOf_concat]; exact h
  | enqueue hio hitem => rw [sectionOf_concat]; exact h
  | messageEnd hio hend => rw [List.append_nil]; exact h
  | requestStop => rw [List.append_nil]; exact h
  | loop hworker => rw [List.append_nil]; exact h
  | timeout hworker => rw [List.append_nil]; exact h
  | dequeue hworker hq => rw [sectionOf_concat]; exact h
  | @push item _ symbol _ hworker hpush =>
      obtain ⟨_, _, rfl, rfl⟩ := pushItem_eq_ok hpush
      rw [sectionOf_concat]
      by_cases hk : symbol = k
      · subst hk
        rw [lookup_pushed, Section.next, if_pos rfl]
        exact h.write _
      · rw [lookup_pushed_ne (Ne.symm hk), Section.next, if_neg hk]
        exact h
  | readClock hworker hts => rw [List.append_nil]; exact h
  | @pop _ symbol _ s trades hworker hs hpop =>
      rw [sectionOf_concat]
      by_cases hk : symbol = k
      · subst hk
        rw [AList.lookup_insert, Section.next, if_pos rfl]
        rw [hs] at h
        exact h.write trades
      · rw [AList.lookup_insert_ne (Ne.symm hk), Section.next, if_neg hk]
        exact h
  | evictEnd hworker hs hend =>
      rw [List.append_nil, lookup_evictEnd hσ hs hend]
      exact h
  | tick hscheduler hrun => trivial
  | @lock _ _ symbol hscheduler hsymbol =>
      rw [sectionOf_concat]
      intro hk
      subst hk
      rw [Section.next, if_pos rfl]
      exact ⟨rfl, hlock rfl⟩
  | @reset started visited symbol s hscheduler hs =>
      rw [List.append_nil]
      intro hk
      subst hk
      rw [hscheduler] at h
      obtain ⟨hseen, hopened⟩ := h rfl
      rw [hs] at hopened
      rw [AList.lookup_insert]
      exact ⟨by rw [hseen]; rfl, fun _ => undisturbed_reset hseen hopened⟩
  | @pass started visited symbol n c s s' hscheduler hc hs hpass =>
      rw [sectionOf_concat]
      intro hk
      subst hk
      rw [hscheduler, hs] at h
      obtain ⟨hlength, hundisturbed⟩ := h rfl
      rw [AList.lookup_insert, Section.next, if_pos rfl]
      refine ⟨by simp [hlength], fun hd => ?_⟩
      exact (hundisturbed hd).pass hc hpass
  | release hscheduler => trivial
  | finish hscheduler hall => trivial

end Undisturbed

/-! ## Every execution -/

variable {P : Platform} {σ : System} {os : List Output}

/-- The counters of the symbol when the scheduler last took a mutex, which was that of
the symbol. -/
def CountersAtLock (P : Platform) (acts : List Act) (k : String) (ti : TIState) : Prop :=
  ∃ before after σ os, acts = before ++ .lock k :: after ∧
    (∀ symbol, Act.lock symbol ∉ after) ∧
    execute (System.step P) before {} = some (σ, os) ∧
    counted (σ.symbolStates.lookup k) = ti

theorem CountersAtLock.concat {acts : List Act} {k : String} {ti : TIState}
    (h : CountersAtLock P acts k ti) {a : Act} (ha : ∀ symbol, a ≠ .lock symbol) :
    CountersAtLock P (acts ++ [a]) k ti := by
  obtain ⟨before, after, σ, os, rfl, hafter, hexec, hti⟩ := h
  refine ⟨before, after ++ [a], σ, os, by simp, fun symbol hmem => ?_, hexec, hti⟩
  rcases List.mem_append.mp hmem with hold | hnew
  · exact hafter symbol hold
  · exact ha symbol (List.mem_singleton.mp hnew).symm

theorem tracked_of_execute {acts : List Act} (k : String)
    (h : execute (System.step P) acts {} = some (σ, os)) :
    Tracked (CountersAtLock P acts k) k (sectionOf k os) σ.scheduler
      (σ.symbolStates.lookup k) := by
  have hall : execute (System.step P) acts {} = some (σ, os) ∧ StampedMap σ.symbolStates ∧
      Tracked (CountersAtLock P acts k) k (sectionOf k os) σ.scheduler
        (σ.symbolStates.lookup k) := by
    refine execute_invariant_actions_init
      (fun acts os σ => execute (System.step P) acts {} = some (σ, os) ∧
        StampedMap σ.symbolStates ∧
        Tracked (CountersAtLock P acts k) k (sectionOf k os) σ.scheduler
          (σ.symbolStates.lookup k)) ?_ ⟨rfl, stampedMap_empty, trivial⟩ h
    rintro acts os σ a σ' os' ⟨hexec, hstamped, htracked⟩ hstep
    have hmove := step_moves hstep
    refine ⟨execute_append hexec (execute_singleton hstep), stamped_step hstamped hmove, ?_⟩
    by_cases hlock : ∃ symbol, a = .lock symbol
    · obtain ⟨symbol, rfl⟩ := hlock
      cases hmove with
      | lock hscheduler hsymbol =>
          intro hk
          subst hk
          rw [sectionOf_concat, Section.next, if_pos rfl]
          exact ⟨rfl, acts, [], σ, os, rfl, fun _ => List.not_mem_nil, hexec, rfl⟩
    · have hkept := htracked.mono fun ti hti => hti.concat fun symbol ha => hlock ⟨symbol, ha⟩
      exact tracked_step hstamped hkept (fun ha => (hlock ⟨k, ha⟩).elim) hmove
  exact hall.2.2

/-- Single-window consistency, where it holds.  In every interleaving, when the
scheduler has made all passes over a symbol and is about to release its mutex, and
no push or pop hit the deque between the first pass and the last one: all passes
went over one content, every feature was computed over the window that it reads
as, from the tick counters at the start of the section, and the volume is the
denominator of the weighted average price. -/
theorem single_window {acts : List Act} {k : String} {started visited : List String}
    (h : execute (System.step P) acts {} = some (σ, os))
    (hdone : σ.scheduler = .computing started visited k calcTypes.length)
    (hundisturbed : (sectionOf k os).disturbed = false) :
    ∃ s trades w ti, σ.symbolStates.lookup k = some s ∧
      (sectionOf k os).seen.length = calcTypes.length ∧
      (∀ c ∈ (sectionOf k os).seen, SameEntries trades c ∧ ReadsAs c w) ∧
      CountersAtLock P acts k ti ∧ s.features = Window.features ti w ∧
      s.features.vol = s.wapState.denom := by
  have htracked := tracked_of_execute k h
  rw [hdone] at htracked
  obtain ⟨hlength, hsection⟩ := htracked rfl
  obtain ⟨s₀, s₁, s, hs, hreset, hopened, hpasses, heq, _, hseen⟩ := hsection hundisturbed
  rw [List.take_length] at hpasses
  have hcompute : computeSymbol calcTypes s₀ = .ok () s₁ := by
    rw [computeSymbol_eq, hreset]
    exact hpasses
  obtain ⟨w, hreads⟩ := readable_of_computeSymbol hcompute
  obtain ⟨trades, _, hok⟩ := computeSymbol_ok hreads
  rw [hok] at hcompute
  cases hcompute
  refine ⟨s, s₀.trades, w, s₀.tiState, hs, hlength, fun c hc => ?_, hopened, ?_, ?_⟩
  · exact ⟨hseen c hc, hreads.sameEntries (hseen c hc)⟩
  · rw [heq]
    rfl
  · rw [heq]
    rfl

/-- The first trade is ingested and the scheduler starts on `A`. -/
def untilReset : List Act :=
  [.receive twoTrades, .message, .message, .message, .loop, .dequeue, .push,
    .readClock 2000000000000, .evict, .tick, .lock "A", .reset]

/-- The second trade is pushed between the volume pass and the pass after it. -/
def pushBetweenPasses : List Act :=
  untilReset ++ [.pass, .pass, .loop, .dequeue, .push, .pass, .pass, .pass, .pass]

/-- The passes saw one trade, one trade and then two: the volume is not the
denominator of the weighted average price. -/
theorem torn_window : ∃ σ os s, execute (System.step Platform.listed) pushBetweenPasses {} =
      some (σ, os) ∧
    σ.scheduler = .computing ["A"] [] "A" calcTypes.length ∧
    σ.symbolStates.lookup "A" = some s ∧
    (sectionOf "A" os).seen.map List.length = [1, 1, 2, 2, 2, 2] ∧
    s.features.vol = 1 ∧ s.wapState.denom = 3 := by
  have hrun : (execute (System.step Platform.listed) pushBetweenPasses {}).map (fun r =>
      (r.1.scheduler,
        (r.1.symbolStates.lookup "A").map fun s => (s.features.vol, s.wapState.denom),
        (sectionOf "A" r.2).seen.map List.length)) =
      some (.computing ["A"] [] "A" calcTypes.length, some (1, 3), [1, 1, 2, 2, 2, 2]) := by
    decide +kernel
  obtain ⟨⟨σ, os⟩, hexec, heq⟩ := Option.map_eq_some_iff.mp hrun
  simp only [Prod.mk.injEq] at heq
  obtain ⟨hscheduler, hs, hseen⟩ := heq
  obtain ⟨s, hs, hnumbers⟩ := Option.map_eq_some_iff.mp hs
  simp only [Prod.mk.injEq] at hnumbers
  exact ⟨σ, os, s, hexec, hscheduler, hs, hseen, hnumbers.1, hnumbers.2⟩

/-- With the second trade left on the queue the section is undisturbed. -/
theorem single_window_sample : ∃ σ os s trades w ti,
    execute (System.step Platform.listed) (untilReset ++ List.replicate 6 .pass) {} =
      some (σ, os) ∧
    σ.symbolStates.lookup "A" = some s ∧ (sectionOf "A" os).seen.length = calcTypes.length ∧
    (∀ c ∈ (sectionOf "A" os).seen, SameEntries trades c ∧ ReadsAs c w) ∧
    CountersAtLock Platform.listed (untilReset ++ List.replicate 6 .pass) "A" ti ∧
    s.features = Window.features ti w ∧ s.features.vol = s.wapState.denom := by
  have hrun :
      (execute (System.step Platform.listed) (untilReset ++ List.replicate 6 .pass) {}).map
      (fun r => (r.1.scheduler, (sectionOf "A" r.2).disturbed)) =
      some (.computing ["A"] [] "A" calcTypes.length, false) := by
    decide +kernel
  obtain ⟨⟨σ, os⟩, hexec, heq⟩ := Option.map_eq_some_iff.mp hrun
  simp only [Prod.mk.injEq] at heq
  obtain ⟨s, trades, w, ti, hwindow⟩ := single_window hexec heq.1 heq.2
  exact ⟨σ, os, s, trades, w, ti, hexec, hwindow⟩

end TradeProcessor
