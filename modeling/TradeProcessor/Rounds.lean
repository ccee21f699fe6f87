/-
  Rounds.lean --- from the messages to the features, under every interleaving.

  While `computeFeatures` is at a symbol, the worker may push and pop between two
  passes, so the six features of a round need not come from one window.  What can be
  said of every interleaving is this: each pass goes over the trades that were
  received for the symbol, from as many as have been popped up to as many as have been
  pushed; and the features are what the calculators make of the windows of these
  passes.  `replay` is the model of a symbol that says so: it knows windows only, and
  no threads, deques or JSON.
-/
import TradeProcessor.Consistency
import TradeProcessor.Logger
import TradeProcessor.Published
import TradeProcessor.Rehash

set_option autoImplicit false

namespace TradeProcessor

open TradeProcessor.Json TradeProcessor.Library

/-! ## The model -/

/-- The calculators of `main` one after the other, each over a window of its own. -/
def roundEffects (windows : List (List Trade)) (s : SymbolState) : SymbolState :=
  (calcTypes.zip windows).foldl (fun s cw => cw.1.effect cw.2 s) s

/-- A symbol after some rounds of `computeFeatures`. -/
def replay (rounds : List (List (List Trade))) : SymbolState :=
  rounds.foldl (fun s windows => roundEffects windows s.resetFeatures) {}

theorem replay_concat (rounds : List (List (List Trade))) (windows : List (List Trade)) :
    replay (rounds ++ [windows]) = roundEffects windows (replay rounds).resetFeatures := by
  simp [replay]

theorem roundEffects_concat {windows : List (List Trade)} {c : CalcType}
    (hc : calcTypes[windows.length]? = some c) (w : List Trade) (s : SymbolState) :
    roundEffects (windows ++ [w]) s = c.effect w (roundEffects windows s) := by
  obtain ⟨hlt, hget⟩ := List.getElem?_eq_some_iff.mp hc
  have hsplit : calcTypes = calcTypes.take windows.length ++
      c :: calcTypes.drop (windows.length + 1) := by
    rw [← hget, ← List.drop_eq_getElem_cons hlt, List.take_append_drop]
  have htake : (calcTypes.take windows.length).length = windows.length := by
    rw [List.length_take]
    omega
  have hzip : calcTypes.zip (windows ++ [w]) = calcTypes.zip windows ++ [(c, w)] := by
    have hzipped : ∀ rest : List (List Trade), calcTypes.zip (windows ++ rest) =
        (calcTypes.take windows.length).zip windows ++
          (c :: calcTypes.drop (windows.length + 1)).zip rest := by
      intro rest
      rw [← List.zip_append htake, ← hsplit]
    have hnone := hzipped []
    rw [List.append_nil, List.zip_nil_right, List.append_nil] at hnone
    rw [hzipped, hnone, List.zip_cons_cons, List.zip_nil_right]
  rw [roundEffects, hzip, List.foldl_append]
  rfl

/-- A round over one window publishes the features of this window. -/
theorem features_replay_concat (rounds : List (List (List Trade))) (w : List Trade) :
    (replay (rounds ++ [List.replicate calcTypes.length w])).features =
      Window.features (replay rounds).tiState w := by
  have hzip : calcTypes.zip (List.replicate calcTypes.length w) =
      calcTypes.map fun c => (c, w) := rfl
  rw [replay_concat, roundEffects, hzip, List.foldl_map]
  exact congrArg SymbolState.features (effects_calcTypes w (replay rounds))

/-! ## What the outputs record -/

/-- What the passes over the symbol went over. -/
def passedOver (k : String) (os : List Output) : List (List Value) :=
  os.filterMap fun o =>
    match o with
    | .passed symbol trades => if symbol = k then some trades else none
    | _ => none

/-- The trades of the symbol that came with messages. -/
def receivedFor (P : Platform) (k : String) (os : List Output) : List Value :=
  (receivedOf os).filter fun x => symbolOf P x = some k

theorem passedOver_append (k : String) (os os' : List Output) :
    passedOver k (os ++ os') = passedOver k os ++ passedOver k os' := by
  simp [passedOver]

theorem pushedTo_isPrefix (k : String) {os os' : List Output} (h : os <+: os') :
    pushedTo k os <+: pushedTo k os' := by
  obtain ⟨rest, rfl⟩ := h
  rw [pushedTo_append]
  exact List.prefix_append _ _

variable {P : Platform} {σ σ' : System} {os os' : List Output} {a : Act} {k : String}

/-- What is on the deques came first. -/
theorem InOrder.pushedTo_isPrefix (h : InOrder P os σ) (k : String) :
    pushedTo k os <+: receivedFor P k os := by
  rw [h.symbols k, receivedFor, h.message, h.queue, h.worker]
  simp only [List.append_assoc]
  exact (List.prefix_append _ _).filter _

/-! ## Where the windows are -/

/-- Each pass went over what was pushed and not popped at the time. -/
def Windowed (k : String) : List Output → Prop :=
  EachOutput fun before o => ∀ trades, o = .passed k trades →
    trades = (pushedTo k before).drop (poppedFrom k before)

theorem windowed_step (h : Windowed k os)
    (hheld : held (σ.symbolStates.lookup k) = (pushedTo k os).drop (poppedFrom k os))
    (hmove : Moves P σ a σ' os') : Windowed k (os ++ os') := by
  refine h.append ?_
  cases hmove with
  | pass hscheduler hc hs hpass =>
      refine eachOutput_singleton.mpr fun trades ho => ?_
      cases ho
      rw [hs] at hheld
      rw [List.append_nil]
      exact hheld
  | _ => exact EachOutput.of_forall (by simp)

/-! ## What the features are -/

/-- The passes that the scheduler has made over the symbol, if it is at it. -/
def SchedulerThread.passesOver (k : String) : SchedulerThread → Option Nat
  | .computing _ _ symbol n => if symbol = k then some n else none
  | _ => none

/-- The numbers of the contents that passes went over. -/
def windowsOf (seen : List (List Value)) : List (List Trade) := seen.map windowOf

/-- A symbol after some rounds, and in the middle of one, if there is one. -/
def midRound (rounds : List (List (List Value))) : Option (List (List Value)) → SymbolState
  | none => replay (rounds.map windowsOf)
  | some seen => roundEffects (windowsOf seen) (replay (rounds.map windowsOf)).resetFeatures

/-- The state of the symbol, its deque apart, is that of the model for the passes made. -/
structure Replayed (k : String) (os : List Output) (scheduler : SchedulerThread)
    (o : Option SymbolState) (rounds : List (List (List Value)))
    (current : Option (List (List Value))) : Prop where
  complete : ∀ seen ∈ rounds, seen.length = calcTypes.length
  made : current.map List.length = scheduler.passesOver k
  passed : passedOver k os = rounds.flatten ++ current.getD []
  state : o.getD {} = { midRound rounds current with trades := held o }

theorem replayed_start (k : String) : Replayed k [] .idle none [] none where
  complete := by simp
  made := rfl
  passed := rfl
  state := rfl

theorem getD_held (o : Option SymbolState) :
    { o.getD {} with trades := held o } = o.getD {} := by
  cases o <;> rfl

/-- A write to a deque is a write to nothing else. -/
theorem scratch_insert {m : SymbolMap} {j : String} {s : SymbolState} (hs : m.lookup j = some s)
    (trades : List Value) (k : String) :
    ((m.insert j { s with trades := trades }).lookup k).getD {} =
      { (m.lookup k).getD {} with
        trades := held ((m.insert j { s with trades := trades }).lookup k) } := by
  by_cases hk : k = j
  · subst hk
    rw [AList.lookup_insert, hs]
    rfl
  · rw [AList.lookup_insert_ne hk, getD_held]

theorem scratch_pushed (m : SymbolMap) (j : String) (item : Value) (k : String) :
    ((m.pushed j item).lookup k).getD {} =
      { (m.lookup k).getD {} with trades := held ((m.pushed j item).lookup k) } := by
  by_cases hk : k = j
  · subst hk
    rw [lookup_pushed]
    rfl
  · rw [lookup_pushed_ne hk, getD_held]

section Step

variable {scheduler scheduler' : SchedulerThread} {o o' : Option SymbolState}
  {rounds : List (List (List Value))} {current : Option (List (List Value))}

/-- What is no pass over the symbol writes at most its deque. -/
theorem Replayed.frame (h : Replayed k os scheduler o rounds current)
    (hpassed : passedOver k os' = [])
    (hmade : scheduler'.passesOver k = scheduler.passesOver k)
    (ho : o'.getD {} = { o.getD {} with trades := held o' }) :
    Replayed k (os ++ os') scheduler' o' rounds current where
  complete := h.complete
  made := h.made.trans hmade.symm
  passed := by rw [passedOver_append, hpassed, List.append_nil, h.passed]
  state := by rw [ho, h.state]

/-- `resetFeatures` begins a round. -/
theorem Replayed.reset {s : SymbolState} (h : Replayed k os scheduler (some s) rounds current)
    (hbefore : scheduler.passesOver k = none) (hafter : scheduler'.passesOver k = some 0) :
    Replayed k os scheduler' (some s.resetFeatures) rounds (some []) := by
  have hnone : current = none := by
    have hmade := h.made
    rw [hbefore] at hmade
    exact Option.map_eq_none_iff.mp hmade
  have hstate := h.state
  subst hnone
  refine ⟨h.complete, hafter.symm, h.passed, ?_⟩
  rw [Option.getD_some] at hstate ⊢
  rw [hstate]
  rfl

/-- A pass has the effect of its calculator, over what the deque reads as. -/
theorem Replayed.pass {s s' : SymbolState} {c : CalcType} {n : Nat}
    (h : Replayed k os scheduler (some s) rounds current)
    (hbefore : scheduler.passesOver k = some n) (hafter : scheduler'.passesOver k = some (n + 1))
    (hc : calcTypes[n]? = some c) (hreads : ReadsAs s.trades (windowOf s.trades))
    (hpass : c.process s = .ok () s') :
    Replayed k (os ++ [.passed k s.trades]) scheduler' (some s') rounds
      (some (current.getD [] ++ [s.trades])) := by
  have hmade := h.made
  rw [hbefore] at hmade
  obtain ⟨seen, rfl, hlength⟩ := Option.map_eq_some_iff.mp hmade
  have hstate := h.state
  rw [Option.getD_some] at hstate
  obtain ⟨trades, _, hok⟩ := c.process_ok hreads
  rw [hpass] at hok
  cases hok
  refine ⟨h.complete, ?_, ?_, ?_⟩
  · rw [hafter, Option.map_some, Option.getD_some, List.length_append, hlength]
    rfl
  · rw [passedOver_append, h.passed, List.append_assoc]
    simp [passedOver]
  · have hwindows : windowsOf (seen ++ [s.trades]) = windowsOf seen ++ [windowOf s.trades] := by
      simp [windowsOf]
    have hnext : calcTypes[(windowsOf seen).length]? = some c := by
      rw [windowsOf, List.length_map, hlength, hc]
    rw [Option.getD_some, Option.getD_some, midRound, hwindows, roundEffects_concat hnext]
    have heffect : c.effect (windowOf s.trades) s =
        { c.effect (windowOf s.trades) (midRound rounds (some seen)) with trades := s.trades } :=
      (congrArg (c.effect (windowOf s.trades)) hstate).trans (c.effect_trades _ _ _)
    exact congrArg (fun t : SymbolState => { t with trades := trades }) heffect

/-- `release` ends a round. -/
theorem Replayed.release (h : Replayed k os scheduler o rounds current)
    (hbefore : scheduler.passesOver k = some calcTypes.length)
    (hafter : scheduler'.passesOver k = none) :
    Replayed k (os ++ [.released k]) scheduler' o (rounds ++ [current.getD []]) none := by
  have hmade := h.made
  rw [hbefore] at hmade
  obtain ⟨seen, rfl, hlength⟩ := Option.map_eq_some_iff.mp hmade
  refine ⟨?_, hafter.symm, ?_, ?_⟩
  · intro r hr
    rcases List.mem_append.mp hr with hold | hnew
    · exact h.complete r hold
    · rw [List.mem_singleton.mp hnew]
      exact hlength
  · rw [passedOver_append, h.passed]
    simp [passedOver]
  · rw [h.state, midRound, midRound, List.map_append, List.map_singleton, replay_concat]
    rfl

end Step

/-- Every entry of the deque of the symbol can be read. -/
theorem InOrder.readsAs (h : InOrder P os σ) (hwf : ∀ x ∈ receivedOf os, WellFormed x)
    (hstamped : StampedMap σ.symbolStates) {j : String} {s : SymbolState}
    (hs : σ.symbolStates.lookup j = some s) : ReadsAs s.trades (windowOf s.trades) := by
  apply readsAs_windowOf
  intro x hx
  have hwell : WellFormed x := hwf x (h.held_subset j (by rw [hs]; exact hx))
  obtain ⟨hmem, t, ht⟩ := hstamped j s hs x hx
  obtain ⟨v, hv, _⟩ := hwell.v
  obtain ⟨p, hp, _⟩ := hwell.p
  exact ⟨⟨t, v, p⟩, Value.subscriptable_of_hasMember hmem, ht, Value.asDouble_of_number hv,
    Value.asDouble_of_number hp⟩

theorem replayed_step {rounds : List (List (List Value))} {current : Option (List (List Value))}
    (h : Replayed k os σ.scheduler (σ.symbolStates.lookup k) rounds current)
    (hreads : ∀ j s, σ.symbolStates.lookup j = some s → ReadsAs s.trades (windowOf s.trades))
    (hmove : Moves P σ a σ' os') :
    ∃ rounds' current', Replayed k (os ++ os') σ'.scheduler (σ'.symbolStates.lookup k) rounds'
      current' := by
  cases hmove with
  | push hworker hpush =>
      obtain ⟨_, _, rfl, rfl⟩ := pushItem_eq_ok hpush
      exact ⟨_, _, h.frame (by simp [passedOver]) rfl (scratch_pushed _ _ _ k)⟩
  | pop hworker hs hpop =>
      exact ⟨_, _, h.frame (by simp [passedOver]) rfl (scratch_insert hs _ k)⟩
  | evictEnd hworker hs hend => exact ⟨_, _, h.frame rfl rfl (scratch_insert hs _ k)⟩
  | tick hscheduler hrun =>
      exact ⟨_, _, h.frame rfl (by simp [hscheduler, SchedulerThread.passesOver])
        (getD_held _).symm⟩
  | lock hscheduler hsymbol =>
      exact ⟨_, _, h.frame rfl (by simp [hscheduler, SchedulerThread.passesOver])
        (getD_held _).symm⟩
  | finish hscheduler hall =>
      exact ⟨_, _, h.frame rfl (by simp [hscheduler, SchedulerThread.passesOver])
        (getD_held _).symm⟩
  | @reset started visited symbol s hscheduler hs =>
      by_cases hk : symbol = k
      · subst hk
        rw [hs] at h
        rw [AList.lookup_insert, List.append_nil]
        exact ⟨_, _, h.reset (by rw [hscheduler]; rfl) (by simp [SchedulerThread.passesOver])⟩
      · rw [AList.lookup_insert_ne (Ne.symm hk)]
        exact ⟨_, _, h.frame rfl (by simp [hscheduler, SchedulerThread.passesOver, hk])
          (getD_held _).symm⟩
  | @pass started visited symbol n c s s' hscheduler hc hs hpass =>
      by_cases hk : symbol = k
      · subst hk
        rw [hs] at h
        rw [AList.lookup_insert]
        exact ⟨_, _, h.pass (by simp [hscheduler, SchedulerThread.passesOver])
          (by simp [SchedulerThread.passesOver]) hc (hreads _ _ hs) hpass⟩
      · rw [AList.lookup_insert_ne (Ne.symm hk)]
        exact ⟨_, _, h.frame (by simp [passedOver, hk])
          (by simp [hscheduler, SchedulerThread.passesOver, hk]) (getD_held _).symm⟩
  | @release started visited symbol hscheduler =>
      by_cases hk : symbol = k
      · subst hk
        exact ⟨_, _, h.release (by simp [hscheduler, SchedulerThread.passesOver]) rfl⟩
      · exact ⟨_, _, h.frame rfl (by simp [hscheduler, SchedulerThread.passesOver, hk])
          (getD_held _).symm⟩
  | _ => exact ⟨_, _, h.frame rfl rfl (getD_held _).symm⟩

/-! ## Every interleaving -/

/-- What is kept along a run that is fed with messages of the feed. -/
structure Rounds (P : Platform) (k : String) (os : List Output) (σ : System) : Prop where
  inOrder : InOrder P os σ
  stamped : StampedMap σ.symbolStates
  windowed : Windowed k os
  replayed : ∃ rounds current,
    Replayed k os σ.scheduler (σ.symbolStates.lookup k) rounds current

theorem rounds_start (P : Platform) (k : String) : Rounds P k [] {} where
  inOrder := inOrder_init
  stamped := stampedMap_empty
  windowed := eachOutput_nil
  replayed := ⟨[], none, replayed_start k⟩

theorem rounds_step (h : Rounds P k os σ) (hwf : ∀ x ∈ receivedOf os, WellFormed x)
    (hmove : Moves P σ a σ' os') : Rounds P k (os ++ os') σ' where
  inOrder := h.inOrder.step hwf hmove
  stamped := stamped_step h.stamped hmove
  windowed := windowed_step h.windowed (h.inOrder.deques k).1 hmove
  replayed := by
    obtain ⟨rounds, current, hreplayed⟩ := h.replayed
    exact replayed_step hreplayed (fun _ _ => h.inOrder.readsAs hwf h.stamped) hmove

theorem rounds_of_execute {as : List Act} (k : String)
    (h : execute (System.step P) as {} = some (σ, os))
    (hfeed : ∀ root, Output.received root ∈ os → FeedMessage root) : Rounds P k os σ := by
  refine execute_invariant_init
    (fun os σ => (∀ root, Output.received root ∈ os → FeedMessage root) → Rounds P k os σ)
    ?_ (fun _ => rounds_start P k) h hfeed
  intro os σ a σ' os' hinv hstep hfeed'
  have hfeed : ∀ root, Output.received root ∈ os → FeedMessage root := fun root hroot =>
    hfeed' root (List.mem_append_left _ hroot)
  exact rounds_step (hinv hfeed) (wellFormed_of_received hfeed) (step_moves hstep)

theorem feedMessage_twoTrades : FeedMessage twoTrades := by
  refine ⟨_, rfl, fun item hitem => ?_⟩
  simp only [List.mem_cons, List.not_mem_nil, or_false] at hitem
  rcases hitem with rfl | rfl
  · exact wellFormed_feedItem "A" _ (by norm_num) (by norm_num)
  · exact wellFormed_feedItem "A" _ (by norm_num) (by norm_num)

end TradeProcessor
