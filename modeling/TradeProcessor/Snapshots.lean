/-
  Snapshots.lean --- what the logger can see.

  `computeFeatures` writes the features of a symbol many times while it holds the
  mutex, and publishes them when it releases it; `process` writes no features.  So
  whenever the scheduler does not hold the mutex of a symbol, its features are the
  ones published last, and that is when the logger copies them.
-/
import TradeProcessor.Library.Mutexes
import TradeProcessor.Logger
import TradeProcessor.Runs

set_option autoImplicit false

namespace TradeProcessor

open TradeProcessor.Json TradeProcessor.Library

/-! ## Publications -/

/-- What has been published for a symbol, in order. -/
def publications (k : String) (out : List LogOutput) : List Features :=
  out.filterMap fun o =>
    match o with
    | .published symbol features => if symbol = k then some features else none
    | _ => none

/-- The features published last; the default ones, if there are none. -/
def latest (out : List LogOutput) (k : String) : Features :=
  ((publications k out).getLast?).getD {}

@[simp] theorem publications_append (k : String) (out out' : List LogOutput) :
    publications k (out ++ out') = publications k out ++ publications k out' := by
  simp [publications]

@[simp] theorem publications_program (k : String) (os : List Output) :
    publications k (os.map LogOutput.program) = [] := by
  induction os with
  | nil => rfl
  | cons o os ih => exact ih

theorem latest_append_of_nil {out' : List LogOutput} (h : ∀ k, publications k out' = [])
    (out : List LogOutput) : latest (out ++ out') = latest out := by
  funext k
  simp [latest, h k]

theorem latest_published (out : List LogOutput) (os : List Output) (k : String)
    (features : Features) :
    latest (out ++ (os.map LogOutput.program ++ [.published k features])) =
      Function.update (latest out) k features := by
  funext j
  rcases eq_or_ne j k with rfl | hjk
  · simp [latest, publications]
  · simp [latest, publications, Ne.symm hjk, Function.update_of_ne hjk]

/-! ## Who writes features -/

variable {P : Platform}

/-- The features of every symbol. -/
def System.features (σ : System) (k : String) : Features := featuresOf (σ.symbolStates.lookup k)

theorem featuresOf_insert_same {m : SymbolMap} {k : String} {s s' : SymbolState}
    (hs : m.lookup k = some s) (hsame : s'.features = s.features) (j : String) :
    featuresOf ((m.insert k s').lookup j) = featuresOf (m.lookup j) := by
  rcases eq_or_ne j k with rfl | hjk
  · rw [AList.lookup_insert, hs]
    exact hsame
  · rw [AList.lookup_insert_ne hjk]

theorem featuresOf_pushed (m : SymbolMap) (k : String) (item : Value) (j : String) :
    featuresOf ((m.pushed k item).lookup j) = featuresOf (m.lookup j) := by
  rcases eq_or_ne j k with rfl | hjk
  · rw [lookup_pushed]
    rfl
  · rw [lookup_pushed_ne hjk]

/-- A step that takes or gives back no mutex writes no features: in particular no step
of `process` does. -/
theorem plain_step {σ σ' : System} {a : Act} {os : List Output} (hmove : Moves P σ a σ' os)
    (ha : a.plain = true ∨ a = .evict) :
    σ'.scheduler.holds = σ.scheduler.holds ∧ σ'.features = σ.features := by
  cases hmove with
  | push _ hpush =>
      obtain ⟨_, _, _, rfl⟩ := pushItem_eq_ok hpush
      exact ⟨rfl, funext fun k => featuresOf_pushed _ _ _ k⟩
  | pop _ hs _ | evictEnd _ hs _ =>
      refine ⟨rfl, funext fun k => ?_⟩
      unfold System.features
      apply featuresOf_insert_same hs
      rfl
  | tick hscheduler _ => exact ⟨by rw [hscheduler]; rfl, rfl⟩
  | finish hscheduler _ => exact ⟨by rw [hscheduler]; rfl, rfl⟩
  | lock _ _ | reset _ _ | pass _ _ _ _ | release _ => simp [Act.plain] at ha
  | _ => exact ⟨rfl, rfl⟩

theorem holds_of_locked {σ : System} {started visited : List String} {symbol : String}
    (h : σ.scheduler = .locked started visited symbol) : σ.scheduler.holds = some symbol := by
  rw [h]
  rfl

theorem holds_of_computing {σ : System} {started visited : List String} {symbol : String}
    {n : Nat}
    (h : σ.scheduler = .computing started visited symbol n) :
    σ.scheduler.holds = some symbol := by
  rw [h]
  rfl

/-! ## The mutexes -/

/-- The symbol that a thread is at work on. -/
def LoggedSystem.holds (l : LoggedSystem) : Owner → Option String
  | .scheduler => l.system.scheduler.holds
  | .logger => l.logger.holds

/-- The mutexes know their owners, and the features of a symbol that the scheduler is
not at work on are the ones published last. -/
structure Guarded (out : List LogOutput) (l : LoggedSystem) : Prop where
  owned : Owned l.owner l.holds
  settled : Settled l.owner .scheduler l.system.features (latest out)

theorem guarded_start : Guarded [] {} where
  owned := fun k t => by
    cases t <;> simp [LoggedSystem.holds, SchedulerThread.holds, LoggerThread.holds]
  settled := fun k _ => rfl

variable {l l' : LoggedSystem} {out out' : List LogOutput}

theorem holds_of_scheduler {held : Option String}
    (hscheduler : l'.system.scheduler.holds = held) (hlogger : l'.logger = l.logger) :
    l'.holds = Function.update l.holds .scheduler held := by
  funext t
  cases t with
  | scheduler => rw [Function.update_self, ← hscheduler, LoggedSystem.holds]
  | logger =>
      rw [Function.update_of_ne (by decide), LoggedSystem.holds, LoggedSystem.holds, hlogger]

theorem holds_of_logger {held : Option String} (hlogger : l'.logger.holds = held)
    (hscheduler : l'.system.scheduler = l.system.scheduler) :
    l'.holds = Function.update l.holds .logger held := by
  funext t
  cases t with
  | logger => rw [Function.update_self, ← hlogger, LoggedSystem.holds]
  | scheduler =>
      rw [Function.update_of_ne (by decide), LoggedSystem.holds, LoggedSystem.holds, hscheduler]

/-- A step that takes and gives back no mutex, publishes nothing, and writes features
at most of the symbol that the scheduler is at work on. -/
theorem Guarded.keep (h : Guarded out l) (howner : l'.owner = l.owner)
    (hscheduler : l'.system.scheduler.holds = l.system.scheduler.holds)
    (hlogger : l'.logger.holds = l.logger.holds)
    (hfeatures : ∀ k, l.system.scheduler.holds ≠ some k →
      l'.system.features k = l.system.features k)
    (hout : ∀ k, publications k out' = []) : Guarded (out ++ out') l' where
  owned := by
    have hholds : l'.holds = l.holds := by
      funext t
      cases t
      · exact hscheduler
      · exact hlogger
    rw [howner, hholds]
    exact h.owned
  settled := by
    rw [howner, latest_append_of_nil hout]
    refine h.settled.write fun k hk => hfeatures k fun hholds => hk ?_
    exact (h.owned k .scheduler).mpr hholds

/-- A thread takes the free mutex of a symbol. -/
theorem Guarded.take (h : Guarded out l) {t : Owner} {k : String} (hfree : l.owner k = none)
    (hidle : l.holds t = none) (howner : l'.owner = Function.update l.owner k (some t))
    (hholds : l'.holds = Function.update l.holds t (some k))
    (hfeatures : l'.system.features = l.system.features) (hout : ∀ j, publications j out' = []) :
    Guarded (out ++ out') l' where
  owned := by
    rw [howner, hholds]
    exact h.owned.acquire hfree hidle
  settled := by
    rw [howner, hfeatures, latest_append_of_nil hout]
    exact h.settled.acquire hfree

/-- The logger gives a mutex back. -/
theorem Guarded.giveBack (h : Guarded out l) {k : String} (hlogger : l.holds .logger = some k)
    (howner : l'.owner = Function.update l.owner k none)
    (hholds : l'.holds = Function.update l.holds .logger none)
    (hfeatures : l'.system.features = l.system.features) (hout : ∀ j, publications j out' = []) :
    Guarded (out ++ out') l' where
  owned := by
    rw [howner, hholds]
    exact h.owned.release hlogger
  settled := by
    rw [howner, hfeatures, latest_append_of_nil hout]
    exact h.settled.release ((h.owned k .logger).mpr hlogger) (by decide)

/-- The scheduler gives a mutex back and publishes the features of the symbol. -/
theorem Guarded.publish (h : Guarded out l) {k : String}
    (hscheduler : l.holds .scheduler = some k)
    (howner : l'.owner = Function.update l.owner k none)
    (hholds : l'.holds = Function.update l.holds .scheduler none)
    (hfeatures : l'.system.features = l.system.features)
    (hout : latest (out ++ out') = Function.update (latest out) k (l.system.features k)) :
    Guarded (out ++ out') l' where
  owned := by
    rw [howner, hholds]
    exact h.owned.release hscheduler
  settled := by
    rw [howner, hfeatures, hout]
    exact h.settled.publish k

/-- Writing features of the symbol that the scheduler holds leaves the others alone. -/
theorem features_insert {σ : System} {k : String} (hholds : σ.scheduler.holds = some k)
    (s' : SymbolState) {j : String} (hj : σ.scheduler.holds ≠ some j) :
    featuresOf ((σ.symbolStates.insert k s').lookup j) = σ.features j := by
  have hjk : j ≠ k := by
    rintro rfl
    exact hj hholds
  rw [AList.lookup_insert_ne hjk, System.features]

/-- Every step keeps the mutexes and what they guard. -/
theorem guarded_step {a : LogAct} (h : Guarded out l) (hmove : l.Moves P a l' out') :
    Guarded (out ++ out') l' := by
  cases hmove with
  | program hplain hstep =>
      obtain ⟨hholds, hfeatures⟩ := plain_step (step_moves hstep) (.inl hplain)
      exact h.keep rfl hholds rfl (fun k _ => congrFun hfeatures k) fun k => by simp
  | evict hstep =>
      obtain ⟨hholds, hfeatures⟩ := plain_step (step_moves hstep) (.inr rfl)
      exact h.keep rfl hholds rfl (fun k _ => congrFun hfeatures k) fun k => by simp
  | lock howner hstep =>
      cases step_moves hstep with
      | lock hscheduler _ =>
          have hidle : l.holds .scheduler = none := by
            rw [LoggedSystem.holds, hscheduler]
            rfl
          exact h.take howner hidle rfl (holds_of_scheduler rfl rfl) rfl fun _ => rfl
  | reset hstep =>
      cases step_moves hstep with
      | reset hscheduler hs =>
          have hholds := holds_of_locked hscheduler
          exact h.keep rfl hholds.symm rfl (fun k hk => features_insert hholds _ hk) fun _ => rfl
  | beginPass _ _ _ => exact h.keep rfl rfl rfl (fun _ _ => rfl) fun _ => rfl
  | entry hscheduler _ _ _ _ _ | strayEntry hscheduler _ _ =>
      have hholds := holds_of_computing hscheduler
      exact h.keep rfl rfl rfl (fun k hk => features_insert hholds _ hk) fun _ => rfl
  | endPass hscheduler _ _ _ =>
      have hholds := holds_of_computing hscheduler
      exact h.keep rfl hholds.symm rfl (fun k hk => features_insert hholds _ hk) fun _ => rfl
  | release hholds hstep =>
      cases step_moves hstep with
      | release _ =>
          exact h.publish hholds rfl (holds_of_scheduler rfl rfl) rfl (latest_published _ _ _ _)
  | wake hlogger =>
      refine h.keep rfl rfl ?_ (fun _ _ => rfl) fun _ => rfl
      rw [hlogger]
      dsimp only
      split <;> rfl
  | logLock hlogger hsymbol =>
      obtain ⟨_, _, howner⟩ := hsymbol
      have hidle : l.holds .logger = none := by
        rw [LoggedSystem.holds, hlogger]
        rfl
      exact h.take howner hidle rfl (holds_of_logger rfl rfl) rfl fun _ => rfl
  | copy hlogger => exact h.keep rfl rfl (by rw [hlogger]; rfl) (fun _ _ => rfl) fun _ => rfl
  | @logUnlock _ _ symbol _ hlogger =>
      have hholds : l.holds .logger = some symbol := by
        rw [LoggedSystem.holds, hlogger]
        rfl
      exact h.giveBack hholds rfl (holds_of_logger rfl rfl) rfl fun _ => rfl
  | print hlogger => exact h.keep rfl rfl (by rw [hlogger]; rfl) (fun _ _ => rfl) fun _ => rfl
  | endRound hlogger _ =>
      exact h.keep rfl rfl (by rw [hlogger]; rfl) (fun _ _ => rfl) fun _ => rfl

/-! ## Snapshots -/

/-- Every snapshot has the features published last before it was taken. -/
def Faithful (out : List LogOutput) : Prop :=
  ∀ before k features after, out = before ++ .snapshot k features :: after →
    features = latest before k

/-- Outputs without a snapshot, or one snapshot of what was published last. -/
theorem Faithful.append (h : Faithful out)
    (hout : ∀ before k features after, out' = before ++ .snapshot k features :: after →
      features = latest (out ++ before) k) : Faithful (out ++ out') := by
  intro before k features after heq
  rcases List.append_eq_append_iff.mp heq with ⟨before', rfl, hright⟩ | ⟨after', hleft, hright⟩
  · exact hout before' k features after hright
  · cases after' with
    | nil =>
        rw [List.append_nil] at hleft
        subst hleft
        have hfirst := hout [] k features after (by rw [List.nil_append]; exact hright.symm)
        rwa [List.append_nil] at hfirst
    | cons o after' =>
        obtain ⟨rfl, _⟩ := List.cons_eq_cons.mp hright
        exact h before k features after' hleft

theorem faithful_nil : Faithful [] := by
  intro before k features after heq
  simp at heq

theorem Faithful.append_quiet (h : Faithful out)
    (hout : ∀ k features, LogOutput.snapshot k features ∉ out') : Faithful (out ++ out') := by
  apply h.append
  rintro before k features after rfl
  exact absurd (by simp) (hout k features)

/-- Only `copy` takes a snapshot, and it does so under the mutex. -/
theorem faithful_step {a : LogAct} (hguard : Guarded out l) (h : Faithful out)
    (hmove : l.Moves P a l' out') : Faithful (out ++ out') := by
  cases hmove with
  | @copy _ _ symbol hlogger =>
      have hholds : l.holds .logger = some symbol := by
        rw [LoggedSystem.holds, hlogger]
        rfl
      have hread := hguard.settled.read hguard.owned hholds (by decide)
      apply h.append
      intro before k features after heq
      cases before with
      | nil =>
          cases heq
          rw [List.append_nil, ← hread]
          rfl
      | cons o before => simp at heq
  | _ => exact h.append_quiet (by simp)

theorem guarded_of_execute {as : List LogAct}
    (h : execute (LoggedSystem.step P) as {} = some (l, out)) : Guarded out l ∧ Faithful out :=
  execute_invariant_init (fun out l => Guarded out l ∧ Faithful out)
    (fun _ _ _ _ _ hl hstep => ⟨guarded_step hl.1 (logged_moves hstep),
      faithful_step hl.1 hl.2 (logged_moves hstep)⟩) ⟨guarded_start, faithful_nil⟩ h

/-- `computeFeatures` and the logger are never at work on the same symbol. -/
theorem mutual_exclusion {as : List LogAct}
    (h : execute (LoggedSystem.step P) as {} = some (l, out)) {k : String}
    (hscheduler : l.system.scheduler.holds = some k) : l.logger.holds ≠ some k := by
  intro hlogger
  have hfirst : l.holds .scheduler = some k := hscheduler
  have hsecond : l.holds .logger = some k := hlogger
  cases (guarded_of_execute h).1.owned.eq_of_holds hfirst hsecond

/-- Snapshot atomicity.  Whatever the interleaving of `computeFeatures`, entry by entry,
with the logger and with `process`, each snapshot of a symbol has the features that
the last finished computation of the symbol left, or the default features when none
has finished. -/
theorem snapshot_atomic {as : List LogAct}
    (h : execute (LoggedSystem.step P) as {} = some (l, out)) {before after : List LogOutput}
    {k : String} {features : Features} (hout : out = before ++ .snapshot k features :: after) :
    publications k before = [] ∧ features = {} ∨
      (publications k before).getLast? = some features := by
  have hlatest := (guarded_of_execute h).2 before k features after hout
  cases hlast : (publications k before).getLast? with
  | none =>
      left
      refine ⟨List.getLast?_eq_none_iff.mp hlast, ?_⟩
      rw [hlatest, latest, hlast]
      rfl
  | some published =>
      right
      rw [hlatest, latest, hlast]
      rfl

/-- The snapshot that an output shows. -/
def LogOutput.taken : LogOutput → Option (String × Features)
  | .snapshot symbol features => some (symbol, features)
  | _ => none

/-- One trade of `A` is ingested. -/
def ingestOne : List LogAct :=
  [.program (.receive (.objectValue [("data", .arrayValue [feedItem "A" 1990000 2 10])])),
    .program .message, .program .message, .program .loop, .program .dequeue, .program .push,
    .program (.readClock 2000000000000), .evict]

/-- A pass over a deque with one entry. -/
def onePass : List LogAct := [.beginPass, .entry, .endPass]

/-- The logger looks at `A` before the first computation, and again while the scheduler
waits to begin the second one. -/
def twoLooks : List LogAct :=
  ingestOne ++ [.wake, .logLock "A", .copy, .program .tick, .logUnlock, .lock "A", .reset] ++
    (List.replicate 6 onePass).flatten ++
    [.print, .endRound, .release, .wake, .logLock "A", .program .finish, .program .tick, .copy]

/-- It sees the default features, and then those of the first computation. -/
example : (execute (LoggedSystem.step Platform.listed) twoLooks {}).map
    (fun r => (r.2.filterMap LogOutput.taken).map fun s => (s.1, s.2.vol)) =
      some [("A", 0), ("A", 2)] := by
  decide +kernel

theorem snapshot_atomic_sample : ∃ l out before after features,
    execute (LoggedSystem.step Platform.listed) twoLooks {} = some (l, out) ∧
    out = before ++ LogOutput.snapshot "A" features :: after ∧
    (publications "A" before = [] ∧ features = {} ∨
      (publications "A" before).getLast? = some features) := by
  have hrun : (execute (LoggedSystem.step Platform.listed) twoLooks {}).map
      (fun r => (r.2.filterMap LogOutput.taken).map Prod.fst) = some ["A", "A"] := by
    decide +kernel
  obtain ⟨⟨l, out⟩, hexec, hsymbols⟩ := Option.map_eq_some_iff.mp hrun
  dsimp only at hsymbols
  have hmem : "A" ∈ (out.filterMap LogOutput.taken).map Prod.fst := by rw [hsymbols]; simp
  obtain ⟨⟨k, features⟩, htaken, rfl⟩ := List.mem_map.mp hmem
  obtain ⟨o, ho, hshows⟩ := List.mem_filterMap.mp htaken
  cases o with
  | snapshot symbol shown =>
      cases hshows
      obtain ⟨before, after, hout⟩ := List.append_of_mem ho
      exact ⟨l, out, before, after, features, hexec, hout, snapshot_atomic hexec hout⟩
  | _ => cases hshows

/-! ## The program below -/

/-- The machine while the logger sleeps and no pass is begun. -/
structure Embeds (σ : System) (l : LoggedSystem) : Prop where
  system : l.system = σ
  logger : l.logger = .sleeping
  iterator : l.iterator = .before

/-- The entries of a pass, up to the `m`-th. -/
theorem entries_run {c : CalcType} {started visited : List String} {symbol : String} {n m : Nat}
    {s s' : SymbolState} (hc : calcTypes[n]? = some c)
    (hscheduler : l.system.scheduler = .computing started visited symbol n)
    (hit : l.iterator = .entry 0) (hs : l.system.symbolStates.lookup symbol = some s)
    (hm : m ≤ s.trades.length) (h : forRange m c.processEntry s = .ok () s') :
    ∃ symbolStates, execute (LoggedSystem.step P) (List.replicate m .entry) l = some ({ l with
        system := { l.system with symbolStates := symbolStates }
        iterator := .entry m }, []) ∧
      symbolStates.lookup symbol = some s' ∧
      ∀ x, symbolStates.insert symbol x = l.system.symbolStates.insert symbol x := by
  induction m generalizing s' with
  | zero =>
      cases h
      refine ⟨l.system.symbolStates, ?_, hs, fun _ => rfl⟩
      rw [← hit]
      rfl
  | succ m ih =>
      rw [forRange_succ, seq_eq_ok_iff] at h
      obtain ⟨mid, hmid, hentry⟩ := h
      obtain ⟨symbolStates, hexec, hlookup, hinsert⟩ := ih (by omega) hmid
      have hlength : mid.trades.length = s.trades.length :=
        (c.entries_sameEntries hmid).length_eq
      have hne : m ≠ mid.trades.length := by omega
      have hstep : LoggedSystem.step P .entry { l with
          system := { l.system with symbolStates := symbolStates }
          iterator := .entry m } = some ({ l with
          system := { l.system with symbolStates := symbolStates.insert symbol s' }
          iterator := .entry (m + 1) }, []) := by
        simp [LoggedSystem.step, LoggedSystem.programStep, hscheduler, hc, hlookup, hne, hentry]
      refine ⟨symbolStates.insert symbol s', ?_, AList.lookup_insert _, fun x => ?_⟩
      · rw [List.replicate_succ']
        exact execute_append hexec (execute_singleton hstep)
      · rw [AList.insert_insert, hinsert]

theorem iteratorAfter_before (hit : l.iterator = .before) (os : List Output) :
    l.iteratorAfter os = .before := by
  unfold LoggedSystem.iteratorAfter
  split
  · split <;> simp [hit, Iterator.popFront]
  · exact hit

/-- While the logger sleeps, the mutex that the scheduler comes to is free. -/
theorem owner_of_sleeping (hguard : Guarded out l) (hlogger : l.logger = .sleeping)
    (hscheduler : l.system.scheduler.holds = none) (k : String) : l.owner k = none := by
  cases howner : l.owner k with
  | none => rfl
  | some t =>
      have hholds := (hguard.owned k t).mp howner
      cases t with
      | scheduler =>
          rw [LoggedSystem.holds, hscheduler] at hholds
          cases hholds
      | logger =>
          rw [LoggedSystem.holds, hlogger] at hholds
          cases hholds

/-- A pass of the program is a pass of the machine, entry by entry. -/
theorem pass_run {c : CalcType} {started visited : List String} {symbol : String} {n : Nat}
    {s s' : SymbolState} (hc : calcTypes[n]? = some c)
    (hscheduler : l.system.scheduler = .computing started visited symbol n)
    (hit : l.iterator = .before) (hs : l.system.symbolStates.lookup symbol = some s)
    (h : c.process s = .ok () s') :
    execute (LoggedSystem.step P)
      (.beginPass :: List.replicate s.trades.length .entry ++ [.endPass]) l = some ({ l with
        system := { l.system with
          scheduler := .computing started visited symbol (n + 1)
          symbolStates := l.system.symbolStates.insert symbol s' } }, []) := by
  have hn : n < calcTypes.length := (List.getElem?_eq_some_iff.mp hc).1
  rw [CalcType.process, Calc.process, bind_of_ok (get_apply s)] at h
  have hlength : s'.trades.length = s.trades.length := (c.entries_sameEntries h).length_eq
  have hbegin : LoggedSystem.step P .beginPass l =
      some ({ l with iterator := .entry 0 }, []) := by
    simp [LoggedSystem.step, LoggedSystem.programStep, hscheduler, hit, hn]
  obtain ⟨symbolStates, hentries, hlookup, hinsert⟩ :=
    entries_run (P := P) (l := { l with iterator := .entry 0 }) hc hscheduler rfl hs le_rfl h
  have hend : LoggedSystem.step P .endPass { l with
      system := { l.system with symbolStates := symbolStates }
      iterator := .entry s.trades.length } = some ({ l with
        system := { l.system with
          scheduler := .computing started visited symbol (n + 1)
          symbolStates := l.system.symbolStates.insert symbol s' } }, []) := by
    simp [LoggedSystem.step, LoggedSystem.programStep, hscheduler, hlookup, hlength, hinsert,
      hit]
  exact execute_append (execute_append (execute_singleton hbegin) hentries)
    (execute_singleton hend)

/-- Each step of the program is some steps of the machine. -/
theorem embeds_step {σ σ' : System} {a : Act} {os : List Output} (hguard : Guarded out l)
    (hl : Embeds σ l) (hstep : System.step P a σ = some (σ', os)) :
    ∃ bs l' out', execute (LoggedSystem.step P) bs l = some (l', out') ∧ Embeds σ' l' := by
  obtain ⟨rfl, hlogger, hit⟩ := hl
  cases hplain : a.plain with
  | true =>
      have hnext : LoggedSystem.step P (.program a) l =
          some ({ l with system := σ' }, os.map LogOutput.program) := by
        simp [LoggedSystem.step, LoggedSystem.programStep, hplain, hstep, within]
      exact ⟨[.program a], _, _, execute_singleton hnext, rfl, hlogger, hit⟩
  | false =>
      cases a with
      | evict =>
          have hnext : LoggedSystem.step P .evict l =
              some ({ l with system := σ', iterator := l.iteratorAfter os },
                os.map LogOutput.program) := by
            simp [LoggedSystem.step, LoggedSystem.programStep, hstep]
          exact ⟨[.evict], _, _, execute_singleton hnext, rfl, hlogger,
            iteratorAfter_before hit os⟩
      | lock symbol =>
          have hidle : l.system.scheduler.holds = none := by
            cases step_moves hstep with
            | lock hscheduler _ =>
                rw [hscheduler]
                rfl
          have howner := owner_of_sleeping hguard hlogger hidle symbol
          have hnext : LoggedSystem.step P (.lock symbol) l =
              some ({ l with
                system := σ'
                owner := Function.update l.owner symbol (some .scheduler) },
                os.map LogOutput.program) := by
            simp [LoggedSystem.step, LoggedSystem.programStep, howner, hstep,
              within]
          exact ⟨[.lock symbol], _, _, execute_singleton hnext, rfl, hlogger, hit⟩
      | reset =>
          have hnext : LoggedSystem.step P .reset l =
              some ({ l with system := σ', iterator := .before }, os.map LogOutput.program) := by
            simp [LoggedSystem.step, LoggedSystem.programStep, hstep, within]
          exact ⟨[.reset], _, _, execute_singleton hnext, rfl, hlogger, rfl⟩
      | pass =>
          cases step_moves hstep with
          | pass hscheduler hc hs hpass =>
              exact ⟨_, _, _, pass_run hc hscheduler hit hs hpass, rfl, hlogger, hit⟩
      | release =>
          obtain ⟨symbol, hholds⟩ : ∃ symbol, l.system.scheduler.holds = some symbol := by
            cases step_moves hstep with
            | release hscheduler =>
                rw [hscheduler]
                exact ⟨_, rfl⟩
          have hnext : LoggedSystem.step P .release l =
              some ({ l with system := σ', owner := Function.update l.owner symbol none },
                os.map LogOutput.program ++
                  [.published symbol (featuresOf (l.system.symbolStates.lookup symbol))]) := by
            simp [LoggedSystem.step, LoggedSystem.programStep, hholds, hstep, within]
          exact ⟨[.release], _, _, execute_singleton hnext, rfl, hlogger, hit⟩
      | _ => cases hplain

/-- Every run of the program is a run of the machine in which the logger sleeps. -/
theorem program_embedded {as : List Act} {σ : System} {os : List Output}
    (h : execute (System.step P) as {} = some (σ, os)) :
    ∃ bs l out, execute (LoggedSystem.step P) bs {} = some (l, out) ∧ Embeds σ l := by
  refine execute_invariant_init
    (fun _ σ => ∃ bs l out, execute (LoggedSystem.step P) bs {} = some (l, out) ∧ Embeds σ l)
    ?_ ⟨[], {}, [], rfl, rfl, rfl, rfl⟩ h
  rintro _ σ a σ' os ⟨bs, l, out, hexec, hl⟩ hstep
  obtain ⟨bs', l', out', hexec', hl'⟩ := embeds_step (guarded_of_execute hexec).1 hl hstep
  exact ⟨bs ++ bs', l', out ++ out', execute_append hexec hexec', hl'⟩

end TradeProcessor
