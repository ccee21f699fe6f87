/-
  Pacing.lean --- `Scheduler::run` against the clock.

  `Stopping` lets a tick come at any time.  Here is the clock: `run` reads it once,
  waits until `next_tick`, and adds the interval to `next_tick` after each
  computation, whatever the clock reads then.  Time passes between any two actions,
  so that a spurious wake-up, a late one, a long computation and a wait for the
  mutex are lists of actions like others.

  The mutex is held except in `cv.wait_until` and between `unlock` and `lock`.  No
  other code locks it.
-/
import TradeProcessor.Stopping
import TradeProcessor.Library.IndexedLists

set_option autoImplicit false

namespace TradeProcessor

open TradeProcessor.Library

/-! ## The machine -/

/-- `seconds(10)`, in the nanoseconds of `steady_clock`. -/
def interval : Int := 10 * 1000000000

/-- Where `Scheduler::run` is. -/
inductive PacingRun where
  /-- about to evaluate the loop condition -/
  | looping
  /-- in `cv.wait_until` -/
  | waiting
  /-- `cv.wait_until` has returned false -/
  | released
  | computing
  /-- `computeFeatures` has returned -/
  | relocking
  | stopped
  deriving DecidableEq

/-- The variables of `run`, the flag of its token and the clock.  `began` and `ended`
are the readings at the last beginning and end of a computation, and at the start
those of the clock; the program does not keep them. -/
structure Pacing where
  now : Int
  next_tick : Int
  stopRequested : Bool := false
  run : PacingRun := .looping
  began : Int
  ended : Int

inductive PacingAct where
  | elapse (d : Nat)
  | requestStop
  | evaluate
  /-- `cv.wait_until` evaluates its predicate before the time is up -/
  | wake
  | timeUp
  /-- `computeFeatures` is called -/
  | begin
  | finish
  | relock

inductive PacingOutput where
  | began (now : Int)
  | ended (now : Int)
  deriving DecidableEq

/-- `run` has read the clock. -/
def Pacing.started (t₀ : Int) : Pacing where
  now := t₀
  next_tick := t₀ + interval
  began := t₀
  ended := t₀

/-- One action. -/
def Pacing.step (a : PacingAct) (p : Pacing) : Option (Pacing × List PacingOutput) :=
  match a, p.run with
  | .elapse d, _ => some ({ p with now := p.now + d }, [])
  | .requestStop, _ => some ({ p with stopRequested := true }, [])
  | .evaluate, .looping =>
      some ({ p with run := if p.stopRequested then .stopped else .waiting }, [])
  | .wake, .waiting =>
      some ({ p with run := if p.stopRequested then .stopped else .waiting }, [])
  | .timeUp, .waiting =>
      if p.next_tick ≤ p.now then
        some ({ p with run := if p.stopRequested then .stopped else .released }, [])
      else none
  | .begin, .released => some ({ p with run := .computing, began := p.now }, [.began p.now])
  | .finish, .computing => some ({ p with run := .relocking, ended := p.now }, [.ended p.now])
  | .relock, .relocking =>
      some ({ p with run := .looping, next_tick := p.next_tick + interval }, [])
  | _, _ => none

/-- The steps, with everything that an action was enabled by. -/
inductive Pacing.Moves (p : Pacing) : PacingAct → Pacing → List PacingOutput → Prop where
  | elapse (d : Nat) : Moves p (.elapse d) { p with now := p.now + d } []
  | requestStop : Moves p .requestStop { p with stopRequested := true } []
  | evaluate (hrun : p.run = .looping) :
      Moves p .evaluate { p with run := if p.stopRequested then .stopped else .waiting } []
  | wake (hrun : p.run = .waiting) :
      Moves p .wake { p with run := if p.stopRequested then .stopped else .waiting } []
  | timeUp (hrun : p.run = .waiting) (hdue : p.next_tick ≤ p.now) :
      Moves p .timeUp { p with run := if p.stopRequested then .stopped else .released } []
  | begin (hrun : p.run = .released) :
      Moves p .begin { p with run := .computing, began := p.now } [.began p.now]
  | finish (hrun : p.run = .computing) :
      Moves p .finish { p with run := .relocking, ended := p.now } [.ended p.now]
  | relock (hrun : p.run = .relocking) :
      Moves p .relock { p with run := .looping, next_tick := p.next_tick + interval } []

variable {p p' : Pacing} {out os : List PacingOutput} {t₀ : Int}

theorem pacing_moves {a : PacingAct} (h : Pacing.step a p = some (p', os)) :
    p.Moves a p' os := by
  unfold Pacing.step at h
  split at h
  · cases h
    exact .elapse _
  · cases h
    exact .requestStop
  · rename_i hrun
    cases h
    exact .evaluate hrun
  · rename_i hrun
    cases h
    exact .wake hrun
  · rename_i hrun
    split at h
    · rename_i hdue
      cases h
      exact .timeUp hrun hdue
    · cases h
  · rename_i hrun
    cases h
    exact .begin hrun
  · rename_i hrun
    cases h
    exact .finish hrun
  · rename_i hrun
    cases h
    exact .relock hrun
  · cases h

/-! ## Beginnings and ends -/

/-- The clock readings at which computations began. -/
def beginnings (out : List PacingOutput) : List Int :=
  out.filterMap fun o => match o with
    | .began now => some now
    | .ended _ => none

/-- Those at which they ended. -/
def ends (out : List PacingOutput) : List Int :=
  out.filterMap fun o => match o with
    | .began _ => none
    | .ended now => some now

@[simp] theorem beginnings_append (out os : List PacingOutput) :
    beginnings (out ++ os) = beginnings out ++ beginnings os :=
  List.filterMap_append

@[simp] theorem ends_append (out os : List PacingOutput) :
    ends (out ++ os) = ends out ++ ends os :=
  List.filterMap_append

@[simp] theorem beginnings_nil : beginnings [] = [] := rfl

@[simp] theorem ends_nil : ends [] = [] := rfl

@[simp] theorem beginnings_began (now : Int) : beginnings [.began now] = [now] := rfl

@[simp] theorem ends_began (now : Int) : ends [.began now] = [] := rfl

@[simp] theorem beginnings_ended (now : Int) : beginnings [.ended now] = [] := rfl

@[simp] theorem ends_ended (now : Int) : ends [.ended now] = [now] := rfl

/-- Computations that have begun, beyond the ticks that are done with. -/
def PacingRun.begun : PacingRun → Nat
  | .computing | .relocking => 1
  | _ => 0

/-- Those that have ended. -/
def PacingRun.finished : PacingRun → Nat
  | .relocking => 1
  | _ => 0

/-- `n` ticks are done with. -/
structure Counted (t₀ : Int) (n : Nat) (out : List PacingOutput) (p : Pacing) : Prop where
  next_tick : p.next_tick = t₀ + (n + 1) * interval
  begun : (beginnings out).length = n + p.run.begun
  finished : (ends out).length = n + p.run.finished

/-- The next tick is the start and one interval for each tick, the ones done with and
the next. -/
theorem counted_step {n : Nat} {a : PacingAct} (hp : Counted t₀ n out p)
    (hmove : p.Moves a p' os) : ∃ n', Counted t₀ n' (out ++ os) p' := by
  obtain ⟨htick, hbeginnings, hends⟩ := hp
  cases hmove with
  | elapse _ | requestStop => exact ⟨n, htick, by simpa using hbeginnings, by simpa using hends⟩
  | evaluate hrun | wake hrun | timeUp hrun _ =>
      rw [hrun] at hbeginnings hends
      refine ⟨n, htick, ?_, ?_⟩
      · simp only [List.append_nil, hbeginnings]
        split <;> rfl
      · simp only [List.append_nil, hends]
        split <;> rfl
  | begin hrun =>
      rw [hrun] at hbeginnings hends
      exact ⟨n, htick, by simp [hbeginnings, PacingRun.begun],
        by simp [hends, PacingRun.finished]⟩
  | finish hrun =>
      rw [hrun] at hbeginnings hends
      exact ⟨n, htick, by simp [hbeginnings, PacingRun.begun],
        by simp [hends, PacingRun.finished]⟩
  | relock hrun =>
      rw [hrun] at hbeginnings hends
      refine ⟨n + 1, ?_, by simp [hbeginnings, PacingRun.begun],
        by simp [hends, PacingRun.finished]⟩
      simp only [htick]
      push_cast
      ring

/-- Before a computation begins, those that have begun have ended. -/
theorem Counted.released {n : Nat} (hp : Counted t₀ n out p) (hrun : p.run = .released) :
    (beginnings out).length = n ∧ (ends out).length = n :=
  ⟨by rw [hp.begun, hrun]; rfl, by rw [hp.finished, hrun]; rfl⟩

/-! ## Not early -/

/-- No computation has begun before its tick or before the end of the one before it. -/
structure Ordered (t₀ : Int) (out : List PacingOutput) (p : Pacing) : Prop where
  counted : ∃ n, Counted t₀ n out p
  due : p.run = .released → p.next_tick ≤ p.now
  past : ∀ e ∈ ends out, e ≤ p.now
  notEarly : ∀ (k : Nat) τ, (beginnings out)[k]? = some τ → t₀ + (k + 1) * interval ≤ τ
  afterEnd : ∀ (k : Nat) τ, (beginnings out)[k + 1]? = some τ →
    ∃ e, (ends out)[k]? = some e ∧ e ≤ τ

theorem ordered_started : Ordered t₀ [] (Pacing.started t₀) where
  counted := ⟨0, by simp [Pacing.started], rfl, rfl⟩
  due := fun hrun => by cases hrun
  past := by simp
  notEarly := by simp
  afterEnd := by simp

theorem ordered_step {a : PacingAct} (hp : Ordered t₀ out p) (hmove : p.Moves a p' os) :
    Ordered t₀ (out ++ os) p' := by
  obtain ⟨n, hn⟩ := hp.counted
  have hcounted := counted_step hn hmove
  cases hmove with
  | elapse d =>
      rw [List.append_nil] at hcounted ⊢
      exact ⟨hcounted, fun hrun => (hp.due hrun).trans (by simp),
        fun e he => (hp.past e he).trans (by simp), hp.notEarly, hp.afterEnd⟩
  | requestStop =>
      rw [List.append_nil] at hcounted ⊢
      exact ⟨hcounted, hp.due, hp.past, hp.notEarly, hp.afterEnd⟩
  | evaluate _ | wake _ =>
      rw [List.append_nil] at hcounted ⊢
      refine ⟨hcounted, fun hrun => ?_, hp.past, hp.notEarly, hp.afterEnd⟩
      simp only at hrun
      split at hrun <;> cases hrun
  | timeUp _ hdue =>
      rw [List.append_nil] at hcounted ⊢
      exact ⟨hcounted, fun _ => hdue, hp.past, hp.notEarly, hp.afterEnd⟩
  | begin hrun =>
      have hdue := hp.due hrun
      obtain ⟨hbeginnings, hends⟩ := hn.released hrun
      refine ⟨hcounted, fun hrun' => (by cases hrun'), by simpa using hp.past, ?_, ?_⟩
      · intro k τ hk
        rw [beginnings_append, beginnings_began, getElem?_concat_eq_some_iff] at hk
        rcases hk with hk | ⟨rfl, rfl⟩
        · exact hp.notEarly k τ hk
        · rw [hbeginnings, ← hn.next_tick]
          exact hdue
      · intro k τ hk
        rw [beginnings_append, beginnings_began, getElem?_concat_eq_some_iff] at hk
        rw [ends_append, ends_began, List.append_nil]
        rcases hk with hk | ⟨hlength, rfl⟩
        · exact hp.afterEnd k τ hk
        · have hlt : k < (ends out).length := by omega
          exact ⟨(ends out)[k], List.getElem?_eq_getElem hlt,
            hp.past _ (List.getElem_mem hlt)⟩
  | finish _ =>
      refine ⟨hcounted, fun hrun => (by cases hrun), ?_, by simpa using hp.notEarly, ?_⟩
      · intro e he
        rw [ends_append, ends_ended, List.mem_append, List.mem_singleton] at he
        rcases he with he | rfl
        · exact hp.past e he
        · exact le_rfl
      · intro k τ hk
        rw [beginnings_append, beginnings_ended, List.append_nil] at hk
        obtain ⟨e, he, hle⟩ := hp.afterEnd k τ hk
        refine ⟨e, ?_, hle⟩
        rw [ends_append, ends_ended, getElem?_concat_eq_some_iff]
        exact .inl he
  | relock _ =>
      rw [List.append_nil] at hcounted ⊢
      exact ⟨hcounted, fun hrun => (by cases hrun), hp.past, hp.notEarly, hp.afterEnd⟩

theorem ordered_of_execute {as : List PacingAct}
    (h : execute Pacing.step as (Pacing.started t₀) = some (p, out)) : Ordered t₀ out p :=
  execute_invariant_init (Ordered t₀)
    (fun _ _ _ _ _ hp hstep => ordered_step hp (pacing_moves hstep)) ordered_started h

theorem interval_pos : 0 < interval := by decide

/-- At most one beginning for each interval that has passed. -/
theorem Ordered.countP_le (hp : Ordered t₀ out p) (τ : Int) :
    (beginnings out).countP (· ≤ τ) ≤ ((τ - t₀) / interval).toNat := by
  refine countP_le_of_getElem? fun k x hk hx => ?_
  have htick := hp.notEarly k x hk
  have hle : ((k : Int) + 1) * interval ≤ τ - t₀ := by
    have hx' : x ≤ τ := by simpa using hx
    omega
  have hdiv := (Int.le_ediv_iff_mul_le interval_pos).mpr hle
  omega

/-- At most one computation is under way. -/
theorem Ordered.length_le (hp : Ordered t₀ out p) :
    (beginnings out).length ≤ (ends out).length + 1 := by
  obtain ⟨n, hn⟩ := hp.counted
  rw [hn.begun, hn.finished]
  cases p.run <;> simp [PacingRun.begun, PacingRun.finished]

/-! ## Not late -/

/-- Until when the computation under way has to end, or the next one to begin. -/
def Pacing.deadline (δ : Int) (p : Pacing) : Int :=
  match p.run with
  | .computing => p.began + (interval - δ)
  | .relocking => max (p.next_tick + interval) p.ended + δ
  | _ => max p.next_tick p.ended + δ

/-- A computation begins at most `δ` after its tick is due and the computation before
it has ended, and ends at most an interval less `δ` after that; and as long as the token
is not stopped, time does not pass beyond that without it. -/
def Prompt (δ : Int) : PacingAct → Pacing → Prop
  | .elapse d, p => p.stopRequested = true ∨ p.now + d ≤ p.deadline δ
  | .begin, p => p.now ≤ max p.next_tick p.ended + δ
  | .finish, p => p.now ≤ p.began + (interval - δ)
  | _, _ => True

instance (δ : Int) : (a : PacingAct) → (p : Pacing) → Decidable (Prompt δ a p)
  | .elapse d, p =>
      inferInstanceAs (Decidable (p.stopRequested = true ∨ p.now + d ≤ p.deadline δ))
  | .begin, p => inferInstanceAs (Decidable (p.now ≤ max p.next_tick p.ended + δ))
  | .finish, p => inferInstanceAs (Decidable (p.now ≤ p.began + (interval - δ)))
  | .requestStop, _ | .evaluate, _ | .wake, _ | .timeUp, _ | .relock, _ => .isTrue trivial

/-- How far `run` may be behind. -/
def Pacing.inTime (δ : Int) (p : Pacing) : Prop :=
  match p.run with
  | .computing => p.began ≤ p.next_tick + δ
  | .relocking => p.ended ≤ p.next_tick + interval
  | _ => p.ended ≤ p.next_tick

/-- No computation has begun late. -/
structure Timely (t₀ δ : Int) (out : List PacingOutput) (p : Pacing) : Prop where
  counted : ∃ n, Counted t₀ n out p
  inTime : p.inTime δ
  notLate : ∀ (k : Nat) τ, (beginnings out)[k]? = some τ →
    τ ≤ t₀ + (k + 1) * interval + δ

theorem timely_step {δ : Int} {a : PacingAct} (hp : Timely t₀ δ out p) (hprompt : Prompt δ a p)
    (hmove : p.Moves a p' os) : Timely t₀ δ (out ++ os) p' := by
  obtain ⟨n, hn⟩ := hp.counted
  have hcounted := counted_step hn hmove
  have hinTime := hp.inTime
  cases hmove with
  | elapse _ | requestStop =>
      rw [List.append_nil] at hcounted ⊢
      exact ⟨hcounted, hinTime, hp.notLate⟩
  | evaluate hrun | wake hrun | timeUp hrun _ =>
      rw [List.append_nil] at hcounted ⊢
      rw [Pacing.inTime, hrun] at hinTime
      refine ⟨hcounted, ?_, hp.notLate⟩
      simp only [Pacing.inTime]
      split_ifs <;> exact hinTime
  | begin hrun =>
      rw [Pacing.inTime, hrun] at hinTime
      have hsoon : p.now ≤ p.next_tick + δ := by
        rw [Prompt, max_eq_left hinTime] at hprompt
        exact hprompt
      refine ⟨hcounted, hsoon, fun k τ hk => ?_⟩
      rw [beginnings_append, beginnings_began, getElem?_concat_eq_some_iff] at hk
      rcases hk with hk | ⟨rfl, rfl⟩
      · exact hp.notLate k τ hk
      · rw [(hn.released hrun).1, ← hn.next_tick]
        exact hsoon
  | finish hrun =>
      rw [Pacing.inTime, hrun] at hinTime
      rw [Prompt] at hprompt
      refine ⟨hcounted, ?_, by simpa using hp.notLate⟩
      show p.now ≤ p.next_tick + interval
      dsimp only at hinTime
      omega
  | relock hrun =>
      rw [Pacing.inTime, hrun] at hinTime
      rw [List.append_nil] at hcounted ⊢
      exact ⟨hcounted, hinTime, hp.notLate⟩

theorem timely_of_execute {δ : Int} {as : List PacingAct}
    (hprompt : EachStep Pacing.step (Prompt δ) as (Pacing.started t₀))
    (h : execute Pacing.step as (Pacing.started t₀) = some (p, out)) : Timely t₀ δ out p := by
  have hstart : Timely t₀ δ [] (Pacing.started t₀) := by
    refine ⟨ordered_started.counted, ?_, by simp⟩
    show t₀ ≤ t₀ + interval
    exact le_add_of_nonneg_right interval_pos.le
  exact execute_invariant_eachStep_init (Timely t₀ δ)
    (fun _ _ _ _ _ hp hallowed hstep => timely_step hp hallowed (pacing_moves hstep))
    hstart hprompt h

/-! ## Not missing -/

/-- Nothing is overdue, as long as the token is not stopped. -/
structure OnTime (δ : Int) (p : Pacing) : Prop where
  due : p.stopRequested = false → p.now ≤ p.deadline δ
  stops : p.run = .stopped → p.stopRequested = true

theorem onTime_started {δ : Int} (hδ : 0 ≤ δ) : OnTime δ (Pacing.started t₀) where
  due := by
    intro _
    have hinterval := interval_pos
    simp only [Pacing.started, Pacing.deadline]
    omega
  stops := fun hrun => by cases hrun

theorem onTime_step {δ : Int} {a : PacingAct} (hδ : 0 ≤ δ) (hle : δ ≤ interval)
    (hp : OnTime δ p) (hprompt : Prompt δ a p) (hmove : p.Moves a p' os) : OnTime δ p' := by
  cases hmove with
  | elapse d =>
      refine ⟨fun hstop => ?_, hp.stops⟩
      rcases hprompt with hstopped | hle
      · rw [hstop] at hstopped
        cases hstopped
      · exact hle
  | requestStop => exact ⟨fun hstop => (by cases hstop), fun _ => rfl⟩
  | evaluate hrun | wake hrun | timeUp hrun _ =>
      refine ⟨fun hstop => ?_, fun hstopped => ?_⟩
      · have hdue := hp.due hstop
        rw [Pacing.deadline, hrun] at hdue
        simpa only [Pacing.deadline, show p.stopRequested = false from hstop, Bool.false_eq_true,
          if_false] using hdue
      · by_contra hstop
        simp [hstop] at hstopped
  | begin _ =>
      refine ⟨fun _ => ?_, fun hrun => by cases hrun⟩
      simp only [Pacing.deadline]
      omega
  | finish _ =>
      refine ⟨fun _ => ?_, fun hrun => by cases hrun⟩
      simp only [Pacing.deadline]
      omega
  | relock hrun =>
      refine ⟨fun hstop => ?_, fun hrun => by cases hrun⟩
      have hdue := hp.due hstop
      rw [Pacing.deadline, hrun] at hdue
      exact hdue

theorem onTime_of_execute {δ : Int} {as : List PacingAct} (hδ : 0 ≤ δ) (hle : δ ≤ interval)
    (hprompt : EachStep Pacing.step (Prompt δ) as (Pacing.started t₀))
    (h : execute Pacing.step as (Pacing.started t₀) = some (p, out)) : OnTime δ p :=
  execute_invariant_eachStep_init (fun _ => OnTime δ)
    (fun _ _ _ _ _ hp hallowed hstep => onTime_step hδ hle hp hallowed (pacing_moves hstep))
    (onTime_started hδ) hprompt h

/-- A tick that is overdue has had its computation begun. -/
theorem Timely.begun {δ : Int} (hp : Timely t₀ δ out p) (hdue : OnTime δ p) (hδ : 0 ≤ δ)
    (hstop : p.stopRequested = false) {k : Nat} (hk : t₀ + (k + 1) * interval + δ < p.now) :
    ∃ τ, (beginnings out)[k]? = some τ := by
  obtain ⟨n, hn⟩ := hp.counted
  have hnow := hdue.due hstop
  have hinTime := hp.inTime
  have hbegun := hn.begun
  have htick := hn.next_tick
  -- If the computation had not begun, the deadline would be one of an earlier tick.
  have hlater : ∀ j : Nat, j ≤ k → t₀ + (j + 1) * interval ≤ t₀ + (k + 1) * interval := by
    intro j hj
    have hinterval := interval_pos
    gcongr
  have hlt : k < (beginnings out).length := by
    by_contra hge
    rw [not_lt] at hge
    cases hrun : p.run with
    | stopped =>
        rw [hdue.stops hrun] at hstop
        cases hstop
    | computing =>
        rw [hrun] at hbegun
        simp only [Pacing.deadline, Pacing.inTime, hrun] at hnow hinTime
        have hle := hlater (n + 1) (by rw [hbegun] at hge; exact hge)
        push_cast at hle
        linarith
    | relocking =>
        rw [hrun] at hbegun
        simp only [Pacing.deadline, Pacing.inTime, hrun] at hnow hinTime
        rw [max_eq_left hinTime] at hnow
        have hle := hlater (n + 1) (by rw [hbegun] at hge; exact hge)
        push_cast at hle
        linarith
    | looping | waiting | released =>
        rw [hrun] at hbegun
        simp only [Pacing.deadline, Pacing.inTime, hrun] at hnow hinTime
        rw [max_eq_left hinTime] at hnow
        have hle := hlater n (by rw [hbegun] at hge; exact hge)
        linarith
  exact ⟨_, List.getElem?_eq_getElem hlt⟩

/-! ## A stopped token -/

/-- The action evaluates the loop condition or the predicate of the wait. -/
def PacingAct.observes : PacingAct → Bool
  | .evaluate | .wake | .timeUp => true
  | _ => false

/-- The output is the beginning of a computation. -/
def PacingOutput.isBegun : PacingOutput → Bool
  | .began _ => true
  | .ended _ => false

theorem stopped_of_observes {a : PacingAct} (ha : a.observes = true)
    (hstop : p.stopRequested = true) (hmove : p.Moves a p' os) : p'.run = .stopped := by
  cases hmove with
  | evaluate _ | wake _ | timeUp _ _ => simp [hstop]
  | _ => cases ha

/-- A scheduler that is through begins nothing. -/
theorem never_begun_of_stopped (h : p.run = .stopped) :
    Never Pacing.step (·.isBegun = true) p := by
  refine never_of_invariant (fun p => p.run = .stopped) (fun a p p' os hp hstep => ?_) h
  cases pacing_moves hstep with
  | elapse _ | requestStop => exact ⟨hp, by simp⟩
  | evaluate hrun | wake hrun | timeUp hrun _ | begin hrun | finish hrun | relock hrun =>
      rw [hp] at hrun
      cases hrun

/-! ## The untimed scheduler -/

/-- The position here for one in `Stopping`. -/
def SchedulerRun.timed : SchedulerRun → PacingRun
  | .looping => .looping
  | .waiting => .waiting
  | .computing => .computing
  | .stopped => .stopped

/-- The same position, and the same flag of the token. -/
structure Timed (st : Stopping) (p : Pacing) : Prop where
  run : p.run = st.run.timed
  stopRequested : p.stopRequested = st.stopRequested

/-- The time that is left until the tick passes, and a computation begins. -/
theorem execute_begin (hrun : p.run = .waiting) (hstop : p.stopRequested = false) :
    ∃ p' τ, execute Pacing.step [.elapse (p.next_tick - p.now).toNat, .timeUp, .begin] p =
      some (p', [.began τ]) ∧ p'.run = .computing ∧ p'.stopRequested = false := by
  have hdue : p.next_tick ≤ p.now + (p.next_tick - p.now).toNat := by omega
  refine ⟨{ p with
    now := p.now + (p.next_tick - p.now).toNat
    run := .computing
    began := p.now + (p.next_tick - p.now).toNat }, p.now + (p.next_tick - p.now).toNat,
    ?_, rfl, hstop⟩
  simp only [execute, Pacing.step, hrun, hstop, if_pos hdue]
  rfl

/-- A flag that the program sets is set here. -/
theorem execute_requestStop {b : Bool} (hp : p.stopRequested = true → b = true) :
    ∃ bs p', execute Pacing.step bs p = some (p', []) ∧ p'.run = p.run ∧
      p'.stopRequested = b := by
  cases b with
  | true => exact ⟨[.requestStop], { p with stopRequested := true }, rfl, rfl, rfl⟩
  | false => exact ⟨[], p, rfl, rfl, by simpa using hp⟩

theorem timed_step {P : Platform} {st st' : Stopping} {out : List StopOutput} {a : StopAct}
    (hp : Timed st p) (hmove : st.Moves P a st' out) :
    ∃ bs p' os, execute Pacing.step bs p = some (p', os) ∧ Timed st' p' ∧
      (beginnings os).length = out.countP (·.isBegun) := by
  have hquiet : ∀ os' : List Output, (os'.map StopOutput.program).countP (·.isBegun) = 0 := by
    simp [List.countP_eq_zero, StopOutput.isBegun]
  obtain ⟨hrun, hstop⟩ := hp
  have hobserved : (if p.stopRequested then PacingRun.stopped else .waiting) =
      (if st.stopRequested then SchedulerRun.stopped else .waiting).timed := by
    rw [hstop]
    split <;> rfl
  cases hmove with
  | program _ hnext =>
      obtain ⟨bs, p', hexec, hrun', hstop'⟩ := execute_requestStop fun h =>
        stopRequested_step (step_moves hnext) (hstop.symm.trans h)
      exact ⟨bs, p', [], hexec, ⟨hrun'.trans hrun, hstop'⟩, (hquiet _).symm⟩
  | stopProcessor | stopScheduler => exact ⟨[], p, [], rfl, ⟨hrun, hstop⟩, rfl⟩
  | evaluate hat =>
      rw [hat] at hrun
      refine ⟨[.evaluate], { p with run := if p.stopRequested then .stopped else .waiting }, [],
        execute_singleton ?_, ⟨hobserved, hstop⟩, rfl⟩
      simp only [Pacing.step, hrun, SchedulerRun.timed]
  | wake hat =>
      rw [hat] at hrun
      refine ⟨[.wake], { p with run := if p.stopRequested then .stopped else .waiting }, [],
        execute_singleton ?_, ⟨hobserved, hstop⟩, rfl⟩
      simp only [Pacing.step, hrun, SchedulerRun.timed]
  | leave hat hflag =>
      -- The predicate holds before the time is up.
      rw [hat] at hrun
      refine ⟨[.wake], { p with run := .stopped }, [], execute_singleton ?_, ⟨rfl, hstop⟩, rfl⟩
      have hset : p.stopRequested = true := hstop.trans hflag
      simp only [Pacing.step, hrun, SchedulerRun.timed, hset, if_pos]
  | begin hat hflag hnext =>
      rw [hat] at hrun
      obtain ⟨p', τ, hexec, hrun', hstop'⟩ := execute_begin hrun (hstop.trans hflag)
      refine ⟨_, p', _, hexec, ⟨hrun', hstop'.trans ?_⟩, ?_⟩
      · cases step_moves hnext
        exact hflag.symm
      · rw [List.countP_cons, hquiet]
        rfl
  | computed hat hnext =>
      rw [hat] at hrun
      refine ⟨[.finish, .relock],
        { p with run := .looping, ended := p.now, next_tick := p.next_tick + interval },
        [.ended p.now], ?_, ⟨rfl, ?_⟩, (hquiet _).symm⟩
      · simp only [execute, Pacing.step, hrun]
        rfl
      · cases step_moves hnext
        exact hstop

/-- Every execution of `Stopping` can be timed: with time passing between its actions
it is one of this machine, with as many computations. -/
theorem stopping_timed {P : Platform} {as : List StopAct} {st : Stopping} {out : List StopOutput}
    (h : execute (Stopping.step P) as {} = some (st, out)) (t₀ : Int) :
    ∃ bs p os, execute Pacing.step bs (Pacing.started t₀) = some (p, os) ∧ Timed st p ∧
      (beginnings os).length = out.countP (·.isBegun) := by
  refine execute_invariant_init (fun out st => ∃ bs p os,
    execute Pacing.step bs (Pacing.started t₀) = some (p, os) ∧ Timed st p ∧
      (beginnings os).length = out.countP (·.isBegun))
    ?_ ⟨[], _, [], rfl, ⟨rfl, rfl⟩, rfl⟩ h
  rintro out st a st' out' ⟨bs, p, os, hexec, htimed, hcount⟩ hstep
  obtain ⟨bs', p', os', hexec', htimed', hcount'⟩ := timed_step htimed (stopping_moves hstep)
  refine ⟨bs ++ bs', p', os ++ os', execute_append hexec hexec', htimed', ?_⟩
  rw [beginnings_append, List.length_append, List.countP_append, hcount, hcount']

/-! ## The pace -/

/-- Two ticks, the first half a second late; the token is stopped in the second
computation. -/
def twoTicks : List PacingAct :=
  [.evaluate, .wake, .elapse 10500000000, .timeUp, .begin, .elapse 9000000000, .finish, .relock,
    .evaluate, .elapse 500000000, .timeUp, .begin, .requestStop, .finish, .relock]

end TradeProcessor
