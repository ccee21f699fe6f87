/-
  Stopping.lean --- the two stop flags of a worker.

  `start(st)` of `StreamProcessor` and of `Scheduler` captures the token it is given
  and starts a jthread, which has a stop flag of its own; `stop()` sets the flag of
  the jthread.  `System` has one flag, that of the token.  Here the flags of the
  jthreads are added, and `Scheduler::run` is taken apart: its loop condition, its
  wait and its call of `computeFeatures`.

  The evaluation that lets a call of `computeFeatures` through is its beginning.
  `cv.wait_until` returns when the token it is given is stopped or when the time is
  up; woken otherwise, as by `notify_one`, it evaluates its predicate and waits on.
-/
import TradeProcessor.Runs
import TradeProcessor.System

set_option autoImplicit false

namespace TradeProcessor

open TradeProcessor.Json TradeProcessor.Library

/-! ## The machine -/

/-- Where `Scheduler::run` is. -/
inductive SchedulerRun where
  /-- about to evaluate the loop condition -/
  | looping
  /-- in `cv.wait_until` -/
  | waiting
  | computing
  | stopped
  deriving DecidableEq

/-- The program once both workers are started, with the flags of their jthreads. -/
structure Stopping where
  system : System := {}
  run : SchedulerRun := .looping
  processorStop : Bool := false
  schedulerStop : Bool := false

inductive StopAct where
  /-- a step of the program that does not begin or end a call of `computeFeatures` -/
  | program (a : Act)
  /-- `StreamProcessor::stop` -/
  | stopProcessor
  /-- `Scheduler::stop`; what its `notify_one` does is `wake` -/
  | stopScheduler
  | evaluate
  | wake
  | timeUp
  | computed

inductive StopOutput where
  | program (o : Output)
  /-- a call of `computeFeatures` begins -/
  | began

/-- The action begins or ends a call of `computeFeatures`. -/
def Act.frames : Act → Bool
  | .tick | .finish => true
  | _ => false

/-- The predicate of the wait and the loop condition: they ask the captured token. -/
def Stopping.stopRequested (st : Stopping) : Bool := st.system.stopRequested

/-- One action. -/
def Stopping.step (P : Platform) (a : StopAct) (st : Stopping) :
    Option (Stopping × List StopOutput) :=
  match a, st.run with
  | .program a, _ =>
      if a.frames then none
      else within (fun system => { st with system := system }) (·.map StopOutput.program)
        (System.step P a st.system)
  | .stopProcessor, _ => some ({ st with processorStop := true }, [])
  | .stopScheduler, _ => some ({ st with schedulerStop := true }, [])
  | .evaluate, .looping =>
      some ({ st with run := if st.stopRequested then .stopped else .waiting }, [])
  | .wake, .waiting =>
      some ({ st with run := if st.stopRequested then .stopped else .waiting }, [])
  | .timeUp, .waiting =>
      if st.stopRequested then some ({ st with run := .stopped }, [])
      else within (fun system => { st with system := system, run := .computing })
        (fun os => .began :: os.map StopOutput.program) (System.step P .tick st.system)
  | .computed, .computing =>
      within (fun system => { st with system := system, run := .looping })
        (·.map StopOutput.program) (System.step P .finish st.system)
  | _, _ => none

/-- The steps, with everything that an action was enabled by. -/
inductive Stopping.Moves (P : Platform) (st : Stopping) :
    StopAct → Stopping → List StopOutput → Prop where
  | program {a : Act} {system : System} {os : List Output} (hframes : a.frames = false)
      (hstep : System.step P a st.system = some (system, os)) :
      Moves P st (.program a) { st with system := system } (os.map StopOutput.program)
  | stopProcessor : Moves P st .stopProcessor { st with processorStop := true } []
  | stopScheduler : Moves P st .stopScheduler { st with schedulerStop := true } []
  | evaluate (hrun : st.run = .looping) :
      Moves P st .evaluate { st with run := if st.stopRequested then .stopped else .waiting } []
  | wake (hrun : st.run = .waiting) :
      Moves P st .wake { st with run := if st.stopRequested then .stopped else .waiting } []
  | leave (hrun : st.run = .waiting) (hstop : st.stopRequested = true) :
      Moves P st .timeUp { st with run := .stopped } []
  | begin {system : System} {os : List Output} (hrun : st.run = .waiting)
      (hstop : st.stopRequested = false)
      (hstep : System.step P .tick st.system = some (system, os)) :
      Moves P st .timeUp { st with system := system, run := .computing }
        (.began :: os.map StopOutput.program)
  | computed {system : System} {os : List Output} (hrun : st.run = .computing)
      (hstep : System.step P .finish st.system = some (system, os)) :
      Moves P st .computed { st with system := system, run := .looping }
        (os.map StopOutput.program)

variable {P : Platform} {st st' : Stopping} {out : List StopOutput}

theorem stopping_moves {a : StopAct} (h : Stopping.step P a st = some (st', out)) :
    st.Moves P a st' out := by
  unfold Stopping.step at h
  split at h
  · split at h
    · cases h
    · rename_i hframes
      obtain ⟨system, os, hstep, rfl, rfl⟩ := within_eq_some h
      exact .program (by simpa using hframes) hstep
  · cases h
    exact .stopProcessor
  · cases h
    exact .stopScheduler
  · rename_i hrun
    cases h
    exact .evaluate hrun
  · rename_i hrun
    cases h
    exact .wake hrun
  · rename_i hrun
    split at h
    · rename_i hstop
      cases h
      exact .leave hrun hstop
    · rename_i hstop
      obtain ⟨system, os, hstep, rfl, rfl⟩ := within_eq_some h
      exact .begin hrun (by simpa using hstop) hstep
  · rename_i hrun
    obtain ⟨system, os, hstep, rfl, rfl⟩ := within_eq_some h
    exact .computed hrun hstep
  · cases h

/-! ## The program below -/

/-- An execution of the machine is an execution of the program. -/
theorem stopping_refines {as : List StopAct}
    (h : execute (Stopping.step P) as st = some (st', out)) :
    ∃ bs os, execute (System.step P) bs st.system = some (st'.system, os) ∧
      ∀ o, StopOutput.program o ∈ out ↔ o ∈ os := by
  refine execute_invariant_init (fun out st' => ∃ bs os,
    execute (System.step P) bs st.system = some (st'.system, os) ∧
      ∀ o, StopOutput.program o ∈ out ↔ o ∈ os) ?_ ⟨[], [], rfl, by simp⟩ h
  rintro out st₁ a st₂ out₁ ⟨bs, os, hexec, hout⟩ hstep
  have happend : ∀ {b : Act} {system : System} {os₁ : List Output},
      System.step P b st₁.system = some (system, os₁) →
      execute (System.step P) (bs ++ [b]) st.system = some (system, os ++ os₁) := by
    intro b system os₁ hb
    exact execute_append hexec (execute_singleton hb)
  cases stopping_moves hstep with
  | program _ hnext | computed _ hnext => exact ⟨_, _, happend hnext, by simp [hout]⟩
  | begin _ _ hnext => exact ⟨_, _, happend hnext, by simp [hout]⟩
  | _ => exact ⟨bs, os, hexec, by simpa using hout⟩

/-- An execution of the program without a call of `computeFeatures` is one of the
machine. -/
theorem execute_program {bs : List Act} {system : System} {os : List Output}
    (hframes : ∀ b ∈ bs, b.frames = false)
    (h : execute (System.step P) bs st.system = some (system, os)) :
    execute (Stopping.step P) (bs.map StopAct.program) st =
      some ({ st with system := system }, os.map StopOutput.program) := by
  induction bs generalizing st os with
  | nil =>
      cases h
      rfl
  | cons b bs ih =>
      obtain ⟨mid, os₁, os₂, hstep, hrest, rfl⟩ := execute_cons_eq_some_iff.mp h
      have hb : b.frames = false := hframes b (by simp)
      rw [List.map_cons, execute_cons_eq_some_iff]
      refine ⟨{ st with system := mid }, os₁.map StopOutput.program, _, ?_,
        ih (fun b' hb' => hframes b' (by simp [hb'])) hrest, by simp⟩
      simp [Stopping.step, hb, hstep, within]

/-- Between calls of `computeFeatures` the scheduler holds no lock. -/
def Paced (st : Stopping) : Prop := st.run ≠ .computing → st.system.scheduler = .idle

theorem paced_step {a : StopAct} (hst : Paced st) (hmove : st.Moves P a st' out) :
    Paced st' := by
  unfold Paced at hst ⊢
  cases hmove with
  | @program a _ _ hframes hstep =>
      intro hrun
      have hidle := hst hrun
      cases step_moves hstep with
      | tick _ _ => cases hframes
      | finish _ _ => cases hframes
      | lock hscheduler _ | reset hscheduler _ | pass hscheduler _ _ _ | release hscheduler =>
          rw [hidle] at hscheduler
          cases hscheduler
      | _ => exact hidle
  | evaluate hrun | wake hrun | leave hrun _ => exact fun _ => hst (by rw [hrun]; decide)
  | begin _ _ _ => exact fun hrun => absurd rfl hrun
  | computed _ hstep =>
      cases step_moves hstep
      exact fun _ => rfl
  | _ => exact hst

theorem paced_of_execute {as : List StopAct}
    (h : execute (Stopping.step P) as {} = some (st, out)) : Paced st :=
  execute_invariant_init (fun _ st => Paced st)
    (fun _ _ _ _ _ hst hstep => paced_step hst (stopping_moves hstep)) (fun _ => rfl) h

/-! ## The flags of the jthreads -/

/-- The action is a call of `stop`. -/
def StopAct.isStop : StopAct → Bool
  | .stopProcessor | .stopScheduler => true
  | _ => false

/-- The state as if `stop` had not been called. -/
def Stopping.unflagged (st : Stopping) : Stopping :=
  { st with processorStop := false, schedulerStop := false }

theorem step_unflagged {a : StopAct} (ha : a.isStop = false) :
    Stopping.step P a st.unflagged =
      (Stopping.step P a st).map fun r => (r.1.unflagged, r.2) := by
  have hrun : st.unflagged.run = st.run := rfl
  have hsystem : st.unflagged.system = st.system := rfl
  have htoken : st.unflagged.stopRequested = st.stopRequested := rfl
  cases a with
  | stopProcessor | stopScheduler => cases ha
  | program a =>
      simp only [Stopping.step, hsystem]
      split
      · rfl
      · rw [map_within]
        rfl
  | evaluate | wake =>
      simp only [Stopping.step, hrun, htoken]
      cases st.run <;> rfl
  | timeUp =>
      simp only [Stopping.step, hrun, hsystem, htoken]
      cases st.run with
      | waiting =>
          dsimp only
          split
          · rfl
          · rw [map_within]
            rfl
      | _ => rfl
  | computed =>
      simp only [Stopping.step, hrun, hsystem]
      cases st.run with
      | computing =>
          rw [map_within]
          rfl
      | _ => rfl

/-- Calls of `stop` change nothing but the flags: without them the run is the same. -/
theorem stop_ignored {as : List StopAct}
    (h : execute (Stopping.step P) as st = some (st', out)) :
    execute (Stopping.step P) (as.filter (!·.isStop)) st.unflagged =
      some (st'.unflagged, out) := by
  induction as generalizing st out with
  | nil =>
      cases h
      rfl
  | cons a as ih =>
      obtain ⟨mid, os₁, os₂, hstep, hrest, rfl⟩ := execute_cons_eq_some_iff.mp h
      cases ha : a.isStop with
      | true =>
          have hquiet : mid.unflagged = st.unflagged ∧ os₁ = [] := by
            cases a with
            | stopProcessor | stopScheduler =>
                cases hstep
                exact ⟨rfl, rfl⟩
            | _ => cases ha
          rw [List.filter_cons_of_neg (by simp [ha]), ← hquiet.1, hquiet.2]
          exact ih hrest
      | false =>
          rw [List.filter_cons_of_pos (by simp [ha]), execute_cons_eq_some_iff]
          refine ⟨mid.unflagged, os₁, os₂, ?_, ih hrest, rfl⟩
          rw [step_unflagged ha, hstep]
          rfl

/-! ## A stopped token -/

/-- `process` is at its loop condition, or through. -/
def WorkerThread.betweenItems : WorkerThread → Bool
  | .looping _ | .stopped => true
  | _ => false

/-- The output is a dequeued item. -/
def StopOutput.isDequeued : StopOutput → Bool
  | .program (.dequeued _) => true
  | _ => false

/-- The output is the beginning of a call of `computeFeatures`. -/
def StopOutput.isBegun : StopOutput → Bool
  | .began => true
  | _ => false

theorem stopRequested_step {σ σ' : System} {a : Act} {os : List Output}
    (hmove : Moves P σ a σ' os) (h : σ.stopRequested = true) : σ'.stopRequested = true := by
  cases hmove with
  | requestStop => rfl
  | _ => exact h

/-- With the token stopped, a worker between two items takes none. -/
theorem betweenItems_step {σ σ' : System} {a : Act} {os : List Output}
    (hmove : Moves P σ a σ' os) (hstop : σ.stopRequested = true)
    (hworker : σ.worker.betweenItems = true) :
    σ'.worker.betweenItems = true ∧ ∀ item, Output.dequeued item ∉ os := by
  cases hmove with
  | loop _ => exact ⟨by simp [hstop, WorkerThread.betweenItems], by simp⟩
  | timeout hat | dequeue hat _ | push hat _ | readClock hat _ | pop hat _ _
  | evictEnd hat _ _ =>
      rw [hat] at hworker
      cases hworker
  | _ => exact ⟨hworker, by simp⟩

/-- What the program keeps without taking an item, the machine keeps as well. -/
theorem never_dequeued_of_invariant (inv : System → Prop)
    (hstep : ∀ a σ σ' os, inv σ → Moves P σ a σ' os →
      inv σ' ∧ ∀ item, Output.dequeued item ∉ os)
    (hst : inv st.system) : Never (Stopping.step P) (·.isDequeued = true) st := by
  have hquiet : ∀ {σ σ' : System} {a : Act} {os : List Output}, inv σ →
      System.step P a σ = some (σ', os) →
      inv σ' ∧ ∀ o ∈ os.map StopOutput.program, ¬ o.isDequeued = true := by
    intro σ σ' a os hσ hnext
    obtain ⟨hkept, hnone⟩ := hstep a σ σ' os hσ (step_moves hnext)
    refine ⟨hkept, fun o ho => ?_⟩
    obtain ⟨o', ho', rfl⟩ := List.mem_map.mp ho
    cases o' with
    | dequeued item => exact absurd ho' (hnone item)
    | _ => exact Bool.false_ne_true
  refine never_of_invariant (fun st => inv st.system) (fun a st st' out hst hnext => ?_) hst
  cases stopping_moves hnext with
  | program _ hinner | computed _ hinner => exact hquiet hst hinner
  | begin _ _ hinner =>
      obtain ⟨hkept, hnone⟩ := hquiet hst hinner
      refine ⟨hkept, fun o ho => ?_⟩
      rcases List.mem_cons.mp ho with rfl | ho
      · exact Bool.false_ne_true
      · exact hnone o ho
  | _ => exact ⟨hst, by simp⟩

theorem never_dequeued (hstop : st.stopRequested = true)
    (hworker : st.system.worker.betweenItems = true) :
    Never (Stopping.step P) (·.isDequeued = true) st := by
  refine never_dequeued_of_invariant
    (fun σ => σ.stopRequested = true ∧ σ.worker.betweenItems = true)
    (fun a σ σ' os hσ hmove => ?_) ⟨hstop, hworker⟩
  obtain ⟨hbetween, hnone⟩ := betweenItems_step hmove hσ.1 hσ.2
  exact ⟨⟨stopRequested_step hmove hσ.1, hbetween⟩, hnone⟩

theorem never_begun (hstop : st.stopRequested = true) (hrun : st.run ≠ .computing) :
    Never (Stopping.step P) (·.isBegun = true) st := by
  refine never_of_invariant (fun st => st.system.stopRequested = true ∧ st.run ≠ .computing)
    (fun a st st' out hst hstep => ?_) ⟨hstop, hrun⟩
  have hstopped : st.stopRequested = true := hst.1
  cases stopping_moves hstep with
  | program _ hnext =>
      refine ⟨⟨stopRequested_step (step_moves hnext) hst.1, hst.2⟩, fun o ho => ?_⟩
      obtain ⟨o', _, rfl⟩ := List.mem_map.mp ho
      exact Bool.false_ne_true
  | begin _ hrunning _ =>
      rw [hstopped] at hrunning
      cases hrunning
  | computed hcomputing _ => exact absurd hcomputing hst.2
  | evaluate _ | wake _ => exact ⟨⟨hst.1, by simp [hstopped]⟩, by simp⟩
  | leave _ _ => exact ⟨⟨hst.1, by simp⟩, by simp⟩
  | _ => exact ⟨hst, by simp⟩

/-! ## A token that is not stopped -/

/-- The queue is empty and the io thread is about to end the program. -/
def System.Starved (σ : System) : Prop :=
  σ.q = [] ∧ ∃ completeJsonData i e, σ.io = .sending completeJsonData i ∧
    messageStep completeJsonData i = .error e

theorem starved_step {σ σ' : System} {a : Act} {os : List Output} (hmove : Moves P σ a σ' os)
    (h : σ.Starved) : σ'.Starved ∧ ∀ item, Output.dequeued item ∉ os := by
  have hstarved := h
  obtain ⟨hq, completeJsonData, i, e, hio, herror⟩ := h
  cases hmove with
  | receive hidle =>
      rw [hio] at hidle
      cases hidle
  | enqueue hsending hitem =>
      rw [hio] at hsending
      cases hsending
      rw [herror] at hitem
      cases hitem
  | messageEnd hsending hend =>
      rw [hio] at hsending
      cases hsending
      rw [herror] at hend
      cases hend
  | dequeue _ hitem =>
      rw [hq] at hitem
      cases hitem
  | _ => exact ⟨hstarved, by simp⟩

theorem never_dequeued_of_starved (h : st.system.Starved) :
    Never (Stopping.step P) (·.isDequeued = true) st :=
  never_dequeued_of_invariant System.Starved (fun _ _ _ _ hσ hmove => starved_step hmove hσ) h

/-- The io thread alone can put an item on the queue. -/
def Supplied (P : Platform) (σ : System) : Prop :=
  ∃ bs σ' os item q, (∀ b ∈ bs, b.frames = false) ∧
    execute (System.step P) bs σ = some (σ', os) ∧ σ'.q = item :: q ∧
    σ'.worker = σ.worker ∧ σ'.stopRequested = σ.stopRequested

/-- A message with one element. -/
def oneElement : Value := .objectValue [("data", .arrayValue [.nullValue])]

theorem supplied_of_idle {σ : System} (hio : σ.io = .idle) : Supplied P σ := by
  obtain ⟨io, q, worker, scheduler, symbolStates, stopRequested⟩ := σ
  cases hio
  cases q with
  | nil =>
      exact ⟨[.receive oneElement, .message], _, _, _, _, by simp [Act.frames], rfl, rfl, rfl,
        rfl⟩
  | cons item q => exact ⟨[], _, _, item, q, by simp, rfl, rfl, rfl, rfl⟩

theorem supplied_of_not_starved {σ : System} (h : ¬ σ.Starved) : Supplied P σ := by
  cases hio : σ.io with
  | idle => exact supplied_of_idle hio
  | sending completeJsonData i =>
      cases hstep : messageStep completeJsonData i with
      | error e =>
          cases hq : σ.q with
          | nil => exact absurd ⟨hq, _, _, e, hio, hstep⟩ h
          | cons item q => exact ⟨[], σ, [], item, q, by simp, rfl, hq, rfl, rfl⟩
      | ok r =>
          obtain ⟨completeJsonData', item⟩ := r
          cases item with
          | none =>
              have hmessage : System.step P .message σ = some ({ σ with io := .idle }, []) := by
                simp only [System.step, Act.thread, System.ioStep, hio, hstep]
              obtain ⟨bs, σ', os, item, q, hbs, hexec, hq, hworker, hstop⟩ :=
                supplied_of_idle (P := P) (σ := { σ with io := .idle }) rfl
              refine ⟨.message :: bs, σ', [] ++ os, item, q, ?_,
                execute_cons_eq_some_iff.mpr ⟨_, _, _, hmessage, hexec, rfl⟩, hq, hworker, hstop⟩
              simpa [Act.frames] using hbs
          | some item =>
              have hmessage : System.step P .message σ =
                  some ({ σ with io := .sending completeJsonData' (i + 1), q := σ.q ++ [item] },
                    [.enqueued item]) := by
                simp only [System.step, Act.thread, System.ioStep, hio, hstep]
              obtain ⟨head, q, hq⟩ : ∃ head q, σ.q ++ [item] = head :: q :=
                List.exists_cons_of_ne_nil (by simp)
              exact ⟨[.message], _, _, head, q, by simp [Act.frames],
                execute_cons_eq_some_iff.mpr ⟨_, _, _, hmessage, rfl, rfl⟩, hq, rfl, rfl⟩

/-- With the token not stopped, a worker at its loop condition can take an item. -/
theorem exists_dequeue {last : Value} (hworker : st.system.worker = .looping last)
    (hstop : st.stopRequested = false) (hsupply : ¬ st.system.Starved) :
    ¬ Never (Stopping.step P) (·.isDequeued = true) st := by
  intro hnever
  obtain ⟨bs, σ', os, item, q, hbs, hexec, hq, hworker', hstop'⟩ :=
    supplied_of_not_starved (P := P) hsupply
  rw [hworker] at hworker'
  rw [show st.system.stopRequested = false from hstop] at hstop'
  have htake : execute (System.step P) [.loop, .dequeue] σ' =
      some ({ σ' with worker := .dequeued item, q := q }, [.dequeued item]) := by
    simp [execute, System.step, Act.thread, System.workerStep, hworker', hstop', hq]
  have hframes : ∀ b ∈ bs ++ [.loop, .dequeue], b.frames = false := by
    intro b hb
    rcases List.mem_append.mp hb with hfirst | hlast
    · exact hbs b hfirst
    · simp only [List.mem_cons, List.not_mem_nil, or_false] at hlast
      rcases hlast with rfl | rfl <;> rfl
  have hall := execute_program hframes (execute_append hexec htake)
  exact hnever _ _ _ hall (.program (.dequeued item)) (by simp) rfl

/-- With the token not stopped, the scheduler can begin another computation. -/
theorem exists_begin (hpaced : Paced st) (hstop : st.stopRequested = false)
    (hrun : st.run = .looping ∨ st.run = .waiting) :
    ¬ Never (Stopping.step P) (·.isBegun = true) st := by
  intro hnever
  have hbegin : ∀ st : Stopping, Paced st → st.stopRequested = false → st.run = .waiting →
      ∃ st', Stopping.step P .timeUp st = some (st', [.began]) := by
    intro st hpaced hstop hwaiting
    have hidle := hpaced (by rw [hwaiting]; decide)
    have hrunning : st.system.stopRequested = false := hstop
    refine ⟨{ st with
      system := { st.system with scheduler := .iterating st.system.symbolStates.keys [] }
      run := .computing }, ?_⟩
    simp [Stopping.step, hwaiting, hstop, System.step, Act.thread, System.schedulerStep, hidle,
      hrunning, within]
  rcases hrun with hlooping | hwaiting
  · have hevaluate : Stopping.step P .evaluate st = some ({ st with run := .waiting }, []) := by
      simp [Stopping.step, hlooping, hstop]
    obtain ⟨st', hstep⟩ := hbegin { st with run := .waiting }
      (fun _ => hpaced (by rw [hlooping]; decide)) hstop rfl
    have hexec := execute_append (execute_singleton hevaluate) (execute_singleton hstep)
    exact hnever _ _ _ hexec .began (by simp) rfl
  · obtain ⟨st', hstep⟩ := hbegin st hpaced hstop hwaiting
    exact hnever _ _ _ (execute_singleton hstep) .began (by simp) rfl

/-! ## `stop` -/

/-- When `stop` takes effect.  After any run, once `stop` has been called: the worker
that next evaluates its loop condition never takes another item, and a scheduler
that next evaluates its loop condition or the wait it is in never begins another
computation, exactly when the token given to `start` is stopped by then.  The
worker takes none also when the io thread is about to end the program with the
queue empty. -/
theorem stop_takes_effect_iff {as : List StopAct}
    (h : execute (Stopping.step P) as {} = some (st, out)) :
    (st.processorStop = true → (∃ item, st.system.worker = .looping item) →
      (Never (Stopping.step P) (·.isDequeued = true) st ↔
        st.stopRequested = true ∨ st.system.Starved)) ∧
    (st.schedulerStop = true → st.run = .looping ∨ st.run = .waiting →
      (Never (Stopping.step P) (·.isBegun = true) st ↔ st.stopRequested = true)) := by
  constructor
  · rintro _ ⟨item, hworker⟩
    constructor
    · intro hnever
      by_contra hnot
      rw [not_or, Bool.not_eq_true] at hnot
      exact exists_dequeue hworker hnot.1 hnot.2 hnever
    · rintro (hstop | hstarved)
      · exact never_dequeued hstop (by rw [hworker]; rfl)
      · exact never_dequeued_of_starved hstarved
  · intro _ hrun
    constructor
    · intro hnever
      by_contra hnot
      exact exists_begin (paced_of_execute h) (by simpa using hnot) hrun hnever
    · intro hstop
      exact never_begun hstop (by rcases hrun with hrun | hrun <;> rw [hrun] <;> decide)

/-- `stop` is called on both workers while they wait, and then the token is stopped. -/
def stoppedByToken : List StopAct :=
  [.evaluate, .program .loop, .stopProcessor, .stopScheduler, .wake, .program .timeout,
    .program .requestStop]

theorem stop_takes_effect_iff_sample : ∃ st out,
    execute (Stopping.step Platform.listed) stoppedByToken {} = some (st, out) ∧
    (st.processorStop = true → (∃ item, st.system.worker = .looping item) →
      (Never (Stopping.step Platform.listed) (·.isDequeued = true) st ↔
        st.stopRequested = true ∨ st.system.Starved)) ∧
    (st.schedulerStop = true → st.run = .looping ∨ st.run = .waiting →
      (Never (Stopping.step Platform.listed) (·.isBegun = true) st ↔
        st.stopRequested = true)) := by
  have hrun : ∃ st out, execute (Stopping.step Platform.listed) stoppedByToken {} =
      some (st, out) :=
    ⟨_, _, rfl⟩
  obtain ⟨st, out, h⟩ := hrun
  exact ⟨st, out, h, stop_takes_effect_iff h⟩

/-- `stop` is called on both workers at their loop conditions; the scheduler begins a
computation, and `process` takes an item, all the same. -/
theorem stop_ineffective : ∃ st out st' out',
    execute (Stopping.step Platform.listed) [.stopProcessor, .stopScheduler] {} =
      some (st, out) ∧
    st.processorStop = true ∧ st.schedulerStop = true ∧ st.run = .looping ∧
    st.system.worker = .looping .nullValue ∧
    execute (Stopping.step Platform.listed)
      [.evaluate, .timeUp, .program (.receive oneElement), .program .message, .program .loop,
        .program .dequeue] st = some (st', out') ∧
    StopOutput.began ∈ out' ∧ StopOutput.program (.dequeued .nullValue) ∈ out' := by
  refine ⟨_, _, _, _, rfl, rfl, rfl, rfl, rfl, rfl, ?_, ?_⟩ <;> simp

end TradeProcessor
