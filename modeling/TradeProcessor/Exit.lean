/-
  Exit.lean --- once SIGINT has come, the process ends.

  The destructors of `main` join the threads in turn, and a thread may hold a mutex or
  be in the middle of its work at that time.  Nobody waits for anybody in a circle:
  once the stop flag is set and `main` is past its wait, every run has a bounded number
  of steps left, the handlers of `io_thread` apart, and the only state without a next
  step is the one in which everything is destroyed.
-/
import TradeProcessor.Lifetimes
import TradeProcessor.Shutdown

set_option autoImplicit false

namespace TradeProcessor

open TradeProcessor.Json TradeProcessor.Library

variable {P : Platform} {p p' : Process} {out : List StopOutput} {a : ProcessAct}

/-! ## The program inside -/

/-- The messages that the actions receive. -/
def ProcessAct.receives (a : ProcessAct) (root : Value) : Prop :=
  a = .stopping (.program (.receive root))

/-- A step of the process is a step of the program, or leaves it as it is. -/
theorem process_system_step (hmove : p.Moves P a p' out) :
    p'.stopping.system = p.stopping.system ∨
      ∃ b os, System.step P b p.stopping.system = some (p'.stopping.system, os) ∧
        ∀ root, b = .receive root → a.receives root := by
  cases hmove with
  | interrupt => exact .inr ⟨.requestStop, [], rfl, nofun⟩
  | stopping _ hinner =>
      cases hinner with
      | program _ hstep => exact .inr ⟨_, _, hstep, fun _ hb => by rw [hb]; rfl⟩
      | begin _ _ hstep | computed _ hstep => exact .inr ⟨_, _, hstep, nofun⟩
      | _ => exact .inl rfl
  | _ => exact .inl rfl

/-- A run of the process has a run of the program in it. -/
theorem system_of_execute {as : List ProcessAct}
    (h : execute (Process.step P) as {} = some (p, out)) :
    ∃ bs os, execute (System.step P) bs {} = some (p.stopping.system, os) ∧
      ∀ root, Act.receive root ∈ bs → ∃ a ∈ as, a.receives root := by
  have hreaches : Reaches (Process.step P) (· ∈ as) {} p := ⟨as, out, fun a ha => ha, h⟩
  refine hreaches.keeps (fun p => ∃ bs os,
    execute (System.step P) bs {} = some (p.stopping.system, os) ∧
      ∀ root, Act.receive root ∈ bs → ∃ a ∈ as, a.receives root) ?_ ⟨[], [], rfl, by simp⟩
  rintro a p p' out ha ⟨bs, os, hexec, hreceived⟩ hstep
  rcases process_system_step (process_moves hstep) with hsame | ⟨b, os', hb, hreceives⟩
  · exact ⟨bs, os, hsame ▸ hexec, hreceived⟩
  · refine ⟨bs ++ [b], os ++ os', execute_append hexec (execute_singleton hb),
      fun root hroot => ?_⟩
    rcases List.mem_append.mp hroot with hold | hnew
    · exact hreceived root hold
    · exact ⟨a, ha, hreceives root (List.mem_singleton.mp hnew).symm⟩

/-! ## The parts agree -/

/-- What the parts of the machine know of each other. -/
structure InStep (p : Process) : Prop where
  flags : p.stopping.system.stopRequested = p.startup.stopRequested
  computing : p.stopping.run = .computing → p.stopping.system.scheduler ≠ .idle
  subscribes : Subscribes p.startup
  absent : p.startup.io = .absent →
    p.startup.ws = .constructing ∨ p.startup.ws = .connecting ∨ p.startup.ws = .left
  bounded : p.alive ≤ declarations.length
  declared : Object.rank .loggerThread < p.alive → p.logger ≠ .absent
  undeclared : p.returned = false → p.alive ≤ Object.rank .loggerThread → p.logger = .absent

theorem inStep_start : InStep {} where
  flags := rfl
  computing := nofun
  subscribes := subscribes_start
  absent := fun _ => .inl rfl
  bounded := by decide
  declared := fun h => absurd h (by decide)
  undeclared := fun _ _ => rfl

theorem stopFlag_startup {st st' : Startup} {b : StartupAct} (hmove : st.Moves b st')
    (hb : b ≠ .requestStop) : st'.stopRequested = st.stopRequested := by
  cases hmove with
  | requestStop => exact absurd rfl hb
  | _ => rfl

theorem absent_step {st st' : Startup} {b : StartupAct} (hmove : st.Moves b st')
    (hst : st.io = .absent → st.ws = .constructing ∨ st.ws = .connecting ∨ st.ws = .left)
    (h : st'.io = .absent) : st'.ws = .constructing ∨ st'.ws = .connecting ∨ st'.ws = .left := by
  cases hmove with
  | construct hws => exact .inr (.inl rfl)
  | connectionError hws | exception hws | join hws hio => exact .inr (.inr rfl)
  | leaveLoop hws _ | stopService hws =>
      have := hst h
      simp_all
  | connect _ | openConnection _ _ | send _ | endSubscribe _ | notify _ | endPoll _ _ => cases h
  | _ => exact hst h

theorem flags_stopping {st st' : Stopping} {b : StopAct} (hmove : st.Moves P b st' out)
    (hb : b ≠ .program .requestStop) :
    st'.system.stopRequested = st.system.stopRequested := by
  cases hmove with
  | program _ hstep =>
      cases step_moves hstep with
      | requestStop => exact absurd rfl hb
      | _ => rfl
  | begin _ _ hstep | computed _ hstep =>
      cases step_moves hstep
      rfl
  | _ => rfl

theorem computing_step {st st' : Stopping} {b : StopAct} (hmove : st.Moves P b st' out)
    (hst : st.run = .computing → st.system.scheduler ≠ .idle) (h : st'.run = .computing) :
    st'.system.scheduler ≠ .idle := by
  cases hmove with
  | @program a _ _ hframes hstep =>
      have hbusy := hst h
      cases step_moves hstep with
      | tick _ _ | finish _ _ => cases hframes
      | lock _ _ | reset _ _ | pass _ _ _ _ | release _ => exact nofun
      | _ => exact hbusy
  | begin _ _ hstep =>
      cases step_moves hstep
      exact nofun
  | evaluate hrun | wake hrun =>
      cases hstop : st.stopRequested <;> simp [hstop] at h
  | leave _ _ | computed _ _ => cases h
  | _ => exact hst h

theorem inStep_step (hscoped : Scoped p) (h : InStep p) (hmove : p.Moves P a p' out) :
    InStep p' := by
  cases hmove with
  | lockMtx hmain =>
      have halive : p.alive + 1 = Object.rank .lck + 1 :=
        congrArg (· + 1) (hscoped.starting hmain)
      refine ⟨h.flags, h.computing, subscribes_step h.subscribes (.lockMtx hmain), h.absent,
        (le_of_eq halive).trans (by decide), fun hlate => ?_, fun hreturned hearly => ?_⟩
      · exact absurd (hlate.trans_le (le_of_eq halive)) (by decide)
      · exact h.undeclared hreturned ((Nat.le_succ _).trans hearly)
  | startup hadmits hmain hinner =>
      refine ⟨?_, h.computing, subscribes_step h.subscribes hinner, absent_step hinner h.absent,
        h.bounded, h.declared, h.undeclared⟩
      refine h.flags.trans (stopFlag_startup hinner ?_).symm
      rintro rfl
      cases hadmits
  | stopping hadmits hinner =>
      refine ⟨(flags_stopping hinner ?_).trans h.flags, computing_step hinner h.computing,
        h.subscribes, h.absent, h.bounded, h.declared, h.undeclared⟩
      rintro rfl
      cases hadmits
  | interrupt =>
      exact ⟨rfl, h.computing, subscribes_step h.subscribes .requestStop, h.absent, h.bounded,
        h.declared, h.undeclared⟩
  | declare hmain hreturned halive hstarted =>
      refine ⟨h.flags, h.computing, h.subscribes, h.absent, halive, fun hlate => ?_,
        fun hreturned hearly => ?_⟩
      · by_cases hlast : p.alive = Object.rank .loggerThread
        · rw [if_pos hlast]
          exact nofun
        · rw [if_neg hlast]
          exact h.declared (lt_of_le_of_ne (Nat.lt_succ_iff.mp hlate) (Ne.symm hlast))
      · rw [if_neg (Nat.ne_of_lt hearly)]
        exact h.undeclared hreturned (Nat.le_of_lt hearly)
  | startProcessor hreturned halive hstarted | startScheduler hreturned halive _ hstarted =>
      exact ⟨h.flags, h.computing, h.subscribes, h.absent, h.bounded, h.declared, h.undeclared⟩
  | returnMain hreturned halive =>
      exact ⟨h.flags, h.computing, h.subscribes, h.absent, h.bounded, h.declared, nofun⟩
  | @destroy n x hreturned halive hx hjoined =>
      refine ⟨h.flags, h.computing, h.subscribes, h.absent, ?_, fun hlate => h.declared ?_,
        fun hs => ?_⟩
      · have hbounded := h.bounded
        rw [halive] at hbounded
        exact (Nat.le_succ n).trans hbounded
      · rw [halive]
        exact Nat.lt_succ_of_lt hlate
      · rw [hreturned] at hs
        cases hs
  | wakeLogger hlogger =>
      refine ⟨h.flags, h.computing, h.subscribes, h.absent, h.bounded,
        fun _ => ?_, fun hr he => ?_⟩
      · cases hstop : p.startup.stopRequested <;> simp
      · rw [h.undeclared hr he] at hlogger
        cases hlogger
  | look hlogger =>
      refine ⟨h.flags, h.computing, h.subscribes, h.absent, h.bounded,
        fun _ => nofun, fun hr he => ?_⟩
      rw [h.undeclared hr he] at hlogger
      cases hlogger

theorem inStep_of_execute {as : List ProcessAct}
    (h : execute (Process.step P) as {} = some (p, out)) : InStep p := by
  have hboth : Scoped p ∧ InStep p := by
    refine execute_invariant_init (fun _ p => Scoped p ∧ InStep p) ?_
      ⟨scoped_start, inStep_start⟩ h
    intro _ p a p' _ hp hstep
    have hmove := process_moves hstep
    exact ⟨scoped_step hp.1 hmove, inStep_step hp.1 hp.2 hmove⟩
  exact hboth.2

/-! ## Each step is one less -/

/-- The steps of `ws_thread`. -/
def WsThread.remaining : WsThread → Nat
  | .constructing => 5
  | .connecting => 4
  | .running => 3
  | .closing => 2
  | .joining => 1
  | .left => 0

/-- The steps of `io_thread`, its messages apart; `n` is the length of the list that
`subscribe` goes through. -/
def PollThread.remaining (n : Nat) : PollThread → Nat
  | .absent | .polling false => n + 4
  | .subscribing rest => rest.length + 3
  | .notifying => 2
  | .polling true => 1
  | .ended => 0

def LoggerRun.remaining : LoggerRun → Nat
  | .absent | .logging => 2
  | .sleeping => 1
  | .stopped => 0

def SchedulerRun.remaining : SchedulerRun → Nat
  | .stopped => 0
  | _ => 1

/-- The steps of `main` once it is past its wait. -/
def Process.scopeRemaining (p : Process) : Nat :=
  if p.returned then p.alive
  else 2 * declarations.length - p.alive + 1 + (!p.processorStarted).toNat +
    (!p.schedulerStarted).toNat

/-- The steps that are left once the stop flag is set, those of handlers apart. -/
def Process.remaining (p : Process) : Nat :=
  (decide (p.startup.main = .woken)).toNat + p.startup.ws.remaining +
    p.startup.io.remaining p.startup.subscriptions.length + p.stopping.system.remaining +
    p.stopping.run.remaining + p.logger.remaining + p.scopeRemaining

/-- The action is one of the process itself: none of a handler, none of a signal. -/
def ProcessAct.winds : ProcessAct → Bool
  | .interrupt => false
  | .stopping (.program a) => a.works
  | _ => true

/-- SIGINT has come, `main` is past its wait and the session is constructed. -/
structure Ending (p : Process) : Prop where
  stop : p.startup.stopRequested = true
  past : p.startup.main.awaits = false
  constructed : p.startup.ws ≠ .constructing

theorem startup_remaining_step {st st' : Startup} {b : StartupAct} (hmove : st.Moves b st')
    (hb : b ≠ .requestStop) (hst : Subscribes st) (hmain : st.main.awaits = false)
    (hws : st.ws ≠ .constructing) :
    (st'.main.awaits = false ∧ st'.ws ≠ .constructing) ∧
    (decide (st'.main = .woken)).toNat + st'.ws.remaining +
        st'.io.remaining st'.subscriptions.length + 1 ≤
      (decide (st.main = .woken)).toNat + st.ws.remaining +
        st.io.remaining st.subscriptions.length := by
  cases hmove with
  | lockMtx hat | wait hat | spuriousWakeUp hat =>
      rw [hat] at hmain
      cases hmain
  | proceed hat => exact ⟨⟨rfl, hws⟩, by simp [hat]⟩
  | construct hat => exact absurd hat hws
  | connectionError hat | exception hat | leaveLoop hat _ | stopService hat | join hat _ =>
      refine ⟨⟨hmain, nofun⟩, ?_⟩
      simp only [hat, WsThread.remaining]
      omega
  | connect hat =>
      refine ⟨⟨hmain, nofun⟩, ?_⟩
      simp only [hat, hst.constructing (.inr hat), WsThread.remaining, PollThread.remaining]
      omega
  | requestStop => exact absurd rfl hb
  | openConnection hat _ | send hat | endSubscribe hat =>
      refine ⟨⟨hmain, hws⟩, ?_⟩
      simp only [hat, PollThread.remaining, List.length_cons, List.length_nil]
      omega
  | @endPoll opened hat _ =>
      refine ⟨⟨hmain, hws⟩, ?_⟩
      cases opened <;> simp only [hat, PollThread.remaining] <;> omega
  | notify hat =>
      have hsame : st.main.notifyOne = st.main := by
        cases hwait : st.main with
        | waiting =>
            rw [hwait] at hmain
            cases hmain
        | _ => rfl
      refine ⟨⟨?_, hws⟩, ?_⟩
      · dsimp only
        rw [hsame]
        exact hmain
      · simp only [hsame, hat, PollThread.remaining]
        omega

theorem stopping_remaining_step {st st' : Stopping} {b : StopAct} (hmove : st.Moves P b st' out)
    (hstop : st.system.stopRequested = true) (hb : b ≠ .stopProcessor ∧ b ≠ .stopScheduler) :
    st'.system.remaining + st'.run.remaining + (ProcessAct.winds (.stopping b)).toNat ≤
      st.system.remaining + st.run.remaining := by
  cases hmove with
  | @program a _ _ _ hstep =>
      have hless := remaining_step hstop (step_moves hstep)
      simp only [ProcessAct.winds]
      omega
  | stopProcessor => exact absurd rfl hb.1
  | stopScheduler => exact absurd rfl hb.2
  | evaluate hrun | wake hrun =>
      simp [Stopping.stopRequested, hstop, hrun, SchedulerRun.remaining, ProcessAct.winds]
  | leave hrun _ => simp [hrun, SchedulerRun.remaining, ProcessAct.winds]
  | begin _ hrunning _ =>
      rw [Stopping.stopRequested, hstop] at hrunning
      cases hrunning
  | computed hrun hstep =>
      have hless := remaining_step hstop (step_moves hstep)
      simp only [hrun, SchedulerRun.remaining, ProcessAct.winds, Act.works, Act.thread,
        Bool.toNat_true] at hless ⊢
      omega

/-- With the flag set, an action of the process uses up one of the steps that are left,
and no other action adds one. -/
theorem process_remaining_step (hinStep : InStep p) (h : Ending p) (hmove : p.Moves P a p' out) :
    Ending p' ∧ p'.remaining + a.winds.toNat ≤ p.remaining := by
  have hstop : p.stopping.system.stopRequested = true := hinStep.flags.trans h.stop
  unfold Process.remaining Process.scopeRemaining
  cases hmove with
  | lockMtx hmain =>
      have hpast := h.past
      rw [hmain] at hpast
      cases hpast
  | startup hadmits hmain hinner =>
      have hb : ∀ {b}, p.admitsStartup b = true → b ≠ .requestStop := by
        rintro b hadmits rfl
        cases hadmits
      obtain ⟨⟨hpast, hws⟩, hless⟩ := startup_remaining_step hinner (hb hadmits)
        hinStep.subscribes h.past h.constructed
      refine ⟨⟨(stopFlag_startup hinner (hb hadmits)).trans h.stop, hpast, hws⟩, ?_⟩
      simp only [ProcessAct.winds, Bool.toNat_true]
      omega
  | stopping hadmits hinner =>
      have hless := stopping_remaining_step hinner hstop (by
        constructor <;>
          · rintro rfl
            cases hadmits)
      refine ⟨⟨h.stop, h.past, h.constructed⟩, ?_⟩
      simp only at hless ⊢
      omega
  | interrupt => exact ⟨⟨rfl, h.past, h.constructed⟩, le_rfl⟩
  | declare hmain hreturned halive hstarted =>
      refine ⟨⟨h.stop, h.past, h.constructed⟩, ?_⟩
      have hlogger : (if p.alive = Object.rank .loggerThread then LoggerRun.sleeping
          else p.logger).remaining ≤ p.logger.remaining := by
        split
        · rename_i hlast
          rw [hinStep.undeclared hreturned hlast.le]
          decide
        · exact le_rfl
      simp only [hreturned, ProcessAct.winds, Bool.toNat_true, Bool.false_eq_true, if_false]
      omega
  | startProcessor hreturned halive hstarted =>
      refine ⟨⟨h.stop, h.past, h.constructed⟩, ?_⟩
      simp only [hreturned, hstarted, ProcessAct.winds, Bool.toNat_true, Bool.not_true,
        Bool.not_false, Bool.toNat_false, Bool.false_eq_true, if_false]
      omega
  | startScheduler hreturned halive hprocessor hstarted =>
      refine ⟨⟨h.stop, h.past, h.constructed⟩, ?_⟩
      simp only [hreturned, hstarted, ProcessAct.winds, Bool.toNat_true, Bool.not_true,
        Bool.not_false, Bool.toNat_false, Bool.false_eq_true, if_false]
      omega
  | returnMain hreturned halive =>
      refine ⟨⟨h.stop, h.past, h.constructed⟩, ?_⟩
      simp only [hreturned, halive, ProcessAct.winds, Bool.toNat_true, Bool.false_eq_true,
        if_false, if_true]
      omega
  | destroy hreturned halive hx hjoined =>
      refine ⟨⟨h.stop, h.past, h.constructed⟩, ?_⟩
      simp only [hreturned, halive, ProcessAct.winds, Bool.toNat_true, if_true]
      omega
  | wakeLogger hlogger =>
      refine ⟨⟨h.stop, h.past, h.constructed⟩, ?_⟩
      simp only [h.stop, hlogger, LoggerRun.remaining, ProcessAct.winds, Bool.toNat_true,
        if_true]
      omega
  | look hlogger =>
      refine ⟨⟨h.stop, h.past, h.constructed⟩, ?_⟩
      simp only [hlogger, LoggerRun.remaining, ProcessAct.winds, Bool.toNat_true]
      omega

/-! ## Nobody waits in a circle -/

/-- No action of the process is enabled, and `io_thread` is not in a message. -/
def Quiet (P : Platform) (p : Process) : Prop :=
  ∀ b : ProcessAct, b.winds = true ∨ b = .stopping (.program .message) →
    Process.step P b p = none

theorem Quiet.startup (h : Quiet P p) {b : StartupAct} (hadmits : p.admitsStartup b = true) :
    Startup.step b p.startup = none := by
  have hnone := h (.startup b) (.inl rfl)
  rw [Process.step, if_pos hadmits] at hnone
  cases hstep : Startup.step b p.startup with
  | none => rfl
  | some r =>
      rw [hstep] at hnone
      cases hnone

theorem Quiet.stopping (h : Quiet P p) {b : StopAct}
    (hb : ProcessAct.winds (.stopping b) = true ∨ b = .program .message)
    (hadmits : p.admitsStopping b = true) : Stopping.step P b p.stopping = none := by
  have hnone := h (.stopping b) (hb.imp id (congrArg ProcessAct.stopping))
  rw [Process.step, if_pos hadmits] at hnone
  cases hstep : Stopping.step P b p.stopping with
  | none => rfl
  | some r =>
      rw [hstep] at hnone
      cases hnone

/-- A step of the program that would be one of the process. -/
theorem Quiet.program (h : Quiet P p) {b : Act}
    (hb : b.works = true ∨ b = .message) (hframes : b.frames = false)
    (hadmits : p.admitsStopping (.program b) = true) :
    System.step P b p.stopping.system = none := by
  have hnone := h.stopping (hb.imp id (congrArg StopAct.program)) hadmits
  simp only [Stopping.step, hframes, Bool.false_eq_true, if_false] at hnone
  cases hstep : System.step P b p.stopping.system with
  | none => rfl
  | some r =>
      rw [hstep] at hnone
      cases hnone

/-- The io thread is not in a message: each step of its loop is enabled or raises. -/
theorem Quiet.io_idle (h : Quiet P p) (hscoped : Scoped p)
    (hsafe : ¬ AboutToRaise P p.stopping.system .io) : p.stopping.system.io.isIdle = true := by
  cases hio : p.stopping.system.io with
  | idle => rfl
  | sending root i =>
      have hpolling := hscoped.message (by rw [hio]; rfl)
      obtain ⟨b, σ, os, hthread, hstep⟩ := (io_goes_on P p.stopping.system).resolve_right hsafe
      have hmessage : b = .message := by
        cases step_moves hstep with
        | receive hidle =>
            rw [hio] at hidle
            cases hidle
        | enqueue _ _ | messageEnd _ _ => rfl
        | _ => cases hthread
      subst hmessage
      have hnone := h.program (.inr rfl) rfl (b := .message) (by
        simp [Process.admitsStopping, Act.thread, hpolling])
      rw [hnone] at hstep
      cases hstep

/-- `ws_thread` has ended. -/
theorem Quiet.ws_left (h : Quiet P p) (hscoped : Scoped p) (hinStep : InStep p)
    (hending : Ending p)
    (hsafe : ¬ AboutToRaise P p.stopping.system .io) : p.startup.ws = .left := by
  have hidle := h.io_idle hscoped hsafe
  cases hws : p.startup.ws with
  | constructing => exact absurd hws hending.constructed
  | connecting =>
      have hnone := h.startup (b := .connect) rfl
      simp [Startup.step, Startup.wsStep, hws] at hnone
  | running =>
      have hnone := h.startup (b := .leaveLoop) rfl
      simp [Startup.step, Startup.wsStep, hws, hending.stop] at hnone
  | closing =>
      have hnone := h.startup (b := .stopService) rfl
      simp [Startup.step, Startup.wsStep, hws] at hnone
  | joining =>
      cases hio : p.startup.io with
      | absent =>
          have habsent := hinStep.absent hio
          simp [hws] at habsent
      | polling opened =>
          have hnone := h.startup (b := .endPoll) hidle
          simp [Startup.step, Startup.ioStep, hws, hio] at hnone
      | subscribing rest =>
          cases rest with
          | nil =>
              have hnone := h.startup (b := .endSubscribe) hidle
              simp [Startup.step, Startup.ioStep, hio] at hnone
          | cons s rest =>
              have hnone := h.startup (b := .send none) hidle
              simp [Startup.step, Startup.ioStep, hio] at hnone
      | notifying =>
          have hnone := h.startup (b := .notify) hidle
          simp [Startup.step, Startup.ioStep, hio] at hnone
      | ended =>
          have hnone := h.startup (b := .join) rfl
          simp [Startup.step, Startup.wsStep, hws, hio] at hnone
  | left => rfl

theorem worker_frames {b : Act} (hthread : b.thread = .worker) : b.frames = false := by
  cases b with
  | tick | finish => cases hthread
  | _ => rfl

theorem admits_worker {b : Act} (hthread : b.thread = .worker)
    (hstarted : p.processorStarted = true) :
    p.admitsStopping (.program b) = true := by
  cases b with
  | loop | timeout | dequeue | push | readClock | evict => exact hstarted
  | _ => cases hthread

theorem admits_scheduler {b : Act} (hthread : b.thread = .scheduler)
    (hstarted : p.schedulerStarted = true) : p.admitsStopping (.program b) = true := by
  cases b with
  | tick | lock | reset | pass | release | finish => exact hstarted
  | _ => cases hthread

/-- The worker has ended, if it was started. -/
theorem Quiet.worker_stopped (h : Quiet P p) (hlocated : Located p.stopping.system)
    (hsafe : ¬ AboutToRaise P p.stopping.system .worker) (hstarted : p.processorStarted = true) :
    p.stopping.system.worker.isStopped = true := by
  rcases worker_goes_on (P := P) hlocated with ⟨b, σ, os, hthread, hstep⟩ | hraises | hended
  · have hnone := h.program (.inl (by simp [Act.works, hthread])) (worker_frames hthread)
      (admits_worker hthread hstarted)
    rw [hnone] at hstep
    cases hstep
  · exact absurd hraises hsafe
  · cases hended with
    | worker hworker =>
        rw [hworker]
        rfl

/-- So has the scheduler. -/
theorem Quiet.scheduler_stopped (h : Quiet P p) (hinStep : InStep p)
    (hlocated : Located p.stopping.system)
    (hsafe : ¬ AboutToRaise P p.stopping.system .scheduler)
    (hstarted : p.schedulerStarted = true) :
    p.stopping.run = .stopped := by
  cases hrun : p.stopping.run with
  | stopped => rfl
  | looping =>
      have hnone := h.stopping (b := .evaluate) (.inl rfl) hstarted
      simp [Stopping.step, hrun] at hnone
  | waiting =>
      have hnone := h.stopping (b := .wake) (.inl rfl) hstarted
      simp [Stopping.step, hrun] at hnone
  | computing =>
      have hbusy := hinStep.computing hrun
      rcases scheduler_goes_on (P := P) hlocated with
        ⟨b, σ, os, hthread, hstep⟩ | hraises | hended
      · by_cases hfinish : b = .finish
        · subst hfinish
          have hnone := h.stopping (b := .computed) (.inl rfl) hstarted
          simp [Stopping.step, hrun, hstep, within] at hnone
        · have hframes : b.frames = false := by
            cases step_moves hstep with
            | tick hidle _ => exact absurd hidle hbusy
            | finish _ _ => exact absurd rfl hfinish
            | _ => rfl
          have hnone := h.program (.inl (by simp [Act.works, hthread])) hframes
            (admits_scheduler hthread hstarted)
          rw [hnone] at hstep
          cases hstep
      · exact absurd hraises hsafe
      · cases hended with
        | scheduler hidle _ => exact absurd hidle hbusy

/-- `main` has come to its return. -/
theorem Quiet.returned (h : Quiet P p) (hinStep : InStep p) (hending : Ending p) :
    p.returned = true := by
  by_contra hnot
  have hreturned : p.returned = false := by simpa using hnot
  have hmain : p.startup.main = .past := by
    have hpast := hending.past
    cases hmain : p.startup.main with
    | past => rfl
    | woken =>
        have hnone := h.startup (b := .proceed) rfl
        simp [Startup.step, Startup.mainStep, hmain] at hnone
    | starting | locked | waiting =>
        rw [hmain] at hpast
        cases hpast
  rcases Nat.lt_or_eq_of_le hinStep.bounded with hlt | heq
  · have hdeclare := h .declare (.inl rfl)
    have hprocessor := h .startProcessor (.inl rfl)
    have hscheduler := h .startScheduler (.inl rfl)
    simp only [Process.step, hmain, hreturned, hlt, true_and, ite_eq_right_iff, reduceCtorEq,
      imp_false, Classical.not_imp] at hdeclare hprocessor hscheduler
    obtain ⟨hlast, hunstarted⟩ := hdeclare
    have halive : p.alive = Object.rank .scheduler + 1 := hlast
    simp only [halive, true_and, hunstarted, and_true] at hprocessor hscheduler
    simp_all
  · have hreturn := h .returnMain (.inl rfl)
    simp [Process.step, hreturned, heq] at hreturn

theorem rank_of_getElem? {x : Object} {n : Nat} (hx : declarations[n]? = some x) :
    x.rank = n := by
  obtain ⟨hn, rfl⟩ := List.getElem?_eq_some_iff.mp hx
  have hnodup : declarations.Nodup := by decide
  exact hnodup.idxOf_getElem n hn

/-- Where nothing moves and nothing raises, everything is destroyed. -/
theorem Quiet.exited (h : Quiet P p) (hscoped : Scoped p) (hinStep : InStep p)
    (hlocated : Located p.stopping.system) (hending : Ending p)
    (hsafe : ∀ thread, ¬ AboutToRaise P p.stopping.system thread) : p.Exited := by
  have hreturned := h.returned hinStep hending
  refine ⟨hreturned, ?_⟩
  have hlogger : p.logger ≠ .sleeping ∧ p.logger ≠ .logging := by
    constructor <;> intro hat
    · have hnone := h .wakeLogger (.inl rfl)
      simp [Process.step, hat] at hnone
    · have hnone := h .look (.inl rfl)
      simp [Process.step, hat] at hnone
  cases halive : p.alive with
  | zero => rfl
  | succ n =>
      have hbounded := hinStep.bounded
      rw [halive] at hbounded
      obtain ⟨x, hx⟩ : ∃ x, declarations[n]? = some x := ⟨_, List.getElem?_eq_getElem hbounded⟩
      have hjoined : p.joined x = true := by
        cases x with
        | wsThread => simpa [Process.joined] using h.ws_left hscoped hinStep hending (hsafe .io)
        | sp =>
            by_cases hstarted : p.processorStarted = true
            · simp [Process.joined, h.worker_stopped hlocated (hsafe .worker) hstarted]
            · simp [Process.joined, hstarted]
        | scheduler =>
            by_cases hstarted : p.schedulerStarted = true
            · simp [Process.joined,
                h.scheduler_stopped hinStep hlocated (hsafe .scheduler) hstarted]
            · simp [Process.joined, hstarted]
        | loggerThread =>
            have hlast : Object.rank .loggerThread < p.alive := by
              rw [halive, rank_of_getElem? hx]
              exact Nat.lt_succ_self n
            have hpresent := hinStep.declared hlast
            cases hat : p.logger <;> simp_all [Process.joined]
        | _ => rfl
      have hnone := h .destroy (.inl rfl)
      simp [Process.step, halive, hreturned, hx, hjoined] at hnone

/-- The process makes a step: one of its own, or one of the loop of `on_message`. -/
def GoesOn (P : Platform) (p : Process) : Prop :=
  ∃ (b : ProcessAct) (p' : Process) (out : List StopOutput),
    (b.winds = true ∨ b = .stopping (.program .message)) ∧ Process.step P b p = some (p', out)

theorem quiet_of_not_goesOn (h : ¬ GoesOn P p) : Quiet P p := by
  intro b hb
  by_contra hsome
  obtain ⟨⟨p', out⟩, hstep⟩ := Option.ne_none_iff_exists'.mp hsome
  exact h ⟨b, p', out, hb, hstep⟩

/-- After the last destructor nothing is left that could move. -/
theorem halted_of_exited {as : List ProcessAct}
    (h : execute (Process.step P) as {} = some (p, out)) (hexited : p.Exited) {b : ProcessAct}
    (hb : b ≠ .interrupt) : Process.step P b p = none := by
  have hscoped := scoped_of_execute h
  have hdead : ∀ x, ¬ p.Alive x := by
    have hleft : p.startup.ws = .left := by
      by_contra hrunning
      have halive := hscoped.wsThread hrunning
      rw [hexited.2] at halive
      exact Nat.not_lt_zero _ halive
    intro x hx
    cases x with
    | sess => exact hx.2 hleft
    | ioThread => simp [Process.Alive, hleft] at hx
    | _ => exact Nat.not_lt_zero _ (lt_of_lt_of_eq hx hexited.2)
  by_contra hsome
  obtain ⟨⟨p', out'⟩, hstep⟩ := Option.ne_none_iff_exists'.mp hsome
  have huses : b.uses = [] := by
    by_contra hne
    obtain ⟨x, hx⟩ := List.exists_mem_of_ne_nil _ hne
    exact hdead x (uses_alive hscoped (process_moves hstep) x hx)
  have hreturned := hexited.1
  cases process_moves hstep with
  | interrupt => exact hb rfl
  | declare _ hunreturned _ _ | returnMain hunreturned _ =>
      rw [hreturned] at hunreturned
      cases hunreturned
  | destroy _ halive _ _ =>
      rw [hexited.2] at halive
      cases halive
  | startup hadmits _ hmove =>
      cases hmove with
      | requestStop => cases hadmits
      | _ => cases huses
  | stopping hadmits hmove =>
      cases hmove with
      | program _ hinner =>
          cases step_moves hinner with
          | requestStop => cases hadmits
          | _ => cases huses
      | _ => cases huses
  | _ => cases huses

/-- Once SIGINT has come, with `main` past its wait and the session constructed: whatever
the threads are in the middle of, whatever messages still come and however all of it
interleaves, the process has a bounded number of steps left, the steps of the message
handlers and of the interrupt handler apart; until everything is destroyed there is
always a next one, unless a thread is about to raise, and after sound messages none is;
and when everything is destroyed nothing moves any more. -/
theorem exits_within {as bs : List ProcessAct} {out' : List StopOutput}
    (h : execute (Process.step P) as {} = some (p, out)) (hending : Ending p)
    (h' : execute (Process.step P) bs p = some (p', out')) :
    bs.countP ProcessAct.winds ≤ p.remaining ∧
    (p'.Exited ∨ GoesOn P p' ∨ ∃ thread, AboutToRaise P p'.stopping.system thread) ∧
    ((∀ a ∈ as ++ bs, ∀ root, a.receives root → Sound P root) → p'.Exited ∨ GoesOn P p') ∧
    (p'.Exited → ∀ b : ProcessAct, b ≠ .interrupt → Process.step P b p' = none) := by
  have hstep : ∀ a p p' out, Scoped p ∧ InStep p ∧ Ending p →
      Process.step P a p = some (p', out) →
      (Scoped p' ∧ InStep p' ∧ Ending p') ∧ p'.remaining + a.winds.toNat ≤ p.remaining := by
    intro a p p' out hp hnext
    have hmove := process_moves hnext
    obtain ⟨hending', hless⟩ := process_remaining_step hp.2.1 hp.2.2 hmove
    exact ⟨⟨scoped_step hp.1 hmove, inStep_step hp.1 hp.2.1 hmove, hending'⟩, hless⟩
  have hp := And.intro (scoped_of_execute h) (And.intro (inStep_of_execute h) hending)
  have hbudget := countP_le_budget hstep hp h'
  have hreaches : Reaches (Process.step P) (fun _ => True) p p' := ⟨bs, out', by simp, h'⟩
  obtain ⟨hscoped, hinStep, hending'⟩ := hreaches.keeps
    (fun p => Scoped p ∧ InStep p ∧ Ending p)
    (fun a p p' out _ hp hnext => (hstep a p p' out hp hnext).1) hp
  have hrun := execute_append h h'
  obtain ⟨cs, os, hexec, hreceived⟩ := system_of_execute hrun
  have hgoes : (∀ thread, ¬ AboutToRaise P p'.stopping.system thread) →
      p'.Exited ∨ GoesOn P p' := by
    intro hsafe
    by_cases hgoes : GoesOn P p'
    · exact .inr hgoes
    · exact .inl ((quiet_of_not_goesOn hgoes).exited hscoped hinStep
        (located_of_execute hexec) hending' hsafe)
  refine ⟨by omega, ?_, fun hsound => hgoes ?_, fun hexited b hb =>
    halted_of_exited hrun hexited hb⟩
  · by_cases hraises : ∃ thread, AboutToRaise P p'.stopping.system thread
    · exact .inr (.inr hraises)
    · exact (hgoes (not_exists.mp hraises)).imp id .inl
  · refine (sane_of_execute hexec fun root hroot => ?_).not_aboutToRaise
    obtain ⟨a, ha, hreceives⟩ := hreceived root hroot
    exact hsound a ha root hreceives

/-- SIGINT comes while the logger sleeps and the two workers have not begun; the rest of
the life of the process. -/
theorem exits_within_sample : ∃ p out p' out',
    execute (Process.step Platform.listed) (untilLastLoop.take 17) {} = some (p, out) ∧
    execute (Process.step Platform.listed) (untilLastLoop.drop 17 ++
      [.stopping (.program .loop), .destroy, .destroy, .destroy, .startup .leaveLoop,
        .startup .stopService, .startup .endPoll, .startup .join, .destroy, .destroy, .destroy,
        .destroy, .destroy, .destroy]) p = some (p', out') ∧
    18 ≤ p.remaining ∧ p'.Exited ∧
    ∀ b : ProcessAct, b ≠ .interrupt → Process.step Platform.listed b p' = none := by
  have hrun : ((execute (Process.step Platform.listed) (untilLastLoop.take 17) {}).bind fun r =>
      (execute (Process.step Platform.listed) (untilLastLoop.drop 17 ++
        [.stopping (.program .loop), .destroy, .destroy, .destroy, .startup .leaveLoop,
          .startup .stopService, .startup .endPoll, .startup .join, .destroy, .destroy, .destroy,
          .destroy, .destroy, .destroy]) r.1).map fun r' =>
        (r.1.startup.stopRequested, r.1.startup.main, r.1.startup.ws, r'.1.returned,
          r'.1.alive)) = some (true, .past, .running, true, 0) := by
    decide +kernel
  obtain ⟨⟨p, out⟩, hexec, hrest⟩ := Option.bind_eq_some_iff.mp hrun
  obtain ⟨⟨p', out'⟩, hexec', heq⟩ := Option.map_eq_some_iff.mp hrest
  simp only [Prod.mk.injEq] at heq
  obtain ⟨hstop, hmain, hws, hreturned, halive⟩ := heq
  have hending : Ending p := ⟨hstop, by rw [hmain]; rfl, by rw [hws]; exact nofun⟩
  obtain ⟨hcount, _, _, hhalted⟩ := exits_within hexec hending hexec'
  exact ⟨p, out, p', out', hexec, hexec', hcount, ⟨hreturned, halive⟩,
    hhalted ⟨hreturned, halive⟩⟩

end TradeProcessor
