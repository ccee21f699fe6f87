/-
  Process.lean --- the life of the process: `main` from its declarations to the last
  destructor.

  `Startup` has the threads up to the end of the wait, `Stopping` the workers and the
  io thread once they run.  Here they are one program with `main` around them: it
  declares its objects in order, starts the workers, comes to `return 0` and destroys
  the objects in reverse.  The destructor of a jthread, and of an object that has one
  as its member, waits until the thread has ended.  What the logger thread does with
  the features is in `Logger`; here it looks at the queue and the map, or sleeps.
-/
import TradeProcessor.Startup
import TradeProcessor.Stopping

set_option autoImplicit false

namespace TradeProcessor

open TradeProcessor.Json TradeProcessor.Library

/-! ## Objects and threads -/

/-- The objects that threads refer to: those of `main`, the session in the function of
`ws_thread`, and `io_thread` in `connect`. -/
inductive Object where
  | pool
  | mtx
  | condVar
  | q
  | token
  | wsThread
  | lck
  | symbolStateMap
  | sp
  | scheduler
  | loggerThread
  | sess
  | ioThread
  deriving DecidableEq

/-- The declarations of `main`, in order. -/
def declarations : List Object :=
  [.pool, .mtx, .condVar, .q, .token, .wsThread, .lck, .symbolStateMap, .sp, .scheduler,
    .loggerThread]

/-- The declarations that come before that of an object. -/
def Object.rank (x : Object) : Nat := declarations.idxOf x

/-- Where the logger thread is. -/
inductive LoggerRun where
  | absent
  | sleeping
  /-- between two sleeps -/
  | logging
  | stopped
  deriving DecidableEq

structure Process where
  startup : Startup := {}
  stopping : Stopping := {}
  logger : LoggerRun := .absent
  /-- how many declarations of `main` are alive; it starts with `ws_thread` declared -/
  alive : Nat := Object.rank .wsThread + 1
  processorStarted : Bool := false
  schedulerStarted : Bool := false
  /-- `main` has come to `return 0` -/
  returned : Bool := false

inductive ProcessAct where
  | startup (a : StartupAct)
  | stopping (a : StopAct)
  /-- SIGINT -/
  | interrupt
  /-- the next declaration of `main` -/
  | declare
  /-- `sp.start(token)` -/
  | startProcessor
  /-- `scheduler.start(token)` -/
  | startScheduler
  | returnMain
  /-- the destructor of the object declared last -/
  | destroy
  | wakeLogger
  /-- the logger reads the queue and the map, and goes back to sleep -/
  | look

/-- The object is alive. -/
def Process.Alive (p : Process) : Object → Prop
  | .sess => p.startup.ws ≠ .constructing ∧ p.startup.ws ≠ .left
  | .ioThread => p.startup.ws = .running ∨ p.startup.ws = .closing ∨ p.startup.ws = .joining
  | x => x.rank < p.alive

/-- The main objects that an action of the program reads or writes, and the object whose
member function it is in. -/
def Act.uses : Act → List Object
  | .receive _ | .message => [.sess, .ioThread, .q]
  | .loop | .readClock _ => [.sp]
  | .timeout | .dequeue => [.sp, .q]
  | .push | .evict => [.sp, .symbolStateMap]
  | .tick | .lock _ | .reset | .pass | .release | .finish => [.scheduler, .sp, .symbolStateMap]
  | .requestStop => []

/-- The same for `main` up to the end of the wait, `ws_thread` and `io_thread`. -/
def StartupAct.uses : StartupAct → List Object
  | .lockMtx => [.mtx]
  | .wait | .spuriousWakeUp | .proceed => [.mtx, .lck, .condVar]
  | .construct _ => [.wsThread, .condVar, .q, .token]
  | .connectionError _ | .exception _ | .connect | .leaveLoop | .stopService =>
      [.wsThread, .sess]
  | .join => [.wsThread, .sess, .ioThread]
  | .openConnection | .send _ | .endSubscribe | .endPoll => [.sess, .ioThread]
  | .notify => [.sess, .ioThread, .condVar]
  | .requestStop => []

/-- The same for `Scheduler::run`; its mutex and condition variable are members. -/
def StopAct.uses : StopAct → List Object
  | .program a => a.uses
  | .evaluate | .wake => [.scheduler]
  | .timeUp | .computed => [.scheduler, .sp, .symbolStateMap]
  | .stopProcessor => [.sp]
  | .stopScheduler => [.scheduler]

def ProcessAct.uses : ProcessAct → List Object
  | .startup a => a.uses
  | .stopping a => a.uses
  | .interrupt | .returnMain | .declare | .destroy => []
  | .startProcessor => [.sp, .token]
  | .startScheduler => [.scheduler, .token]
  | .wakeLogger => [.loggerThread, .token]
  | .look => [.loggerThread, .q, .symbolStateMap]

/-! ## Steps -/

/-- The io thread is not in a handler. -/
def IoThread.isIdle : IoThread → Bool
  | .idle => true
  | .sending _ _ => false

/-- `io_thread` runs one handler at a time, and the stop flag is set by SIGINT. -/
def Process.admitsStartup (p : Process) : StartupAct → Bool
  | .requestStop => false
  | .openConnection | .send _ | .endSubscribe | .notify | .endPoll => p.stopping.system.io.isIdle
  | _ => true

/-- Messages come while the connection is open and the service runs; a worker moves once
it is started.  `main` calls neither `stop`. -/
def Process.admitsStopping (p : Process) : StopAct → Bool
  | .program a =>
      match a, a.thread with
      | .receive _, _ => p.startup.io = .polling true ∧ p.startup.ws ≠ .joining
      | _, .io => p.startup.io = .polling true
      | _, .worker => p.processorStarted
      | _, .scheduler => p.schedulerStarted
      | _, .signal => false
  | .evaluate | .wake | .timeUp | .computed => p.schedulerStarted
  | .stopProcessor | .stopScheduler => false

/-- The destructor of the object returns: the thread that it joins has ended. -/
def Process.joined (p : Process) : Object → Bool
  | .wsThread => p.startup.ws = .left
  | .sp => !p.processorStarted || p.stopping.system.worker.isStopped
  | .scheduler => !p.schedulerStarted || p.stopping.run = .stopped
  | .loggerThread => p.logger = .stopped
  | _ => true

/-- One action. -/
def Process.step (P : Platform) (a : ProcessAct) (p : Process) :
    Option (Process × List StopOutput) :=
  match a with
  | .startup a =>
      if p.admitsStartup a then
        within (fun startup => { p with
          startup := startup
          alive := if p.startup.main = .starting ∧ startup.main = .locked then p.alive + 1
            else p.alive }) (fun _ => []) (Startup.step a p.startup)
      else none
  | .stopping a =>
      if p.admitsStopping a then
        within (fun stopping => { p with stopping := stopping }) id
          (Stopping.step P a p.stopping)
      else none
  | .interrupt =>
      some ({ p with
        startup := { p.startup with stopRequested := true }
        stopping := { p.stopping with
          system := { p.stopping.system with stopRequested := true } } }, [])
  | .declare =>
      if p.startup.main = .past ∧ p.returned = false ∧ p.alive < declarations.length ∧
          (p.alive = Object.rank .loggerThread → p.schedulerStarted = true) then
        some ({ p with
          alive := p.alive + 1
          logger := if p.alive = Object.rank .loggerThread then .sleeping else p.logger }, [])
      else none
  | .startProcessor =>
      if p.returned = false ∧ p.alive = Object.rank .scheduler + 1 ∧
          p.processorStarted = false then
        some ({ p with processorStarted := true }, [])
      else none
  | .startScheduler =>
      if p.returned = false ∧ p.alive = Object.rank .scheduler + 1 ∧ p.processorStarted = true ∧
          p.schedulerStarted = false then
        some ({ p with schedulerStarted := true }, [])
      else none
  | .returnMain =>
      if p.returned = false ∧ p.alive = declarations.length then
        some ({ p with returned := true }, [])
      else none
  | .destroy =>
      match p.alive with
      | 0 => none
      | n + 1 =>
          if p.returned = true ∧ (declarations[n]?.map p.joined) = some true then
            some ({ p with alive := n }, [])
          else none
  | .wakeLogger =>
      if p.logger = .sleeping then
        some ({ p with logger := if p.startup.stopRequested then .stopped else .logging }, [])
      else none
  | .look => if p.logger = .logging then some ({ p with logger := .sleeping }, []) else none

/-- `main` has returned and its objects are gone. -/
def Process.Exited (p : Process) : Prop := p.returned = true ∧ p.alive = 0

/-! ## What a step can do -/

/-- The steps, with everything that an action was enabled by. -/
inductive Process.Moves (P : Platform) (p : Process) :
    ProcessAct → Process → List StopOutput → Prop where
  | lockMtx (hmain : p.startup.main = .starting) :
      Moves P p (.startup .lockMtx)
        { p with startup := { p.startup with main := .locked }, alive := p.alive + 1 } []
  | startup {a : StartupAct} {startup : Startup} (hadmits : p.admitsStartup a = true)
      (hmain : p.startup.main ≠ .starting ∨ startup.main = .starting)
      (hmove : p.startup.Moves a startup) :
      Moves P p (.startup a) { p with startup := startup } []
  | stopping {a : StopAct} {stopping : Stopping} {out : List StopOutput}
      (hadmits : p.admitsStopping a = true) (hmove : p.stopping.Moves P a stopping out) :
      Moves P p (.stopping a) { p with stopping := stopping } out
  | interrupt : Moves P p .interrupt { p with
      startup := { p.startup with stopRequested := true }
      stopping := { p.stopping with
        system := { p.stopping.system with stopRequested := true } } } []
  | declare (hmain : p.startup.main = .past) (hreturned : p.returned = false)
      (halive : p.alive < declarations.length)
      (hstarted : p.alive = Object.rank .loggerThread → p.schedulerStarted = true) :
      Moves P p .declare { p with
        alive := p.alive + 1
        logger := if p.alive = Object.rank .loggerThread then .sleeping else p.logger } []
  | startProcessor (hreturned : p.returned = false)
      (halive : p.alive = Object.rank .scheduler + 1)
      (hstarted : p.processorStarted = false) :
      Moves P p .startProcessor { p with processorStarted := true } []
  | startScheduler (hreturned : p.returned = false)
      (halive : p.alive = Object.rank .scheduler + 1)
      (hprocessor : p.processorStarted = true) (hstarted : p.schedulerStarted = false) :
      Moves P p .startScheduler { p with schedulerStarted := true } []
  | returnMain (hreturned : p.returned = false) (halive : p.alive = declarations.length) :
      Moves P p .returnMain { p with returned := true } []
  | destroy {n : Nat} {x : Object} (hreturned : p.returned = true) (halive : p.alive = n + 1)
      (hx : declarations[n]? = some x) (hjoined : p.joined x = true) :
      Moves P p .destroy { p with alive := n } []
  | wakeLogger (hlogger : p.logger = .sleeping) :
      Moves P p .wakeLogger
        { p with logger := if p.startup.stopRequested then .stopped else .logging } []
  | look (hlogger : p.logger = .logging) : Moves P p .look { p with logger := .sleeping } []

variable {P : Platform} {p p' : Process} {out : List StopOutput}

/-- `main` leaves its start by taking `mtx` only. -/
theorem main_of_moves {st st' : Startup} {a : StartupAct} (hmove : st.Moves a st')
    (hmain : st.main = .starting) : st'.main = .starting ∨ a = .lockMtx := by
  cases hmove with
  | lockMtx _ => exact .inr rfl
  | wait h | spuriousWakeUp h | proceed h =>
      rw [hmain] at h
      cases h
  | notify hio =>
      refine .inl ?_
      simp [hmain, MainThread.notifyOne]
  | _ => exact .inl hmain

theorem process_moves {a : ProcessAct} (h : Process.step P a p = some (p', out)) :
    p.Moves P a p' out := by
  cases a with
  | startup a =>
      simp only [Process.step] at h
      split at h
      · rename_i hadmits
        obtain ⟨startup, os, hstep, rfl, rfl⟩ := within_eq_some h
        have hmove := startup_moves hstep
        by_cases hlock : p.startup.main = .starting ∧ startup.main = .locked
        · rw [if_pos hlock]
          rcases main_of_moves hmove hlock.1 with hmain | rfl
          · rw [hmain] at hlock
            cases hlock.2
          · cases hmove
            exact .lockMtx hlock.1
        · rw [if_neg hlock]
          refine .startup hadmits ?_ hmove
          by_cases hmain : p.startup.main = .starting
          · rcases main_of_moves hmove hmain with hmain' | rfl
            · exact .inr hmain'
            · cases hmove
              exact absurd ⟨hmain, rfl⟩ hlock
          · exact .inl hmain
      · cases h
  | stopping a =>
      simp only [Process.step] at h
      split at h
      · rename_i hadmits
        obtain ⟨stopping, out, hstep, rfl, rfl⟩ := within_eq_some h
        exact .stopping hadmits (stopping_moves hstep)
      · cases h
  | interrupt =>
      cases h
      exact .interrupt
  | declare =>
      simp only [Process.step] at h
      split at h
      · rename_i henabled
        cases h
        exact .declare henabled.1 henabled.2.1 henabled.2.2.1 henabled.2.2.2
      · cases h
  | startProcessor =>
      simp only [Process.step] at h
      split at h
      · rename_i henabled
        cases h
        exact .startProcessor henabled.1 henabled.2.1 henabled.2.2
      · cases h
  | startScheduler =>
      simp only [Process.step] at h
      split at h
      · rename_i henabled
        cases h
        exact .startScheduler henabled.1 henabled.2.1 henabled.2.2.1 henabled.2.2.2
      · cases h
  | returnMain =>
      simp only [Process.step] at h
      split at h
      · rename_i henabled
        cases h
        exact .returnMain henabled.1 henabled.2
      · cases h
  | destroy =>
      simp only [Process.step] at h
      split at h
      · cases h
      · rename_i n halive
        split at h
        · rename_i henabled
          cases h
          obtain ⟨x, hx, hjoined⟩ := Option.map_eq_some_iff.mp henabled.2
          exact .destroy henabled.1 halive hx hjoined
        · cases h
  | wakeLogger =>
      simp only [Process.step] at h
      split at h
      · rename_i hlogger
        cases h
        exact .wakeLogger hlogger
      · cases h
  | look =>
      simp only [Process.step] at h
      split at h
      · rename_i hlogger
        cases h
        exact .look hlogger
      · cases h

end TradeProcessor
