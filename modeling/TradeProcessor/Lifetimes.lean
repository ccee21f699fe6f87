/-
  Lifetimes.lean --- no thread outlives what it refers to.

  The threads refer to objects of `main` and are given no reference count.  What keeps
  the objects alive is the order of the declarations: an object that a thread refers to
  is declared before the object that joins the thread.
-/
import TradeProcessor.Process

set_option autoImplicit false

namespace TradeProcessor

open TradeProcessor.Json TradeProcessor.Library

/-- `main` holds `lck` and has declared nothing after it. -/
def MainThread.holdsLck : MainThread → Bool
  | .locked | .waiting | .woken => true
  | .starting | .past => false

/-- `io_thread` runs. -/
def PollThread.runs : PollThread → Bool
  | .absent | .ended => false
  | _ => true

/-- The logger thread runs. -/
def LoggerRun.runs : LoggerRun → Bool
  | .sleeping | .logging => true
  | .absent | .stopped => false

/-- A thread that runs has the object that joins it alive. -/
structure Scoped (p : Process) : Prop where
  starting : p.startup.main = .starting → p.alive = Object.rank .wsThread + 1
  holdsLck : p.startup.main.holdsLck = true → p.alive = Object.rank .lck + 1
  past : p.startup.main = .past → p.returned = false → Object.rank .lck < p.alive
  returned : p.returned = true → p.startup.main = .past
  wsThread : p.startup.ws ≠ .left → Object.rank .wsThread < p.alive
  ioThread : p.startup.io.runs = true → p.Alive .ioThread
  message : p.stopping.system.io.isIdle = false → p.startup.io = .polling true
  sp : p.processorStarted = true → p.stopping.system.worker.isStopped = false →
    Object.rank .sp < p.alive
  scheduler : p.schedulerStarted = true → p.stopping.run ≠ .stopped →
    Object.rank .scheduler < p.alive
  loggerThread : p.logger.runs = true → Object.rank .loggerThread < p.alive
  paced : Paced p.stopping

theorem scoped_start : Scoped {} where
  starting := fun _ => rfl
  holdsLck := by simp [MainThread.holdsLck]
  past := by simp
  returned := by simp
  wsThread := fun _ => Nat.lt_succ_self _
  ioThread := by simp [PollThread.runs]
  message := by simp [IoThread.isIdle]
  sp := by simp
  scheduler := by simp
  loggerThread := by simp [LoggerRun.runs]
  paced := fun _ => rfl

/-- The declarations are different. -/
theorem getElem?_rank {x : Object} {n : Nat} (hx : x.rank = n) (hn : n < declarations.length) :
    declarations[n]? = some x := by
  subst hx
  cases x with
  | sess | ioThread => exact absurd hn (by decide)
  | _ => rfl

variable {P : Platform} {p p' : Process} {out : List StopOutput} {a : ProcessAct}

/-- What is alive and not joined yet survives a destructor. -/
theorem rank_lt_of_destroy {x y : Object} {n : Nat} (hx : declarations[n]? = some x)
    (hjoined : p.joined x = true) (hy : y.rank < n + 1) (hrunning : p.joined y = false) :
    y.rank < n := by
  refine lt_of_le_of_ne (Nat.lt_succ_iff.mp hy) fun heq => ?_
  rw [getElem?_rank heq (List.getElem?_eq_some_iff.mp hx).1] at hx
  cases hx
  rw [hrunning] at hjoined
  cases hjoined

/-! ## The threads up to the end of the wait -/

section Startup

variable {st st' : Startup} {b : StartupAct}

theorem main_step (hmove : st.Moves b st') (hlock : st.main ≠ .starting ∨ st'.main = .starting) :
    (st'.main = .starting → st.main = .starting) ∧
    (st'.main.holdsLck = true → st.main.holdsLck = true) ∧
    (st'.main = .past → st.main.holdsLck = true ∨ st.main = .past) ∧
    (st.main = .past → st'.main = .past) := by
  cases hmove with
  | lockMtx hmain => simp_all
  | wait hmain | spuriousWakeUp hmain | proceed hmain => simp_all [MainThread.holdsLck]
  | notify hio =>
      cases hmain : st.main <;> simp_all [MainThread.notifyOne, MainThread.holdsLck]
  | _ => exact ⟨id, id, .inr, id⟩

theorem ws_step (hmove : st.Moves b st') (h : st'.ws ≠ .left) : st.ws ≠ .left := by
  cases hmove with
  | construct hws | connect hws | leaveLoop hws _ | stopService hws =>
      rw [hws]
      exact WsThread.noConfusion
  | connectionError hws | exception hws | join hws _ => exact absurd rfl h
  | _ => exact h

theorem io_step (hmove : st.Moves b st')
    (hio : st.io.runs = true → st.ws = .running ∨ st.ws = .closing ∨ st.ws = .joining)
    (h : st'.io.runs = true) : st'.ws = .running ∨ st'.ws = .closing ∨ st'.ws = .joining := by
  cases hmove with
  | construct hws | connectionError hws | exception hws =>
      have := hio h
      simp_all
  | connect hws => exact .inl rfl
  | leaveLoop hws hstop => exact .inr (.inl rfl)
  | stopService hws => exact .inr (.inr rfl)
  | join hws hended => simp [hended, PollThread.runs] at h
  | openConnection hat _ | send hat | endSubscribe hat | notify hat =>
      exact hio (by rw [hat]; rfl)
  | endPoll _ _ => simp [PollThread.runs] at h
  | _ => exact hio h

/-- Only `io_thread` itself leaves its poll loop. -/
theorem polling_step (hmove : st.Moves b st')
    (hrunning : st.ws = .running ∨ st.ws = .closing ∨ st.ws = .joining)
    (hidle : b = .openConnection ∨ (∃ error, b = .send error) ∨ b = .endSubscribe ∨ b = .notify ∨
      b = .endPoll → False) (h : st.io = .polling true) : st'.io = .polling true := by
  cases hmove with
  | connect hws => simp_all
  | openConnection _ _ | send _ | endSubscribe _ | notify _ | endPoll _ _ => simp at hidle
  | _ => exact h

end Startup

theorem scoped_startup {b : StartupAct} {startup : Startup} (h : Scoped p)
    (hadmits : p.admitsStartup b = true)
    (hmain : p.startup.main ≠ .starting ∨ startup.main = .starting)
    (hmove : p.startup.Moves b startup) : Scoped { p with startup := startup } := by
  obtain ⟨hstarting, hholds, hpast, hkept⟩ := main_step hmove hmain
  refine ⟨fun hs => h.starting (hstarting hs), fun hs => h.holdsLck (hholds hs), ?_, ?_,
    fun hs => h.wsThread (ws_step hmove hs), ?_, ?_, h.sp, h.scheduler, h.loggerThread, h.paced⟩
  · intro hat hreturned
    rcases hpast hat with hheld | hbefore
    · have halive : p.alive = Object.rank .lck + 1 := h.holdsLck hheld
      exact halive ▸ Nat.lt_succ_self _
    · exact h.past hbefore hreturned
  · exact fun hreturned => hkept (h.returned hreturned)
  · exact io_step hmove h.ioThread
  · intro hsending
    have hpolling := h.message hsending
    refine polling_step hmove (h.ioThread (by rw [hpolling]; rfl)) (fun hhandler => ?_) hpolling
    have hnot : p.admitsStartup b = false := by
      rcases hhandler with rfl | ⟨error, rfl⟩ | rfl | rfl | rfl <;> exact hsending
    rw [hnot] at hadmits
    cases hadmits

/-! ## The workers -/

section Stopping

variable {st st' : Stopping} {b : StopAct}

/-- A worker that runs was running. -/
theorem worker_step (hmove : st.Moves P b st' out)
    (h : st'.system.worker.isStopped = false) : st.system.worker.isStopped = false := by
  cases hmove with
  | program _ hstep =>
      cases step_moves hstep with
      | loop hat | timeout hat | dequeue hat _ | push hat _ | readClock hat _
      | evictEnd hat _ _ =>
          rw [hat]
          rfl
      | _ => exact h
  | begin _ _ hstep | computed _ hstep =>
      cases step_moves hstep
      exact h
  | _ => exact h

theorem run_step (hmove : st.Moves P b st' out) (h : st'.run ≠ .stopped) :
    st.run ≠ .stopped := by
  cases hmove with
  | evaluate hrun | wake hrun | begin hrun _ _ | computed hrun _ =>
      rw [hrun]
      exact SchedulerRun.noConfusion
  | leave _ _ => exact absurd rfl h
  | _ => exact h

/-- The io thread is in a handler of its own accord. -/
theorem handler_step (hmove : st.Moves P b st' out)
    (hother : ∀ a, b = .program a → a.thread = .io → False) :
    st'.system.io = st.system.io := by
  cases hmove with
  | @program a _ _ _ hstep =>
      have hnot : a.thread ≠ .io := hother a rfl
      cases step_moves hstep <;> first | rfl | exact absurd rfl hnot
  | begin _ _ hstep =>
      cases step_moves hstep
      rfl
  | computed _ hstep =>
      cases step_moves hstep
      rfl
  | _ => rfl

end Stopping

theorem scoped_stopping {b : StopAct} {stopping : Stopping} (h : Scoped p)
    (hadmits : p.admitsStopping b = true) (hmove : p.stopping.Moves P b stopping out) :
    Scoped { p with stopping := stopping } := by
  refine ⟨h.starting, h.holdsLck, h.past, h.returned, h.wsThread, h.ioThread, ?_,
    fun hstarted hrunning => h.sp hstarted (worker_step hmove hrunning),
    fun hstarted hrunning => h.scheduler hstarted (run_step hmove hrunning), h.loggerThread,
    paced_step h.paced hmove⟩
  intro hsending
  by_cases hio : ∃ a, b = .program a ∧ a.thread = .io
  · obtain ⟨a, rfl, hthread⟩ := hio
    cases a with
    | receive root =>
        simp only [Process.admitsStopping, decide_eq_true_eq] at hadmits
        exact hadmits.1
    | message => simpa [Process.admitsStopping, Act.thread] using hadmits
    | _ => cases hthread
  · have hsame := handler_step hmove fun a hb hthread => hio ⟨a, hb, hthread⟩
    rw [hsame] at hsending
    exact h.message hsending

/-! ## The declarations -/

theorem scoped_step (h : Scoped p) (hmove : p.Moves P a p' out) : Scoped p' := by
  cases hmove with
  | lockMtx hmain =>
      have halive := h.starting hmain
      have hgrows : ∀ {n}, n < p.alive → n < p.alive + 1 := fun hn => Nat.lt_succ_of_lt hn
      refine ⟨nofun, fun _ => ?_, nofun, ?_, fun hs => hgrows (h.wsThread hs), h.ioThread,
        h.message, fun hs hr => hgrows (h.sp hs hr), fun hs hr => hgrows (h.scheduler hs hr),
        fun hr => hgrows (h.loggerThread hr), h.paced⟩
      · exact congrArg (· + 1) halive
      · intro hreturned
        have hpast := h.returned hreturned
        rw [hmain] at hpast
        cases hpast
  | startup hadmits hmain hinner => exact scoped_startup h hadmits hmain hinner
  | stopping hadmits hinner => exact scoped_stopping h hadmits hinner
  | interrupt =>
      exact ⟨h.starting, h.holdsLck, h.past, h.returned, h.wsThread, h.ioThread, h.message, h.sp,
        h.scheduler, h.loggerThread, h.paced⟩
  | declare hmain hreturned halive hstarted =>
      have hgrows : ∀ {n}, n < p.alive → n < p.alive + 1 := fun hn => Nat.lt_succ_of_lt hn
      refine ⟨fun hs => ?_, fun hs => ?_, fun hs hr => hgrows (h.past hs hr), h.returned,
        fun hs => hgrows (h.wsThread hs), h.ioThread, h.message,
        fun hs hr => hgrows (h.sp hs hr), fun hs hr => hgrows (h.scheduler hs hr), ?_, h.paced⟩
      · rw [hmain] at hs
        cases hs
      · rw [hmain] at hs
        cases hs
      · intro hr
        by_cases hlast : p.alive = Object.rank .loggerThread
        · exact hlast ▸ Nat.lt_succ_self _
        · rw [if_neg hlast] at hr
          exact hgrows (h.loggerThread hr)
  | startProcessor hreturned halive hstarted =>
      refine ⟨h.starting, h.holdsLck, h.past, h.returned, h.wsThread, h.ioThread, h.message,
        fun _ _ => ?_, h.scheduler, h.loggerThread, h.paced⟩
      rw [halive]
      decide
  | startScheduler hreturned halive hprocessor hstarted =>
      refine ⟨h.starting, h.holdsLck, h.past, h.returned, h.wsThread, h.ioThread, h.message,
        h.sp, fun _ _ => ?_, h.loggerThread, h.paced⟩
      rw [halive]
      decide
  | returnMain hreturned halive =>
      have hmain : p.startup.main = .past := by
        cases hmain : p.startup.main with
        | past => rfl
        | starting =>
            have hstarting := h.starting hmain
            rw [halive] at hstarting
            exact absurd hstarting (by decide)
        | locked | waiting | woken =>
            have hholds := h.holdsLck (by rw [hmain]; rfl)
            rw [halive] at hholds
            exact absurd hholds (by decide)
      exact ⟨h.starting, h.holdsLck, nofun, fun _ => hmain, h.wsThread, h.ioThread, h.message,
        h.sp, h.scheduler, h.loggerThread, h.paced⟩
  | @destroy n x hreturned halive hx hjoined =>
      have hpast := h.returned hreturned
      have hkeep : ∀ y, Object.rank y < p.alive → p.joined y = false → y.rank < n :=
        fun y hy hrunning => rank_lt_of_destroy hx hjoined (halive ▸ hy) hrunning
      refine ⟨fun hs => ?_, fun hs => ?_, fun _ hs => ?_, h.returned, fun hs => ?_, h.ioThread,
        h.message, fun hs hr => ?_, fun hs hr => ?_, fun hr => ?_, h.paced⟩
      · rw [hpast] at hs
        cases hs
      · rw [hpast] at hs
        cases hs
      · rw [hreturned] at hs
        cases hs
      · exact hkeep _ (h.wsThread hs) (by simpa [Process.joined] using hs)
      · have hstarted : p.processorStarted = true := hs
        have hrunning : p.stopping.system.worker.isStopped = false := hr
        exact hkeep _ (h.sp hs hr) (by simp [Process.joined, hstarted, hrunning])
      · have hstarted : p.schedulerStarted = true := hs
        have hrunning : p.stopping.run ≠ .stopped := hr
        exact hkeep _ (h.scheduler hs hr) (by simp [Process.joined, hstarted, hrunning])
      · refine hkeep _ (h.loggerThread hr) ?_
        cases hlogger : p.logger <;> simp_all [Process.joined, LoggerRun.runs]
  | wakeLogger hlogger =>
      exact ⟨h.starting, h.holdsLck, h.past, h.returned, h.wsThread, h.ioThread, h.message, h.sp,
        h.scheduler, fun _ => h.loggerThread (by rw [hlogger]; rfl), h.paced⟩
  | look hlogger =>
      exact ⟨h.starting, h.holdsLck, h.past, h.returned, h.wsThread, h.ioThread, h.message, h.sp,
        h.scheduler, fun _ => h.loggerThread (by rw [hlogger]; rfl), h.paced⟩

theorem scoped_of_execute {as : List ProcessAct}
    (h : execute (Process.step P) as {} = some (p, out)) : Scoped p :=
  execute_invariant_init (fun _ p => Scoped p)
    (fun _ _ _ _ _ hp hstep => scoped_step hp (process_moves hstep)) scoped_start h

/-! ## What an action refers to is alive -/

/-- What is declared before something that is alive is alive as well. -/
theorem Process.alive_before {y : Object} (hy : y.rank < p.alive) {xs : List Object}
    (hxs : ∀ x ∈ xs, x.rank ≤ y.rank ∧ x ∈ declarations) : ∀ x ∈ xs, p.Alive x := by
  intro x hx
  obtain ⟨hxy, hdeclared⟩ := hxs x hx
  have halive : x.rank < p.alive := lt_of_le_of_lt hxy hy
  cases x with
  | sess | ioThread => exact absurd hdeclared (by decide)
  | _ => exact halive

/-- The session is around `io_thread`, and `ws_thread` around the session. -/
theorem Process.alive_sess (h : p.Alive .ioThread) : p.Alive .sess := by
  rcases h with h | h | h <;> simp [Process.Alive, h]

theorem Process.not_left (h : p.Alive .ioThread) : p.startup.ws ≠ .left := by
  rcases h with h | h | h <;> simp [h]

/-- `main` up to the end of the wait, `ws_thread` and `io_thread`. -/
theorem startup_uses_alive {b : StartupAct} {startup : Startup} (h : Scoped p)
    (hmove : p.startup.Moves b startup) : ∀ x ∈ b.uses, p.Alive x := by
  have hsess : ∀ {ws}, p.startup.ws = ws → ws ≠ .constructing → ws ≠ .left →
      ∀ x ∈ [Object.wsThread, .sess], p.Alive x := by
    intro ws hws hconstructing hleft x hx
    simp only [List.mem_cons, List.not_mem_nil, or_false] at hx
    rcases hx with rfl | rfl
    · exact h.wsThread (hws ▸ hleft)
    · exact ⟨hws ▸ hconstructing, hws ▸ hleft⟩
  have hpoll : p.startup.io.runs = true → ∀ x ∈ [Object.sess, .ioThread], p.Alive x := by
    intro hio x hx
    have hthread := h.ioThread hio
    simp only [List.mem_cons, List.not_mem_nil, or_false] at hx
    rcases hx with rfl | rfl
    · exact Process.alive_sess hthread
    · exact hthread
  cases hmove with
  | lockMtx hmain =>
      have halive := h.starting hmain
      exact Process.alive_before (y := .wsThread) (halive ▸ Nat.lt_succ_self _) (by decide)
  | wait hmain | spuriousWakeUp hmain | proceed hmain =>
      have halive := h.holdsLck (by rw [hmain]; rfl)
      exact Process.alive_before (y := .lck) (halive ▸ Nat.lt_succ_self _) (by decide)
  | construct hws =>
      change ∀ x ∈ [Object.wsThread, .condVar, .q, .token], p.Alive x
      exact Process.alive_before (y := .wsThread) (h.wsThread (by simp [hws])) (by decide)
  | connectionError hws | exception hws | connect hws | leaveLoop hws _ | stopService hws =>
      exact hsess hws WsThread.noConfusion WsThread.noConfusion
  | join hws hio =>
      intro x hx
      rcases List.mem_append.mp (show x ∈ [Object.wsThread, .sess] ++ [.ioThread] from hx) with
        hx | hx
      · exact hsess hws WsThread.noConfusion WsThread.noConfusion x hx
      · exact List.mem_singleton.mp hx ▸ .inr (.inr hws)
  | requestStop => simp [StartupAct.uses]
  | openConnection hio _ | send hio | endSubscribe hio | endPoll hio _ =>
      exact hpoll (by rw [hio]; rfl)
  | notify hio =>
      have hruns : p.startup.io.runs = true := by rw [hio]; rfl
      have hcond : ∀ x ∈ [Object.condVar], p.Alive x := Process.alive_before (y := .wsThread)
        (h.wsThread (Process.not_left (h.ioThread hruns))) (by decide)
      intro x hx
      rcases List.mem_append.mp (show x ∈ [Object.sess, .ioThread] ++ [.condVar] from hx) with
        hx | hx
      · exact hpoll hruns x hx
      · exact hcond x hx

/-- The workers and the handlers of `io_thread`. -/
theorem stopping_uses_alive {b : StopAct} {stopping : Stopping} (h : Scoped p)
    (hadmits : p.admitsStopping b = true) (hmove : p.stopping.Moves P b stopping out) :
    ∀ x ∈ b.uses, p.Alive x := by
  have hscheduler : p.schedulerStarted = true → p.stopping.run ≠ .stopped →
      ∀ x ∈ [Object.scheduler, .sp, .symbolStateMap], p.Alive x := by
    intro hstarted hrunning
    exact Process.alive_before (h.scheduler hstarted hrunning) (by decide)
  cases hmove with
  | stopProcessor | stopScheduler => cases hadmits
  | evaluate hrun | wake hrun =>
      intro x hx
      refine hscheduler hadmits (by simp [hrun]) x ?_
      simp_all [StopAct.uses]
  | leave hrun _ | begin hrun _ _ | computed hrun _ => exact hscheduler hadmits (by simp [hrun])
  | program hframes hstep =>
      -- Outside a call of `computeFeatures` the scheduler makes no step of the program.
      have hcomputing : p.stopping.system.scheduler ≠ .idle → p.stopping.run ≠ .stopped := by
        intro hbusy hstopped
        exact hbusy (h.paced (by rw [hstopped]; decide))
      have hworker : ∀ {worker}, p.stopping.system.worker = worker → worker.isStopped = false →
          p.processorStarted = true → ∀ xs : List Object,
          (∀ x ∈ xs, x.rank ≤ Object.rank .sp ∧ x ∈ declarations) → ∀ x ∈ xs, p.Alive x := by
        rintro _ rfl hrunning hstarted xs hxs
        exact Process.alive_before (h.sp hstarted hrunning) hxs
      have hhandler : p.startup.io = .polling true →
          ∀ x ∈ [Object.sess, .ioThread, .q], p.Alive x := by
        intro hio
        have hthread := h.ioThread (by rw [hio]; rfl)
        have hq : ∀ x ∈ [Object.q], p.Alive x := Process.alive_before (y := .wsThread)
          (h.wsThread (Process.not_left hthread)) (by decide)
        intro x hx
        simp only [List.mem_cons, List.not_mem_nil, or_false] at hx
        rcases hx with rfl | rfl | rfl
        · exact Process.alive_sess hthread
        · exact hthread
        · exact hq _ (List.mem_singleton_self _)
      cases step_moves hstep with
      | receive _ =>
          simp only [Process.admitsStopping, decide_eq_true_eq] at hadmits
          exact hhandler hadmits.1
      | enqueue _ _ | messageEnd _ _ =>
          exact hhandler (by simpa [Process.admitsStopping, Act.thread] using hadmits)
      | requestStop => cases hadmits
      | loop hat | readClock hat _ => exact hworker hat rfl hadmits [.sp] (by decide)
      | timeout hat | dequeue hat _ | push hat _ | pop hat _ _ | evictEnd hat _ _ =>
          exact hworker hat rfl hadmits _ (by decide)
      | tick _ _ | finish _ _ => cases hframes
      | lock hat _ | reset hat _ | pass hat _ _ _ | release hat =>
          exact hscheduler hadmits (hcomputing (by simp [hat]))

/-- An action refers only to what is alive. -/
theorem uses_alive (h : Scoped p) (hmove : p.Moves P a p' out) : ∀ x ∈ a.uses, p.Alive x := by
  cases hmove with
  | lockMtx hmain => exact startup_uses_alive h (.lockMtx hmain)
  | startup _ _ hinner => exact startup_uses_alive h hinner
  | stopping hadmits hinner => exact stopping_uses_alive h hadmits hinner
  | startProcessor _ halive _ | startScheduler _ halive _ _ =>
      exact Process.alive_before (y := .scheduler) (halive ▸ Nat.lt_succ_self _) (by decide)
  | wakeLogger hlogger | look hlogger =>
      exact Process.alive_before (h.loggerThread (by rw [hlogger]; rfl)) (by decide)
  | interrupt | declare _ _ _ _ | returnMain _ _ | destroy _ _ _ _ => simp [ProcessAct.uses]

/-- In every run, from the first declaration to the last destructor, each `Object` that an
action of any thread refers to is alive when the action is made: `main` destroys none that
a thread still needs, and no thread is started on one that is not there yet. -/
theorem no_use_after_destruction {as : List ProcessAct}
    (h : execute (Process.step P) as {} = some (p, out)) {out' : List StopOutput}
    (hstep : Process.step P a p = some (p', out')) : ∀ x ∈ a.uses, p.Alive x := by
  have hscoped := scoped_of_execute h
  exact uses_alive hscoped (process_moves hstep)

/-- A whole life of the process, up to the destructor of `sp`. -/
def untilLastLoop : List ProcessAct :=
  [.startup .lockMtx, .startup .wait, .startup (.construct ["A"]), .startup .connect,
    .startup .openConnection, .startup (.send none), .startup .endSubscribe, .startup .notify,
    .startup .proceed, .declare, .declare, .declare, .startProcessor, .startScheduler, .declare,
    .returnMain, .interrupt, .wakeLogger, .destroy, .stopping .evaluate, .destroy]

/-- The worker looks at the token once more when the scheduler is gone. -/
theorem no_use_after_destruction_sample : ∃ p out p' out',
    execute (Process.step Platform.listed) untilLastLoop {} = some (p, out) ∧
    Process.step Platform.listed (.stopping (.program .loop)) p = some (p', out') ∧
    p.alive = Object.rank .sp + 1 ∧
    ∀ x ∈ (ProcessAct.stopping (.program .loop)).uses, p.Alive x := by
  have hrun : ((execute (Process.step Platform.listed) untilLastLoop {}).bind fun r =>
      (Process.step Platform.listed (.stopping (.program .loop)) r.1).map fun _ => r.1.alive) =
      some (Object.rank .sp + 1) := by
    decide +kernel
  obtain ⟨⟨p, out⟩, hexec, hrest⟩ := Option.bind_eq_some_iff.mp hrun
  obtain ⟨⟨p', out'⟩, hstep, halive⟩ := Option.map_eq_some_iff.mp hrest
  exact ⟨p, out, p', out', hexec, hstep, halive, no_use_after_destruction hexec hstep⟩

end TradeProcessor
