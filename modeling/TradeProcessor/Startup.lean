/-
  Startup.lean --- the start-up handshake of `main` with the websocket thread.

  `main` starts the websocket thread, locks a mutex and waits on a condition
  variable; `on_open`, which the poll loop of `connect` runs once the connection is
  open, subscribes to every symbol and notifies.  The wait has no predicate and the
  notifier takes no mutex, so everything rests on the order of events.

  A wait that returns without a notification is one action: nobody else takes the
  mutex, so nothing happens between such a wake-up and the return.  An exception
  that `connect` does not catch ends the program, and is not an action.
-/
import TradeProcessor.Library.Machine

set_option autoImplicit false

namespace TradeProcessor

open TradeProcessor.Library

/-! ## Threads -/

/-- Where `main` is. -/
inductive MainThread where
  /-- the websocket thread is started, `mtx` is not locked yet -/
  | starting
  /-- holds `mtx`, about to wait -/
  | locked
  /-- blocked in `condVar.wait` -/
  | waiting
  /-- notified, about to take `mtx` back -/
  | woken
  /-- `condVar.wait` has returned -/
  | past
  deriving DecidableEq, Repr

/-- Where the websocket thread is. -/
inductive WsThread where
  /-- in the constructor of `WSSession` -/
  | constructing
  /-- in `connect`, before `io_thread` is started -/
  | connecting
  /-- in the loop that waits for the stop token -/
  | running
  /-- about to close the connection and stop the service -/
  | closing
  /-- in the destructor of `io_thread` -/
  | joining
  /-- `connect` has returned -/
  | left
  deriving DecidableEq, Repr

/-- Where `io_thread` is; `rest` is what the loop of `subscribe` has not come to. -/
inductive PollThread where
  | absent
  | polling (opened : Bool)
  | subscribing (rest : List String)
  /-- `subscribe` has returned, `cv.notify_one` is next -/
  | notifying
  | ended
  deriving DecidableEq, Repr

/-- The threads, the list of the session and what has happened so far. -/
structure Startup where
  main : MainThread := .starting
  ws : WsThread := .constructing
  io : PollThread := .absent
  subscriptions : List String := []
  /-- what `c.send` has been called with -/
  attempted : List String := []
  /-- `subscribe` has returned -/
  subscribed : Bool := false
  /-- `cv.notify_one` has been called -/
  notified : Bool := false
  stopRequested : Bool := false
  deriving DecidableEq, Repr

/-- Who moves, and what the environment answers. -/
inductive StartupAct where
  | lockMtx
  | wait
  | spuriousWakeUp
  | proceed
  /-- the constructor finds these symbols in the configuration -/
  | construct (symbols : List String)
  /-- `get_connection` reports an error -/
  | connectionError (message : String)
  /-- `connect` catches a `websocketpp::exception` -/
  | exception (what : String)
  | connect
  | leaveLoop
  | stopService
  | join
  | requestStop
  | openConnection
  /-- one `c.send`, with the message of its error, if it reports one -/
  | send (error : Option String)
  | endSubscribe
  | notify
  | endPoll

/-- `{"type":"subscribe","symbol":"…"}`. -/
def subscription (symbol : String) : String :=
  "\x7b\"type\":\"subscribe\",\"symbol\":\"" ++ symbol ++ "\"\x7d"

/-- What `cv.notify_one` does to `main`. -/
def MainThread.notifyOne : MainThread → MainThread
  | waiting => woken
  | main => main

/-- About to block, or blocked. -/
def MainThread.awaits : MainThread → Bool
  | starting | locked | waiting => true
  | woken | past => false

/-! ## Steps -/

/-- `main`. -/
def Startup.mainStep (st : Startup) : StartupAct → Option (Startup × List String)
  | .lockMtx => if st.main = .starting then some ({ st with main := .locked }, []) else none
  | .wait => if st.main = .locked then some ({ st with main := .waiting }, []) else none
  | .spuriousWakeUp => if st.main = .waiting then some ({ st with main := .past }, []) else none
  | .proceed => if st.main = .woken then some ({ st with main := .past }, []) else none
  | _ => none

/-- The websocket thread: the constructor of `WSSession`, then `connect`. -/
def Startup.wsStep (st : Startup) : StartupAct → Option (Startup × List String)
  | .construct symbols =>
      if st.ws = .constructing then
        some ({ st with ws := .connecting, subscriptions := symbols.map subscription }, [])
      else none
  | .connectionError message =>
      if st.ws = .connecting then
        some ({ st with ws := .left }, ["could not create connection because: " ++ message])
      else none
  | .exception what =>
      if st.ws = .connecting then
        some ({ st with ws := .left },
          ["error encountered within the subscribe function", what])
      else none
  | .connect =>
      if st.ws = .connecting then
        some ({ st with ws := .running, io := .polling false }, [])
      else none
  | .leaveLoop =>
      if st.ws = .running ∧ st.stopRequested = true then some ({ st with ws := .closing }, [])
      else none
  | .stopService => if st.ws = .closing then some ({ st with ws := .joining }, []) else none
  | .join =>
      if st.ws = .joining ∧ st.io = .ended then some ({ st with ws := .left }, []) else none
  | _ => none

/-- `io_thread`: the poll loop, with `on_open` and `subscribe` in it.  A stopped
service runs no handler. -/
def Startup.ioStep (st : Startup) : StartupAct → Option (Startup × List String)
  | .openConnection =>
      if st.io = .polling false ∧ st.ws ≠ .joining then
        some ({ st with io := .subscribing st.subscriptions }, ["connection has been opened"])
      else none
  | .send error =>
      match st.io with
      | .subscribing (s :: rest) =>
          some ({ st with io := .subscribing rest, attempted := st.attempted ++ [s] },
            ("subscribing to " ++ s) :: error.toList.map ("Send Error: " ++ ·))
      | _ => none
  | .endSubscribe =>
      if st.io = .subscribing [] then some ({ st with io := .notifying, subscribed := true }, [])
      else none
  | .notify =>
      if st.io = .notifying then
        some ({ st with io := .polling true, main := st.main.notifyOne, notified := true }, [])
      else none
  | .endPoll =>
      match st.io with
      | .polling _ => if st.ws = .joining then some ({ st with io := .ended }, []) else none
      | _ => none
  | _ => none

/-- One action; the output is what the program prints. -/
def Startup.step (a : StartupAct) (st : Startup) : Option (Startup × List String) :=
  match a with
  | .lockMtx | .wait | .spuriousWakeUp | .proceed => st.mainStep a
  | .construct _ | .connectionError _ | .exception _ | .connect | .leaveLoop | .stopService
  | .join => st.wsStep a
  | .openConnection | .send _ | .endSubscribe | .notify | .endPoll => st.ioStep a
  | .requestStop => some ({ st with stopRequested := true }, [])

/-! ## What a step can do -/

/-- The steps, with everything that an action was enabled by. -/
inductive Startup.Moves (st : Startup) : StartupAct → Startup → Prop where
  | lockMtx (hmain : st.main = .starting) : Moves st .lockMtx { st with main := .locked }
  | wait (hmain : st.main = .locked) : Moves st .wait { st with main := .waiting }
  | spuriousWakeUp (hmain : st.main = .waiting) :
      Moves st .spuriousWakeUp { st with main := .past }
  | proceed (hmain : st.main = .woken) : Moves st .proceed { st with main := .past }
  | construct {symbols : List String} (hws : st.ws = .constructing) :
      Moves st (.construct symbols)
        { st with ws := .connecting, subscriptions := symbols.map subscription }
  | connectionError {message : String} (hws : st.ws = .connecting) :
      Moves st (.connectionError message) { st with ws := .left }
  | exception {what : String} (hws : st.ws = .connecting) :
      Moves st (.exception what) { st with ws := .left }
  | connect (hws : st.ws = .connecting) :
      Moves st .connect { st with ws := .running, io := .polling false }
  | leaveLoop (hws : st.ws = .running) (hstop : st.stopRequested = true) :
      Moves st .leaveLoop { st with ws := .closing }
  | stopService (hws : st.ws = .closing) : Moves st .stopService { st with ws := .joining }
  | join (hws : st.ws = .joining) (hio : st.io = .ended) : Moves st .join { st with ws := .left }
  | requestStop : Moves st .requestStop { st with stopRequested := true }
  | openConnection (hio : st.io = .polling false) (hws : st.ws ≠ .joining) :
      Moves st .openConnection { st with io := .subscribing st.subscriptions }
  | send {s : String} {rest : List String} {error : Option String}
      (hio : st.io = .subscribing (s :: rest)) :
      Moves st (.send error)
        { st with io := .subscribing rest, attempted := st.attempted ++ [s] }
  | endSubscribe (hio : st.io = .subscribing []) :
      Moves st .endSubscribe { st with io := .notifying, subscribed := true }
  | notify (hio : st.io = .notifying) :
      Moves st .notify
        { st with io := .polling true, main := st.main.notifyOne, notified := true }
  | endPoll {opened : Bool} (hio : st.io = .polling opened) (hws : st.ws = .joining) :
      Moves st .endPoll { st with io := .ended }

variable {st st' : Startup} {a : StartupAct} {os : List String}

theorem mainStep_moves (h : st.mainStep a = some (st', os)) : st.Moves a st' := by
  unfold Startup.mainStep at h
  split at h <;> first | cases h | (split at h <;> cases h)
  · exact .lockMtx ‹_›
  · exact .wait ‹_›
  · exact .spuriousWakeUp ‹_›
  · exact .proceed ‹_›

theorem wsStep_moves (h : st.wsStep a = some (st', os)) : st.Moves a st' := by
  unfold Startup.wsStep at h
  split at h <;> first | cases h | (split at h <;> cases h)
  · exact .construct ‹_›
  · exact .connectionError ‹_›
  · exact .exception ‹_›
  · exact .connect ‹_›
  · rename_i hleave
    exact .leaveLoop hleave.1 hleave.2
  · exact .stopService ‹_›
  · rename_i hjoin
    exact .join hjoin.1 hjoin.2

theorem pollStep_moves (h : st.ioStep a = some (st', os)) : st.Moves a st' := by
  cases a with
  | openConnection =>
      simp only [Startup.ioStep] at h
      split at h
      · rename_i hopen
        cases h
        exact .openConnection hopen.1 hopen.2
      · cases h
  | send error =>
      simp only [Startup.ioStep] at h
      split at h
      · rename_i hio
        cases h
        exact .send hio
      · cases h
  | endSubscribe =>
      simp only [Startup.ioStep] at h
      split at h
      · rename_i hio
        cases h
        exact .endSubscribe hio
      · cases h
  | notify =>
      simp only [Startup.ioStep] at h
      split at h
      · rename_i hio
        cases h
        exact .notify hio
      · cases h
  | endPoll =>
      simp only [Startup.ioStep] at h
      split at h
      · rename_i hio
        split at h
        · rename_i hws
          cases h
          exact .endPoll hio hws
        · cases h
      · cases h
  | _ => cases h

/-- Every enabled action is one of the steps. -/
theorem startup_moves (h : Startup.step a st = some (st', os)) : st.Moves a st' := by
  unfold Startup.step at h
  split at h
  iterate 4 exact mainStep_moves h
  iterate 7 exact wsStep_moves h
  iterate 5 exact pollStep_moves h
  cases h
  exact .requestStop

/-! ## The handshake -/

/-- What the wait is for.  `main` is past it only if `subscribe` has gone through the
whole list, and it is never before the wait or in it once the notification is spent
or `connect` is left. -/
structure Handshake (st : Startup) : Prop where
  past : st.main = .past → st.subscribed = true ∧ st.attempted = st.subscriptions
  awaits : st.main.awaits = true → st.notified = false ∧ st.ws ≠ .left

/-- The order of events in which the handshake works: a spurious wake-up comes after
`subscribe` has returned, the notification finds `main` no longer before the wait,
and `connect` is left when `main` is through. -/
def Orderly : StartupAct → Startup → Prop
  | .spuriousWakeUp, st => st.subscribed = true
  | .notify, st => st.main ≠ .starting ∧ st.main ≠ .locked
  | .connectionError _, st | .exception _, st | .join, st => st.main.awaits = false
  | _, _ => True

/-- What `subscribe` has gone through, and what is left of the list. -/
structure Subscribes (st : Startup) : Prop where
  /-- before the connection is open nothing is sent -/
  idle : st.io = .absent ∨ st.io = .polling false → st.attempted = [] ∧ st.subscribed = false
  going : ∀ rest, st.io = .subscribing rest →
    st.attempted ++ rest = st.subscriptions ∧ st.subscribed = false
  gone : st.subscribed = true → st.attempted = st.subscriptions
  notifying : st.io = .notifying → st.subscribed = true
  constructing : st.ws = .constructing ∨ st.ws = .connecting → st.io = .absent

theorem subscribes_start : Subscribes {} := by
  constructor <;> simp

/-- No step lets `subscribe` skip a subscription. -/
theorem subscribes_step (hst : Subscribes st) (hmove : st.Moves a st') : Subscribes st' := by
  obtain ⟨hidle, hgoing, hgone, hnotifying, habsent⟩ := hst
  have hstarted : st.io ≠ .absent → ¬ (st.ws = .constructing ∨ st.ws = .connecting) :=
    fun hio hearly => hio (habsent hearly)
  cases hmove with
  | construct hws =>
      -- The list may change: nothing has been sent yet.
      have hio := habsent (.inl hws)
      obtain ⟨hattempted, hsubscribed⟩ := hidle (.inl hio)
      refine ⟨hidle, ?_, ?_, hnotifying, fun _ => hio⟩
      · simp [hio]
      · simp [hsubscribed]
  | connect hws =>
      obtain ⟨hattempted, hsubscribed⟩ := hidle (.inl (habsent (.inr hws)))
      exact ⟨fun _ => ⟨hattempted, hsubscribed⟩, by simp, hgone, by simp, by simp⟩
  | connectionError hws | exception hws | leaveLoop hws hstop | stopService hws | join hws hio =>
      exact ⟨hidle, hgoing, hgone, hnotifying, by simp⟩
  | openConnection hio hws =>
      obtain ⟨hattempted, hsubscribed⟩ := hidle (.inr hio)
      refine ⟨by simp, ?_, hgone, by simp, ?_⟩
      · rintro rest ⟨⟩
        exact ⟨by simp [hattempted], hsubscribed⟩
      · exact fun hearly => absurd hearly (hstarted (by simp [hio]))
  | @send s rest' error hio =>
      obtain ⟨hrest, hsubscribed⟩ := hgoing _ hio
      refine ⟨by simp, ?_, ?_, by simp, ?_⟩
      · rintro rest ⟨⟩
        exact ⟨by simp [← hrest], hsubscribed⟩
      · simp [hsubscribed]
      · exact fun hearly => absurd hearly (hstarted (by simp [hio]))
  | endSubscribe hio =>
      obtain ⟨hrest, _⟩ := hgoing _ hio
      refine ⟨by simp, by simp, fun _ => by simpa using hrest, fun _ => rfl, ?_⟩
      exact fun hearly => absurd hearly (hstarted (by simp [hio]))
  | notify hio | endPoll hio hws =>
      refine ⟨by simp, by simp, hgone, by simp, ?_⟩
      exact fun hearly => absurd hearly (hstarted (by simp [hio]))
  | _ => exact ⟨hidle, hgoing, hgone, hnotifying, habsent⟩

/-- The handshake has worked so far, and a notified `main` finds the list gone
through. -/
structure Underway (st : Startup) : Prop where
  subscribes : Subscribes st
  handshake : Handshake st
  woken : st.main = .woken → st.subscribed = true

theorem underway_start : Underway {} where
  subscribes := subscribes_start
  handshake := by constructor <;> simp
  woken := by simp

/-- A step in the right order keeps the handshake. -/
theorem underway_step (hst : Underway st) (hmove : st.Moves a st') (horder : Orderly a st) :
    Underway st' := by
  have hsubscribes := subscribes_step hst.subscribes hmove
  obtain ⟨⟨hidle, hgoing, hgone, hnotifying, habsent⟩, ⟨hpast, hawaits⟩, hwoken⟩ := hst
  refine ⟨hsubscribes, ?_, ?_⟩
  · cases hmove with
    | lockMtx hmain | wait hmain =>
        exact ⟨by simp, fun _ => hawaits (by rw [hmain]; rfl)⟩
    | spuriousWakeUp hmain =>
        exact ⟨fun _ => ⟨horder, hgone horder⟩, by simp [MainThread.awaits]⟩
    | proceed hmain =>
        have hsubscribed := hwoken hmain
        exact ⟨fun _ => ⟨hsubscribed, hgone hsubscribed⟩, by simp [MainThread.awaits]⟩
    | construct hws =>
        have hfresh := (hidle (.inl (habsent (.inl hws)))).2
        refine ⟨fun hmain => ?_, fun hblocked => ⟨(hawaits hblocked).1, by simp⟩⟩
        have hdone := (hpast hmain).1
        simp [hfresh] at hdone
    | connectionError hws | exception hws | join hws hio =>
        have hthrough : st.main.awaits = false := horder
        exact ⟨hpast, by simp [hthrough]⟩
    | connect hws | leaveLoop hws hstop | stopService hws =>
        exact ⟨hpast, fun hblocked => ⟨(hawaits hblocked).1, by simp⟩⟩
    | send hio =>
        -- Nobody is past the wait while `subscribe` is still sending.
        have hfresh := (hgoing _ hio).2
        refine ⟨fun hmain => ?_, hawaits⟩
        have hdone := (hpast hmain).1
        simp [hfresh] at hdone
    | endSubscribe hio =>
        exact ⟨fun hmain => ⟨rfl, (hpast hmain).2⟩, hawaits⟩
    | notify hio =>
        obtain ⟨hstarting, hlocked⟩ := horder
        have hsubscribed := hnotifying hio
        constructor
        · exact fun _ => ⟨hsubscribed, hgone hsubscribed⟩
        · intro hblocked
          cases hmain : st.main <;> simp_all [MainThread.notifyOne, MainThread.awaits]
    | _ => exact ⟨hpast, hawaits⟩
  · cases hmove with
    | notify hio => exact fun _ => hnotifying hio
    | endSubscribe hio => exact fun _ => rfl
    | lockMtx hmain | wait hmain | spuriousWakeUp hmain | proceed hmain => simp
    | _ => exact hwoken

/-- A step out of order breaks the handshake at once. -/
theorem orderly_of_handshake (hmove : st.Moves a st') (hafter : Handshake st') :
    Orderly a st := by
  cases hmove with
  | spuriousWakeUp hmain => exact (hafter.past rfl).1
  | notify hio =>
      constructor
      · intro hmain
        have hspent := (hafter.awaits (by rw [hmain]; rfl)).1
        cases hspent
      · intro hmain
        have hspent := (hafter.awaits (by rw [hmain]; rfl)).1
        cases hspent
  | connectionError hws | exception hws | join hws hio =>
      cases hmain : st.main.awaits with
      | false => exact hmain
      | true => exact absurd rfl (hafter.awaits hmain).2
  | _ => trivial

/-- The handshake works along an execution, whatever the interleaving, the list of
subscriptions and the wake-ups, exactly when each step comes in the right order. -/
theorem handshake_iff {as : List StartupAct} (h : execute Startup.step as {} = some (st, os)) :
    Throughout Startup.step Handshake as {} ↔ EachStep Startup.step Orderly as {} :=
  throughout_iff_eachStep Underway (fun _ hst => hst.handshake)
    (fun _ _ _ _ hst hstep horder => underway_step hst (startup_moves hstep) horder)
    (fun _ _ _ _ _ hstep hafter => orderly_of_handshake (startup_moves hstep) hafter)
    underway_start h

/-- A run in the right order: `main` waits before the connection opens. -/
def orderlyStartup : List StartupAct :=
  [.construct ["AAPL", "MSFT"], .lockMtx, .wait, .connect, .openConnection, .send none,
    .send (some "invalid state"), .endSubscribe, .spuriousWakeUp, .notify]

theorem handshake_iff_sample :
    Throughout Startup.step Handshake orderlyStartup {} ↔
      EachStep Startup.step Orderly orderlyStartup {} :=
  handshake_iff rfl

/-- Three ways in which it fails: `main` goes on after a spurious wake-up with no
subscription sent; the notification comes before `main` waits; `connect` returns
early while `main` waits. -/
theorem handshake_fails :
    (∃ st os, execute Startup.step
        [.construct ["AAPL", "MSFT"], .lockMtx, .wait, .spuriousWakeUp] {} = some (st, os) ∧
      st.main = .past ∧ st.subscribed = false ∧ st.attempted = []) ∧
    (∃ st os, execute Startup.step
        [.construct ["AAPL"], .connect, .openConnection, .send none, .endSubscribe, .notify,
          .lockMtx, .wait] {} = some (st, os) ∧
      st.main = .waiting ∧ st.notified = true) ∧
    ∃ st os, execute Startup.step
        [.construct ["AAPL"], .lockMtx, .wait, .connectionError "invalid uri"] {} =
          some (st, os) ∧
      st.main = .waiting ∧ st.ws = .left :=
  ⟨⟨_, _, rfl, rfl, rfl, rfl⟩, ⟨_, _, rfl, rfl, rfl⟩, _, _, rfl, rfl, rfl⟩

/-! ## A missed notification -/

/-- After the only notification, and once `connect` is left, `io_thread` does not come
to `notify_one` again. -/
structure Spent (st : Startup) : Prop where
  notified : st.notified = true → st.io = .polling true ∨ st.io = .ended
  left : st.ws = .left → st.io = .absent ∨ st.io = .ended

theorem spent_step (hsubscribes : Subscribes st) (hst : Spent st) (hmove : st.Moves a st') :
    Spent st' := by
  obtain ⟨hnotified, hleft⟩ := hst
  have habsent := hsubscribes.constructing
  cases hmove with
  | connectionError hws | exception hws => exact ⟨hnotified, fun _ => .inl (habsent (.inr hws))⟩
  | join hws hio => exact ⟨hnotified, fun _ => .inr hio⟩
  | notify hio => exact ⟨fun _ => .inl rfl, fun hgone => by simpa [hio] using hleft hgone⟩
  | endPoll hio hws => exact ⟨fun _ => .inr rfl, fun _ => .inr rfl⟩
  | connect hws =>
      have hio := habsent (.inr hws)
      exact ⟨fun hspent => by simpa [hio] using hnotified hspent, by simp⟩
  | openConnection hio _ | send hio | endSubscribe hio =>
      exact ⟨fun hspent => by simpa [hio] using hnotified hspent,
        fun hgone => by simpa [hio] using hleft hgone⟩
  | construct hws | leaveLoop hws hstop | stopService hws => exact ⟨hnotified, by simp⟩
  | _ => exact ⟨hnotified, hleft⟩

theorem spent_of_execute {as : List StartupAct}
    (h : execute Startup.step as {} = some (st, os)) :
    Subscribes st ∧ Spent st :=
  execute_invariant_init (fun _ st => Subscribes st ∧ Spent st)
    (fun _ _ _ _ _ hst hstep => ⟨subscribes_step hst.1 (startup_moves hstep),
      spent_step hst.1 hst.2 (startup_moves hstep)⟩)
    ⟨subscribes_start, by constructor <;> simp⟩ h

/-- The notification is spent or can no longer come, and `main` is not through. -/
def Missed (st : Startup) : Prop :=
  st.main.awaits = true ∧ (st.notified = true ∨ st.ws = .left)

theorem missed_step (hspent : Spent st) (hst : Missed st) (hmove : st.Moves a st')
    (ha : a ≠ .spuriousWakeUp) : Missed st' := by
  obtain ⟨hawaits, hmissed⟩ := hst
  have hio : st.io = .polling true ∨ st.io = .ended ∨ st.io = .absent := by
    rcases hmissed with hnotified | hleft
    · have := hspent.notified hnotified
      tauto
    · have := hspent.left hleft
      tauto
  cases hmove with
  | spuriousWakeUp hmain => exact absurd rfl ha
  | lockMtx hmain | wait hmain => exact ⟨rfl, hmissed⟩
  | proceed hmain =>
      rw [hmain] at hawaits
      cases hawaits
  | notify hnotifying => simp [hnotifying] at hio
  | construct hws | connect hws | leaveLoop hws hstop | stopService hws =>
      rcases hmissed with hnotified | hleft
      · exact ⟨hawaits, .inl hnotified⟩
      · simp [hws] at hleft
  | connectionError hws | exception hws | join hws hio => exact ⟨hawaits, .inr rfl⟩
  | _ => exact ⟨hawaits, hmissed⟩

/-- A missed notification is never made up for: without a spurious wake-up `main`
hangs. -/
theorem missed_hangs {as bs : List StartupAct} {out : List String}
    (h : execute Startup.step as {} = some (st, os)) (hmissed : Missed st)
    (hrest : execute Startup.step bs st = some (st', out)) (hbs : .spuriousWakeUp ∉ bs) :
    st'.main.awaits = true := by
  obtain ⟨hsubscribes, hspent⟩ := spent_of_execute h
  clear h
  induction bs generalizing st out with
  | nil =>
      cases hrest
      exact hmissed.1
  | cons b bs ih =>
      obtain ⟨mid, os₁, os₂, hstep, htail, _⟩ := execute_cons_eq_some_iff.mp hrest
      rw [List.mem_cons, not_or] at hbs
      obtain ⟨hb, hbs⟩ := hbs
      have hmove := startup_moves hstep
      exact ih (missed_step hspent hmissed hmove (Ne.symm hb)) htail hbs
        (subscribes_step hsubscribes hmove) (spent_step hsubscribes hspent hmove)

end TradeProcessor
