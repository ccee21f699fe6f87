/-
  Logger.lean --- the logger thread, and the mutex of a symbol.

  `loggerThread` copies the features of every symbol under `v.m`, the mutex that
  `computeFeatures` holds while it works on the symbol; `process` takes no mutex.
  `System` makes a calculator pass in one step.  Here a pass is one step for each
  entry, the mutexes have owners, and the logger comes in between.

  An iterator into the deque is an index.  A `pop_front` moves it along, and the
  iterator to a popped entry dangles.  What a calculator makes of a dangling iterator
  is left open: it may leave any features and any scratch state behind, and the
  iterator anywhere.  That a `push_back` leaves an iterator at its entry is an
  assumption: the standard lets it invalidate every iterator into the deque, and only
  the references to the entries stay valid.
-/
import TradeProcessor.CalcFrame
import TradeProcessor.System

set_option autoImplicit false

namespace TradeProcessor

open TradeProcessor.Json TradeProcessor.Library

/-! ## Threads -/

/-- Who holds the mutex of a symbol. -/
inductive Owner where
  | scheduler
  | logger
  deriving DecidableEq

/-- The iterator of the current pass. -/
inductive Iterator where
  /-- `begin()` is next -/
  | before
  | entry (i : Nat)
  | dangling

/-- The logger thread, with the keys that the map had when its loop began and the
keys that the loop has been through. -/
inductive LoggerThread where
  | sleeping
  | iterating (started visited : List String)
  /-- holds `v.m` -/
  | locked (started visited : List String) (symbol : String)
  /-- holds `v.m`, after the copy -/
  | copied (started visited : List String) (symbol : String) (snapshot : Features)
  /-- about to print -/
  | printing (started visited : List String) (symbol : String) (snapshot : Features)
  | stopped

/-- The program with its logger, entry by entry. -/
structure LoggedSystem where
  system : System := {}
  iterator : Iterator := .before
  logger : LoggerThread := .sleeping
  /-- who holds `m` of a symbol -/
  owner : String → Option Owner := fun _ => none

inductive LogAct where
  /-- a step of the program that touches no mutex and no iterator -/
  | program (a : Act)
  | evict
  | lock (symbol : String)
  | reset
  | beginPass
  | entry
  /-- an entry read through a dangling iterator, with what comes of it -/
  | strayEntry (stray : SymbolState) (iterator : Iterator)
  | endPass
  | release
  | wake
  | logLock (symbol : String)
  | copy
  | logUnlock
  | print
  | endRound

inductive LogOutput where
  | program (o : Output)
  /-- `computeFeatures` is through with the symbol and leaves these features -/
  | published (symbol : String) (features : Features)
  /-- the logger copies these features -/
  | snapshot (symbol : String) (features : Features)
  | printed (symbol : String) (features : Features)

/-! ## Steps -/

/-- The iterator after a `pop_front`. -/
def Iterator.popFront : Iterator → Iterator
  | .entry 0 => .dangling
  | .entry (i + 1) => .entry i
  | it => it

/-- The symbol whose mutex the scheduler holds. -/
def SchedulerThread.holds : SchedulerThread → Option String
  | .locked _ _ symbol | .computing _ _ symbol _ => some symbol
  | _ => none

/-- The symbol whose mutex the logger holds. -/
def LoggerThread.holds : LoggerThread → Option String
  | .locked _ _ symbol | .copied _ _ symbol _ => some symbol
  | _ => none

/-- The features of a symbol; a symbol that is not there has none yet. -/
def featuresOf (o : Option SymbolState) : Features := (o.getD {}).features

/-- Steps that `LogAct` leaves to the program. -/
def Act.plain : Act → Bool
  | .evict | .lock _ | .reset | .pass | .release => false
  | _ => true

/-- The iterator after these outputs of the worker. -/
def LoggedSystem.iteratorAfter (l : LoggedSystem) : List Output → Iterator
  | [.popped symbol] =>
      if l.system.scheduler.holds = some symbol then l.iterator.popFront else l.iterator
  | _ => l.iterator

/-- The worker, the io thread, the signal handler and the scheduler. -/
def LoggedSystem.programStep (P : Platform) (l : LoggedSystem) :
    LogAct → Option (LoggedSystem × List LogOutput)
  | .program a =>
      if a.plain then
        within (fun system => { l with system := system }) (·.map LogOutput.program)
          (System.step P a l.system)
      else none
  | .evict =>
      match System.step P .evict l.system with
      | none => none
      | some (system, os) =>
          some ({ l with system := system, iterator := l.iteratorAfter os },
            os.map LogOutput.program)
  | .lock symbol =>
      if l.owner symbol = none then
        within (fun system => { l with
          system := system
          owner := Function.update l.owner symbol (some .scheduler) }) (·.map LogOutput.program)
          (System.step P (.lock symbol) l.system)
      else none
  | .reset =>
      within (fun system => { l with system := system, iterator := .before })
        (·.map LogOutput.program) (System.step P .reset l.system)
  | .beginPass =>
      match l.system.scheduler, l.iterator with
      | .computing _ _ _ n, .before =>
          if n < calcTypes.length then some ({ l with iterator := .entry 0 }, []) else none
      | _, _ => none
  | .entry =>
      match l.system.scheduler, l.iterator with
      | .computing _ _ symbol n, .entry i =>
          match calcTypes[n]?, l.system.symbolStates.lookup symbol with
          | some c, some s =>
              if i ≠ s.trades.length then
                match c.processEntry i s with
                | .ok _ s' =>
                    some ({ l with
                      system := { l.system with
                        symbolStates := l.system.symbolStates.insert symbol s' }
                      iterator := .entry (i + 1) }, [])
                | .error _ _ => none
              else none
          | _, _ => none
      | _, _ => none
  | .strayEntry stray iterator =>
      match l.system.scheduler, l.iterator with
      | .computing _ _ symbol _, .dangling =>
          match l.system.symbolStates.lookup symbol with
          | some s =>
              some ({ l with
                system := { l.system with
                  symbolStates :=
                    l.system.symbolStates.insert symbol { stray with trades := s.trades } }
                iterator := iterator }, [])
          | none => none
      | _, _ => none
  | .endPass =>
      match l.system.scheduler, l.iterator with
      | .computing started visited symbol n, .entry i =>
          match l.system.symbolStates.lookup symbol with
          | some s =>
              if i = s.trades.length then
                some ({ l with
                  system := { l.system with
                    scheduler := .computing started visited symbol (n + 1)
                    symbolStates := l.system.symbolStates.insert symbol s }
                  iterator := .before }, [])
              else none
          | none => none
      | _, _ => none
  | .release =>
      match l.system.scheduler.holds with
      | some symbol =>
          within (fun system => { l with
            system := system
            owner := Function.update l.owner symbol none })
            (fun os => os.map LogOutput.program ++
              [.published symbol (featuresOf (l.system.symbolStates.lookup symbol))])
            (System.step P .release l.system)
      | none => none
  | _ => none

/-- The logger thread. -/
def LoggedSystem.loggerStep (l : LoggedSystem) : LogAct → Option (LoggedSystem × List LogOutput)
  | .wake =>
      match l.logger with
      | .sleeping =>
          some ({ l with
            logger :=
              if l.system.stopRequested then .stopped
              else .iterating l.system.symbolStates.keys [] }, [])
      | _ => none
  | .logLock symbol =>
      match l.logger with
      | .iterating started visited =>
          if symbol ∈ l.system.symbolStates.keys ∧ symbol ∉ visited ∧ l.owner symbol = none then
            some ({ l with
              logger := .locked started visited symbol
              owner := Function.update l.owner symbol (some .logger) }, [])
          else none
      | _ => none
  | .copy =>
      match l.logger with
      | .locked started visited symbol =>
          let snapshot := featuresOf (l.system.symbolStates.lookup symbol)
          some ({ l with logger := .copied started visited symbol snapshot },
            [.snapshot symbol snapshot])
      | _ => none
  | .logUnlock =>
      match l.logger with
      | .copied started visited symbol snapshot =>
          some ({ l with
            logger := .printing started visited symbol snapshot
            owner := Function.update l.owner symbol none }, [])
      | _ => none
  | .print =>
      match l.logger with
      | .printing started visited symbol snapshot =>
          some ({ l with logger := .iterating started (symbol :: visited) },
            [.printed symbol snapshot])
      | _ => none
  | .endRound =>
      match l.logger with
      | .iterating started visited =>
          if started.all (· ∈ visited) then some ({ l with logger := .sleeping }, []) else none
      | _ => none
  | _ => none

/-- One action. -/
def LoggedSystem.step (P : Platform) (a : LogAct) (l : LoggedSystem) :
    Option (LoggedSystem × List LogOutput) :=
  match a with
  | .wake | .logLock _ | .copy | .logUnlock | .print | .endRound => l.loggerStep a
  | _ => l.programStep P a

/-! ## What a step can do -/

/-- The steps, with everything that an action was enabled by. -/
inductive LoggedSystem.Moves (P : Platform) (l : LoggedSystem) :
    LogAct → LoggedSystem → List LogOutput → Prop where
  | program {a : Act} {system : System} {os : List Output} (hplain : a.plain = true)
      (hstep : System.step P a l.system = some (system, os)) :
      Moves P l (.program a) { l with system := system } (os.map LogOutput.program)
  | evict {system : System} {os : List Output}
      (hstep : System.step P .evict l.system = some (system, os)) :
      Moves P l .evict { l with system := system, iterator := l.iteratorAfter os }
        (os.map LogOutput.program)
  | lock {symbol : String} {system : System} {os : List Output} (howner : l.owner symbol = none)
      (hstep : System.step P (.lock symbol) l.system = some (system, os)) :
      Moves P l (.lock symbol) { l with
        system := system
        owner := Function.update l.owner symbol (some .scheduler) } (os.map LogOutput.program)
  | reset {system : System} {os : List Output}
      (hstep : System.step P .reset l.system = some (system, os)) :
      Moves P l .reset { l with system := system, iterator := .before }
        (os.map LogOutput.program)
  | beginPass {started visited : List String} {symbol : String} {n : Nat}
      (hscheduler : l.system.scheduler = .computing started visited symbol n)
      (hit : l.iterator = .before) (hn : n < calcTypes.length) :
      Moves P l .beginPass { l with iterator := .entry 0 } []
  | entry {started visited : List String} {symbol : String} {n i : Nat} {c : CalcType}
      {s s' : SymbolState}
      (hscheduler : l.system.scheduler = .computing started visited symbol n)
      (hit : l.iterator = .entry i) (hc : calcTypes[n]? = some c)
      (hs : l.system.symbolStates.lookup symbol = some s) (hi : i ≠ s.trades.length)
      (hentry : c.processEntry i s = .ok () s') :
      Moves P l .entry { l with
        system := { l.system with symbolStates := l.system.symbolStates.insert symbol s' }
        iterator := .entry (i + 1) } []
  | strayEntry {started visited : List String} {symbol : String} {n : Nat}
      {s stray : SymbolState} {iterator : Iterator}
      (hscheduler : l.system.scheduler = .computing started visited symbol n)
      (hit : l.iterator = .dangling) (hs : l.system.symbolStates.lookup symbol = some s) :
      Moves P l (.strayEntry stray iterator) { l with
        system := { l.system with
          symbolStates := l.system.symbolStates.insert symbol { stray with trades := s.trades } }
        iterator := iterator } []
  | endPass {started visited : List String} {symbol : String} {n i : Nat} {s : SymbolState}
      (hscheduler : l.system.scheduler = .computing started visited symbol n)
      (hit : l.iterator = .entry i) (hs : l.system.symbolStates.lookup symbol = some s)
      (hi : i = s.trades.length) :
      Moves P l .endPass { l with
        system := { l.system with
          scheduler := .computing started visited symbol (n + 1)
          symbolStates := l.system.symbolStates.insert symbol s }
        iterator := .before } []
  | release {symbol : String} {system : System} {os : List Output}
      (hholds : l.system.scheduler.holds = some symbol)
      (hstep : System.step P .release l.system = some (system, os)) :
      Moves P l .release { l with
        system := system
        owner := Function.update l.owner symbol none }
        (os.map LogOutput.program ++
          [.published symbol (featuresOf (l.system.symbolStates.lookup symbol))])
  | wake (hlogger : l.logger = .sleeping) :
      Moves P l .wake { l with
        logger :=
          if l.system.stopRequested then .stopped
          else .iterating l.system.symbolStates.keys [] } []
  | logLock {started visited : List String} {symbol : String}
      (hlogger : l.logger = .iterating started visited)
      (hsymbol : symbol ∈ l.system.symbolStates.keys ∧ symbol ∉ visited ∧
        l.owner symbol = none) :
      Moves P l (.logLock symbol) { l with
        logger := .locked started visited symbol
        owner := Function.update l.owner symbol (some .logger) } []
  | copy {started visited : List String} {symbol : String}
      (hlogger : l.logger = .locked started visited symbol) :
      Moves P l .copy { l with
        logger := .copied started visited symbol
          (featuresOf (l.system.symbolStates.lookup symbol)) }
        [.snapshot symbol (featuresOf (l.system.symbolStates.lookup symbol))]
  | logUnlock {started visited : List String} {symbol : String} {snapshot : Features}
      (hlogger : l.logger = .copied started visited symbol snapshot) :
      Moves P l .logUnlock { l with
        logger := .printing started visited symbol snapshot
        owner := Function.update l.owner symbol none } []
  | print {started visited : List String} {symbol : String} {snapshot : Features}
      (hlogger : l.logger = .printing started visited symbol snapshot) :
      Moves P l .print { l with logger := .iterating started (symbol :: visited) }
        [.printed symbol snapshot]
  | endRound {started visited : List String} (hlogger : l.logger = .iterating started visited)
      (hall : started.all (· ∈ visited) = true) :
      Moves P l .endRound { l with logger := .sleeping } []

variable {P : Platform} {l l' : LoggedSystem} {out : List LogOutput}

theorem programStep_moves {a : LogAct} (h : l.programStep P a = some (l', out)) :
    l.Moves P a l' out := by
  cases a with
  | program a =>
      simp only [LoggedSystem.programStep] at h
      split at h
      · rename_i hplain
        obtain ⟨system, os, hstep, rfl, rfl⟩ := within_eq_some h
        exact .program hplain hstep
      · cases h
  | evict =>
      simp only [LoggedSystem.programStep] at h
      split at h
      · cases h
      · rename_i hstep
        cases h
        exact .evict hstep
  | lock symbol =>
      simp only [LoggedSystem.programStep] at h
      split at h
      · rename_i howner
        obtain ⟨system, os, hstep, rfl, rfl⟩ := within_eq_some h
        exact .lock howner hstep
      · cases h
  | reset =>
      obtain ⟨system, os, hstep, rfl, rfl⟩ := within_eq_some h
      exact .reset hstep
  | beginPass =>
      simp only [LoggedSystem.programStep] at h
      split at h
      · rename_i hscheduler hit
        split at h
        · rename_i hn
          cases h
          exact .beginPass hscheduler hit hn
        · cases h
      · cases h
  | entry =>
      simp only [LoggedSystem.programStep] at h
      split at h
      · rename_i hscheduler hit
        split at h
        · rename_i hc hs
          split at h
          · rename_i hi
            split at h
            · rename_i hentry
              cases h
              exact .entry hscheduler hit hc hs hi hentry
            · cases h
          · cases h
        · cases h
      · cases h
  | strayEntry stray iterator =>
      simp only [LoggedSystem.programStep] at h
      split at h
      · rename_i hscheduler hit
        split at h
        · rename_i hs
          cases h
          exact .strayEntry hscheduler hit hs
        · cases h
      · cases h
  | endPass =>
      simp only [LoggedSystem.programStep] at h
      split at h
      · rename_i hscheduler hit
        split at h
        · rename_i hs
          split at h
          · rename_i hi
            cases h
            exact .endPass hscheduler hit hs hi
          · cases h
        · cases h
      · cases h
  | release =>
      simp only [LoggedSystem.programStep] at h
      split at h
      · rename_i hholds
        obtain ⟨system, os, hstep, rfl, rfl⟩ := within_eq_some h
        exact .release hholds hstep
      · cases h
  | _ => cases h

theorem loggerStep_moves {a : LogAct} (h : l.loggerStep a = some (l', out)) :
    l.Moves P a l' out := by
  cases a with
  | wake =>
      simp only [LoggedSystem.loggerStep] at h
      split at h
      · rename_i hlogger
        cases h
        exact .wake hlogger
      · cases h
  | logLock symbol =>
      simp only [LoggedSystem.loggerStep] at h
      split at h
      · rename_i hlogger
        split at h
        · rename_i hsymbol
          cases h
          exact .logLock hlogger hsymbol
        · cases h
      · cases h
  | copy =>
      simp only [LoggedSystem.loggerStep] at h
      split at h
      · rename_i hlogger
        cases h
        exact .copy hlogger
      · cases h
  | logUnlock =>
      simp only [LoggedSystem.loggerStep] at h
      split at h
      · rename_i hlogger
        cases h
        exact .logUnlock hlogger
      · cases h
  | print =>
      simp only [LoggedSystem.loggerStep] at h
      split at h
      · rename_i hlogger
        cases h
        exact .print hlogger
      · cases h
  | endRound =>
      simp only [LoggedSystem.loggerStep] at h
      split at h
      · rename_i hlogger
        split at h
        · rename_i hall
          cases h
          exact .endRound hlogger hall
        · cases h
      · cases h
  | _ => cases h

/-- Every enabled action is one of the steps. -/
theorem logged_moves {a : LogAct} (h : LoggedSystem.step P a l = some (l', out)) :
    l.Moves P a l' out := by
  unfold LoggedSystem.step at h
  split at h
  iterate 6 exact loggerStep_moves h
  exact programStep_moves h

end TradeProcessor
