/-
  Rehash.lean --- the map of symbols with its buckets.

  A map that outgrows its buckets is rehashed by the insertion.  The states keep their
  places, and so do the references to them; the iterator of the loop in
  `computeFeatures` does not stay valid.  `System` has no buckets, and its loop comes
  to every key once: it is the system of those runs in which no insertion rehashes the
  map under the loop.
-/
import TradeProcessor.SymbolKeys

set_option autoImplicit false

namespace TradeProcessor

open TradeProcessor.Json TradeProcessor.Library

/-- The threads, and the buckets of `symbolStates`. -/
structure HashedSystem where
  system : System := {}
  /-- as many elements fit without a rehash -/
  buckets : Nat
  /-- a rehash has moved the elements under the loop of `computeFeatures` -/
  moved : Bool := false

/-- The loop of `computeFeatures` with an iterator from before a rehash.  The standard
leaves open what it does; here it may come to any key, and end at any time. -/
def HashedSystem.strayStep (η : HashedSystem) : Act → Option (System × List Output)
  | .lock symbol =>
      match η.system.scheduler with
      | .iterating started visited =>
          if symbol ∈ η.system.symbolStates.keys then
            some ({ η.system with scheduler := .locked started visited symbol },
              [.locked symbol])
          else none
      | _ => none
  | .finish =>
      match η.system.scheduler with
      | .iterating _ _ => some ({ η.system with scheduler := .idle }, [])
      | _ => none
  | _ => none

/-- The buckets after a step; `grow` says how many a rehash makes for so many
elements. -/
def HashedSystem.settle (grow : Nat → Nat) (η : HashedSystem) (σ : System) : HashedSystem where
  system := σ
  buckets := if σ.size ≤ η.buckets then η.buckets else max σ.size (grow σ.size)
  moved := decide (σ.scheduler ≠ .idle) && (η.moved || decide (η.buckets < σ.size))

/-- One action.  The other actions of the scheduler go through a reference to the state
of the symbol, and those of the worker and the io thread do not iterate. -/
def HashedSystem.step (P : Platform) (grow : Nat → Nat) (a : Act) (η : HashedSystem) :
    Option (HashedSystem × List Output) :=
  match a with
  | .lock _ | .finish =>
      within (η.settle grow) id (if η.moved then η.strayStep a else System.step P a η.system)
  | _ => within (η.settle grow) id (System.step P a η.system)

/-- The action does not rehash the map under the loop of `computeFeatures`. -/
def HashedSystem.Steady (P : Platform) (a : Act) (η : HashedSystem) : Prop :=
  η.system.scheduler = .idle ∨ NoRehash P η.buckets a η.system

instance (P : Platform) (a : Act) (η : HashedSystem) : Decidable (η.Steady P a) :=
  inferInstanceAs (Decidable (η.system.scheduler = .idle ∨ NoRehash P η.buckets a η.system))

variable {P : Platform} {grow : Nat → Nat} {η η' : HashedSystem} {σ σ' : System} {a : Act}
  {os : List Output}

/-! ## Runs without a rehash under the loop -/

/-- The elements are where the loop expects them, and within the buckets. -/
structure HashedSystem.InPlace (η : HashedSystem) (σ : System) : Prop where
  system : η.system = σ
  moved : η.moved = false
  size : σ.size ≤ η.buckets

theorem inPlace_start (buckets : Nat) : HashedSystem.InPlace { buckets := buckets } {} :=
  ⟨rfl, rfl, Nat.zero_le _⟩

/-- The elements of the map move only in a push, and a round begins with a tick. -/
theorem size_of_idle (hmove : Moves P σ a σ' os) (hidle : σ.scheduler = .idle) :
    σ'.scheduler = .idle ∨ σ'.size = σ.size := by
  cases hmove with
  | tick => exact .inr rfl
  | lock hscheduler _ | reset hscheduler _ | pass hscheduler _ _ _ | release hscheduler =>
      rw [hidle] at hscheduler
      cases hscheduler
  | finish => exact .inl rfl
  | _ => exact .inl hidle

/-- As long as the elements are in place, a step is one of the system. -/
theorem hashedStep_of_moved (hmoved : η.moved = false) :
    HashedSystem.step P grow a η = within (η.settle grow) id (System.step P a η.system) := by
  unfold HashedSystem.step
  cases a with
  | lock symbol | finish => rw [hmoved]; rfl
  | _ => rfl

theorem inPlace_settle (h : η.InPlace σ) (hsteady : η.Steady P a)
    (hstep : System.step P a σ = some (σ', os)) : (η.settle grow σ').InPlace σ' := by
  obtain ⟨rfl, hmoved, hsize⟩ := h
  have hfits : σ'.scheduler = .idle ∨ σ'.size ≤ η.buckets := by
    rcases hsteady with hidle | hnoRehash
    · rcases size_of_idle (step_moves hstep) hidle with hidle' | hsame
      · exact .inl hidle'
      · exact .inr (hsame.trans_le hsize)
    · by_cases hgrows : η.system.size < σ'.size
      · exact .inr (hnoRehash σ' os hstep hgrows)
      · exact .inr (by omega)
  refine ⟨rfl, ?_, ?_⟩
  · rcases hfits with hidle | hle
    · simp [HashedSystem.settle, hidle]
    · simp [HashedSystem.settle, hmoved, hle.not_gt]
  · simp only [HashedSystem.settle]
    split <;> omega

/-- A run without a rehash under the loop is a run of the system. -/
theorem execute_of_steady {allowed : Act → HashedSystem → Prop} {allowed' : Act → System → Prop}
    {as : List Act} {buckets : Nat}
    (hallowed : ∀ a η, allowed a η → η.Steady P a ∧ allowed' a η.system)
    (h : execute (HashedSystem.step P grow) as { buckets := buckets } = some (η, os))
    (heach : EachStep (HashedSystem.step P grow) allowed as { buckets := buckets }) :
    execute (System.step P) as {} = some (η.system, os) ∧
      EachStep (System.step P) allowed' as {} := by
  have hsim : ∀ a (η η' : HashedSystem) os σ, η.InPlace σ → allowed a η →
      HashedSystem.step P grow a η = some (η', os) →
      ∃ σ', System.step P a σ = some (σ', os) ∧ η'.InPlace σ' ∧ allowed' a σ := by
    intro a η η' os σ hη ha hstep
    obtain ⟨hsteady, ha'⟩ := hallowed a η ha
    rw [hashedStep_of_moved hη.moved, hη.system] at hstep
    obtain ⟨σ', os', hstep', rfl, rfl⟩ := within_eq_some hstep
    rw [hη.system] at ha'
    exact ⟨σ', hstep', inPlace_settle hη hsteady hstep', ha'⟩
  obtain ⟨σ, hexec, hend, heach'⟩ :=
    execute_simulation HashedSystem.InPlace hsim (inPlace_start buckets) heach h
  rw [hend.system]
  exact ⟨hexec, heach'⟩

/-- A run of the system in which insertions and the loop are never under way together is
a run over every map of buckets. -/
theorem execute_hashed {allowed : Act → System → Prop} {as : List Act} (buckets : Nat)
    (hallowed : ∀ a σ, allowed a σ → a.thread = .scheduler ∨ σ.scheduler = .idle)
    (h : execute (System.step P) as {} = some (σ, os))
    (heach : EachStep (System.step P) allowed as {}) :
    ∃ η, execute (HashedSystem.step P grow) as { buckets := buckets } = some (η, os) ∧
      η.system = σ ∧ EachStep (HashedSystem.step P grow)
        (fun a η => allowed a η.system ∧ η.Steady P a) as { buckets := buckets } := by
  have hsim : ∀ a (σ σ' : System) os η, η.InPlace σ → allowed a σ →
      System.step P a σ = some (σ', os) →
      ∃ η', HashedSystem.step P grow a η = some (η', os) ∧ η'.InPlace σ' ∧
        (allowed a η.system ∧ η.Steady P a) := by
    intro a σ σ' os η hη ha hstep
    have hsteady : η.Steady P a := by
      rw [HashedSystem.Steady, hη.system]
      rcases hallowed a σ ha with hthread | hidle
      · refine .inr fun σ₁ os₁ hstep₁ hgrows => ?_
        rw [size_of_ne_push (step_moves hstep₁) (by rintro rfl; cases hthread)] at hgrows
        exact (lt_irrefl _ hgrows).elim
      · exact .inl hidle
    refine ⟨η.settle grow σ', ?_, inPlace_settle hη hsteady hstep, ?_, hsteady⟩
    · rw [hashedStep_of_moved hη.moved, hη.system, hstep]
      rfl
    · rw [hη.system]
      exact ha
  obtain ⟨η, hexec, hend, heach'⟩ :=
    execute_simulation (fun σ η => HashedSystem.InPlace η σ) hsim (inPlace_start buckets) heach h
  exact ⟨η, hexec, hend.system, heach'⟩

end TradeProcessor
