/-
  Library/Machine.lean --- machines whose actions are chosen from outside.

  Threads that interleave are modelled by one state and by actions that name the
  thread that moves and what its environment answers.  An action that is not
  enabled has no next state; an action that is taken may have visible outputs.  A
  claim about every interleaving is a claim about every list of actions.
-/
import Mathlib

set_option autoImplicit false

namespace TradeProcessor.Library

variable {α σ ω : Type} (step : α → σ → Option (σ × List ω))

/-- An execution: the state after the actions, and all outputs in order. -/
def execute : List α → σ → Option (σ × List ω)
  | [], s => some (s, [])
  | a :: as, s =>
      match step a s with
      | none => none
      | some (s', os) => (execute as s').map fun r => (r.1, os ++ r.2)

variable {step}

theorem execute_cons_of_some {a : α} {s s' : σ} {os : List ω} (h : step a s = some (s', os))
    (as : List α) :
    execute step (a :: as) s = (execute step as s').map fun r => (r.1, os ++ r.2) := by
  simp only [execute, h]

theorem execute_cons_eq_some_iff {a : α} {as : List α} {s s'' : σ} {out : List ω} :
    execute step (a :: as) s = some (s'', out) ↔
      ∃ s' os os', step a s = some (s', os) ∧ execute step as s' = some (s'', os') ∧
        out = os ++ os' := by
  cases h : step a s with
  | none => simp [execute, h]
  | some r =>
      obtain ⟨s', os⟩ := r
      rw [execute_cons_of_some h, Option.map_eq_some_iff]
      constructor
      · intro hmap
        obtain ⟨⟨t, os'⟩, hrest, heq⟩ := hmap
        cases heq
        exact ⟨s', os, os', rfl, hrest, rfl⟩
      · intro hex
        obtain ⟨t, os₁, os', hstep, hrest, rfl⟩ := hex
        cases hstep
        exact ⟨(s'', os'), hrest, rfl⟩

theorem execute_singleton {a : α} {s s' : σ} {os : List ω} (h : step a s = some (s', os)) :
    execute step [a] s = some (s', os) := by
  rw [execute_cons_eq_some_iff]
  exact ⟨s', os, [], h, rfl, (List.append_nil os).symm⟩

/-- Executions compose. -/
theorem execute_append {as bs : List α} {s s' s'' : σ} {os os' : List ω}
    (has : execute step as s = some (s', os)) (hbs : execute step bs s' = some (s'', os')) :
    execute step (as ++ bs) s = some (s'', os ++ os') := by
  induction as generalizing s os with
  | nil =>
      cases has
      exact hbs
  | cons a as ih =>
      rw [execute_cons_eq_some_iff] at has
      obtain ⟨mid, os₁, os₂, hfirst, hrest, rfl⟩ := has
      rw [List.cons_append, List.append_assoc, execute_cons_eq_some_iff]
      exact ⟨mid, os₁, os₂ ++ os', hfirst, ih hrest, rfl⟩

/-- Invariant rule.  What holds of the outputs and the state at the start, and is
kept by every action, holds after every execution. -/
theorem execute_invariant (inv : List ω → σ → Prop)
    (hstep : ∀ os s a s' os', inv os s → step a s = some (s', os') → inv (os ++ os') s')
    {as : List α} {s s' : σ} {os os' : List ω} (hinit : inv os s)
    (h : execute step as s = some (s', os')) : inv (os ++ os') s' := by
  induction as generalizing s os os' with
  | nil =>
      cases h
      simpa using hinit
  | cons a as ih =>
      rw [execute_cons_eq_some_iff] at h
      obtain ⟨mid, os₁, os₂, hfirst, hrest, rfl⟩ := h
      rw [← List.append_assoc]
      exact ih (hstep os s a mid os₁ hinit hfirst) hrest

/-- The rule from a start without outputs. -/
theorem execute_invariant_init (inv : List ω → σ → Prop)
    (hstep : ∀ os s a s' os', inv os s → step a s = some (s', os') → inv (os ++ os') s')
    {as : List α} {s s' : σ} {os : List ω} (hinit : inv [] s)
    (h : execute step as s = some (s', os)) : inv os s' := by
  have hrun := execute_invariant inv hstep hinit h
  simpa using hrun

/-! ## A machine inside another -/

section Within

variable {σ' ω' : Type}

/-- A step of an inner machine, as the machine around it takes it. -/
def within (put : σ → σ') (outputs : List ω → List ω') :
    Option (σ × List ω) → Option (σ' × List ω')
  | none => none
  | some (s, os) => some (put s, outputs os)

theorem within_eq_some {put : σ → σ'} {outputs : List ω → List ω'} {r : Option (σ × List ω)}
    {s' : σ'} {out : List ω'} (h : within put outputs r = some (s', out)) :
    ∃ s os, r = some (s, os) ∧ s' = put s ∧ out = outputs os := by
  cases r with
  | none => cases h
  | some r =>
      obtain ⟨s, os⟩ := r
      cases h
      exact ⟨s, os, rfl, rfl, rfl⟩

theorem map_within {σ'' : Type} (f : σ' → σ'') (put : σ → σ') (outputs : List ω → List ω')
    (r : Option (σ × List ω)) :
    (within put outputs r).map (fun r => (f r.1, r.2)) =
      within (fun s => f (put s)) outputs r := by
  cases r <;> rfl

end Within

/-! ## Parts of an execution -/

variable (step) in
/-- Actions of one kind alone lead from one state to another. -/
def Reaches (allowed : α → Prop) (s s' : σ) : Prop :=
  ∃ as os, (∀ a ∈ as, allowed a) ∧ execute step as s = some (s', os)

theorem Reaches.refl (allowed : α → Prop) (s : σ) : Reaches step allowed s s :=
  ⟨[], [], by simp, rfl⟩

theorem Reaches.head {allowed : α → Prop} {a : α} {s s' s'' : σ} {os : List ω}
    (ha : allowed a) (hstep : step a s = some (s', os)) (h : Reaches step allowed s' s'') :
    Reaches step allowed s s'' := by
  obtain ⟨as, os', has, hexec⟩ := h
  refine ⟨a :: as, os ++ os', ?_, ?_⟩
  · intro b hb
    rcases List.mem_cons.mp hb with rfl | hb
    · exact ha
    · exact has b hb
  · rw [execute_cons_eq_some_iff]
    exact ⟨s', os, os', hstep, hexec, rfl⟩

theorem Reaches.trans {allowed : α → Prop} {s s' s'' : σ} (h : Reaches step allowed s s')
    (h' : Reaches step allowed s' s'') : Reaches step allowed s s'' := by
  obtain ⟨as, os, has, hexec⟩ := h
  obtain ⟨bs, os', hbs, hexec'⟩ := h'
  refine ⟨as ++ bs, os ++ os', ?_, execute_append hexec hexec'⟩
  intro a ha
  rcases List.mem_append.mp ha with ha | ha
  · exact has a ha
  · exact hbs a ha

theorem Reaches.mono {allowed allowed' : α → Prop} {s s' : σ} (h : Reaches step allowed s s')
    (hle : ∀ a, allowed a → allowed' a) : Reaches step allowed' s s' := by
  obtain ⟨as, os, has, hexec⟩ := h
  exact ⟨as, os, fun a ha => hle a (has a ha), hexec⟩

/-- One action. -/
theorem Reaches.single {allowed : α → Prop} {a : α} {s s' : σ} {os : List ω} (ha : allowed a)
    (hstep : step a s = some (s', os)) : Reaches step allowed s s' :=
  .head ha hstep (.refl _ _)

/-- What the allowed actions keep. -/
theorem Reaches.keeps {allowed : α → Prop} (inv : σ → Prop)
    (hkeeps : ∀ a s s' os, allowed a → inv s → step a s = some (s', os) → inv s') {s s' : σ}
    (h : Reaches step allowed s s') (hs : inv s) : inv s' := by
  obtain ⟨as, os, has, hexec⟩ := h
  induction as generalizing s os with
  | nil =>
      cases hexec
      exact hs
  | cons a as ih =>
      rw [execute_cons_eq_some_iff] at hexec
      obtain ⟨mid, _, os', hfirst, hrest, _⟩ := hexec
      exact ih (hkeeps a s mid _ (has a (by simp)) hs hfirst) os'
        (fun b hb => has b (by simp [hb])) hrest

/-! ## Along an execution -/

variable (step) in
/-- The predicate holds in every state that the actions lead through. -/
def Throughout (good : σ → Prop) (as : List α) (s : σ) : Prop :=
  ∀ bs cs s' os, as = bs ++ cs → execute step bs s = some (s', os) → good s'

variable (step) in
/-- Every action is taken in a state in which it is allowed. -/
def EachStep (allowed : α → σ → Prop) (as : List α) (s : σ) : Prop :=
  ∀ bs a cs s' os, as = bs ++ a :: cs → execute step bs s = some (s', os) → allowed a s'

theorem throughout_nil {good : σ → Prop} {s : σ} : Throughout step good [] s ↔ good s := by
  constructor
  · intro h
    exact h [] [] s [] rfl rfl
  · intro h bs cs s' os has hexec
    obtain ⟨rfl, _⟩ := List.append_eq_nil_iff.mp has.symm
    cases hexec
    exact h

theorem throughout_cons {good : σ → Prop} {a : α} {as : List α} {s s' : σ} {os : List ω}
    (hstep : step a s = some (s', os)) :
    Throughout step good (a :: as) s ↔ good s ∧ Throughout step good as s' := by
  constructor
  · intro h
    refine ⟨h [] _ s [] rfl rfl, fun bs cs t out has hexec => ?_⟩
    refine h (a :: bs) cs t (os ++ out) (by rw [has, List.cons_append]) ?_
    rw [execute_cons_eq_some_iff]
    exact ⟨s', os, out, hstep, hexec, rfl⟩
  · rintro ⟨hgood, hrest⟩ bs cs t out has hexec
    cases bs with
    | nil =>
        cases hexec
        exact hgood
    | cons b bs =>
        obtain ⟨rfl, htail⟩ := List.cons_eq_cons.mp has
        rw [execute_cons_eq_some_iff] at hexec
        obtain ⟨mid, os₁, os₂, hfirst, hexec, _⟩ := hexec
        rw [hstep] at hfirst
        cases hfirst
        exact hrest bs cs t os₂ htail hexec

theorem eachStep_nil {allowed : α → σ → Prop} {s : σ} : EachStep step allowed [] s := by
  intro bs a cs s' os has
  simp at has

theorem eachStep_cons {allowed : α → σ → Prop} {a : α} {as : List α} {s s' : σ} {os : List ω}
    (hstep : step a s = some (s', os)) :
    EachStep step allowed (a :: as) s ↔ allowed a s ∧ EachStep step allowed as s' := by
  constructor
  · intro h
    refine ⟨h [] a as s [] rfl rfl, fun bs b cs t out has hexec => ?_⟩
    refine h (a :: bs) b cs t (os ++ out) (by rw [has, List.cons_append]) ?_
    rw [execute_cons_eq_some_iff]
    exact ⟨s', os, out, hstep, hexec, rfl⟩
  · rintro ⟨hallowed, hrest⟩ bs b cs t out has hexec
    cases bs with
    | nil =>
        obtain ⟨rfl, _⟩ := List.cons_eq_cons.mp has
        cases hexec
        exact hallowed
    | cons c bs =>
        obtain ⟨rfl, htail⟩ := List.cons_eq_cons.mp has
        rw [execute_cons_eq_some_iff] at hexec
        obtain ⟨mid, os₁, os₂, hfirst, hexec, _⟩ := hexec
        rw [hstep] at hfirst
        cases hfirst
        exact hrest bs b cs t os₂ htail hexec

/-- Nothing is asked beyond an action that is not enabled. -/
theorem eachStep_cons_of_none {allowed : α → σ → Prop} {a : α} {as : List α} {s : σ}
    (hstep : step a s = none) (ha : allowed a s) : EachStep step allowed (a :: as) s := by
  intro bs b cs t out has hexec
  cases bs with
  | nil =>
      obtain ⟨rfl, _⟩ := List.cons_eq_cons.mp has
      cases hexec
      exact ha
  | cons c bs =>
      obtain ⟨rfl, _⟩ := List.cons_eq_cons.mp has
      rw [execute_cons_eq_some_iff] at hexec
      obtain ⟨_, _, _, hfirst, _, _⟩ := hexec
      rw [hstep] at hfirst
      cases hfirst

instance decidableEachStep {allowed : α → σ → Prop} [∀ a s, Decidable (allowed a s)] :
    (as : List α) → (s : σ) → Decidable (EachStep step allowed as s)
  | [], _ => .isTrue eachStep_nil
  | a :: as, s =>
      if ha : allowed a s then
        match hstep : step a s with
        | none => .isTrue (eachStep_cons_of_none hstep ha)
        | some (s', _) =>
            match decidableEachStep as s' with
            | .isTrue h => .isTrue ((eachStep_cons hstep).mpr ⟨ha, h⟩)
            | .isFalse h => .isFalse fun heach => h ((eachStep_cons hstep).mp heach).2
      else .isFalse fun heach => ha (heach [] a as s [] rfl rfl)

/-- The invariant rule for an execution whose steps are all allowed. -/
theorem execute_invariant_eachStep {allowed : α → σ → Prop} (inv : List ω → σ → Prop)
    (hstep : ∀ os s a s' os', inv os s → allowed a s → step a s = some (s', os') →
      inv (os ++ os') s')
    {as : List α} {s s' : σ} {os os' : List ω} (hinit : inv os s)
    (heach : EachStep step allowed as s) (h : execute step as s = some (s', os')) :
    inv (os ++ os') s' := by
  induction as generalizing s os os' with
  | nil =>
      cases h
      simpa using hinit
  | cons a as ih =>
      rw [execute_cons_eq_some_iff] at h
      obtain ⟨mid, os₁, os₂, hfirst, hrest, rfl⟩ := h
      obtain ⟨hallowed, hlater⟩ := (eachStep_cons hfirst).mp heach
      rw [← List.append_assoc]
      exact ih (hstep os s a mid os₁ hinit hallowed hfirst) hlater hrest

/-- That rule from a start without outputs. -/
theorem execute_invariant_eachStep_init {allowed : α → σ → Prop} (inv : List ω → σ → Prop)
    (hstep : ∀ os s a s' os', inv os s → allowed a s → step a s = some (s', os') →
      inv (os ++ os') s')
    {as : List α} {s s' : σ} {os : List ω} (hinit : inv [] s)
    (heach : EachStep step allowed as s) (h : execute step as s = some (s', os)) :
    inv os s' := by
  have hrun := execute_invariant_eachStep inv hstep hinit heach h
  simpa using hrun

/-- The rule with the actions that were taken. -/
theorem execute_invariant_actions {allowed : α → σ → Prop} (inv : List α → List ω → σ → Prop)
    (hstep : ∀ as os s a s' os', inv as os s → allowed a s → step a s = some (s', os') →
      inv (as ++ [a]) (os ++ os') s')
    {as as' : List α} {s s' : σ} {os os' : List ω} (hinit : inv as os s)
    (heach : EachStep step allowed as' s) (h : execute step as' s = some (s', os')) :
    inv (as ++ as') (os ++ os') s' := by
  induction as' generalizing as s os os' with
  | nil =>
      cases h
      simpa using hinit
  | cons a as' ih =>
      rw [execute_cons_eq_some_iff] at h
      obtain ⟨mid, os₁, os₂, hfirst, hrest, rfl⟩ := h
      obtain ⟨hallowed, hlater⟩ := (eachStep_cons hfirst).mp heach
      rw [← List.append_assoc, List.append_cons]
      exact ih (hstep as os s a mid os₁ hinit hallowed hfirst) hlater hrest

/-- That rule from a start without actions, where every step is allowed. -/
theorem execute_invariant_actions_init (inv : List α → List ω → σ → Prop)
    (hstep : ∀ as os s a s' os', inv as os s → step a s = some (s', os') →
      inv (as ++ [a]) (os ++ os') s')
    {as : List α} {s s' : σ} {os : List ω} (hinit : inv [] [] s)
    (h : execute step as s = some (s', os)) : inv as os s' := by
  have hall : EachStep step (fun _ _ => True) as s := fun _ _ _ _ _ _ _ => trivial
  have hrun := execute_invariant_actions inv
    (fun as os s a s' os' hinv _ hnext => hstep as os s a s' os' hinv hnext) hinit hall h
  simpa using hrun

theorem EachStep.mono {allowed allowed' : α → σ → Prop} {as : List α} {s : σ}
    (h : EachStep step allowed as s) (hle : ∀ a s, allowed a s → allowed' a s) :
    EachStep step allowed' as s :=
  fun bs a cs s' os has hexec => hle a s' (h bs a cs s' os has hexec)

theorem EachStep.append {allowed : α → σ → Prop} {as bs : List α} {s s' : σ} {os : List ω}
    (has : EachStep step allowed as s) (h : execute step as s = some (s', os))
    (hbs : EachStep step allowed bs s') : EachStep step allowed (as ++ bs) s := by
  induction as generalizing s os with
  | nil =>
      cases h
      exact hbs
  | cons a as ih =>
      rw [execute_cons_eq_some_iff] at h
      obtain ⟨mid, _, _, hfirst, hrest, _⟩ := h
      obtain ⟨hallowed, hlater⟩ := (eachStep_cons hfirst).mp has
      exact (eachStep_cons hfirst).mpr ⟨hallowed, ih hlater hrest⟩

/-- The actions that lead from one state to another, with what holds before each. -/
theorem Reaches.eachStep {allowed : α → Prop} {good : α → σ → Prop} (inv : σ → Prop)
    (hgood : ∀ a s, allowed a → inv s → good a s)
    (hkeeps : ∀ a s s' os, allowed a → inv s → step a s = some (s', os) → inv s') {s s' : σ}
    (h : Reaches step allowed s s') (hs : inv s) :
    ∃ as os, execute step as s = some (s', os) ∧ EachStep step good as s := by
  obtain ⟨as, os, has, hexec⟩ := h
  refine ⟨as, os, hexec, ?_⟩
  induction as generalizing s os with
  | nil => exact eachStep_nil
  | cons a as ih =>
      rw [execute_cons_eq_some_iff] at hexec
      obtain ⟨mid, _, os', hfirst, hrest, _⟩ := hexec
      have ha := has a (by simp)
      have hmid := hkeeps a s mid _ ha hs hfirst
      exact (eachStep_cons hfirst).mpr ⟨hgood a s ha hs,
        ih hmid os' (fun b hb => has b (by simp [hb])) hrest⟩

/-- Simulation rule.  If every allowed step of one machine is a step of the other, with
the same action and outputs, then so is every execution of allowed steps; and what
the other machine is asked for at each step holds along the way. -/
theorem execute_simulation {τ : Type} {step' : α → τ → Option (τ × List ω)}
    {allowed : α → σ → Prop} {allowed' : α → τ → Prop} (R : σ → τ → Prop)
    (hstep : ∀ a s s' os t, R s t → allowed a s → step a s = some (s', os) →
      ∃ t', step' a t = some (t', os) ∧ R s' t' ∧ allowed' a t)
    {as : List α} {s s' : σ} {os : List ω} {t : τ} (hinit : R s t)
    (heach : EachStep step allowed as s) (h : execute step as s = some (s', os)) :
    ∃ t', execute step' as t = some (t', os) ∧ R s' t' ∧ EachStep step' allowed' as t := by
  induction as generalizing s os t with
  | nil =>
      cases h
      exact ⟨t, rfl, hinit, eachStep_nil⟩
  | cons a as ih =>
      rw [execute_cons_eq_some_iff] at h
      obtain ⟨mid, os₁, os₂, hfirst, hrest, rfl⟩ := h
      obtain ⟨ha, hlater⟩ := (eachStep_cons hfirst).mp heach
      obtain ⟨mid', hfirst', hmid, ha'⟩ := hstep a s mid os₁ t hinit ha hfirst
      obtain ⟨t', hrest', hend, hlater'⟩ := ih hmid hlater hrest
      refine ⟨t', ?_, hend, (eachStep_cons hfirst').mpr ⟨ha', hlater'⟩⟩
      rw [execute_cons_eq_some_iff]
      exact ⟨mid', os₁, os₂, hfirst', hrest', rfl⟩

/-- An execution is good throughout exactly when each of its steps is allowed, if an
invariant makes states good, allowed steps keep it, and a step that is not allowed
leads to a state that is not good. -/
theorem throughout_iff_eachStep {good : σ → Prop} {allowed : α → σ → Prop} (inv : σ → Prop)
    (hgood : ∀ s, inv s → good s)
    (hkeeps : ∀ a s s' os, inv s → step a s = some (s', os) → allowed a s → inv s')
    (hneeds : ∀ a s s' os, inv s → step a s = some (s', os) → good s' → allowed a s)
    {as : List α} {s s' : σ} {os : List ω} (hinit : inv s)
    (h : execute step as s = some (s', os)) :
    Throughout step good as s ↔ EachStep step allowed as s := by
  induction as generalizing s os with
  | nil => exact ⟨fun _ => eachStep_nil, fun _ => throughout_nil.mpr (hgood s hinit)⟩
  | cons a as ih =>
      rw [execute_cons_eq_some_iff] at h
      obtain ⟨mid, os₁, os₂, hstep, hrest, _⟩ := h
      rw [throughout_cons hstep, eachStep_cons hstep]
      constructor
      · rintro ⟨_, hthroughout⟩
        have hmid : good mid := hthroughout [] as mid [] rfl rfl
        have hallowed := hneeds a s mid os₁ hinit hstep hmid
        exact ⟨hallowed, (ih (hkeeps a s mid os₁ hinit hstep hallowed) hrest).mp hthroughout⟩
      · rintro ⟨hallowed, heach⟩
        exact ⟨hgood s hinit, (ih (hkeeps a s mid os₁ hinit hstep hallowed) hrest).mpr heach⟩

/-! ## What never comes out -/

variable (step) in
/-- No execution from here has an output of this kind. -/
def Never (output : ω → Prop) (s : σ) : Prop :=
  ∀ as s' os, execute step as s = some (s', os) → ∀ o ∈ os, ¬ output o

/-- An invariant under which no step has such an output. -/
theorem never_of_invariant {output : ω → Prop} (inv : σ → Prop)
    (hstep : ∀ a s s' os, inv s → step a s = some (s', os) → inv s' ∧ ∀ o ∈ os, ¬ output o)
    {s : σ} (hs : inv s) : Never step output s := by
  intro as s' os h
  have hrun := execute_invariant_init (fun os s => inv s ∧ ∀ o ∈ os, ¬ output o)
    (fun os s a s' os' hinv hnext => ?_) ⟨hs, by simp⟩ h
  · exact hrun.2
  · obtain ⟨hkept, hnone⟩ := hstep a s s' os' hinv.1 hnext
    refine ⟨hkept, fun o ho => ?_⟩
    rcases List.mem_append.mp ho with hold | hnew
    · exact hinv.2 o hold
    · exact hnone o hnew

/-! ## What each output says -/

/-- Every output comes with some action. -/
theorem exists_step_of_output {as : List α} {s s' : σ} {os : List ω} {o : ω}
    (h : execute step as s = some (s', os)) (ho : o ∈ os) :
    ∃ a ∈ as, ∃ t t' os', step a t = some (t', os') ∧ o ∈ os' := by
  induction as generalizing s os with
  | nil =>
      cases h
      cases ho
  | cons a as ih =>
      rw [execute_cons_eq_some_iff] at h
      obtain ⟨mid, first, rest, hfirst, hrest, rfl⟩ := h
      rcases List.mem_append.mp ho with ho | ho
      · exact ⟨a, List.mem_cons_self, s, mid, first, hfirst, ho⟩
      · obtain ⟨b, hb, hstep⟩ := ih hrest ho
        exact ⟨b, List.mem_cons_of_mem a hb, hstep⟩

/-- Every output is good, given the outputs before it. -/
def EachOutput (good : List ω → ω → Prop) (os : List ω) : Prop :=
  ∀ before o after, os = before ++ o :: after → good before o

theorem eachOutput_nil {good : List ω → ω → Prop} : EachOutput good [] := by
  intro before o after heq
  simp at heq

theorem EachOutput.append {good : List ω → ω → Prop} {os os' : List ω} (h : EachOutput good os)
    (h' : EachOutput (fun before o => good (os ++ before) o) os') :
    EachOutput good (os ++ os') := by
  intro before o after heq
  rcases List.append_eq_append_iff.mp heq with ⟨before', rfl, hright⟩ | ⟨after', hleft, hright⟩
  · exact h' before' o after hright
  · cases after' with
    | nil =>
        rw [List.append_nil] at hleft
        subst hleft
        have hfirst : good (os ++ []) o :=
          h' [] o after (by rw [List.nil_append]; exact hright.symm)
        rwa [List.append_nil] at hfirst
    | cons x after' =>
        obtain ⟨rfl, _⟩ := List.cons_eq_cons.mp hright
        exact h before o after' hleft

theorem eachOutput_singleton {good : List ω → ω → Prop} {o : ω} :
    EachOutput good [o] ↔ good [] o := by
  constructor
  · intro h
    exact h [] o [] rfl
  · intro h before x after heq
    cases before with
    | nil =>
        cases heq
        exact h
    | cons y before => simp at heq

/-- Outputs none of which anything is asked of. -/
theorem EachOutput.of_forall {good : List ω → ω → Prop} {os : List ω}
    (h : ∀ o ∈ os, ∀ before, good before o) : EachOutput good os := by
  rintro before o after rfl
  exact h o (by simp) before

/-! ## Budgets -/

/-- Where some actions spend of a budget, and outputs add to it, a run has no more of
these actions than the budget and what was added. -/
theorem countP_le_credit {inv : σ → Prop} {allowed : α → Prop} {budget : σ → Nat}
    {spends : α → Bool} (credit : List ω → Nat)
    (hcredit : ∀ os os', credit (os ++ os') = credit os + credit os')
    (hstep : ∀ a s s' os, allowed a → inv s → step a s = some (s', os) →
      inv s' ∧ budget s' + (spends a).toNat ≤ budget s + credit os)
    {as : List α} {s s' : σ} {os : List ω} (has : ∀ a ∈ as, allowed a) (hs : inv s)
    (h : execute step as s = some (s', os)) :
    as.countP spends + budget s' ≤ budget s + credit os := by
  induction as generalizing s os with
  | nil =>
      cases h
      simp
  | cons a as ih =>
      rw [execute_cons_eq_some_iff] at h
      obtain ⟨mid, first, rest, hfirst, hrest, rfl⟩ := h
      obtain ⟨hmid, hspent⟩ := hstep a s mid _ (has a (by simp)) hs hfirst
      have hlater := ih (fun b hb => has b (by simp [hb])) hmid hrest
      rw [List.countP_cons, hcredit]
      cases hspends : spends a <;>
        simp only [hspends, Bool.toNat_true, Bool.toNat_false] at hspent <;>
        simp <;> omega

/-- Where nothing adds to the budget. -/
theorem countP_le_budget {inv : σ → Prop} {budget : σ → Nat} {spends : α → Bool}
    (hstep : ∀ a s s' os, inv s → step a s = some (s', os) →
      inv s' ∧ budget s' + (spends a).toNat ≤ budget s)
    {as : List α} {s s' : σ} {os : List ω} (hs : inv s) (h : execute step as s = some (s', os)) :
    as.countP spends + budget s' ≤ budget s :=
  countP_le_credit (fun _ => 0) (fun _ _ => rfl)
    (fun a s s' os (_ : True) hinv hnext => hstep a s s' os hinv hnext) (fun _ _ => trivial) hs h

end TradeProcessor.Library
