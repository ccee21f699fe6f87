/-
  Library/Raise.lean --- computations that may raise and keep what they wrote.

  A C++ statement that throws does not undo the writes made before it, so an
  imperative function is modelled by `EStateM`: both outcomes carry the state
  that the caller finds.  This file has the rules for sequencing and for counted
  loops that every proof about such a function uses.
-/
import Mathlib

set_option autoImplicit false

namespace TradeProcessor.Library

variable {ε ε' σ α β : Type}

/-- A computation over a mutable `σ` that may raise an `ε`. -/
abbrev Action (ε σ α : Type) : Type := EStateM ε σ α

/-- The computation ends without raising. -/
def Completes (x : Action ε σ α) (s : σ) : Prop := ∃ a s', x s = .ok a s'

/-- The computation raises. -/
def Raises (x : Action ε σ α) (s : σ) : Prop := ∃ e s', x s = .error e s'

instance (x : Action ε σ α) (s : σ) : Decidable (Completes x s) :=
  match h : x s with
  | .ok a s' => isTrue ⟨a, s', h⟩
  | .error _ _ => isFalse fun ⟨_, _, hok⟩ => nomatch h.symm.trans hok

/-- Evaluate an expression that touches no shared state and may raise. -/
def evaluate (wrap : ε' → ε) : Except ε' α → Action ε σ α
  | .ok a => pure a
  | .error e => throw (wrap e)

theorem not_raises_iff {x : Action ε σ α} {s : σ} : ¬ Raises x s ↔ Completes x s := by
  cases h : x s with
  | ok a s' => simp [Raises, Completes, h]
  | error e s' => simp [Raises, Completes, h]

theorem not_completes_iff {x : Action ε σ α} {s : σ} : ¬ Completes x s ↔ Raises x s := by
  rw [← not_raises_iff, not_not]

/-! ## Sequencing -/

theorem pure_apply (a : α) (s : σ) : (pure a : Action ε σ α) s = .ok a s := rfl

theorem modify_apply (f : σ → σ) (s : σ) : (modify f : Action ε σ PUnit) s = .ok () (f s) := rfl

theorem get_apply (s : σ) : (get : Action ε σ σ) s = .ok s s := rfl

theorem evaluate_ok_apply (wrap : ε' → ε) (a : α) (s : σ) :
    (evaluate wrap (.ok a) : Action ε σ α) s = .ok a s := rfl

theorem evaluate_error_apply (wrap : ε' → ε) (e : ε') (s : σ) :
    (evaluate wrap (.error e) : Action ε σ α) s = .error (wrap e) s := rfl

/-- Sequencing after a part that completed. -/
theorem bind_of_ok {x : Action ε σ α} {f : α → Action ε σ β} {s s' : σ} {a : α}
    (h : x s = .ok a s') : (x >>= f) s = f a s' := by
  change EStateM.bind x f s = f a s'
  simp only [EStateM.bind, h]

/-- Sequencing after a part that raised. -/
theorem bind_of_error {x : Action ε σ α} {f : α → Action ε σ β} {s s' : σ} {e : ε}
    (h : x s = .error e s') : (x >>= f) s = .error e s' := by
  change EStateM.bind x f s = .error e s'
  simp only [EStateM.bind, h]

/-- A sequence completes exactly when both parts do, in turn. -/
theorem bind_eq_ok_iff {x : Action ε σ α} {f : α → Action ε σ β} {s s'' : σ} {b : β} :
    (x >>= f) s = .ok b s'' ↔ ∃ a s', x s = .ok a s' ∧ f a s' = .ok b s'' := by
  cases h : x s with
  | ok a s' => simp [bind_of_ok h]
  | error e s' => simp [bind_of_error h]

/-- The same for two statements. -/
theorem seq_eq_ok_iff {x : Action ε σ Unit} {y : Action ε σ β} {s s'' : σ} {b : β} :
    (x >>= fun _ => y) s = .ok b s'' ↔ ∃ s', x s = .ok () s' ∧ y s' = .ok b s'' := by
  rw [bind_eq_ok_iff]
  constructor
  · rintro ⟨_, s', hx, hy⟩
    exact ⟨s', hx, hy⟩
  · rintro ⟨s', hx, hy⟩
    exact ⟨(), s', hx, hy⟩

theorem except_bind_eq_ok_iff {x : Except ε α} {f : α → Except ε β} {b : β} :
    (x >>= f) = .ok b ↔ ∃ a, x = .ok a ∧ f a = .ok b := by
  cases x <;> simp [bind, Except.bind]

/-! ## Loops over a list -/

/-- What is seen of the state when a computation has ended; nothing, if it raised. -/
def outcome {β : Type} (see : σ → β) : EStateM.Result ε σ α → Option β
  | .ok _ s => some (see s)
  | .error _ _ => none

theorem forM_concat_apply {body : α → Action ε σ Unit} {as : List α} {s s' : σ}
    (h : forM as body s = .ok () s') (a : α) : forM (as ++ [a]) body s = body a s' := by
  rw [List.forM_append, bind_of_ok h]
  cases hbody : body a s' with
  | ok _ _ => rw [List.forM_cons, bind_of_ok hbody, List.forM_nil, pure_apply]
  | error _ _ => rw [List.forM_cons, bind_of_error hbody]

/-- A loop does what is asked of it, after each of its iterations, exactly when each
iteration does, in the state that it finds. -/
theorem forM_follows_iff {β : Type} (see : σ → β) (asked : β → α → Option β)
    (body : α → Action ε σ Unit) (as : List α) (s : σ) :
    (∀ bs cs, as = bs ++ cs → outcome see (forM bs body s) = bs.foldlM asked (see s)) ↔
      ∀ bs a cs s', as = bs ++ a :: cs → forM bs body s = .ok () s' →
        outcome see (body a s') = asked (see s') a := by
  constructor
  · intro hloop bs a cs s' has hrun
    have hbefore := hloop bs (a :: cs) has
    have hafter := hloop (bs ++ [a]) cs (by simp [has])
    rw [hrun, outcome] at hbefore
    rw [forM_concat_apply hrun, List.foldlM_append, ← hbefore] at hafter
    simpa using hafter
  · intro heach bs
    induction bs using List.reverseRecOn with
    | nil =>
        intro _ _
        rfl
    | append_singleton bs a ih =>
        intro cs has
        rw [List.append_assoc, List.singleton_append] at has
        have hbefore := ih (a :: cs) has
        rw [List.foldlM_append, ← hbefore]
        cases hrun : forM bs body s with
        | ok u s' =>
            rw [forM_concat_apply hrun, heach bs a cs s' has hrun]
            simp [outcome]
        | error e s' =>
            rw [List.forM_append, bind_of_error hrun]
            rfl

/-! ## Counted loops -/

/-- `for i in [0, n)`: the body runs once for each index, in order. -/
def forRange (n : Nat) (body : Nat → Action ε σ Unit) : Action ε σ Unit :=
  forM (List.range n) body

theorem forRange_succ (n : Nat) (body : Nat → Action ε σ Unit) :
    forRange (n + 1) body = forRange n body >>= fun _ => body n := by
  simp [forRange, List.range_succ]

/-- Invariant rule: a body that completes and advances the invariant by one
index makes the whole loop complete and establishes it at the bound. -/
theorem forRange_ok (inv : Nat → σ → Prop) (n : Nat) (body : Nat → Action ε σ Unit) {s : σ}
    (hinit : inv 0 s)
    (hstep : ∀ i, i < n → ∀ s, inv i s → ∃ s', body i s = .ok () s' ∧ inv (i + 1) s') :
    ∃ s', forRange n body s = .ok () s' ∧ inv n s' := by
  induction n with
  | zero => exact ⟨s, rfl, hinit⟩
  | succ n ih =>
      obtain ⟨s', hrun, hinv⟩ := ih fun i hi => hstep i (by omega)
      obtain ⟨s'', hbody, hinv'⟩ := hstep n (by omega) s' hinv
      refine ⟨s'', ?_, hinv'⟩
      rw [forRange_succ, bind_of_ok hrun, hbody]

/-- Partial rule: what every completed iteration preserves, the completed loop
preserves. -/
theorem forRange_preserves (inv : Nat → σ → Prop) {n : Nat} {body : Nat → Action ε σ Unit}
    {s s' : σ} (hinit : inv 0 s)
    (hstep : ∀ i, i < n → ∀ s s', inv i s → body i s = .ok () s' → inv (i + 1) s')
    (hrun : forRange n body s = .ok () s') : inv n s' := by
  induction n generalizing s' with
  | zero =>
      cases hrun
      exact hinit
  | succ n ih =>
      rw [forRange_succ, seq_eq_ok_iff] at hrun
      obtain ⟨mid, hmid, hlast⟩ := hrun
      exact hstep n (by omega) mid s' (ih (fun i hi => hstep i (by omega)) hmid) hlast

end TradeProcessor.Library
