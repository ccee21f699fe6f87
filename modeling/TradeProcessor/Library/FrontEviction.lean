/-
  Library/FrontEviction.lean --- a FIFO window that is evicted from its front.

  Elements arrive one at a time, each with a cutoff; an arrival is appended and
  then the front is dropped while it is older than the cutoff.  The two questions
  about such a window are how many passes over the history it amounts to, and how
  it compares with the elements that are not older than the cutoff.
-/
import Mathlib

set_option autoImplicit false

namespace TradeProcessor.Library

variable {α τ : Type} [LinearOrder τ] (time : α → τ)

/-- Drop the front while it is older than the cutoff. -/
def expire (cutoff : τ) (window : List α) : List α :=
  window.dropWhile fun x => decide (time x < cutoff)

/-- The elements that are not older than the cutoff. -/
def unexpired (cutoff : τ) (window : List α) : List α :=
  window.filter fun x => decide (cutoff ≤ time x)

/-- One arrival, with its cutoff. -/
def slide (window : List α) (arrival : α × τ) : List α :=
  expire time arrival.2 (window ++ [arrival.1])

/-- A history of arrivals. -/
def slideAll (window : List α) (arrivals : List (α × τ)) : List α :=
  arrivals.foldl (slide time) window

@[simp] theorem expire_nil (cutoff : τ) : expire time cutoff [] = [] := rfl

theorem expire_cons_of_lt {cutoff : τ} {x : α} (h : time x < cutoff) (window : List α) :
    expire time cutoff (x :: window) = expire time cutoff window := by
  simp [expire, h]

theorem expire_cons_of_le {cutoff : τ} {x : α} (h : cutoff ≤ time x) (window : List α) :
    expire time cutoff (x :: window) = x :: window := by
  simp [expire, h]

theorem expire_suffix (cutoff : τ) (window : List α) : expire time cutoff window <:+ window :=
  List.dropWhile_suffix _

/-- What is left is empty or has a front that is not older than the cutoff. -/
theorem expire_head (cutoff : τ) (window : List α) :
    ∀ x, (expire time cutoff window).head? = some x → cutoff ≤ time x := by
  induction window with
  | nil => simp
  | cons y window ih =>
      intro x hx
      rcases lt_or_ge (time y) cutoff with hlt | hle
      · rw [expire_cons_of_lt time hlt] at hx
        exact ih x hx
      · rw [expire_cons_of_le time hle] at hx
        cases hx
        exact hle

/-- A later cutoff makes an earlier eviction invisible. -/
theorem expire_expire_append {c c' : τ} (hc : c ≤ c') (window rest : List α) :
    expire time c' (expire time c window ++ rest) = expire time c' (window ++ rest) := by
  induction window with
  | nil => rfl
  | cons x window ih =>
      rcases lt_or_ge (time x) c with hlt | hle
      · rw [expire_cons_of_lt time hlt, ih, List.cons_append,
          expire_cons_of_lt time (lt_of_lt_of_le hlt hc)]
      · rw [expire_cons_of_le time hle]

/-- Eviction looks at times only: related windows stay related. -/
theorem forall₂_expire {β : Type} {R : α → β → Prop} {time' : β → τ}
    (htime : ∀ a b, R a b → time a = time' b) (cutoff : τ) {as : List α} {bs : List β}
    (h : List.Forall₂ R as bs) :
    List.Forall₂ R (expire time cutoff as) (expire time' cutoff bs) := by
  induction h with
  | nil => exact .nil
  | @cons a b _ _ hab hrest ih =>
      rcases lt_or_ge (time a) cutoff with hlt | hle
      · rw [expire_cons_of_lt time hlt, expire_cons_of_lt time' (by rwa [← htime a b hab])]
        exact ih
      · rw [expire_cons_of_le time hle, expire_cons_of_le time' (by rwa [← htime a b hab])]
        exact .cons hab hrest

/-! ## One arrival at a time -/

theorem slideAll_concat (window : List α) (arrivals : List (α × τ)) (arrival : α × τ) :
    slideAll time window (arrivals ++ [arrival]) =
      slide time (slideAll time window arrivals) arrival := by
  simp [slideAll]

/-- The window is always a suffix of the history. -/
theorem slideAll_suffix (arrivals : List (α × τ)) :
    slideAll time [] arrivals <:+ arrivals.map Prod.fst := by
  induction arrivals using List.reverseRecOn with
  | nil => exact List.suffix_rfl
  | append_singleton arrivals arrival ih =>
      rw [slideAll_concat, List.map_append]
      refine (expire_suffix time _ _).trans ?_
      obtain ⟨evicted, hevicted⟩ := ih
      exact ⟨evicted, by rw [← hevicted, List.append_assoc]; rfl⟩

/-- The window is empty or has a front that the last cutoff spares. -/
theorem slideAll_head {arrivals : List (α × τ)} {arrival : α × τ}
    (hlast : arrivals.getLast? = some arrival) :
    ∀ x, (slideAll time [] arrivals).head? = some x → arrival.2 ≤ time x := by
  obtain ⟨earlier, rfl⟩ := List.getLast?_eq_some_iff.mp hlast
  rw [slideAll_concat]
  exact expire_head time _ _

/-- With cutoffs that never decrease, evicting at every arrival is evicting once,
at the end, over the whole history. -/
theorem slideAll_eq_expire {arrivals : List (α × τ)} {arrival : α × τ}
    (hmono : arrivals.Pairwise fun a b => a.2 ≤ b.2)
    (hlast : arrivals.getLast? = some arrival) :
    slideAll time [] arrivals = expire time arrival.2 (arrivals.map Prod.fst) := by
  induction arrivals using List.reverseRecOn generalizing arrival with
  | nil => simp at hlast
  | append_singleton earlier last ih =>
      have harrival : last = arrival := by simpa using hlast
      subst harrival
      rw [List.pairwise_append] at hmono
      obtain ⟨hearlier, _, hle⟩ := hmono
      rw [slideAll_concat, slide, List.map_append]
      cases hprev : earlier.getLast? with
      | none =>
          rw [List.getLast?_eq_none_iff] at hprev
          subst hprev
          rfl
      | some prev =>
          have hprevLe : prev.2 ≤ last.2 :=
            hle prev (List.mem_of_getLast? hprev) last (by simp)
          rw [ih hearlier hprev, expire_expire_append time hprevLe]
          rfl

/-! ## Front eviction against filtering -/

/-- Eviction from the front never drops an unexpired element. -/
theorem unexpired_expire (cutoff : τ) (window : List α) :
    unexpired time cutoff (expire time cutoff window) = unexpired time cutoff window := by
  induction window with
  | nil => rfl
  | cons x window ih =>
      rcases lt_or_ge (time x) cutoff with hlt | hle
      · rw [expire_cons_of_lt time hlt, ih]
        simp [unexpired, hlt]
      · rw [expire_cons_of_le time hle]

/-- Front eviction is filtering exactly when no expired element arrived behind an
unexpired one. -/
theorem expire_eq_unexpired_iff (cutoff : τ) (window : List α) :
    expire time cutoff window = unexpired time cutoff window ↔
      window.Pairwise fun x y => cutoff ≤ time x → cutoff ≤ time y := by
  induction window with
  | nil => simp [unexpired]
  | cons x window ih =>
      rcases lt_or_ge (time x) cutoff with hlt | hle
      · have hdrop : unexpired time cutoff (x :: window) = unexpired time cutoff window := by
          simp [unexpired, hlt]
        rw [expire_cons_of_lt time hlt, hdrop, ih, List.pairwise_cons]
        constructor
        · intro h
          exact ⟨fun y _ hx => absurd hlt (not_lt.mpr hx), h⟩
        · exact And.right
      · have hkeep : unexpired time cutoff (x :: window) =
          x :: unexpired time cutoff window := by
          simp [unexpired, hle]
        rw [expire_cons_of_le time hle, hkeep, List.cons.injEq, eq_comm (a := window)]
        simp only [true_and, unexpired, List.filter_eq_self, decide_eq_true_eq,
          List.pairwise_cons]
        constructor
        · intro h
          exact ⟨fun y hy _ => h y hy, List.pairwise_of_forall_mem_list fun _ _ y hy _ => h y hy⟩
        · rintro ⟨h, _⟩ y hy
          exact h y hy hle

/-- Over a history in time order, front eviction is filtering. -/
theorem expire_eq_unexpired_of_sorted {cutoff : τ} {window : List α}
    (hsorted : window.Pairwise fun x y => time x ≤ time y) :
    expire time cutoff window = unexpired time cutoff window :=
  (expire_eq_unexpired_iff time cutoff window).mpr
    (hsorted.imp fun hxy hx => hx.trans hxy)

end TradeProcessor.Library
