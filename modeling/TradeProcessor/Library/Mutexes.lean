/-
  Library/Mutexes.lean --- mutexes with owners, and cells with one writer.

  Every key has a mutex and a cell.  Threads take and give back mutexes, one at a
  time; one of the threads writes the cells whose mutex it holds, and publishes what
  it has written when it gives the mutex back.  Then a thread that holds the mutex
  of a key reads what was published for it last.
-/
import Mathlib

set_option autoImplicit false

namespace TradeProcessor.Library

variable {κ τ ν : Type} {owner : κ → Option τ} {holds : τ → Option κ} {k : κ} {t writer : τ}
  {value published : κ → ν}

/-- The mutexes know their owners: a mutex is held by the thread that is at the key,
and a thread is at one key at most. -/
def Owned (owner : κ → Option τ) (holds : τ → Option κ) : Prop :=
  ∀ k t, owner k = some t ↔ holds t = some k

/-- A cell whose mutex the writer does not hold has the value published last. -/
def Settled (owner : κ → Option τ) (writer : τ) (value published : κ → ν) : Prop :=
  ∀ k, owner k ≠ some writer → value k = published k

/-- Two threads are never at the same key. -/
theorem Owned.eq_of_holds (h : Owned owner holds) {t' : τ} (ht : holds t = some k)
    (ht' : holds t' = some k) : t = t' := by
  have howner := (h k t).mpr ht
  rw [(h k t').mpr ht'] at howner
  exact (Option.some.inj howner).symm

/-- What another thread reads under the mutex was published. -/
theorem Settled.read (h : Settled owner writer value published) (howned : Owned owner holds)
    (ht : holds t = some k) (hne : t ≠ writer) : value k = published k := by
  apply h k
  rw [(howned k t).mpr ht]
  simpa using hne

/-- The writer writes cells whose mutex it holds. -/
theorem Settled.write (h : Settled owner writer value published) {value' : κ → ν}
    (hframe : ∀ j, owner j ≠ some writer → value' j = value j) :
    Settled owner writer value' published := by
  intro j hj
  rw [hframe j hj, h j hj]

/-! ## Taking and giving back -/

section Cells

variable [DecidableEq κ]

theorem Settled.acquire (h : Settled owner writer value published) (hfree : owner k = none) :
    Settled (Function.update owner k (some t)) writer value published := by
  intro j hj
  apply h j
  rcases eq_or_ne j k with rfl | hjk
  · simp [hfree]
  · rwa [Function.update_of_ne hjk] at hj

/-- Another thread gives a mutex back. -/
theorem Settled.release (h : Settled owner writer value published) (ht : owner k = some t)
    (hne : t ≠ writer) : Settled (Function.update owner k none) writer value published := by
  intro j hj
  apply h j
  rcases eq_or_ne j k with rfl | hjk
  · simpa [ht] using hne
  · rwa [Function.update_of_ne hjk] at hj

/-- The writer gives a mutex back and publishes the value of the cell. -/
theorem Settled.publish (h : Settled owner writer value published) (k : κ) :
    Settled (Function.update owner k none) writer value
      (Function.update published k (value k)) := by
  intro j hj
  rcases eq_or_ne j k with rfl | hjk
  · rw [Function.update_self]
  · rw [Function.update_of_ne hjk] at hj ⊢
    exact h j hj

end Cells

section Owners

variable [DecidableEq κ] [DecidableEq τ]

/-- A thread that is at no key takes a free mutex. -/
theorem Owned.acquire (h : Owned owner holds) (hfree : owner k = none) (hidle : holds t = none) :
    Owned (Function.update owner k (some t)) (Function.update holds t (some k)) := by
  intro j u
  have hj := h j u
  rcases eq_or_ne j k with rfl | hjk
  · rw [Function.update_self]
    rcases eq_or_ne u t with rfl | hut
    · simp
    · rw [Function.update_of_ne hut, ← hj, hfree]
      simp [Ne.symm hut]
  · rw [Function.update_of_ne hjk, hj]
    rcases eq_or_ne u t with rfl | hut
    · rw [Function.update_self, hidle]
      simp [Ne.symm hjk]
    · rw [Function.update_of_ne hut]

/-- A thread gives back the mutex of the key it is at. -/
theorem Owned.release (h : Owned owner holds) (ht : holds t = some k) :
    Owned (Function.update owner k none) (Function.update holds t none) := by
  intro j u
  have hj := h j u
  rcases eq_or_ne u t with rfl | hut
  · rw [Function.update_self]
    rcases eq_or_ne j k with rfl | hjk
    · simp
    · rw [Function.update_of_ne hjk, hj, ht]
      simp [Ne.symm hjk]
  · rw [Function.update_of_ne hut]
    rcases eq_or_ne j k with rfl | hjk
    · rw [Function.update_self, ← hj]
      have howner := (h j t).mpr ht
      simp [howner, Ne.symm hut]
    · rw [Function.update_of_ne hjk, hj]

end Owners

end TradeProcessor.Library
