/-
  Library/Barriers.lean --- streams that meet at barriers.

  Several streams of events run side by side, and every barrier is in all of them.
  What one stream has between two barriers is not ordered against what the others
  have there, so the streams can be put together to one sequence that has each of
  them as its part.
-/
import Mathlib

set_option autoImplicit false

namespace TradeProcessor.Library

variable {κ ε : Type}

/-- What comes in a stream up to its `r`-th barrier and after it, barriers included. -/
def stream (barrier : ε) (segments : Nat → List ε) (r : Nat) : List ε :=
  (List.range r).flatMap (fun i => segments i ++ [barrier]) ++ segments r

/-- The streams of all keys, with one after the other between two barriers. -/
def merge (barrier : ε) (keys : List κ) (segments : Nat → κ → List ε) (r : Nat) : List ε :=
  stream barrier (fun i => keys.flatMap (segments i)) r

variable {barrier e : ε} {segments segments' : Nat → List ε} {r : Nat} {p : ε → Bool}

theorem stream_succ (barrier : ε) (segments : Nat → List ε) (r : Nat) :
    stream barrier segments (r + 1) = stream barrier segments r ++
      barrier :: segments (r + 1) := by
  rw [stream, stream, List.range_succ, List.flatMap_append, List.flatMap_singleton]
  simp

theorem stream_congr (h : ∀ i ≤ r, segments i = segments' i) :
    stream barrier segments r = stream barrier segments' r := by
  induction r with
  | zero => exact h 0 le_rfl
  | succ r ih =>
      rw [stream_succ, stream_succ, ih fun i hi => h i (Nat.le_succ_of_le hi), h (r + 1) le_rfl]

/-- Events after the last barrier. -/
theorem stream_update (barrier : ε) (segments : Nat → List ε) (r : Nat) (events : List ε) :
    stream barrier (Function.update segments r (segments r ++ events)) r =
      stream barrier segments r ++ events := by
  cases r with
  | zero => simp [stream]
  | succ r =>
      have hbefore : stream barrier
          (Function.update segments (r + 1) (segments (r + 1) ++ events)) r =
          stream barrier segments r :=
        stream_congr fun i hi => Function.update_of_ne (Nat.lt_succ_of_le hi).ne _ _
      rw [stream_succ, stream_succ, hbefore, Function.update_self, List.append_assoc,
        List.cons_append]

/-- A stream that begins after the last barrier. -/
theorem stream_of_late (h : ∀ i < r, segments i = []) :
    stream barrier segments r = List.replicate r barrier ++ segments r := by
  induction r with
  | zero => rfl
  | succ r ih =>
      rw [stream_succ, ih fun i hi => h i (Nat.lt_succ_of_lt hi), h r (Nat.lt_succ_self r),
        List.append_nil, List.replicate_succ', List.append_assoc, List.singleton_append]

theorem mem_stream_iff :
    e ∈ stream barrier segments r ↔ (0 < r ∧ e = barrier) ∨ ∃ i ≤ r, e ∈ segments i := by
  induction r with
  | zero => simp [stream]
  | succ r ih =>
      rw [stream_succ, List.mem_append, List.mem_cons, ih]
      constructor
      · rintro ((⟨_, hbarrier⟩ | ⟨i, hi, he⟩) | hbarrier | he)
        · exact .inl ⟨Nat.succ_pos r, hbarrier⟩
        · exact .inr ⟨i, Nat.le_succ_of_le hi, he⟩
        · exact .inl ⟨Nat.succ_pos r, hbarrier⟩
        · exact .inr ⟨r + 1, le_rfl, he⟩
      · rintro (⟨_, hbarrier⟩ | ⟨i, hi, he⟩)
        · exact .inr (.inl hbarrier)
        · rcases Nat.le_succ_iff.mp hi with hle | rfl
          · exact .inl (.inr ⟨i, hle, he⟩)
          · exact .inr (.inr he)

/-- The barriers of a stream. -/
theorem countP_stream (hbarrier : p barrier = true)
    (h : ∀ i ≤ r, ∀ e ∈ segments i, p e = false) :
    (stream barrier segments r).countP p = r := by
  have hnone : ∀ i ≤ r, (segments i).countP p = 0 := fun i hi =>
    List.countP_eq_zero.mpr fun e he => by simp [h i hi e he]
  induction r with
  | zero => exact hnone 0 le_rfl
  | succ r ih =>
      rw [stream_succ, List.countP_append, List.countP_cons_of_pos hbarrier,
        hnone (r + 1) le_rfl,
        ih (fun i hi => h i (Nat.le_succ_of_le hi)) fun i hi => hnone i (Nat.le_succ_of_le hi)]

/-! ## The parts of a merge -/

theorem filter_stream (hbarrier : p barrier = true) :
    (stream barrier segments r).filter p =
    stream barrier (fun i => (segments i).filter p) r := by
  induction r with
  | zero => rfl
  | succ r ih =>
      rw [stream_succ, stream_succ, List.filter_append, List.filter_cons_of_pos hbarrier, ih]

/-- Of events that each belong to one key, those of one key. -/
theorem filter_flatMap_eq [DecidableEq κ] {keys : List κ} {k : κ} {f : κ → List ε}
    (hnodup : keys.Nodup) (hown : ∀ j ∈ keys, ∀ e ∈ f j, p e = decide (j = k))
    (hother : k ∉ keys → f k = []) : (keys.flatMap f).filter p = f k := by
  have hpart : ∀ j ∈ keys, (f j).filter p = if j = k then f j else [] := by
    intro j hj
    split
    · exact List.filter_eq_self.mpr fun e he => by simp [hown j hj e he, *]
    · exact List.filter_eq_nil_iff.mpr fun e he => by simp [hown j hj e he, *]
  clear hown
  induction keys with
  | nil => exact (hother List.not_mem_nil).symm
  | cons j keys ih =>
      obtain ⟨hj, hkeys⟩ := List.nodup_cons.mp hnodup
      rw [List.flatMap_cons, List.filter_append, hpart j List.mem_cons_self]
      by_cases hjk : j = k
      · subst hjk
        have hrest : (keys.flatMap f).filter p = [] := by
          rw [List.filter_flatMap]
          refine List.flatMap_eq_nil_iff.mpr fun i hi => ?_
          rw [hpart i (List.mem_cons_of_mem j hi), if_neg (ne_of_mem_of_not_mem hi hj)]
        rw [if_pos rfl, hrest, List.append_nil]
      · rw [if_neg hjk, List.nil_append]
        exact ih hkeys (fun hk => hother (by simp [hk, Ne.symm hjk]))
          fun i hi => hpart i (List.mem_cons_of_mem j hi)

/-- A merge has each of the streams as its part. -/
theorem filter_merge [DecidableEq κ] {keys : List κ} {k : κ} {segments : Nat → κ → List ε}
    (hnodup : keys.Nodup) (hbarrier : p barrier = true)
    (hown : ∀ i, ∀ j ∈ keys, ∀ e ∈ segments i j, p e = decide (j = k))
    (hother : k ∉ keys → ∀ i, segments i k = []) :
    (merge barrier keys segments r).filter p = stream barrier (fun i => segments i k) r := by
  rw [merge, filter_stream hbarrier]
  exact stream_congr fun i _ => filter_flatMap_eq hnodup (hown i) fun hk => hother hk i

end TradeProcessor.Library
