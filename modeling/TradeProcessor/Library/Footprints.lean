/-
  Library/Footprints.lean --- operations that work on separate parts of a state.

  Each operation of a family owns a part of the state: it writes no other part, and
  what it writes there depends on that part only.  Then a sequence of different
  operations is as good as each of them alone: the order does not matter, and every
  part is as its own operation leaves it.
-/
import Mathlib

set_option autoImplicit false

namespace TradeProcessor.Library

/-- A family of operations with disjoint footprints.  The parts and the rest, which no
operation writes, make up the state. -/
structure Footprints (ι σ : Type) where
  Part : ι → Type
  part : (i : ι) → σ → Part i
  Rest : Type
  rest : σ → Rest
  run : ι → σ → σ
  /-- an operation reads and writes its own part -/
  own : ∀ i {s s'}, part i s = part i s' → part i (run i s) = part i (run i s')
  frame : ∀ {i j} s, j ≠ i → part j (run i s) = part j s
  frame_rest : ∀ i s, rest (run i s) = rest s
  ext : ∀ {s s'}, rest s = rest s' → (∀ i, part i s = part i s') → s = s'

namespace Footprints

variable {ι σ : Type} (F : Footprints ι σ)

/-- The operations of a list, in order. -/
def runAll (is : List ι) (s : σ) : σ := is.foldl (fun s i => F.run i s) s

theorem runAll_cons (i : ι) (is : List ι) (s : σ) :
    F.runAll (i :: is) s = F.runAll is (F.run i s) := rfl

theorem rest_runAll (is : List ι) (s : σ) : F.rest (F.runAll is s) = F.rest s := by
  induction is generalizing s with
  | nil => rfl
  | cons i is ih => rw [runAll_cons, ih, F.frame_rest]

variable {F} {is is' : List ι} {i : ι}

/-- The part of an operation that is not in the list stays as it was. -/
theorem part_runAll_of_notMem (h : i ∉ is) (s : σ) : F.part i (F.runAll is s) = F.part i s := by
  induction is generalizing s with
  | nil => rfl
  | cons j is ih =>
      rw [List.mem_cons, not_or] at h
      rw [runAll_cons, ih h.2, F.frame s h.1]

/-- The part of an operation that is in the list once is as it leaves it alone. -/
theorem part_runAll_of_mem (hnodup : is.Nodup) (h : i ∈ is) (s : σ) :
    F.part i (F.runAll is s) = F.part i (F.run i s) := by
  induction is generalizing s with
  | nil => cases h
  | cons j is ih =>
      rw [List.nodup_cons] at hnodup
      rw [runAll_cons]
      rcases List.mem_cons.mp h with rfl | hmem
      · exact part_runAll_of_notMem hnodup.1 _
      · have hij : i ≠ j := by
          rintro rfl
          exact hnodup.1 hmem
        rw [ih hnodup.2 hmem]
        exact F.own i (F.frame s hij)

/-- The order of the operations does not matter. -/
theorem runAll_perm (hperm : is.Perm is') (hnodup : is.Nodup) (s : σ) :
    F.runAll is s = F.runAll is' s := by
  apply F.ext
  · rw [F.rest_runAll, F.rest_runAll]
  · intro i
    by_cases hi : i ∈ is
    · rw [part_runAll_of_mem hnodup hi,
        part_runAll_of_mem (hperm.nodup_iff.mp hnodup) (hperm.mem_iff.mp hi)]
    · rw [part_runAll_of_notMem hi, part_runAll_of_notMem fun h => hi (hperm.mem_iff.mpr h)]

end Footprints

end TradeProcessor.Library
