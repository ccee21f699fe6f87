/-
  Library/IndexedLists.lean --- lists walked by position.

  An imperative pass over a container reads and writes one position at a time.
  Three things are needed to relate it to a function of the whole list: how a
  pointwise relation survives one write, how a prefix grows by one position, and
  the consecutive pairs that a pass with a look-back sees.
-/
import Mathlib

set_option autoImplicit false

namespace TradeProcessor.Library

variable {α β γ : Type}

/-! ## Pointwise relations -/

/-- The element related to the one at a position. -/
theorem forall₂_getElem? {R : α → β → Prop} {as : List α} {bs : List β}
    (h : List.Forall₂ R as bs) {i : Nat} {a : α} (ha : as[i]? = some a) :
    ∃ b, bs[i]? = some b ∧ R a b := by
  induction h generalizing i with
  | nil => simp at ha
  | cons hab _ ih =>
      cases i with
      | zero =>
          simp only [List.getElem?_cons_zero, Option.some.injEq] at ha
          subst ha
          exact ⟨_, rfl, hab⟩
      | succ i => exact ih (by simpa using ha)

theorem getElem?_concat_eq_some_iff {l : List α} {a b : α} {i : Nat} :
    (l ++ [a])[i]? = some b ↔ l[i]? = some b ∨ i = l.length ∧ a = b := by
  rcases lt_trichotomy i l.length with hlt | rfl | hgt
  · simp [List.getElem?_append_left hlt, hlt.ne]
  · simp
  · simp [List.getElem?_eq_none hgt.le, hgt.ne', hgt]

/-- Elements of a kind that stand at the first positions only. -/
theorem countP_le_of_getElem? {p : α → Bool} {l : List α} {n : Nat}
    (h : ∀ i a, l[i]? = some a → p a = true → i < n) : l.countP p ≤ n := by
  have hrest : (l.drop n).countP p = 0 := by
    rw [List.countP_eq_zero]
    intro a ha hp
    obtain ⟨i, hi⟩ := List.mem_iff_getElem?.mp ha
    rw [List.getElem?_drop] at hi
    exact absurd (h (n + i) a hi hp) (by omega)
  calc l.countP p = (l.take n).countP p + (l.drop n).countP p := by
        rw [← List.countP_append, List.take_append_drop]
    _ ≤ (l.take n).length := by
        rw [hrest, Nat.add_zero]
        exact List.countP_le_length
    _ ≤ n := List.length_take_le n l

/-- Writing one position of the right list. -/
theorem forall₂_set {R : α → β → Prop} {as : List α} {bs : List β}
    (h : List.Forall₂ R as bs) {i : Nat} {b' : β}
    (hwrite : ∀ a b, as[i]? = some a → bs[i]? = some b → R a b → R a b') :
    List.Forall₂ R as (bs.set i b') := by
  induction h generalizing i with
  | nil => simp
  | cons hab htail ih =>
      cases i with
      | zero => exact .cons (hwrite _ _ rfl rfl hab) htail
      | succ i =>
          exact .cons hab
            (ih fun a b ha hb => hwrite a b (by simpa using ha) (by simpa using hb))

theorem forall₂_trans {R : α → β → Prop} {S : β → γ → Prop} {T : α → γ → Prop}
    (hcomp : ∀ a b c, R a b → S b c → T a c) {as : List α} {bs : List β} {cs : List γ}
    (hR : List.Forall₂ R as bs) (hS : List.Forall₂ S bs cs) : List.Forall₂ T as cs := by
  induction hR generalizing cs with
  | nil =>
      cases hS
      exact .nil
  | cons hab _ ih =>
      cases hS with
      | cons hbc htail => exact .cons (hcomp _ _ _ hab hbc) (ih htail)

/-- A relation that is equality on the members of the left list. -/
theorem eq_of_forall₂ {R : α → α → Prop} {as bs : List α} (h : List.Forall₂ R as bs)
    (heq : ∀ a ∈ as, ∀ b, R a b → b = a) : bs = as := by
  induction h with
  | nil => rfl
  | cons hab _ ih =>
      rw [heq _ (by simp) _ hab, ih fun a ha => heq a (by simp [ha])]

/-! ## Prefixes -/

theorem take_succ_of_getElem? {l : List α} {i : Nat} {a : α} (h : l[i]? = some a) :
    l.take (i + 1) = l.take i ++ [a] := by
  rw [List.take_add_one, h]
  rfl

/-! ## Consecutive pairs -/

/-- The pairs of neighbours of a list, in order. -/
def adjacent (l : List α) : List (α × α) := l.zip l.tail

@[simp] theorem adjacent_nil : adjacent ([] : List α) = [] := rfl

@[simp] theorem adjacent_singleton (a : α) : adjacent [a] = [] := rfl

@[simp] theorem adjacent_cons_cons (a b : α) (l : List α) :
    adjacent (a :: b :: l) = (a, b) :: adjacent (b :: l) := rfl

theorem mem_adjacent_cons {a : α} {l : List α} {q : α × α} :
    q ∈ adjacent (a :: l) ↔ (a = q.1 ∧ l.head? = some q.2) ∨ q ∈ adjacent l := by
  cases l with
  | nil => simp
  | cons b l => rw [adjacent_cons_cons, List.mem_cons, List.head?_cons, Option.some.injEq,
      Prod.ext_iff, eq_comm, @eq_comm _ q.2]

theorem adjacent_eq_nil_of_length_lt {l : List α} (h : l.length < 2) : adjacent l = [] := by
  match l, h with
  | [], _ => rfl
  | [_], _ => rfl

/-- Appending one element adds the pair it closes. -/
theorem adjacent_concat (l : List α) (a b : α) :
    adjacent (l ++ [a, b]) = adjacent (l ++ [a]) ++ [(a, b)] := by
  induction l with
  | nil => rfl
  | cons c l ih =>
      cases l with
      | nil => rfl
      | cons d l => simpa using ih

/-- The pair that the position `i + 1` of a list closes. -/
theorem adjacent_take_succ {l : List α} {i : Nat} {a b : α} (ha : l[i]? = some a)
    (hb : l[i + 1]? = some b) :
    adjacent (l.take (i + 2)) = adjacent (l.take (i + 1)) ++ [(a, b)] := by
  rw [take_succ_of_getElem? hb, take_succ_of_getElem? ha, List.append_assoc]
  exact adjacent_concat (l.take i) a b

theorem length_adjacent (l : List α) : (adjacent l).length = l.length - 1 := by
  simp [adjacent]

theorem mem_of_mem_adjacent {l : List α} {q : α × α} (h : q ∈ adjacent l) :
    q.1 ∈ l ∧ q.2 ∈ l := by
  obtain ⟨hfst, hsnd⟩ := List.of_mem_zip h
  exact ⟨hfst, List.mem_of_mem_tail hsnd⟩

theorem mem_adjacent_iff {l : List α} {q : α × α} :
    q ∈ adjacent l ↔ ∃ i : Nat, l[i]? = some q.1 ∧ l[i + 1]? = some q.2 := by
  simp only [adjacent, List.mem_iff_getElem?, List.getElem?_zip_eq_some, List.getElem?_tail]

theorem adjacent_map (f : α → β) (l : List α) :
    adjacent (l.map f) = (adjacent l).map (Prod.map f f) := by
  rw [adjacent, adjacent, ← List.map_tail, List.zip_map]

/-- The neighbours of the reversed list are the neighbours, turned round and in
reverse order. -/
theorem adjacent_reverse (l : List α) :
    adjacent l.reverse = ((adjacent l).map Prod.swap).reverse := by
  induction l with
  | nil => rfl
  | cons a l ih =>
      cases l with
      | nil => rfl
      | cons b l =>
          have hconcat : adjacent (l.reverse ++ [b, a]) =
              adjacent (l.reverse ++ [b]) ++ [(b, a)] := adjacent_concat l.reverse b a
          rw [List.reverse_cons] at ih
          rw [List.reverse_cons, List.reverse_cons, List.append_assoc, List.singleton_append,
            hconcat, ih]
          simp

/-- Two lists in a row have the pairs of both and the pair where they meet. -/
theorem adjacent_append {l r : List α} {a b : α} (ha : l.getLast? = some a)
    (hb : r.head? = some b) : adjacent (l ++ r) = adjacent l ++ (a, b) :: adjacent r := by
  obtain ⟨r', rfl⟩ := List.head?_eq_some_iff.mp hb
  obtain ⟨l', rfl⟩ := List.getLast?_eq_some_iff.mp ha
  clear ha hb
  induction l' with
  | nil => rfl
  | cons c l' ih =>
      cases l' with
      | nil => rfl
      | cons d l' => simpa using ih

/-- Neighbours stay neighbours when a list grows at its end. -/
theorem adjacent_sublist_append (l r : List α) :
    (adjacent l).Sublist (adjacent (l ++ r)) := by
  induction l with
  | nil => exact List.nil_sublist _
  | cons a l ih =>
      cases l with
      | nil => exact List.nil_sublist _
      | cons b l =>
          rw [List.cons_append, List.cons_append, adjacent_cons_cons, adjacent_cons_cons]
          exact ih.cons_cons _

/-- Neighbours of a sorted list are in order. -/
theorem pairwise_adjacent {R : α → α → Prop} {l : List α} (h : l.Pairwise R) :
    ∀ q ∈ adjacent l, R q.1 q.2 := by
  induction l with
  | nil => simp
  | cons a l ih =>
      cases l with
      | nil => simp
      | cons b l =>
          intro q hq
          rw [List.pairwise_cons] at h
          rw [adjacent_cons_cons, List.mem_cons] at hq
          rcases hq with rfl | hq
          · exact h.1 b (by simp)
          · exact ih h.2 q hq

/-- The steps of a list telescope. -/
theorem sum_adjacent_sub [AddCommGroup α] (a : α) (l : List α) :
    ((adjacent (a :: l)).map fun q => q.2 - q.1).sum = (a :: l).getLast (by simp) - a := by
  induction l generalizing a with
  | nil => simp
  | cons b l ih =>
      rw [adjacent_cons_cons, List.map_cons, List.sum_cons, ih b,
        List.getLast_cons_cons]
      exact sub_add_sub_cancel' _ _ _

end TradeProcessor.Library
