/-
  Json/Assign.lean --- writes through a reference to a member.

  `value[key]` is a reference, and what is done to the member is done to the
  container: an element that `operator[](index)` creates, or an assigned value.
  `setMember` is that write.
-/
import TradeProcessor.Json.Access

set_option autoImplicit false

namespace TradeProcessor.Json.Value

/-- Overwrite the value of a member that is there. -/
def overwrite (key : String) (m : Value) : List (String × Value) → List (String × Value)
  | [] => []
  | (k, v) :: rest => if key == k then (k, m) :: rest else (k, v) :: overwrite key m rest

/-- The container after a write through the reference to a member. -/
def setMember (key : String) : (v m : Value) → Value
  | objectValue members, m => objectValue (overwrite key m members)
  | v, _ => v

/-- `value[key][index]`, with the container as the two accesses leave it. -/
def memberElement (key : String) (index : Nat) (v : Value) :
    Except LogicError (Value × Value) := do
  let (v, m) ← v.subscript key
  let (m, e) ← m.element index
  return (v.setMember key m, e)

/-- `value[key] = m`. -/
def assign (key : String) (v m : Value) : Except LogicError Value := do
  let (v, _) ← v.subscript key
  return v.setMember key m

theorem overwrite_of_lookup {key : String} {m : Value} {members : List (String × Value)}
    (h : members.lookup key = some m) : overwrite key m members = members := by
  induction members with
  | nil => rfl
  | cons head rest ih =>
      obtain ⟨k, v⟩ := head
      rw [List.lookup_cons] at h
      cases hk : key == k with
      | true =>
          rw [hk] at h
          cases h
          simp [overwrite, hk]
      | false =>
          rw [hk] at h
          simp [overwrite, hk, ih h]

theorem lookup_overwrite_ne {key key' : String} (hne : key' ≠ key) (m : Value)
    (members : List (String × Value)) :
    (overwrite key m members).lookup key' = members.lookup key' := by
  induction members with
  | nil => rfl
  | cons head rest ih =>
      obtain ⟨k, v⟩ := head
      cases hk : key == k with
      | true =>
          have hkey : key = k := eq_of_beq hk
          subst hkey
          simp [overwrite, List.lookup_cons, beq_false_of_ne hne]
      | false => simp [overwrite, hk, List.lookup_cons, ih]

theorem lookup_overwrite_self {key : String} {members : List (String × Value)}
    (h : (members.lookup key).isSome = true) (m : Value) :
    (overwrite key m members).lookup key = some m := by
  induction members with
  | nil => cases h
  | cons head rest ih =>
      obtain ⟨k, v⟩ := head
      rw [List.lookup_cons] at h
      cases hk : key == k with
      | true => simp [overwrite, hk, List.lookup_cons]
      | false =>
          rw [hk] at h
          simp [overwrite, hk, List.lookup_cons, ih h]

/-- Writing back what was read changes nothing. -/
theorem setMember_withMember {key : String} {v : Value} (h : v.subscriptable = true) :
    (v.withMember key).setMember key (v.member key) = v.withMember key := by
  have hmem := hasMember_withMember_self h key
  cases hw : v.withMember key with
  | objectValue members =>
      rw [hw] at hmem
      obtain ⟨m, hm⟩ := Option.isSome_iff_exists.mp hmem
      have hread : v.member key = m := by
        rw [← member_withMember key key v, hw]
        simp [member, hm]
      rw [hread, setMember, overwrite_of_lookup hm]
  | _ => rfl

/-- An object reads at the other keys as before the assignment. -/
theorem member_setMember_ne {key key' : String} (hne : key' ≠ key) (m v : Value) :
    (v.setMember key m).member key' = v.member key' := by
  cases v with
  | objectValue members => simp only [setMember, member, lookup_overwrite_ne hne]
  | _ => rfl

/-- It reads at the key as what was assigned. -/
theorem member_setMember_self {key : String} {v : Value} (h : v.hasMember key = true)
    (m : Value) : (v.setMember key m).member key = m := by
  cases v with
  | objectValue members =>
      simp only [setMember, member, lookup_overwrite_self h, Option.getD_some]
  | _ => cases h

theorem hasMember_setMember_ne {key key' : String} (hne : key' ≠ key) (m v : Value) :
    (v.setMember key m).hasMember key' = v.hasMember key' := by
  cases v with
  | objectValue members => simp only [setMember, hasMember, lookup_overwrite_ne hne]
  | _ => rfl

theorem subscriptable_setMember (key : String) (m v : Value) :
    (v.setMember key m).subscriptable = v.subscriptable := by
  cases v <;> rfl

theorem assign_of_subscriptable {v : Value} (h : v.subscriptable = true) (key : String)
    (m : Value) : v.assign key m = .ok ((v.withMember key).setMember key m) := by
  rw [assign, subscript_of_subscriptable h]
  rfl

end TradeProcessor.Json.Value
