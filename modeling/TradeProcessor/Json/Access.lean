/-
  Json/Access.lean --- what an access to a JSON value returns and what it leaves.

  `subscript` answers two questions at once: which member is read, and what the
  container looks like afterwards.  `member` and `withMember` separate them, and
  `Accessed` collects what any number of accesses can do to a container: null
  members may appear, nothing a later access reads changes.
-/
import TradeProcessor.Json.Value

set_option autoImplicit false

namespace TradeProcessor.Json.Value

/-- The kinds that `operator[](key)` accepts. -/
def subscriptable : Value → Bool
  | nullValue | objectValue _ => true
  | _ => false

/-- The member that `operator[](key)` reads: an absent one is null. -/
def member (key : String) : Value → Value
  | objectValue members => (members.lookup key).getD nullValue
  | _ => nullValue

/-- The object has the member. -/
def hasMember (key : String) : Value → Bool
  | objectValue members => (members.lookup key).isSome
  | _ => false

/-- The container that `operator[](key)` leaves. -/
def withMember (key : String) : Value → Value
  | nullValue => objectValue (insertNull key [])
  | objectValue members =>
      match members.lookup key with
      | some _ => objectValue members
      | none => objectValue (insertNull key members)
  | v => v

theorem lookup_insertNull {key : String} {members : List (String × Value)}
    (habsent : members.lookup key = none) (key' : String) :
    (insertNull key members).lookup key' =
      if key' = key then some nullValue else members.lookup key' := by
  by_cases heq : key' = key
  · subst heq
    rw [if_pos rfl]
    induction members with
    | nil => simp [insertNull]
    | cons head rest ih =>
        obtain ⟨k, v⟩ := head
        rw [List.lookup_cons] at habsent
        cases hk : key' == k with
        | true => simp [hk] at habsent
        | false =>
            by_cases hlt : key' < k
            · simp [insertNull, hlt]
            · simp [insertNull, hlt, List.lookup_cons, hk, ih (by simpa [hk] using habsent)]
  · have hbeq : (key' == key) = false := beq_false_of_ne heq
    rw [if_neg heq]
    clear habsent
    induction members with
    | nil => simp [insertNull, List.lookup_cons, hbeq]
    | cons head rest ih =>
        obtain ⟨k, v⟩ := head
        by_cases hlt : key < k
        · simp [insertNull, hlt, List.lookup_cons, hbeq]
        · simp [insertNull, hlt, List.lookup_cons, ih]

/-! ## Subscripting, taken apart -/

theorem subscript_eq (key : String) (v : Value) :
    v.subscript key =
      if v.subscriptable then .ok (v.withMember key, v.member key)
      else .error .requiresObject := by
  cases v with
  | objectValue members =>
      cases h : members.lookup key <;>
        simp [subscript, subscriptable, withMember, member, h]
  | _ => simp [subscript, subscriptable, withMember, member]

theorem subscript_of_subscriptable {v : Value} (h : v.subscriptable = true) (key : String) :
    v.subscript key = .ok (v.withMember key, v.member key) := by
  rw [subscript_eq, if_pos h]

theorem subscriptable_withMember (key : String) (v : Value) :
    (v.withMember key).subscriptable = v.subscriptable := by
  cases v with
  | objectValue members =>
      cases h : members.lookup key <;> simp [withMember, subscriptable, h]
  | _ => rfl

/-- Inserting a null member changes nothing that can be read. -/
theorem member_withMember (key key' : String) (v : Value) :
    (v.withMember key).member key' = v.member key' := by
  cases v with
  | nullValue =>
      have hempty : ([] : List (String × Value)).lookup key = none := rfl
      have h := lookup_insertNull hempty key'
      by_cases hkey : key' = key
      · simp [withMember, member, h, if_pos hkey]
      · simp [withMember, member, h, if_neg hkey]
  | objectValue members =>
      cases h : members.lookup key with
      | some m => simp [withMember, member, h]
      | none =>
          by_cases hkey : key' = key <;>
            simp [withMember, member, h, lookup_insertNull h, hkey]
  | _ => rfl

/-- An access to a member that is there changes nothing. -/
theorem withMember_of_hasMember {key : String} {v : Value} (h : v.hasMember key = true) :
    v.withMember key = v := by
  cases v with
  | objectValue members =>
      obtain ⟨m, hm⟩ := Option.isSome_iff_exists.mp h
      simp [withMember, hm]
  | _ => simp [hasMember] at h

theorem hasMember_withMember_self {v : Value} (h : v.subscriptable = true) (key : String) :
    (v.withMember key).hasMember key = true := by
  cases v with
  | nullValue =>
      have hempty : ([] : List (String × Value)).lookup key = none := rfl
      have hlookup := lookup_insertNull hempty key
      simp only [withMember, hasMember, hlookup, if_pos, Option.isSome_some]
  | objectValue members =>
      cases hkey : members.lookup key with
      | some m => simp [withMember, hkey, hasMember]
      | none => simp [withMember, hkey, hasMember, lookup_insertNull hkey]
  | _ => simp [subscriptable] at h

theorem hasMember_withMember {key key' : String} {v : Value}
    (h : v.hasMember key' = true) : (v.withMember key).hasMember key' = true := by
  cases v with
  | objectValue members =>
      cases hkey : members.lookup key with
      | some m => simpa [withMember, hkey] using h
      | none =>
          simp only [hasMember] at h
          by_cases heq : key' = key
          · subst heq
            simp [hkey] at h
          · simpa [withMember, hkey, hasMember, lookup_insertNull hkey, heq] using h
  | _ => simp [hasMember] at h

theorem hasMember_withMember_ne {key key' : String} (hne : key' ≠ key) (v : Value) :
    (v.withMember key).hasMember key' = v.hasMember key' := by
  cases v with
  | nullValue =>
      have hempty : ([] : List (String × Value)).lookup key = none := rfl
      simp [withMember, hasMember, lookup_insertNull hempty, hne]
  | objectValue members =>
      cases hkey : members.lookup key with
      | some m => simp [withMember, hkey]
      | none => simp [withMember, hkey, hasMember, lookup_insertNull hkey, hne]
  | _ => rfl

theorem subscriptable_of_hasMember {key : String} {v : Value} (h : v.hasMember key = true) :
    v.subscriptable = true := by
  cases v <;> simp_all [hasMember, subscriptable]

/-- A member that is not null is there. -/
theorem hasMember_of_member_ne {key : String} {v : Value} (h : v.member key ≠ nullValue) :
    v.hasMember key = true := by
  cases v with
  | objectValue members =>
      cases hkey : members.lookup key with
      | none => simp [member, hkey] at h
      | some m => simp [hasMember, hkey]
  | _ => simp [member] at h

/-! ## Typed reads -/

theorem readInt64_eq (key : String) (v : Value) :
    v.readInt64 key =
      if v.subscriptable then (v.member key).asInt64.map (v.withMember key, ·)
      else .error .requiresObject := by
  unfold readInt64
  rw [subscript_eq]
  cases v.subscriptable with
  | false => rfl
  | true => cases h : (v.member key).asInt64 <;> simp [h, Except.map]

theorem readDouble_eq (key : String) (v : Value) :
    v.readDouble key =
      if v.subscriptable then (v.member key).asDouble.map (v.withMember key, ·)
      else .error .requiresObject := by
  unfold readDouble
  rw [subscript_eq]
  cases v.subscriptable with
  | false => rfl
  | true => cases h : (v.member key).asDouble <;> simp [h, Except.map]

theorem readString_eq (realText : ℚ → String) (key : String) (v : Value) :
    v.readString realText key =
      if v.subscriptable then ((v.member key).asString realText).map (v.withMember key, ·)
      else .error .requiresObject := by
  unfold readString
  rw [subscript_eq]
  cases v.subscriptable with
  | false => rfl
  | true => cases h : (v.member key).asString realText <;> simp [h, Except.map]

theorem readInt64_ok {key : String} {v : Value} {i : Int} (hv : v.subscriptable = true)
    (hi : (v.member key).asInt64 = .ok i) :
    v.readInt64 key = .ok (v.withMember key, i) := by
  rw [readInt64_eq, if_pos hv, hi]
  rfl

theorem readDouble_ok {key : String} {v : Value} {x : ℚ} (hv : v.subscriptable = true)
    (hx : (v.member key).asDouble = .ok x) :
    v.readDouble key = .ok (v.withMember key, x) := by
  rw [readDouble_eq, if_pos hv, hx]
  rfl

theorem readInt64_eq_ok_iff {key : String} {v v' : Value} {i : Int} :
    v.readInt64 key = .ok (v', i) ↔
      v.subscriptable = true ∧ (v.member key).asInt64 = .ok i ∧ v' = v.withMember key := by
  rw [readInt64_eq]
  cases v.subscriptable with
  | false => simp
  | true => cases h : (v.member key).asInt64 <;> simp [Except.map, eq_comm, and_comm]

theorem readDouble_eq_ok_iff {key : String} {v v' : Value} {x : ℚ} :
    v.readDouble key = .ok (v', x) ↔
      v.subscriptable = true ∧ (v.member key).asDouble = .ok x ∧ v' = v.withMember key := by
  rw [readDouble_eq]
  cases v.subscriptable with
  | false => simp
  | true => cases h : (v.member key).asDouble <;> simp [Except.map, eq_comm, and_comm]

theorem readString_eq_ok_iff {realText : ℚ → String} {key : String} {v v' : Value}
    {s : String} :
    v.readString realText key = .ok (v', s) ↔
      v.subscriptable = true ∧ (v.member key).asString realText = .ok s ∧
        v' = v.withMember key := by
  rw [readString_eq]
  cases v.subscriptable with
  | false => simp
  | true => cases h : (v.member key).asString realText <;> simp [Except.map, eq_comm, and_comm]

/-! ## Convertible kinds -/

/-- Everything that `asInt64` converts, `asDouble` converts. -/
theorem asDouble_of_asInt64 {v : Value} {i : Int} (h : v.asInt64 = .ok i) :
    ∃ x, v.asDouble = .ok x := by
  cases v <;> simp_all [asInt64, asDouble]

theorem truncate_mem {x : ℚ} (hlo : (minInt64 : ℚ) ≤ x) (hhi : x ≤ maxInt64) :
    InInt64 (truncate x) := by
  have hden : (0 : Int) < x.den := by exact_mod_cast x.den_pos
  have hlo' : minInt64 * x.den ≤ x.num := by
    have h := mul_le_mul_of_nonneg_right hlo (by exact_mod_cast hden.le : (0 : ℚ) ≤ x.den)
    rw [Rat.mul_den_eq_num] at h
    exact_mod_cast h
  have hhi' : x.num ≤ maxInt64 * x.den := by
    have h := mul_le_mul_of_nonneg_right hhi (by exact_mod_cast hden.le : (0 : ℚ) ≤ x.den)
    rw [Rat.mul_den_eq_num] at h
    exact_mod_cast h
  unfold truncate
  constructor
  · by_cases hneg : 0 ≤ x.num
    · have : 0 ≤ x.num.tdiv x.den := Int.tdiv_nonneg hneg hden.le
      have : minInt64 ≤ 0 := by decide
      omega
    · have hflip : x.num.tdiv x.den = -((-x.num).tdiv x.den) := by rw [Int.neg_tdiv, neg_neg]
      have hle : (-x.num).tdiv x.den ≤ -minInt64 := by
        rw [Int.tdiv_eq_ediv_of_nonneg (by omega)]
        apply Int.ediv_le_of_le_mul hden
        linarith
      omega
  · by_cases hneg : 0 ≤ x.num
    · rw [Int.tdiv_eq_ediv_of_nonneg hneg]
      exact Int.ediv_le_of_le_mul hden hhi'
    · have : x.num.tdiv x.den ≤ 0 := by
        rw [← neg_neg x.num, Int.neg_tdiv]
        have := Int.tdiv_nonneg (a := -x.num) (b := x.den) (by omega) hden.le
        omega
      have : (0 : Int) ≤ maxInt64 := by decide
      omega

/-- `asInt64` returns what an int64 can hold. -/
theorem asInt64_mem {v : Value} {i : Int} (h : v.asInt64 = .ok i) : InInt64 i := by
  cases v with
  | nullValue =>
      cases h
      decide
  | intValue n =>
      cases h
      exact ⟨n.le_toInt, by have := n.toInt_lt; simp only [maxInt64]; omega⟩
  | uintValue n =>
      simp only [asInt64] at h
      split at h
      · rename_i hle
        cases h
        exact ⟨by simp only [minInt64]; omega, hle⟩
      · cases h
  | realValue x =>
      simp only [asInt64] at h
      split at h
      · rename_i hrange
        cases h
        exact truncate_mem hrange.1 hrange.2
      · cases h
  | booleanValue b =>
      cases h
      cases b <;> decide
  | stringValue s => cases h
  | arrayValue elements => cases h
  | objectValue members => cases h

/-! ## What accesses leave behind -/

/-- `b` is `a` after some accesses with keys among `keys`: the same members are
read from both, and `b` is `a` itself when `a` already had all of them. -/
structure Accessed (keys : List String) (a b : Value) : Prop where
  member : ∀ key, b.member key = a.member key
  subscriptable : b.subscriptable = a.subscriptable
  hasMember : ∀ key, a.hasMember key = true → b.hasMember key = true
  eq_self : (∀ key ∈ keys, a.hasMember key = true) → b = a

theorem Accessed.refl (keys : List String) (a : Value) : Accessed keys a a :=
  ⟨fun _ => rfl, rfl, fun _ h => h, fun _ => rfl⟩

theorem Accessed.trans {keys : List String} {a b c : Value} (hab : Accessed keys a b)
    (hbc : Accessed keys b c) : Accessed keys a c where
  member := fun key => (hbc.member key).trans (hab.member key)
  subscriptable := hbc.subscriptable.trans hab.subscriptable
  hasMember := fun key h => hbc.hasMember key (hab.hasMember key h)
  eq_self := fun hfull => by
    have hb := hab.eq_self hfull
    subst hb
    exact hbc.eq_self hfull

theorem Accessed.withMember {keys : List String} {key : String} (hkey : key ∈ keys)
    (a : Value) : Accessed keys a (a.withMember key) where
  member := fun key' => member_withMember key key' a
  subscriptable := subscriptable_withMember key a
  hasMember := fun _ h => hasMember_withMember h
  eq_self := fun hfull => withMember_of_hasMember (hfull key hkey)

end TradeProcessor.Json.Value
