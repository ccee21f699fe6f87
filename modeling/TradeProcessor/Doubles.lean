/-
  Doubles.lean --- the arithmetic of `double`, `long`, `int` and `size_t`.

  The calculators are written once, over an `Arithmetic`.  In that of ℚ a `double` is an
  exact number and nothing overflows; only a quotient by a divisor that has not been
  tested may fail to be a number.  In that of `Double` every result is rounded to the
  nearest double of IEEE 754 `binary64`, and what is too large becomes an infinity.
  There an integer that leaves its type comes back at the other end, as it does on the
  machines the program is built for; the language leaves it open, so nothing should
  rest on that.

  A zero has no sign here: the only divisors that can be zero are sums that start at
  `0.0`, and rounding to nearest never makes such a sum a negative zero.
-/
import TradeProcessor.Json.Access
import TradeProcessor.Library.Rounding

set_option autoImplicit false

namespace TradeProcessor

open TradeProcessor.Json TradeProcessor.Library

/-- What the program takes from the machine, besides the operators. -/
class Arithmetic (N : Type) (Q : outParam Type) where
  /-- a number that is read or converted, as a `double` -/
  double : ℚ → N
  /-- the result of an operation on `long`s -/
  long : Int → Int
  /-- the result of an operation on `int`s -/
  int : Int → Int
  /-- the number of entries of a container, a `size_t` -/
  size : Nat → Nat
  /-- a quotient whose divisor may be zero -/
  quotient : N → N → Q

/-- A `double` that has been rounded. -/
inductive Double where
  | finite (x : ℚ)
  | infinite (negative : Bool)
  | nan
  deriving DecidableEq, Repr

/-- The numbers of IEEE 754 `binary64`, but for the bound on the large ones. -/
def binary64 : Format := ⟨53, -1074, by decide⟩

/-- Representable as an `int`. -/
def InInt (i : Int) : Prop := -2 ^ 31 ≤ i ∧ i ≤ 2 ^ 31 - 1

namespace Double

/-- Neither an infinity nor NaN. -/
def IsNumber (d : Double) : Prop := ∃ x, d = finite x

/-- Round to nearest, ties to even. -/
def round (x : ℚ) : Double :=
  let r := binary64.round x
  if |r| < 2 ^ 1024 then finite r else infinite (decide (r < 0))

/-- IEEE division of two finite doubles, before the quotient is rounded. -/
def div (x y : ℚ) : Double :=
  if y = 0 then
    if x = 0 then .nan else .infinite (decide (x < 0))
  else .finite (x / y)

instance : Zero Double := ⟨finite 0⟩

/-- `-x`. -/
def neg : Double → Double
  | finite x => finite (-x)
  | infinite negative => infinite !negative
  | nan => nan

/-- `x + y`. -/
def add : Double → Double → Double
  | finite x, finite y => round (x + y)
  | infinite a, finite _ | finite _, infinite a => infinite a
  | infinite a, infinite b => if a = b then infinite a else nan
  | nan, _ | _, nan => nan

/-- `x * y`. -/
def mul : Double → Double → Double
  | finite x, finite y => round (x * y)
  | infinite a, finite x | finite x, infinite a =>
      if x = 0 then nan else infinite (a ^^ decide (x < 0))
  | infinite a, infinite b => infinite (a ^^ b)
  | nan, _ | _, nan => nan

/-- `x / y`. -/
def quotient : Double → Double → Double
  | finite x, finite y => if y = 0 then div x y else round (x / y)
  | infinite a, finite y => infinite (a ^^ decide (y < 0))
  | finite _, infinite _ => finite 0
  | infinite _, infinite _ => nan
  | nan, _ | _, nan => nan

/-- `x > y`. -/
def greater : Double → Double → Bool
  | finite x, finite y => decide (x > y)
  | infinite a, finite _ => !a
  | finite _, infinite b => b
  | infinite a, infinite b => !a && b
  | nan, _ | _, nan => false

instance : Neg Double := ⟨neg⟩
instance : Add Double := ⟨add⟩
instance : Sub Double := ⟨fun x y => x + -y⟩
instance : Mul Double := ⟨mul⟩
instance : Div Double := ⟨quotient⟩
instance : LT Double := ⟨fun x y => y.greater x = true⟩
instance : DecidableLT Double := fun x y => inferInstanceAs (Decidable (y.greater x = true))

end Double

/-- Exact numbers. -/
instance : Arithmetic ℚ Double where
  double := id
  long := id
  int := id
  size := id
  quotient := Double.div

/-- Rounded numbers, and integers of 64 and of 32 bits. -/
instance : Arithmetic Double Double where
  double := Double.round
  long n := n.bmod (2 ^ 64)
  int n := n.bmod (2 ^ 32)
  size n := n % 2 ^ 64
  quotient x y := x / y

@[simp] theorem double_rat (x : ℚ) : (Arithmetic.double x : ℚ) = x := rfl
@[simp] theorem long_rat (n : Int) : Arithmetic.long (N := ℚ) n = n := rfl
@[simp] theorem int_rat (n : Int) : Arithmetic.int (N := ℚ) n = n := rfl
@[simp] theorem size_rat (n : Nat) : Arithmetic.size (N := ℚ) n = n := rfl
@[simp] theorem quotient_rat (x y : ℚ) : Arithmetic.quotient x y = Double.div x y := rfl
@[simp] theorem double_double (x : ℚ) : (Arithmetic.double x : Double) = Double.round x := rfl
@[simp] theorem quotient_double (x y : Double) : Arithmetic.quotient x y = x / y := rfl

/-! ## Operations on finite doubles -/

namespace Double

@[simp] theorem zero_eq : (0 : Double) = finite 0 := rfl

@[simp] theorem add_finite (x y : ℚ) : finite x + finite y = round (x + y) := rfl

@[simp] theorem neg_finite (x : ℚ) : -finite x = finite (-x) := rfl

@[simp] theorem neg_infinite (negative : Bool) : -infinite negative = infinite !negative := rfl

@[simp] theorem sub_finite (x y : ℚ) : finite x - finite y = round (x - y) := by
  have hsub : finite x - finite y = finite x + -finite y := rfl
  rw [hsub, neg_finite, add_finite, sub_eq_add_neg]

@[simp] theorem mul_finite (x y : ℚ) : finite x * finite y = round (x * y) := rfl

theorem mul_infinite_finite (negative : Bool) {x : ℚ} (hx : x ≠ 0) :
    infinite negative * finite x = infinite (negative ^^ decide (x < 0)) := if_neg hx

theorem quotient_finite (x : ℚ) {y : ℚ} (hy : y ≠ 0) :
    finite x / finite y = round (x / y) := if_neg hy

theorem quotient_zero (x : ℚ) : finite x / finite 0 = div x 0 := by
  have hquotient : finite x / finite 0 = if (0 : ℚ) = 0 then div x 0 else round (x / 0) := rfl
  rw [hquotient, if_pos rfl]

theorem lt_iff_greater (x y : Double) : x < y ↔ y.greater x = true := Iff.rfl

@[simp] theorem finite_lt_finite (x y : ℚ) : finite x < finite y ↔ x < y := by
  rw [lt_iff_greater, greater, decide_eq_true_eq]

theorem ne_zero_of_pos {d : Double} (h : 0 < d) : d ≠ 0 := by
  rintro rfl
  rw [zero_eq, finite_lt_finite] at h
  exact lt_irrefl 0 h

/-- A result that does not overflow is rounded. -/
theorem round_eq {x : ℚ} (h : |binary64.round x| < 2 ^ 1024) :
    round x = finite (binary64.round x) := if_pos h

@[simp] theorem round_zero : round 0 = 0 := by
  have hsmall : |binary64.round 0| < 2 ^ 1024 := by
    rw [Format.round_zero, abs_zero]
    positivity
  rw [round_eq hsmall, Format.round_zero, zero_eq]

theorem round_eq_finite_iff {x r : ℚ} :
    round x = finite r ↔ |binary64.round x| < 2 ^ 1024 ∧ r = binary64.round x := by
  simp only [round]
  split
  · rename_i hfits
    simp [hfits, eq_comm]
  · rename_i hlarge
    simp [hlarge]

/-- What is not a number stays so in a sum. -/
theorem add_eq_finite_iff {d e : Double} {r : ℚ} :
    d + e = finite r ↔ ∃ x y, d = finite x ∧ e = finite y ∧ round (x + y) = finite r := by
  have hadd : d + e = add d e := rfl
  rw [hadd]
  cases d <;> cases e <;> simp [add]
  split <;> simp

/-- And in a product. -/
theorem mul_eq_finite_iff {d e : Double} {r : ℚ} :
    d * e = finite r ↔ ∃ x y, d = finite x ∧ e = finite y ∧ round (x * y) = finite r := by
  have hmul : d * e = mul d e := rfl
  rw [hmul]
  cases d <;> cases e <;> simp [mul] <;> split <;> simp

/-- Of a quotient that is a number the divisor may be infinite, but not zero. -/
theorem IsNumber.of_quotient {d e : Double} (h : (d / e).IsNumber) : d.IsNumber ∧ e ≠ 0 := by
  obtain ⟨r, hr⟩ := h
  cases d with
  | finite x =>
      refine ⟨⟨x, rfl⟩, ?_⟩
      rintro rfl
      rw [zero_eq, quotient_zero, div, if_pos rfl] at hr
      split at hr <;> cases hr
  | infinite negative => cases e <;> cases hr
  | nan => cases hr

end Double

/-! ## Integers -/

/-- A `long` that does not overflow. -/
theorem long_double {n : Int} (h : InInt64 n) : Arithmetic.long (N := Double) n = n := by
  unfold InInt64 minInt64 maxInt64 at h
  exact Int.bmod_eq_of_le (by omega) (by omega)

theorem inInt64_long_double (n : Int) : InInt64 (Arithmetic.long (N := Double) n) := by
  have hle := Int.le_bmod (x := n) (m := 2 ^ 64) (by omega)
  have hlt := Int.bmod_lt (x := n) (m := 2 ^ 64) (by omega)
  unfold InInt64 minInt64 maxInt64
  simp only [Arithmetic.long]
  omega

/-- An `int` that does not overflow. -/
theorem int_double {n : Int} (h : InInt n) : Arithmetic.int (N := Double) n = n := by
  unfold InInt at h
  exact Int.bmod_eq_of_le (by omega) (by omega)

/-- A container that the machine can hold. -/
theorem size_double {n : Nat} (h : n < 2 ^ 64) : Arithmetic.size (N := Double) n = n :=
  Nat.mod_eq_of_lt h

theorem size_double_lt (n : Nat) : Arithmetic.size (N := Double) n < 2 ^ 64 :=
  Nat.mod_lt n (by positivity)

theorem inInt_int_double (n : Int) : InInt (Arithmetic.int (N := Double) n) := by
  have hle := Int.le_bmod (x := n) (m := 2 ^ 32) (by omega)
  have hlt := Int.bmod_lt (x := n) (m := 2 ^ 32) (by omega)
  unfold InInt
  simp only [Arithmetic.int]
  omega

/-! ## Grid and errors -/

/-- A multiple of the least double, which every double and every integer is. -/
theorem onGrid_int (n : Int) : binary64.OnGrid n :=
  Format.onGrid_intCast (by decide) n

/-- The relative error of one operation: `2 ^ -53`. -/
abbrev roundoff : ℚ := binary64.unit

theorem roundoff_nonneg : 0 ≤ roundoff := Format.unit_pos.le

theorem roundoff_lt_one : roundoff < 1 := Format.unit_le_half.trans_lt (by norm_num)

end TradeProcessor
