/-
  Json/Value.lean --- the part of jsoncpp's `Json::Value` that the program uses.

  The program reads a feed item through a mutable `operator[]` followed by one of
  `asString`, `asInt64`, `asDouble`.  Two habits of jsoncpp decide most error
  paths, so both are modelled:

    * `operator[](key)` on a null value or an object is also a write: a missing
      member is inserted as null, and a null value becomes an object;
    * the `as…` accessors convert null, and raise on the kinds they do not
      convert.

  Doubles are exact rationals throughout.
-/
import TradeProcessor.Library.Raise

set_option autoImplicit false

namespace TradeProcessor.Json

/-- A JSON value, by `Json::ValueType`.  An object lists its members in key
order, as the `std::map` behind it does. -/
inductive Value where
  | nullValue
  | intValue (i : Int64)
  | uintValue (n : UInt64)
  | realValue (x : ℚ)
  | stringValue (s : String)
  | booleanValue (b : Bool)
  | arrayValue (elements : List Value)
  | objectValue (members : List (String × Value))
  deriving Inhabited, Repr

/-- What jsoncpp's `JSON_FAIL_MESSAGE` raises. -/
inductive LogicError where
  | requiresObject
  | requiresArray
  | notConvertibleToString
  | notConvertibleToInt64
  | outOfInt64Range
  | notConvertibleToDouble
  deriving DecidableEq, Repr

/-- Least value of `Json::Int64`. -/
def minInt64 : Int := -2 ^ 63

/-- Greatest value of `Json::Int64`. -/
def maxInt64 : Int := 2 ^ 63 - 1

/-- The value is representable as a `Json::Int64`. -/
def InInt64 (i : Int) : Prop := minInt64 ≤ i ∧ i ≤ maxInt64

instance (i : Int) : Decidable (InInt64 i) := inferInstanceAs (Decidable (_ ∧ _))

namespace Value

/-! ## Accessors -/

/-- `Int64(double)`: the conversion of C++ truncates toward zero. -/
def truncate (x : ℚ) : Int := x.num.tdiv x.den

/-- `Value::asInt64`. -/
def asInt64 : Value → Except LogicError Int
  | nullValue => .ok 0
  | intValue i => .ok i.toInt
  | uintValue n => if (n.toNat : Int) ≤ maxInt64 then .ok n.toNat else .error .outOfInt64Range
  | realValue x =>
      if (minInt64 : ℚ) ≤ x ∧ x ≤ maxInt64 then .ok (truncate x) else .error .outOfInt64Range
  | booleanValue b => .ok (if b then 1 else 0)
  | stringValue _ | arrayValue _ | objectValue _ => .error .notConvertibleToInt64

/-- `Value::asDouble`. -/
def asDouble : Value → Except LogicError ℚ
  | nullValue => .ok 0
  | intValue i => .ok i.toInt
  | uintValue n => .ok n.toNat
  | realValue x => .ok x
  | booleanValue b => .ok (if b then 1 else 0)
  | stringValue _ | arrayValue _ | objectValue _ => .error .notConvertibleToDouble

/-- `Value::asString`; `realText` is jsoncpp's decimal rendering of a double. -/
def asString (realText : ℚ → String) : Value → Except LogicError String
  | nullValue => .ok ""
  | intValue i => .ok (toString i.toInt)
  | uintValue n => .ok (toString n.toNat)
  | realValue x => .ok (realText x)
  | stringValue s => .ok s
  | booleanValue b => .ok (if b then "true" else "false")
  | arrayValue _ | objectValue _ => .error .notConvertibleToString

/-- `Value::size`: scalars, strings and null have no elements. -/
def size : Value → Nat
  | arrayValue elements => elements.length
  | objectValue members => members.length
  | _ => 0

/-! ## Subscripting by key -/

/-- Insert a null member in key order. -/
def insertNull (key : String) : List (String × Value) → List (String × Value)
  | [] => [(key, nullValue)]
  | (k, v) :: rest =>
      if key < k then (key, nullValue) :: (k, v) :: rest else (k, v) :: insertNull key rest

/-- `operator[](key)`: the container as the access leaves it, and the member. -/
def subscript (key : String) : Value → Except LogicError (Value × Value)
  | nullValue => .ok (objectValue (insertNull key []), nullValue)
  | objectValue members =>
      match members.lookup key with
      | some m => .ok (objectValue members, m)
      | none => .ok (objectValue (insertNull key members), nullValue)
  | _ => .error .requiresObject

/-- `operator[](index)`: a missing element is created as null, together with
the ones before it. -/
def element (index : Nat) : Value → Except LogicError (Value × Value)
  | nullValue => .ok (arrayValue (List.replicate (index + 1) nullValue), nullValue)
  | arrayValue elements =>
      match elements[index]? with
      | some e => .ok (arrayValue elements, e)
      | none =>
          .ok (arrayValue (elements ++
            List.replicate (index + 1 - elements.length) nullValue), nullValue)
  | _ => .error .requiresArray

/-- `value[key].asInt64()`, with the container as the access leaves it. -/
def readInt64 (key : String) (v : Value) : Except LogicError (Value × Int) :=
  match v.subscript key with
  | .error e => .error e
  | .ok (v', m) =>
      match m.asInt64 with
      | .error e => .error e
      | .ok i => .ok (v', i)

/-- `value[key].asDouble()`, with the container as the access leaves it. -/
def readDouble (key : String) (v : Value) : Except LogicError (Value × ℚ) :=
  match v.subscript key with
  | .error e => .error e
  | .ok (v', m) =>
      match m.asDouble with
      | .error e => .error e
      | .ok x => .ok (v', x)

/-- `value[key].asString()`, with the container as the access leaves it. -/
def readString (realText : ℚ → String) (key : String) (v : Value) :
    Except LogicError (Value × String) :=
  match v.subscript key with
  | .error e => .error e
  | .ok (v', m) =>
      match m.asString realText with
      | .error e => .error e
      | .ok s => .ok (v', s)

end Value

end TradeProcessor.Json
