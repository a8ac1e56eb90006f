import DualHessian.Decimal.Double

/-!
# JSON values

A `Json` is a value of the JSON data format. Numbers keep their decimal digits, objects keep the
order of their members. A string with an unpaired surrogate escape is no text; it is kept as `none`.

* `Json.double?` and `Json.natural?` read numbers, `Json.ofDouble` writes them. Doubles that are not
  finite are words, which `Json.extended?` reads too.
* `Json.fields?` reads a record with named fields, given by name or by position.
-/

namespace DualHessian

/-- The number `± digits · 10 ^ exponent`. -/
structure Numeral where
  /-- Whether it carries a minus sign. -/
  negative : Bool
  /-- The digits, as one integer. -/
  digits : Nat
  /-- The power of ten. -/
  exponent : Int
  /-- Whether it is written without point and exponent. -/
  integral : Bool
deriving DecidableEq, Repr

namespace Numeral

/-- A natural number. -/
def ofNat (n : Nat) : Numeral := ⟨false, n, 0, true⟩

/-- A number in scientific notation. -/
def ofScientific (negative : Bool) (s : Scientific) : Numeral :=
  ⟨negative, s.digits, s.exponent - s.places, false⟩

/-- The number `digits · 10 ^ exponent` as the nearest double. Powers of ten far beyond the range of
doubles are not computed. -/
def magnitude (digits : Nat) (exponent : Int) : Float :=
  let size := exponent + decimalLength digits
  if digits = 0 ∨ size < -400 then 0
  else if 400 < size then 1 / 0
  else Float.ofScientific digits (decide (exponent < 0)) exponent.natAbs

/-- The nearest double. -/
def toDouble (n : Numeral) : Float :=
  let x := magnitude n.digits n.exponent
  if n.negative then -x else x

/-- The nearest double, if the number is not too large. -/
def finite? (n : Numeral) : Option Float :=
  let x := n.toDouble
  if x.isFinite then some x else none

/-- The number as a natural number, if it is written as one. -/
def natural? (n : Numeral) : Option Nat :=
  if n.integral && !n.negative then some n.digits else none

/-- The text of a number: its digits if it is written as an integer, else scientific notation. -/
def text (n : Numeral) : List Char :=
  let sign := if n.negative then ['-'] else []
  if n.integral then sign ++ decimalDigits n.digits
  else if n.digits = 0 then sign ++ ['0', 'e', '0']
  else
    let places := decimalLength n.digits - 1
    sign ++ (Scientific.mk n.digits places (n.exponent + places)).text .plain

end Numeral

/-- A value of the JSON format. -/
inductive Json where
  /-- The absent value. -/
  | null
  /-- A truth value. -/
  | flag (value : Bool)
  /-- A number. -/
  | number (value : Numeral)
  /-- A string; nothing, if it holds an unpaired surrogate. -/
  | text (value : Option String)
  /-- A list. -/
  | list (items : List Json)
  /-- An object with its members in order. -/
  | object (members : List (Option String × Json))

namespace Json

/-- A string. -/
def ofString (s : String) : Json := text (some s)

/-- A natural number. -/
def ofNat (n : Nat) : Json := number (.ofNat n)

/-- An object with the given members. -/
def ofMembers (members : List (String × Json)) : Json :=
  object (members.map fun (name, value) => (some name, value))

open Float.Model in
/-- A double, where `digits` chooses the digits of a positive finite one. Both zeros are alike, and
doubles that are not finite are words. -/
def ofDoubleWith (digits : Nat → Int → Scientific) (x : Float) : Json :=
  match x.toModel.unpack with
  | .notANumber => ofString "NaN"
  | .infinity .positive => ofString "inf"
  | .infinity .negative => ofString "-inf"
  | .zero _ => number ⟨false, 0, 0, false⟩
  | .finite s m e _ => number (.ofScientific (s == .negative) (digits m e))

/-- A double with the fewest digits that read back. -/
def ofDouble : Float → Json := ofDoubleWith Double.shortest

/-- A double rounded to the given number of fraction digits in scientific notation. -/
def ofRounded (places : Nat) : Float → Json := ofDoubleWith (Double.rounded places)

/-- The number, if it is one that a double can hold. -/
def double? : Json → Option Float
  | number n => n.finite?
  | _ => none

/-- The number, where doubles that JSON cannot write are words. -/
def extended? : Json → Option Float
  | number n => some n.toDouble
  | text (some "NaN") => some (0 / 0)
  | text (some "inf") => some (1 / 0)
  | text (some "-inf") => some (-1 / 0)
  | text (some "-0") => some (-0.0)
  | _ => none

/-- The natural number below `bound`. -/
def natural? (bound : Nat) : Json → Option Nat
  | number n => n.natural?.filter (decide <| · < bound)
  | _ => none

/-- The string. -/
def string? : Json → Option String
  | text s => s
  | _ => none

/-- The items of a list. -/
def items? : Json → Option (List Json)
  | list items => some items
  | _ => none

/-- The name of a choice: a string, or an object with the name as its only member and no value. -/
def choice? : Json → Option String
  | text s => s
  | object [(name, null)] => name
  | _ => none

/-- The value of a member of an object; absent members have none. -/
def member? (name : String) : Json → Option Json
  | object members => members.lookup (some name)
  | _ => none

/-- The values given for the named fields of a record, each of which may be missing. An object gives
them by name, none of them twice; other members are passed over. A list gives them by position. -/
def fields? (names : List String) : Json → Option (List (Option Json))
  | object members =>
    let given := members.map (·.1)
    if given.contains none || names.any fun name => decide (1 < given.count (some name)) then none
    else some (names.map fun name => members.lookup (some name))
  | list items =>
    if items.length ≤ names.length then
      some (items.map some ++ List.replicate (names.length - items.length) none)
    else none
  | _ => none

/-- The value of a field, which has a default. -/
def fieldOr {β : Type} (default : β) (read : Json → Option β) : Option Json → Option β
  | none => some default
  | some value => read value

end Json

end DualHessian
