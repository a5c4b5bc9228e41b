/-!
# JSON values

A `Value` holds what a JSON text says without loss: fields keep their order and may repeat, a number
that is no integer of 64 bits keeps its digits, and half a surrogate pair that an escape names stays
what it is.

## Main definitions

* `Json.Value`, `Json.Text`, `Json.Numeral`.
* `Json.Text.toString?`: the text as a string, if it is one.
* `Json.Numeral.inRange`: whether a number is within the range of a double.

## Main results

* `Json.Text.toString?_ofString`: every string is a text.
-/

namespace StackTree.Json

/-! ## Texts -/

/-- A part of a text. -/
inductive Piece where
  /-- A character. -/
  | char (c : Char)
  /-- Half a surrogate pair without its other half. -/
  | half (unit : Nat)
deriving DecidableEq, Repr

/-- The content of a text in quotes. -/
abbrev Text := List Piece

namespace Text

/-- The text of a string. -/
def ofString (s : String) : Text := s.toList.map .char

/-- The characters of a text that has no lone half of a pair. -/
def toList? : Text → Option (List Char)
  | [] => some []
  | .char c :: rest => (toList? rest).map (c :: ·)
  | .half _ :: _ => none

/-- The string that a text without lone halves of pairs is. -/
def toString? (t : Text) : Option String := (toList? t).map String.ofList

theorem toList?_map_char (cs : List Char) : toList? (cs.map .char) = some cs := by
  induction cs with
  | nil => rfl
  | cons c rest ih => simp [toList?, ih]

@[simp] theorem toString?_ofString (s : String) : toString? (ofString s) = some s := by
  simp [toString?, ofString, toList?_map_char]

end Text

/-! ## Numbers -/

/-- A number as it is written. -/
structure Numeral where
  /-- Whether it starts with a minus sign. -/
  negative : Bool
  /-- The digits before the point. -/
  whole : List Char
  /-- The digits after the point, none if there is no point. -/
  fraction : List Char
  /-- Whether the exponent is negative, and its digits. -/
  exponent : Option (Bool × List Char)
deriving DecidableEq, Repr

namespace Numeral

/-- The value of a decimal digit. -/
def digit (c : Char) : Nat := c.toNat - '0'.toNat

/-- The number that some digits write. -/
def ofDigits (ds : List Char) : Nat := ds.foldl (fun acc d => 10 * acc + digit d) 0

/-- A decimal significand of at most 64 bits with the power of ten that it counts. -/
structure Scaled where
  /-- The significand. -/
  significand : Nat
  /-- The power of ten. -/
  exponent : Int
deriving DecidableEq, Repr

/--
Takes in the digits before the point. From the first digit that no longer fits into 64 bits on, each
digit only moves the point.
-/
def Scaled.takeWhole (s : Scaled) : List Char → Scaled
  | [] => s
  | d :: rest =>
    if 10 * s.significand + digit d < UInt64.size then
      { s with significand := 10 * s.significand + digit d }.takeWhole rest
    else
      { s with exponent := s.exponent + (rest.length + 1) }

/-- Takes in the digits after the point, up to the first that no longer fits into 64 bits. -/
def Scaled.takeFraction (s : Scaled) : List Char → Scaled
  | [] => s
  | d :: rest =>
    if 10 * s.significand + digit d < UInt64.size then
      Scaled.takeFraction ⟨10 * s.significand + digit d, s.exponent - 1⟩ rest
    else
      s

/-- The value that the exponent adds, unless it does not fit into 32 bits. -/
def exponentValue? (n : Numeral) : Option Int :=
  match n.exponent with
  | none => some 0
  | some (negative, ds) =>
    if ofDigits ds ≤ Int32.maxValue.toInt then
      some (if negative then -(ofDigits ds : Int) else ofDigits ds)
    else
      none

/-- The digits of the number as a scaled significand, without the written exponent. -/
def scaled (n : Numeral) : Scaled := (Scaled.takeWhole ⟨0, 0⟩ n.whole).takeFraction n.fraction

/-- The largest power of ten that a double holds. -/
def largestPower : Nat := 308

/--
Whether the number is within the range of a double when it is read as the double nearest to its
significand times a power of ten. Zero is in range whatever its exponent, and so is everything with
a negative power.
-/
def inRange (n : Numeral) : Bool :=
  let s := n.scaled
  match n.exponentValue? with
  | some e =>
    let power := s.exponent + e
    s.significand == 0 || power ≤ 0
      || (power ≤ largestPower
        && (s.significand.toUInt64.toFloat * Float.ofScientific 1 false power.toNat).isFinite)
  | none =>
    s.significand == 0 || match n.exponent with
      | some (negative, _) => negative
      | none => true

end Numeral

/-! ## Values -/

/-- A JSON value. -/
inductive Value where
  | null
  | bool (b : Bool)
  /-- An integer of 64 bits, with or without a sign. -/
  | integer (i : Int)
  /-- Any other number. -/
  | real (n : Numeral)
  | text (t : Text)
  | array (items : List Value)
  /-- The fields in their order; names may repeat. -/
  | object (fields : List (Text × Value))
deriving Repr

namespace Value

/-- The text value of a string. -/
def string (s : String) : Value := text (Text.ofString s)

/-- An object whose names are strings. -/
def record (fields : List (String × Value)) : Value :=
  object (fields.map fun (name, value) => (Text.ofString name, value))

mutual

/--
Whether the value can be kept: its texts are strings, its numbers within the range of a double, and
it has at most so many levels of arrays and objects.
-/
def keepable (levels : Nat) : Value → Bool
  | null | bool _ | integer _ => true
  | real n => n.inRange
  | text t => (Text.toString? t).isSome
  | array items => match levels with
    | 0 => false
    | levels + 1 => allKeepable levels items
  | object fields => match levels with
    | 0 => false
    | levels + 1 => fieldsKeepable levels fields

/-- Whether every item can be kept. -/
def allKeepable (levels : Nat) : List Value → Bool
  | [] => true
  | item :: rest => item.keepable levels && allKeepable levels rest

/-- Whether every name and every value of some fields can be kept. -/
def fieldsKeepable (levels : Nat) : List (Text × Value) → Bool
  | [] => true
  | (name, value) :: rest =>
    (Text.toString? name).isSome && value.keepable levels && fieldsKeepable levels rest

end

end Value

end StackTree.Json
