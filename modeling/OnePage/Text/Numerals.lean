/-!
# Numbers as text

A decimal number is written as one or more decimal digits, perhaps after a plus sign and with any
number of leading zeros, and has to be below a bound.

Hexadecimal text is in upper case. Bytes are written as two digits, offsets and code points as many
digits as they need, filled up with zeros to a least width.
-/

namespace OnePage.Decimal

/-- The digits of a number without its plus sign. -/
def unsigned : List Char → List Char
  | '+' :: digits => digits
  | digits => digits

/-- The value of decimal digits. -/
def value (digits : List Char) : Nat :=
  digits.foldl (fun n c ↦ 10 * n + (c.toNat - '0'.toNat)) 0

/-- The number that a text stands for, if it stands for one below the bound. -/
def ofText? (bound : Nat) (text : String) : Option Nat :=
  let digits := unsigned text.toList
  if digits.isEmpty || !digits.all Char.isDigit then none
  else if value digits < bound then some (value digits)
  else none

end OnePage.Decimal

namespace OnePage.Hex

/-- The upper-case digit of a value below sixteen. -/
def digit (n : Nat) : Char :=
  if n < 10 then Char.ofNat (48 + n) else Char.ofNat (55 + n)

/-- The two digits of a byte, high digit first. -/
def byteDigits (b : UInt8) : List Char :=
  [digit (b.toNat / 16), digit (b.toNat % 16)]

/-- A byte as two digits. -/
def byte (b : UInt8) : String := String.ofList (byteDigits b)

/-- The digits of a number, without leading zeros. -/
def digits (n : Nat) : List Char := (Nat.toDigits 16 n).map Char.toUpper

/-- A number in at least `width` digits, filled up with zeros on the left. -/
def padded (width n : Nat) : String :=
  String.ofList (List.replicate (width - (digits n).length) '0' ++ digits n)

/-- Bytes as pairs of digits with single spaces between them. -/
def pairs (bytes : List UInt8) : String := " ".intercalate (bytes.map byte)

/-- Bytes as pairs of digits with nothing between them. -/
def packed (bytes : List UInt8) : String := String.ofList (bytes.flatMap byteDigits)

end OnePage.Hex
