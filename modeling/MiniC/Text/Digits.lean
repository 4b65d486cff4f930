/-
  MiniC.Text.Digits

  Decimal digits: reading a run of them as a number and writing a number as a
  run of them.
-/

namespace MiniC.Text

/-- One of the ten decimal digits. -/
def isDigit (c : Char) : Bool := '0' ≤ c && c ≤ '9'

/-- The value of one digit. -/
def digitValue (c : Char) : Nat := c.toNat - '0'.toNat

/-- The number that a run of digits stands for, the first digit weighing
most. -/
def digitsValue (cs : List Char) : Nat :=
  cs.foldl (fun n c => 10 * n + digitValue c) 0

/-- The digits of a number, without leading zeros. -/
def digitsOf (n : Nat) : List Char := Nat.toDigits 10 n

/-- A number with a sign in front if it is negative. -/
def signed (n : Int) : String :=
  if n < 0 then "-" ++ String.ofList (digitsOf n.natAbs)
  else String.ofList (digitsOf n.natAbs)

/-- A number without a sign. -/
def unsigned (n : Nat) : String := String.ofList (digitsOf n)

end MiniC.Text
