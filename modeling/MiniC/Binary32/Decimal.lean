/-
  MiniC.Binary32.Decimal

  Decimal numbers and single precision: reading one and writing one.

  Reading rounds the exact decimal to the nearest value.  Writing takes the
  fewest digits that read back as the same value: for one digit, two digits
  and so on, the two decimals next to the value on that grid are tried, and
  the first that reads back is the answer.  Of two that do, the nearer is
  taken, and the upper one of two equally near.  Nine digits always suffice.
-/
import MiniC.Binary32.Basic
import MiniC.Text.Digits

namespace MiniC

/-- The number `digits * 10 ^ exponent`. -/
structure Decimal where
  /-- All digits, as a whole number. -/
  digits : Nat
  /-- The power of ten that scales them. -/
  exponent : Int
  deriving DecidableEq, Repr

namespace Decimal

/-- The decimal as a ratio of natural numbers. -/
def ratio (d : Decimal) : Nat × Nat :=
  if 0 ≤ d.exponent then (d.digits * Nat.pow 10 d.exponent.toNat, 1)
  else (d.digits, Nat.pow 10 (-d.exponent).toNat)

/-- The digits before and after a decimal point. -/
def ofPointed (whole fraction : List Char) : Decimal :=
  ⟨Text.digitsValue (whole ++ fraction), -(fraction.length : Int)⟩

/-- The nearest single-precision value. -/
def toBinary32 (d : Decimal) : Binary32 :=
  Binary32.ofRatio false d.ratio.1 d.ratio.2

/-- Moves trailing zeros of the digits into the exponent; `fuel` bounds how
many. -/
def trimZeros : (fuel : Nat) → Decimal → Decimal
  | 0, d => d
  | fuel + 1, d =>
    if d.digits ≠ 0 ∧ d.digits % 10 = 0 then trimZeros fuel ⟨d.digits / 10, d.exponent + 1⟩
    else d

end Decimal

namespace Binary32

/-! ## §1. The fewest digits that read back -/

/-- The absolute value of a finite pattern as a ratio of natural numbers. -/
def ratio (x : Binary32) : Nat × Nat :=
  if 0 ≤ x.exponent then (x.significand * Nat.pow 2 x.exponent.toNat, 1)
  else (x.significand, Nat.pow 2 (-x.exponent).toNat)

/-- `num / (den * 10 ^ p)` as a ratio of natural numbers. -/
def scaleTen (num den : Nat) (p : Int) : Nat × Nat :=
  if 0 ≤ p then (num, den * Nat.pow 10 p.toNat) else (num * Nat.pow 10 (-p).toNat, den)

/-- How many digits the whole part of a positive ratio has; zero or less
counts the zeros after the point. -/
def wholeDigits (num den : Nat) : Int :=
  let k : Int := (Text.digitsOf num).length - (Text.digitsOf den).length
  let (n, d) := scaleTen num den k
  if d ≤ n then k + 1 else k

/-- A decimal that reads back as `x`. -/
def readsBack (x : Binary32) (d : Decimal) : Bool :=
  d.toBinary32.magnitude = x.magnitude

/-- The two decimals of `n` digits on either side of a value, the one to
prefer first: the nearer, and the upper one if both are equally near. -/
def neighbours (x : Binary32) (n : Nat) : Decimal × Decimal :=
  let (num, den) := x.ratio
  let p := wholeDigits num den - n
  let (a, b) := scaleTen num den p
  let lower : Decimal := ⟨a / b, p⟩
  let upper : Decimal := ⟨a / b + 1, p⟩
  if 2 * (a % b) < b then (lower, upper) else (upper, lower)

/-- The better of the two neighbours that reads back, if one does. -/
def withDigits? (x : Binary32) (n : Nat) : Option Decimal :=
  let (first, second) := neighbours x n
  if readsBack x first then some first
  else if readsBack x second then some second
  else none

/-- The shortest decimal that reads back as the absolute value of `x`, for
`x` finite and not zero. -/
def shortest (x : Binary32) : Decimal :=
  (((List.range' 1 8).findSome? (withDigits? x)).getD (neighbours x 9).1).trimZeros 10

/-! ## §2. The written form -/

/-- Written positionally from this exponent of the first digit on. -/
def leastPositional : Int := -4

/-- Written positionally up to this exponent of the first digit. -/
def mostPositional : Int := 15

/-- Without an exponent, and with at least one digit after the point. -/
def positional (ds : List Char) (lead : Int) : List Char :=
  if lead < 0 then
    ['0', '.'] ++ List.replicate (-lead - 1).toNat '0' ++ ds
  else
    let whole := lead.toNat + 1
    let fraction := ds.drop whole
    ds.take whole ++ List.replicate (whole - ds.length) '0' ++
      ['.'] ++ (if fraction.isEmpty then ['0'] else fraction)

/-- One digit, a point and the others if there are any, and the exponent. -/
def scientific (ds : List Char) (lead : Int) : List Char :=
  ds.take 1 ++ (if (ds.drop 1).isEmpty then [] else '.' :: ds.drop 1) ++
    ['e'] ++ (Text.signed lead).toList

/-- The digits of a decimal, in the form its size asks for. -/
def layOut (d : Decimal) : List Char :=
  let ds := Text.digitsOf d.digits
  let lead := d.exponent + ds.length - 1
  if leastPositional ≤ lead ∧ lead ≤ mostPositional then positional ds lead
  else scientific ds lead

/-- The text of the absolute value. -/
def magnitudeText (x : Binary32) : List Char :=
  if x.isNaN then ['N', 'a', 'N']
  else if x.isInfinite then ['i', 'n', 'f']
  else if x.magnitude = 0 then ['0', '.', '0']
  else layOut x.shortest

/-- The text of a value: the shortest that reads back, with its sign. -/
def text (x : Binary32) : String :=
  String.ofList (if x.negative && !x.isNaN then '-' :: x.magnitudeText else x.magnitudeText)

end Binary32

end MiniC
