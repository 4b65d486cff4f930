/-
  MiniC.Binary32.Basic

  Single-precision floating-point values as 32-bit patterns.

  A pattern is a sign bit, eight exponent bits and 23 fraction bits.  The 31
  bits below the sign are called the magnitude here: magnitudes are ordered
  like the absolute values they stand for, the next magnitude is the next
  representable number, and `infinity` follows the largest finite one.

  Rounding goes from an exact ratio of natural numbers to the nearest value,
  a tie to the even significand.  The conversions between integers and floats
  that the language has are built on it.
-/

namespace MiniC

/-- A single-precision value, by its bit pattern. -/
structure Binary32 where
  /-- Sign, exponent and fraction, from the highest bit down. -/
  bits : UInt32
  deriving DecidableEq, Repr, Inhabited

namespace Binary32

/-! ## §1. Parts of a pattern -/

/-- The magnitude of infinity; larger ones are not numbers. -/
def infiniteMagnitude : Nat := 0x7F800000

/-- The value with the given sign and magnitude. -/
def ofMagnitude (negative : Bool) (magnitude : Nat) : Binary32 :=
  ⟨UInt32.ofNat (if negative then 0x80000000 + magnitude else magnitude)⟩

/-- The sign bit is set. -/
def negative (x : Binary32) : Bool := 0x80000000 ≤ x.bits.toNat

/-- The 31 bits below the sign. -/
def magnitude (x : Binary32) : Nat := x.bits.toNat % 0x80000000

/-- Zero, with the sign bit clear. -/
def zero : Binary32 := ⟨0⟩

/-- Not a number at all. -/
def isNaN (x : Binary32) : Bool := infiniteMagnitude < x.magnitude

/-- Plus or minus infinity. -/
def isInfinite (x : Binary32) : Bool := x.magnitude = infiniteMagnitude

/-- The whole number `s` for which the absolute value is `s * 2 ^ exponent`. -/
def significand (x : Binary32) : Nat :=
  if x.magnitude / 0x800000 = 0 then x.magnitude
  else 0x800000 + x.magnitude % 0x800000

/-- The power of two that the significand is scaled by. -/
def exponent (x : Binary32) : Int :=
  if x.magnitude / 0x800000 = 0 then -149
  else (x.magnitude / 0x800000 : Nat) - 150

/-- The same number with the other sign. -/
def neg (x : Binary32) : Binary32 := ⟨x.bits ^^^ 0x80000000⟩

/-! ## §2. Rounding an exact ratio -/

/-- `num / den` to the nearest whole number, a tie to the even one. -/
def roundToEven (num den : Nat) : Nat :=
  let q := num / den
  let r := num % den
  if 2 * r < den then q
  else if den < 2 * r then q + 1
  else if q % 2 = 0 then q else q + 1

/-- `num / (den * 2 ^ k)` as a ratio of natural numbers. -/
def scaleDown (num den : Nat) (k : Int) : Nat × Nat :=
  if 0 ≤ k then (num, den * Nat.pow 2 k.toNat) else (num * Nat.pow 2 (-k).toNat, den)

/-- The exponent `k` with `2 ^ k ≤ num / den < 2 ^ (k + 1)`, for a positive
ratio. -/
def log2Ratio (num den : Nat) : Int :=
  let k : Int := (num.log2 : Int) - (den.log2 : Int)
  let (n, d) := scaleDown num den k
  if d ≤ n then k else k - 1

/-- The magnitude nearest to `num / den`.  The unit is the last bit of the
binade of the ratio, and no less than the least representable number; beyond
the largest finite magnitude it is infinity. -/
def nearestMagnitude (num den : Nat) : Nat :=
  if num = 0 then 0
  else
    let unit := max (log2Ratio num den - 23) (-149)
    let (n, d) := scaleDown num den unit
    min ((unit + 149).toNat * 0x800000 + roundToEven n d) infiniteMagnitude

/-- The value nearest to `num / den`, with the sign given. -/
def ofRatio (negative : Bool) (num den : Nat) : Binary32 :=
  ofMagnitude negative (nearestMagnitude num den)

/-! ## §3. Integers and floats -/

/-- The value nearest to an integer. -/
def ofInt (n : Int) : Binary32 := ofRatio (n < 0) n.natAbs 1

/-- The value nearest to a 32-bit integer. -/
def ofInt32 (n : Int32) : Binary32 := ofInt n.toInt

/-- The absolute value without its fraction. -/
def truncated (x : Binary32) : Nat :=
  if 0 ≤ x.exponent then x.significand * Nat.pow 2 x.exponent.toNat
  else x.significand / Nat.pow 2 (-x.exponent).toNat

/-- Toward zero into a 32-bit integer; what does not fit goes to the nearest
end of the range, and what is not a number to zero. -/
def toInt32 (x : Binary32) : Int32 :=
  if x.isNaN then 0
  else if x.negative then Int32.ofInt (max (-(x.truncated : Int)) (-2147483648))
  else Int32.ofInt (min (x.truncated : Int) 2147483647)

/-! ## §4. First facts -/

end Binary32

end MiniC
