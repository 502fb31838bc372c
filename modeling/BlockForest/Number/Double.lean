/-!
# Double precision numbers by their bits

A `Double` is the 64 bits of a binary floating point number and nothing more, so that every
bit survives a round trip, the payload of a NaN included. The parts of the number are read off
with natural arithmetic: a finite double is `significand * 2 ^ exponent`, up to its sign.
`ofRatio` goes the other way and rounds a quotient of naturals to the nearest double, a tie
going to the even significand; sums of this kind are exact, so the conversions below need no
floating point operation.
-/

set_option autoImplicit false

namespace BlockForest

/-- A double precision number, as its 64 bits. -/
structure Double where
  bits : UInt64
deriving DecidableEq

namespace Double

/-- The place value of the sign bit. -/
def signBit : Nat := 0x8000000000000000

/-- The place value of the lowest exponent bit, which is also that of the significand bit that
normal numbers leave out. -/
def exponentBit : Nat := 0x10000000000000

/-- The bits without the sign. -/
def magnitude (d : Double) : Nat := d.bits.toNat % signBit

/-- Whether the sign bit is set, which holds of a negative zero too. -/
def isNegative (d : Double) : Bool := signBit ≤ d.bits.toNat

/-- The magnitude of the infinities; what lies above it is not a number. -/
def infinite : Nat := 0x7ff * exponentBit

def isNaN (d : Double) : Bool := infinite < d.magnitude

def isInfinite (d : Double) : Bool := d.magnitude == infinite

def isZero (d : Double) : Bool := d.magnitude == 0

/-- The integer that a finite double multiplies by a power of two. -/
def significand (d : Double) : Nat :=
  if d.magnitude / exponentBit = 0 then d.magnitude
  else d.magnitude % exponentBit + exponentBit

/-- The power of two that a finite double multiplies its significand by. -/
def exponent (d : Double) : Int :=
  if d.magnitude / exponentBit = 0 then -1074 else (d.magnitude / exponentBit : Nat) - 1075

/-- Numeric equality: a NaN equals nothing, and the two zeros equal each other. -/
def same (a b : Double) : Bool :=
  !a.isNaN && !b.isNaN && (a.bits == b.bits || (a.isZero && b.isZero))

/-- The double with the given sign and magnitude bits. -/
def signed (negative : Bool) (magnitude : Nat) : Double :=
  ⟨UInt64.ofNat (magnitude + if negative then signBit else 0)⟩

def zero : Double := signed false 0

/-- `num / den` to the nearest integer, a tie going to the even one. -/
def roundHalfEven (num den : Nat) : Nat :=
  let q := num / den
  let r := num % den
  if 2 * r < den then q
  else if den < 2 * r then q + 1
  else q + q % 2

/-- `num / den * 2 ^ (-e)` as a numerator and a denominator. -/
def scaleTwo (num den : Nat) (e : Int) : Nat × Nat :=
  if 0 ≤ e then (num, den <<< e.toNat) else (num <<< (-e).toNat, den)

/-- The power of two at or below `num / den`, both positive. -/
def log2Ratio (num den : Nat) : Int :=
  let k : Int := (Nat.log2 num : Int) - (Nat.log2 den : Int)
  let scaled := scaleTwo num den k
  if scaled.2 ≤ scaled.1 then k else k - 1

/-- The magnitude bits of the double nearest to `num / den`; a quotient beyond the largest
double becomes infinite. A carry out of the significand lands in the exponent field, which is
where it belongs. -/
def ofRatio (num den : Nat) : Nat :=
  if num = 0 then 0
  else
    let e := max (log2Ratio num den - 52) (-1074)
    let scaled := scaleTwo num den e
    min ((e + 1074).toNat * exponentBit + roundHalfEven scaled.1 scaled.2) infinite

/-- The double nearest to a natural number. -/
def ofNat (n : Nat) : Double := signed false (ofRatio n 1)

/-- The double nearest to an integer. -/
def ofInt (n : Int) : Double := signed (n < 0) (ofRatio n.natAbs 1)

/-- A finite magnitude as a numerator and a denominator. -/
def toRatio (d : Double) : Nat × Nat := scaleTwo d.significand 1 (-d.exponent)

end Double

end BlockForest
