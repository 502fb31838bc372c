import BlockForest.Number.Double

/-!
# Shortest decimal numbers

The shortest decimal that reads back as a given double. A double stands for every real that
rounds to it, an interval around its value whose ends belong to it when its significand is
even. Among the decimals in that interval `shortest` takes one with the fewest digits, and of
those the nearest to the value; `Tie` says which one wins when two are equally near. The
search goes through the grids of one, two, up to seventeen digits and tests only the two grid
points on either side of the value, since a grid that meets the interval does so at one of
them. All arithmetic is exact.

`positional` and `scientific` write a decimal down.
-/

set_option autoImplicit false

namespace BlockForest

/-- A positive decimal number `digits * 10 ^ exponent`. -/
structure Decimal where
  digits : Nat
  exponent : Int
deriving DecidableEq

/-- Which of two equally near neighbours is taken. -/
inductive Tie where
  | toEven
  | up
deriving DecidableEq

namespace Decimal

/-- The number that a one and so many zeros write. -/
def powerOfTen (n : Nat) : Nat := Nat.pow 10 n

/-- A grid of decimals laid over the binary scale of a double: the point `g` of the grid lies
at the mark `x` of the scale when `g * grid = x * mark`. -/
structure Grid where
  grid : Nat
  mark : Nat

/-- The grid of multiples of `10 ^ p` over the scale of multiples of `2 ^ e`. -/
def Grid.of (p e : Int) : Grid :=
  { grid := powerOfTen p.toNat <<< (-e).toNat, mark := powerOfTen (-p).toNat <<< e.toNat }

/-- The reals that round to a double, in quarters of its last place: the value itself, the two
ends, and whether the ends belong to the interval. -/
structure Interval where
  value : Nat
  low : Nat
  high : Nat
  closed : Bool
  exponent : Int

/-- The interval of a positive finite double. Below a power of two the doubles lie twice as
close, so the lower end is half as far away there. -/
def Interval.of (d : Double) : Interval :=
  let m := d.significand
  let crowded := m = Double.exponentBit ∧ 2 * Double.exponentBit ≤ d.magnitude
  { value := 4 * m
    low := 4 * m - (if crowded then 1 else 2)
    high := 4 * m + 2
    closed := m % 2 = 0
    exponent := d.exponent - 2 }

/-- Whether the grid point `g` lies in the interval. -/
def Interval.holds (i : Interval) (grid : Grid) (g : Nat) : Bool :=
  if i.closed then i.low * grid.mark ≤ g * grid.grid ∧ g * grid.grid ≤ i.high * grid.mark
  else i.low * grid.mark < g * grid.grid ∧ g * grid.grid < i.high * grid.mark

/-- The point of a grid that stands for the double, if the grid meets its interval. -/
def Interval.point? (i : Interval) (tie : Tie) (grid : Grid) : Option Nat :=
  let value := i.value * grid.mark
  let below := value / grid.grid
  let above := below + 1
  match i.holds grid below, i.holds grid above with
  | false, false => none
  | true, false => some below
  | false, true => some above
  | true, true =>
    let down := value - below * grid.grid
    let up := above * grid.grid - value
    if down < up then some below
    else if up < down then some above
    else
      match tie with
      | .up => some above
      | .toEven => some (below + below % 2)

/-- The first grid from `10 ^ p` downwards that meets the interval, tried `count` times. -/
def Interval.search (i : Interval) (tie : Tie) : Nat → Int → Decimal
  | 0, p => ⟨i.value * (Grid.of p i.exponent).mark / (Grid.of p i.exponent).grid, p⟩
  | count + 1, p =>
    match i.point? tie (Grid.of p i.exponent) with
    | some g => ⟨g, p⟩
    | none => Interval.search i tie count (p - 1)

/-- Raises `p` while the next power of ten does not exceed the value, at most `count` times. -/
def Interval.climb (i : Interval) : Nat → Int → Int
  | 0, p => p
  | count + 1, p =>
    let grid := Grid.of (p + 1) i.exponent
    if grid.grid ≤ i.value * grid.mark then Interval.climb i count (p + 1) else p

/-- The power of ten at or below the value. The binary logarithm gives it up to one. -/
def Interval.log10 (i : Interval) : Int :=
  i.climb 4 ((Nat.log2 i.value + i.exponent) * 30103 / 100000 - 1)

/-- The decimal without trailing zeros, at most `count` of which are removed. -/
def trim : Nat → Decimal → Decimal
  | 0, d => d
  | count + 1, d =>
    if d.digits % 10 = 0 ∧ d.digits ≠ 0 then trim count ⟨d.digits / 10, d.exponent + 1⟩ else d

/-- The shortest decimal that reads back as the positive finite double `d`. -/
def shortest (tie : Tie) (d : Double) : Decimal :=
  let i := Interval.of d
  trim 20 (i.search tie 17 i.log10)

/-- The digits as text. -/
def digitText (d : Decimal) : List Char := Nat.toDigits 10 d.digits

/-- Where the decimal point stands, counted from before the first digit. -/
def point (d : Decimal) : Int := d.digitText.length + d.exponent

/-- All digits written out around a decimal point, with at least `places` digits after it; a
number without any has no point. -/
def positional (places : Nat) (d : Decimal) : String :=
  let digits := d.digitText
  let whole :=
    if d.point ≤ 0 then ['0']
    else digits.take d.point.toNat ++ List.replicate (d.point.toNat - digits.length) '0'
  let fraction := List.replicate (-d.point).toNat '0' ++ digits.drop d.point.toNat
  let padded := fraction ++ List.replicate (places - fraction.length) '0'
  String.ofList (if padded.isEmpty then whole else whole ++ '.' :: padded)

/-- One digit, a point and the others if there are others, and the power of ten with its
sign. -/
def scientific (d : Decimal) : String :=
  let mantissa :=
    match d.digitText with
    | [] => []
    | [c] => [c]
    | c :: rest => c :: '.' :: rest
  let power := d.point - 1
  String.ofList mantissa ++ (if power < 0 then "e-" else "e+") ++ toString power.natAbs

end Decimal

end BlockForest
