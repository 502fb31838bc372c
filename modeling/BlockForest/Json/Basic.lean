import BlockForest.Bytes.Text
import BlockForest.Json.Document
import BlockForest.Number.Decimal

/-!
# JSON values

A `Json` is what a document means: numerals have become integers or doubles, strings are text,
and the fields of an object stand in the order of their keys, the last one winning where a key
is repeated. `Json.ofDocument?` finds the meaning and fails on a string that is not text, a
number beyond the doubles, or containers nested 128 deep. `Json.text` writes a value without
any blanks.

An integer is a numeral without fraction or exponent that fits 64 bits, signed or not; minus
zero is a double, since an integer would lose its sign. A double is computed from the digits
that fit 64 bits and a power of ten, with one rounding for the digits and one for each
multiplication or division, so it may differ from the nearest double in its last place.
-/

set_option autoImplicit false

namespace BlockForest

namespace Json

/-- A number, integral or not. -/
inductive Number where
  | integer (n : Int)
  | double (d : Double)
deriving DecidableEq

end Json

/-- A JSON value. -/
inductive Json where
  | null
  | bool (b : Bool)
  | number (n : Json.Number)
  | string (s : String)
  | array (items : List Json)
  | object (fields : List (String × Json))
deriving Inhabited

namespace Json

/-! ### Numbers -/

/-- Appends digits to a number as long as it stays below the bound, and returns the digits
that are left over. -/
def accumulate (bound : Nat) : Nat → List Nat → Nat × List Nat
  | n, [] => (n, [])
  | n, d :: ds => if n * 10 + d < bound then accumulate bound (n * 10 + d) ds else (n, d :: ds)

/-- The magnitude of the double nearest to the product of two magnitudes. -/
def timesMagnitude (a b : Nat) : Nat :=
  let x := (Double.signed false a).toRatio
  let y := (Double.signed false b).toRatio
  Double.ofRatio (x.1 * y.1) (x.2 * y.2)

/-- The magnitude of the double nearest to the quotient of two magnitudes. -/
def overMagnitude (a b : Nat) : Nat :=
  let x := (Double.signed false a).toRatio
  let y := (Double.signed false b).toRatio
  Double.ofRatio (x.1 * y.2) (x.2 * y.1)

/-- The magnitude of a power of ten. -/
def tenMagnitude (power : Nat) : Nat := Double.ofRatio (Decimal.powerOfTen power) 1

/-- Divides a magnitude by a power of ten. One division reaches 10^308; a larger power is
divided out in steps, and nothing is left after a few of them. -/
def dividePower : Nat → Nat → Nat → Nat
  | 0, _, _ => 0
  | steps + 1, f, power =>
    if power ≤ 308 then overMagnitude f (tenMagnitude power)
    else if f = 0 then 0
    else dividePower steps (overMagnitude f (tenMagnitude 308)) (power - 308)

/-- The magnitude of `significand * 10 ^ power`, or nothing when it is infinite. -/
def scaleMagnitude (significand : Nat) (power : Int) : Option Nat :=
  let f := Double.ofRatio significand 1
  if power < 0 then some (dividePower 5 f power.natAbs)
  else if 308 < power then if f = 0 then some 0 else none
  else
    let scaled := timesMagnitude f (tenMagnitude power.toNat)
    if scaled < Double.infinite then some scaled else none

/-- The magnitude written by a numeral that is no integer, or nothing when it is infinite. -/
def Numeral.magnitude? (n : Numeral) : Option Nat :=
  let (whole, left) := accumulate UInt64.size 0 n.whole
  let (significand, dropped) := accumulate UInt64.size whole (n.fraction.getD [])
  let places : Int := (n.fraction.getD []).length - dropped.length
  let power : Int := left.length - places
  match n.exponent with
  | none => scaleMagnitude significand power
  | some (negative, ds) =>
    match accumulate 0x80000000 0 ds with
    | (e, []) => scaleMagnitude significand (if negative then power - e else power + e)
    | (_, _ :: _) => if significand ≠ 0 ∧ !negative then none else some 0

/-- The number that a numeral writes. -/
def Numeral.number? (n : Numeral) : Option Number :=
  let double := n.magnitude?.map fun m => Number.double (Double.signed n.negative m)
  match n.fraction, n.exponent, accumulate UInt64.size 0 n.whole with
  | none, none, (m, []) =>
    if !n.negative then some (.integer m)
    else if m = 0 ∨ Double.signBit < m then
      some (.double (Double.signed true (Double.ofRatio m 1)))
    else some (.integer (-m))
  | _, _, _ => double

/-! ### Strings -/

/-- The bytes that the pieces of a string stand for. A unit of the surrogate range has to be
the first half of a pair whose second half follows. -/
def pieceBytes? : List Piece → Option Bytes
  | [] => some []
  | .byte b :: rest => (pieceBytes? rest).map (b :: ·)
  | .unit u :: .unit v :: rest =>
    let u := u.toNat
    let v' := v.toNat
    if 0xd800 ≤ u ∧ u < 0xdc00 then
      if 0xdc00 ≤ v' ∧ v' < 0xe000 then
        let c := Char.ofNat (0x10000 + (u - 0xd800) * 0x400 + (v' - 0xdc00))
        (pieceBytes? rest).map (String.utf8EncodeChar c ++ ·)
      else none
    else if 0xdc00 ≤ u ∧ u < 0xe000 then none
    else (pieceBytes? (.unit v :: rest)).map (String.utf8EncodeChar (Char.ofNat u) ++ ·)
  | .unit u :: rest =>
    let u := u.toNat
    if 0xd800 ≤ u ∧ u < 0xe000 then none
    else (pieceBytes? rest).map (String.utf8EncodeChar (Char.ofNat u) ++ ·)

/-- The text that the pieces of a string stand for. -/
def pieceText? (pieces : List Piece) : Option String := do
  let bytes ← pieceBytes? pieces
  Bytes.toString? bytes

/-! ### Values -/

/-- Adds a field in the order of the keys, in place of an earlier field of the same key. -/
def insertField (key : String) (value : Json) : List (String × Json) → List (String × Json)
  | [] => [(key, value)]
  | (k, v) :: rest =>
    if key < k then (key, value) :: (k, v) :: rest
    else if key = k then (key, value) :: rest
    else (k, v) :: insertField key value rest

mutual
/-- The meaning of a document, whatever its nesting. -/
def meaning? : Document → Option Json
  | .null => some .null
  | .bool b => some (.bool b)
  | .number n => n.number?.map .number
  | .string ps => (pieceText? ps).map .string
  | .array items => (itemMeanings? items).map .array
  | .object fields => (fieldMeanings? [] fields).map .object

def itemMeanings? : List Document → Option (List Json)
  | [] => some []
  | v :: rest =>
    match meaning? v, itemMeanings? rest with
    | some v, some rest => some (v :: rest)
    | _, _ => none

def fieldMeanings? (seen : List (String × Json)) :
    List (List Piece × Document) → Option (List (String × Json))
  | [] => some seen
  | (key, v) :: rest =>
    match pieceText? key, meaning? v with
    | some key, some v => fieldMeanings? (insertField key v seen) rest
    | _, _ => none
end

/-- How deep the containers of a readable document may be nested. -/
def maxNesting : Nat := 127

/-- The meaning of a document. -/
def ofDocument? (document : Document) : Option Json :=
  if document.nesting ≤ maxNesting then meaning? document else none

/-- The value that a text writes. -/
def parse? (text : Bytes) : Option Json := do
  let document ← Document.parse? text
  ofDocument? document

/-! ### Text -/

/-- A character of a string as it is written between the quotes. -/
def escape (c : Char) : List Char :=
  if c = '"' then ['\\', '"']
  else if c = '\\' then ['\\', '\\']
  else if c = '\x08' then ['\\', 'b']
  else if c = '\x0c' then ['\\', 'f']
  else if c = '\n' then ['\\', 'n']
  else if c = '\r' then ['\\', 'r']
  else if c = '\t' then ['\\', 't']
  else if c.toNat < 0x20 then '\\' :: 'u' :: Bytes.hexDigits 4 c.toNat
  else [c]

/-- A string in quotes. -/
def quote (s : String) : String := "\"" ++ String.ofList (s.toList.flatMap escape) ++ "\""

/-- A double in the fewest digits that read back. Its decimal point is written out where it
stands at most four zeros before the digits or within the first sixteen places; otherwise
there is an exponent. What is no number is written as null. -/
def doubleText (d : Double) : String :=
  if d.isNaN || d.isInfinite then "null"
  else
    let sign := if d.isNegative then "-" else ""
    if d.isZero then sign ++ "0.0"
    else
      let decimal := Decimal.shortest .toEven d
      if -5 < decimal.point ∧ decimal.point ≤ 16 then sign ++ decimal.positional 1
      else sign ++ decimal.scientific

def Number.text : Number → String
  | .integer n => toString n
  | .double d => doubleText d

mutual
/-- The tokens that a value is written in. -/
def tokens : Json → List String
  | .null => ["null"]
  | .bool true => ["true"]
  | .bool false => ["false"]
  | .number n => [n.text]
  | .string s => [quote s]
  | .array items => "[" :: (itemTokens items ++ ["]"])
  | .object fields => "\x7b" :: (fieldTokens fields ++ ["\x7d"])

def itemTokens : List Json → List String
  | [] => []
  | [v] => v.tokens
  | v :: rest => v.tokens ++ "," :: itemTokens rest

def fieldTokens : List (String × Json) → List String
  | [] => []
  | [(k, v)] => quote k :: ":" :: v.tokens
  | (k, v) :: rest => quote k :: ":" :: (v.tokens ++ "," :: fieldTokens rest)
end

/-- The text of a value, without blanks. -/
def text (v : Json) : String := String.join v.tokens

end Json

end BlockForest
