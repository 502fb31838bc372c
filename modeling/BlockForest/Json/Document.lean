import BlockForest.Bytes.Word

/-!
# The grammar of JSON documents

A `Document` is what the JSON grammar says about a text and no more: the digits of a numeral
stay digits, and an escaped UTF-16 unit in a string stays a unit. Whether a numeral fits a
double, whether units pair up to characters and whether bytes are UTF-8 is decided by those
who read a part of the document, so a part that nobody reads need only be grammatical.

`Document.parse?` accepts exactly one value surrounded by blanks. It never looks at a byte
twice, so a count equal to the length of the text bounds both its nesting and its loops.
-/

set_option autoImplicit false

namespace BlockForest.Json

/-- A piece of a string: a byte that stands for itself, or an escaped UTF-16 unit. -/
inductive Piece where
  | byte (b : UInt8)
  | unit (u : UInt16)
deriving DecidableEq

/-- A number as it is written. -/
structure Numeral where
  negative : Bool
  whole : List Nat
  fraction : Option (List Nat)
  exponent : Option (Bool × List Nat)
deriving DecidableEq

/-- A value as it is written. -/
inductive Document where
  | null
  | bool (b : Bool)
  | number (n : Numeral)
  | string (pieces : List Piece)
  | array (items : List Document)
  | object (fields : List (List Piece × Document))

def isBlank (b : UInt8) : Bool := b == 0x20 || b == 0x0a || b == 0x0d || b == 0x09

def isDigit (b : UInt8) : Bool := 0x30 ≤ b && b ≤ 0x39

def skipBlanks (text : Bytes) : Bytes := text.dropWhile isBlank

/-- The digits at the front of a text, and the text after them. -/
def digits (text : Bytes) : List Nat × Bytes :=
  ((text.takeWhile isDigit).map (fun b => b.toNat - 0x30), text.dropWhile isDigit)

/-- The digits after a decimal point, of which there is at least one. -/
def fraction? : Bytes → Option (Option (List Nat) × Bytes)
  | 0x2e :: text =>
    match digits text with
    | ([], _) => none
    | (ds, rest) => some (some ds, rest)
  | text => some (none, text)

/-- The sign at the front of an exponent: true for a negative one. -/
def exponentSign : Bytes → Bool × Bytes
  | 0x2b :: text => (false, text)
  | 0x2d :: text => (true, text)
  | text => (false, text)

/-- An exponent mark, a sign and at least one digit. -/
def exponent? : Bytes → Option (Option (Bool × List Nat) × Bytes)
  | b :: text =>
    if b == 0x65 || b == 0x45 then
      let (negative, text) := exponentSign text
      match digits text with
      | ([], _) => none
      | (ds, rest) => some (some (negative, ds), rest)
    else some (none, b :: text)
  | [] => some (none, [])

/-- The digits before a decimal point: a zero stands alone. -/
def whole? (text : Bytes) : Option (List Nat × Bytes) :=
  match digits text with
  | ([], _) => none
  | (0 :: _ :: _, _) => none
  | (ds, rest) => some (ds, rest)

/-- A number without its sign. -/
def unsigned? (negative : Bool) (text : Bytes) : Option (Numeral × Bytes) := do
  let (whole, text) ← whole? text
  let (fraction, text) ← fraction? text
  let (exponent, text) ← exponent? text
  some ({ negative, whole, fraction, exponent }, text)

/-- A number, with a minus sign in front of it if it is negative. -/
def numeral? : Bytes → Option (Numeral × Bytes)
  | 0x2d :: text => unsigned? true text
  | text => unsigned? false text

/-- The value of a hexadecimal digit of either case. -/
def hexDigit? (b : UInt8) : Option Nat :=
  if 0x30 ≤ b && b ≤ 0x39 then some (b.toNat - 0x30)
  else if 0x61 ≤ b && b ≤ 0x66 then some (b.toNat - 0x57)
  else if 0x41 ≤ b && b ≤ 0x46 then some (b.toNat - 0x37)
  else none

/-- The UTF-16 unit written by four hexadecimal digits. -/
def unit? (a b c d : UInt8) : Option UInt16 := do
  let a ← hexDigit? a
  let b ← hexDigit? b
  let c ← hexDigit? c
  let d ← hexDigit? d
  some (UInt16.ofNat (((a * 16 + b) * 16 + c) * 16 + d))

/-- The byte that a one-letter escape stands for. -/
def escape? (b : UInt8) : Option UInt8 :=
  if b == 0x22 || b == 0x5c || b == 0x2f then some b
  else if b == 0x62 then some 0x08
  else if b == 0x66 then some 0x0c
  else if b == 0x6e then some 0x0a
  else if b == 0x72 then some 0x0d
  else if b == 0x74 then some 0x09
  else none

/-- The inside of a string up to its closing quote, and the text after it. -/
def pieces? : Bytes → Option (List Piece × Bytes)
  | [] => none
  | 0x22 :: text => some ([], text)
  | 0x5c :: 0x75 :: a :: b :: c :: d :: text =>
    match unit? a b c d, pieces? text with
    | some u, some (ps, rest) => some (.unit u :: ps, rest)
    | _, _ => none
  | 0x5c :: e :: text =>
    match escape? e, pieces? text with
    | some b, some (ps, rest) => some (.byte b :: ps, rest)
    | _, _ => none
  | b :: text =>
    if b < 0x20 then none
    else
      match pieces? text with
      | some (ps, rest) => some (.byte b :: ps, rest)
      | none => none

/-- The items of an array up to its closing bracket. -/
def items? (value? : Bytes → Option (Document × Bytes)) :
    Nat → Bytes → Option (List Document × Bytes)
  | 0, _ => none
  | count + 1, text =>
    match value? text with
    | none => none
    | some (v, text) =>
      match skipBlanks text with
      | 0x5d :: text => some ([v], text)
      | 0x2c :: text =>
        match items? value? count text with
        | some (vs, text) => some (v :: vs, text)
        | none => none
      | _ => none

/-- A key and the colon after it. -/
def key? (text : Bytes) : Option (List Piece × Bytes) :=
  match skipBlanks text with
  | 0x22 :: text =>
    match pieces? text with
    | some (key, text) =>
      match skipBlanks text with
      | 0x3a :: text => some (key, text)
      | _ => none
    | none => none
  | _ => none

/-- The fields of an object up to its closing brace. -/
def fields? (value? : Bytes → Option (Document × Bytes)) :
    Nat → Bytes → Option (List (List Piece × Document) × Bytes)
  | 0, _ => none
  | count + 1, text =>
    match key? text with
    | none => none
    | some (key, text) =>
      match value? text with
      | none => none
      | some (v, text) =>
        match skipBlanks text with
        | 0x7d :: text => some ([(key, v)], text)
        | 0x2c :: text =>
          match fields? value? count text with
          | some (fs, text) => some ((key, v) :: fs, text)
          | none => none
        | _ => none

/-- A value with less than the given nesting, after any blanks. -/
def value? : Nat → Bytes → Option (Document × Bytes)
  | 0, _ => none
  | fuel + 1, text =>
    match skipBlanks text with
    | 0x6e :: 0x75 :: 0x6c :: 0x6c :: text => some (.null, text)
    | 0x74 :: 0x72 :: 0x75 :: 0x65 :: text => some (.bool true, text)
    | 0x66 :: 0x61 :: 0x6c :: 0x73 :: 0x65 :: text => some (.bool false, text)
    | 0x22 :: text => (pieces? text).map fun (ps, text) => (.string ps, text)
    | 0x5b :: text =>
      match skipBlanks text with
      | 0x5d :: text => some (.array [], text)
      | text => (items? (value? fuel) fuel text).map fun (vs, text) => (.array vs, text)
    | 0x7b :: text =>
      match skipBlanks text with
      | 0x7d :: text => some (.object [], text)
      | text => (fields? (value? fuel) fuel text).map fun (fs, text) => (.object fs, text)
    | text => (numeral? text).map fun (n, text) => (.number n, text)

/-- The document that a whole text writes. -/
def Document.parse? (text : Bytes) : Option Document :=
  match value? (text.length + 1) text with
  | some (v, rest) => if (skipBlanks rest).isEmpty then some v else none
  | none => none

mutual
/-- How many arrays and objects stand around the innermost value. -/
def Document.nesting : Document → Nat
  | .array items => Document.itemsNesting items + 1
  | .object fields => Document.fieldsNesting fields + 1
  | _ => 0

def Document.itemsNesting : List Document → Nat
  | [] => 0
  | v :: rest => max v.nesting (Document.itemsNesting rest)

def Document.fieldsNesting : List (List Piece × Document) → Nat
  | [] => 0
  | (_, v) :: rest => max v.nesting (Document.fieldsNesting rest)
end

end BlockForest.Json
