import BlockForest.Json.Basic
import BlockForest.Value.Basic

/-!
# Values as JSON

A value is written as an object with one field, whose name is the kind and whose contents are
the value: `{"Int":3}`. Bytes are an array of numbers. A double that is no number is
written as null and cannot be read back. Reading is strict: exactly one field with a known
name, and integers that fit the kind and are written without a fraction or an exponent.
-/

set_option autoImplicit false

namespace BlockForest.Value

/-- The field that announces each kind. -/
def Kind.label : Kind → String
  | .bool => "Bool"
  | .int => "Int"
  | .uint => "UInt"
  | .long => "Long"
  | .ulong => "ULong"
  | .double => "Double"
  | .string => "String"
  | .bytes => "Bytes"
  | .list => "List"

/-- The kind that a field announces. -/
def Kind.ofLabel? (label : String) : Option Kind :=
  [.bool, .int, .uint, .long, .ulong, .double, .string, .bytes, .list].find?
    fun (kind : Kind) => kind.label = label

mutual
/-- A value as JSON. -/
def toJson : Value → Json
  | .bool b => .object [(Kind.bool.label, .bool b)]
  | .int i => .object [(Kind.int.label, .number (.integer i.toInt))]
  | .uint u => .object [(Kind.uint.label, .number (.integer u.toNat))]
  | .long l => .object [(Kind.long.label, .number (.integer l.toInt))]
  | .ulong u => .object [(Kind.ulong.label, .number (.integer u.toNat))]
  | .double d => .object [(Kind.double.label, .number (.double d))]
  | .string s => .object [(Kind.string.label, .string s)]
  | .bytes b => .object [(Kind.bytes.label, .array (b.map fun x => .number (.integer x.toNat)))]
  | .list items => .object [(Kind.list.label, .array (toJsonItems items))]

def toJsonItems : List Value → List Json
  | [] => []
  | v :: rest => toJson v :: toJsonItems rest
end

open BlockForest.Json (Document Numeral Number)

/-- The integer that a numeral writes, if it lies in the given range. -/
def integer? (low high : Int) (n : Numeral) : Option Int :=
  match n.number? with
  | some (.integer i) => if low ≤ i ∧ i ≤ high then some i else none
  | _ => none

/-- The bytes that an array of numbers stands for. -/
def bytes? : List Document → Option Bytes
  | [] => some []
  | .number n :: rest =>
    match integer? 0 255 n, bytes? rest with
    | some b, some rest => some (UInt8.ofNat b.toNat :: rest)
    | _, _ => none
  | _ :: _ => none

/-- A value of a kind other than list, from the contents of its field. -/
def scalar? : Kind → Document → Option Value
  | .bool, .bool b => some (.bool b)
  | .int, .number n =>
    (integer? Int32.minValue.toInt Int32.maxValue.toInt n).map fun i => .int (Int32.ofInt i)
  | .uint, .number n =>
    (integer? 0 (UInt32.size - 1 : Nat) n).map fun i => .uint (UInt32.ofNat i.toNat)
  | .long, .number n =>
    (integer? Int64.minValue.toInt Int64.maxValue.toInt n).map fun i => .long (Int64.ofInt i)
  | .ulong, .number n =>
    (integer? 0 (UInt64.size - 1 : Nat) n).map fun i => .ulong (UInt64.ofNat i.toNat)
  | .double, .number n =>
    n.number?.map fun
      | .integer i => .double (Double.ofInt i)
      | .double d => .double d
  | .string, .string ps => (Json.pieceText? ps).map .string
  | .bytes, .array items => (bytes? items).map .bytes
  | _, _ => none

mutual
/-- The value that a document writes. -/
def ofDocument? : Document → Option Value
  | .object fields => ofFields? fields
  | _ => none

def ofFields? : List (List Json.Piece × Document) → Option Value
  | [(label, contents)] =>
    match (Json.pieceText? label).bind Kind.ofLabel? with
    | some .list => (ofContents? contents).map .list
    | some kind => scalar? kind contents
    | none => none
  | _ => none

def ofContents? : Document → Option (List Value)
  | .array items => ofItems? items
  | _ => none

def ofItems? : List Document → Option (List Value)
  | [] => some []
  | v :: rest =>
    match ofDocument? v, ofItems? rest with
    | some v, some rest => some (v :: rest)
    | _, _ => none
end

/-- The value that a text writes. -/
def ofJsonText? (text : Bytes) : Option Value := do
  let document ← Document.parse? text
  if document.nesting ≤ Json.maxNesting then ofDocument? document else none

end BlockForest.Value
