import BlockForest.Bytes.Word
import BlockForest.Number.Double

/-!
# Property values

A `Value` is what a property of a block is read into and written from. Values of different
kinds never equal each other, even where they stand for the same number, and doubles compare
as numbers do, so a value that holds a NaN differs from itself. The conversions `asInteger?`,
`asNatural?` and `asDouble?` widen the smaller numeric kinds and refuse what does not fit.
-/

set_option autoImplicit false

namespace BlockForest

/-- A property value. -/
inductive Value where
  | bool (b : Bool)
  | int (i : Int32)
  | uint (u : UInt32)
  | long (l : Int64)
  | ulong (u : UInt64)
  | double (d : Double)
  | string (s : String)
  | bytes (bytes : Bytes)
  | list (items : List Value)

namespace Value

/-- The kind of a value. -/
inductive Kind where
  | bool
  | int
  | uint
  | long
  | ulong
  | double
  | string
  | bytes
  | list
deriving DecidableEq

def Kind.text : Kind → String
  | .bool => "bool"
  | .int => "int"
  | .uint => "uint"
  | .long => "long"
  | .ulong => "ulong"
  | .double => "double"
  | .string => "string"
  | .bytes => "bytes"
  | .list => "list"

def kind : Value → Kind
  | .bool _ => .bool
  | .int _ => .int
  | .uint _ => .uint
  | .long _ => .long
  | .ulong _ => .ulong
  | .double _ => .double
  | .string _ => .string
  | .bytes _ => .bytes
  | .list _ => .list

mutual
/-- Equality of values: the same kind, and the same contents up to the equality of
doubles. -/
def same : Value → Value → Bool
  | .bool a, .bool b => a == b
  | .int a, .int b => a == b
  | .uint a, .uint b => a == b
  | .long a, .long b => a == b
  | .ulong a, .ulong b => a == b
  | .double a, .double b => a.same b
  | .string a, .string b => a == b
  | .bytes a, .bytes b => a == b
  | .list a, .list b => sameItems a b
  | _, _ => false

def sameItems : List Value → List Value → Bool
  | [], [] => true
  | a :: as, b :: bs => same a b && sameItems as bs
  | _, _ => false
end

mutual
/-- How many lists stand around the innermost value. -/
def nesting : Value → Nat
  | .list items => itemsNesting items + 1
  | _ => 0

def itemsNesting : List Value → Nat
  | [] => 0
  | v :: rest => max v.nesting (itemsNesting rest)
end

def asBool? : Value → Option Bool
  | .bool b => some b
  | _ => none

def asString? : Value → Option String
  | .string s => some s
  | _ => none

def asBytes? : Value → Option Bytes
  | .bytes b => some b
  | _ => none

def asList? : Value → Option (List Value)
  | .list items => some items
  | _ => none

/-- The signed 64-bit integer that a value of an integral kind stands for, if it fits. -/
def asInteger? : Value → Option Int64
  | .int i => some i.toInt64
  | .uint u => some u.toUInt64.toInt64
  | .long l => some l
  | .ulong u => if u < 0x8000000000000000 then some u.toInt64 else none
  | _ => none

/-- The unsigned 64-bit integer that a value of an integral kind stands for, if it fits. -/
def asNatural? : Value → Option UInt64
  | .int i => if 0 ≤ i then some i.toInt64.toUInt64 else none
  | .uint u => some u.toUInt64
  | .long l => if 0 ≤ l then some l.toUInt64 else none
  | .ulong u => some u
  | _ => none

/-- The double that a value stands for. The 64-bit kinds are left out, since a double does not
hold all of them. -/
def asDouble? : Value → Option Double
  | .double d => some d
  | .int i => some (Double.ofInt i.toInt)
  | .uint u => some (Double.ofNat u.toNat)
  | _ => none

end Value

end BlockForest
