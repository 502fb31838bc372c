import BlockForest.Json.Basic

/-!
# Looking into JSON values

What a value is, if it is of the kind asked for, and the fields of an object by their keys. A
field that is null counts as one that is not there.
-/

set_option autoImplicit false

namespace BlockForest.Json

/-- The field of an object under a key. -/
def field? (key : String) : Json → Option Json
  | .object fields =>
    match fields.lookup key with
    | some .null => none
    | other => other
  | _ => none

def asBool? : Json → Option Bool
  | .bool b => some b
  | _ => none

def asInteger? : Json → Option Int
  | .number (.integer n) => some n
  | _ => none

def asNatural? (j : Json) : Option Nat :=
  j.asInteger?.bind fun n => if 0 ≤ n then some n.toNat else none

def asString? : Json → Option String
  | .string s => some s
  | _ => none

def asItems? : Json → Option (List Json)
  | .array items => some items
  | _ => none

end BlockForest.Json
