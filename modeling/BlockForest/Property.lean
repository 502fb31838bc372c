import BlockForest.Value.Basic

/-!
# Properties of blocks

A property has a name, may be stored in streams, and reads and writes a `Value` on the payload
of a block. It is described for one type of payload out of all those that a forest holds: on
any other payload it reads nothing and refuses to write. `Facet` is how that one type sits
among the others.
-/

set_option autoImplicit false

namespace BlockForest

/-- Why a property could not be written. -/
inductive PropertyError where
  | typeMismatch (property : String) (expected found : Value.Kind)
  | wrongReceiver (property : String)
  | readOnly (property : String)
  | invalidValue (property : String) (reason : String)
deriving DecidableEq

/-- The name of the kind of a refusal. -/
def PropertyError.kind : PropertyError → String
  | .typeMismatch _ _ _ => "TypeMismatch"
  | .wrongReceiver _ => "WrongReceiver"
  | .readOnly _ => "ReadOnly"
  | .invalidValue _ _ => "InvalidValue"

def PropertyError.message : PropertyError → String
  | .typeMismatch property expected found =>
    "Type mismatch for property " ++ property ++ ": expected " ++ expected.text ++ ", found "
      ++ found.text
  | .wrongReceiver property =>
    "Property " ++ property ++ " accessed on a block of another type"
  | .readOnly property => "Property " ++ property ++ " is read-only"
  | .invalidValue property reason => "Invalid value for property " ++ property ++ ": " ++ reason

/-- One type `γ` of payloads among all payloads `β`. -/
structure Facet (β γ : Type) where
  get? : β → Option γ
  put : γ → β

/-- A property of the payloads `β`. -/
structure Property (β : Type) where
  name : String
  stored : Bool
  read : β → Option Value
  write? : Option (β → Value → Except PropertyError β)

namespace Property

variable {β γ : Type}

/-- A stored property that can be read and written. -/
def readWrite (facet : Facet β γ) (name : String) (read : γ → Value)
    (write : γ → Value → Except PropertyError γ) : Property β where
  name := name
  stored := true
  read payload := (facet.get? payload).map read
  write? := some fun payload value =>
    match facet.get? payload with
    | some inner => (write inner value).map facet.put
    | none => .error (.wrongReceiver name)

/-- A property that can be read but not written. It is never stored. -/
def readOnly (facet : Facet β γ) (name : String) (read : γ → Value) : Property β where
  name := name
  stored := false
  read payload := (facet.get? payload).map read
  write? := none

/-- The same property, left out of streams. -/
def transient (p : Property β) : Property β := { p with stored := false }

def isWritable (p : Property β) : Bool := p.write?.isSome

/-- Writes a value into a payload. -/
def write (p : Property β) (payload : β) (value : Value) : Except PropertyError β :=
  match p.write? with
  | some write => write payload value
  | none => .error (.readOnly p.name)

end Property

/-- The refusal of a value of another kind than the property stores. -/
def PropertyError.mismatch (property : String) (expected : Value.Kind) (found : Value) :
    PropertyError := .typeMismatch property expected found.kind

end BlockForest
