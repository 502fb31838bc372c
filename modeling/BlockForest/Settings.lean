import BlockForest.Json.Basic

/-!
# Settings

The settings that writing and reading streams share. They are given in code or as a JSON
document: an object, in which unknown fields are passed over and missing ones keep their
default, or an array of the settings in their order. A setting that is given twice is an
error. Settings are valid when both limits leave room for something.
-/

set_option autoImplicit false

namespace BlockForest

/-- Settings of streams. -/
structure Settings where
  /-- The tag of the profile that streams declare. -/
  subProfileSignature : UInt32
  /-- The version of that profile. -/
  subProfileVersion : UInt32
  /-- The room set aside for the properties of a block, in bytes. -/
  stagingCapacity : Nat
  /-- The most bytes that the properties of a block may take. -/
  maxPayloadSize : UInt32
  /-- How deep blocks may be nested. -/
  maxDepth : Nat
deriving DecidableEq

/-- Why settings are refused. -/
inductive SettingsError where
  | parse
  | invalid (field reason : String)
deriving DecidableEq

/-- The name of the kind of a refusal. -/
def SettingsError.kind : SettingsError → String
  | .parse => "Parse"
  | .invalid _ _ => "Invalid"

/-- The text of a refusal, for those that have one of their own. -/
def SettingsError.message? : SettingsError → Option String
  | .parse => none
  | .invalid field reason => some ("Invalid setting " ++ field ++ ": " ++ reason)

namespace Settings

def defaults : Settings where
  subProfileSignature := 0
  subProfileVersion := 0
  stagingCapacity := 1024
  maxPayloadSize := 16777216
  maxDepth := 1024

/-- Whether both limits leave room for something. -/
def validate (s : Settings) : Except SettingsError Unit :=
  if s.maxPayloadSize = 0 then
    .error (.invalid "max_payload_size" "must be greater than zero")
  else if s.maxDepth = 0 then .error (.invalid "max_depth" "must be greater than zero")
  else .ok ()

/-- The settings, by the place they have in a list of all. -/
inductive Field where
  | subProfileSignature
  | subProfileVersion
  | stagingCapacity
  | maxPayloadSize
  | maxDepth
deriving DecidableEq

namespace Field

/-- All settings in their order. -/
def all : List Field :=
  [.subProfileSignature, .subProfileVersion, .stagingCapacity, .maxPayloadSize, .maxDepth]

def label : Field → String
  | .subProfileSignature => "sub_profile_signature"
  | .subProfileVersion => "sub_profile_version"
  | .stagingCapacity => "staging_capacity"
  | .maxPayloadSize => "max_payload_size"
  | .maxDepth => "max_depth"

def ofLabel? (label : String) : Option Field := all.find? fun field => field.label = label

/-- The first number that is too large for a setting. -/
def bound : Field → Nat
  | .stagingCapacity => UInt64.size
  | .maxDepth => UInt64.size
  | _ => UInt32.size

end Field

/-- The settings with one of them changed. -/
def set (s : Settings) (field : Field) (n : Nat) : Settings :=
  match field with
  | .subProfileSignature => { s with subProfileSignature := UInt32.ofNat n }
  | .subProfileVersion => { s with subProfileVersion := UInt32.ofNat n }
  | .stagingCapacity => { s with stagingCapacity := n }
  | .maxPayloadSize => { s with maxPayloadSize := UInt32.ofNat n }
  | .maxDepth => { s with maxDepth := n }

/-- The settings with those changed that a number is given for. -/
def override (s : Settings) (given : Field → Option Nat) : Settings :=
  Field.all.foldl (fun s field => (given field).elim s (s.set field)) s

def get (s : Settings) : Field → Nat
  | .subProfileSignature => s.subProfileSignature.toNat
  | .subProfileVersion => s.subProfileVersion.toNat
  | .stagingCapacity => s.stagingCapacity
  | .maxPayloadSize => s.maxPayloadSize.toNat
  | .maxDepth => s.maxDepth

open Json (Document Piece)

/-- Takes one setting from a document. -/
def read (s : Settings) (field : Field) : Document → Option Settings
  | .number n =>
    match n.number? with
    | some (.integer i) =>
      if 0 ≤ i ∧ i < (field.bound : Int) then some (s.set field i.toNat) else none
    | _ => none
  | _ => none

/-- Takes settings from the fields of an object; `seen` are those that were given before. -/
def readFields : Settings → List Field → List (List Piece × Document) → Option Settings
  | s, _, [] => some s
  | s, seen, (label, contents) :: rest =>
    match Json.pieceText? label with
    | none => none
    | some label =>
      match Field.ofLabel? label with
      | none => readFields s seen rest
      | some field =>
        if field ∈ seen then none
        else
          match s.read field contents with
          | some s => readFields s (field :: seen) rest
          | none => none

/-- Takes settings from the items of an array, in their order. -/
def readItems : Settings → List Field → List Document → Option Settings
  | s, _, [] => some s
  | _, [], _ :: _ => none
  | s, field :: fields, contents :: rest =>
    match s.read field contents with
    | some s => readItems s fields rest
    | none => none

/-- The settings that a document writes. -/
def ofDocument? : Document → Option Settings
  | .object fields => readFields defaults [] fields
  | .array items => readItems defaults Field.all items
  | _ => none

/-- The valid settings that a JSON text writes. -/
def ofJsonText (text : Bytes) : Except SettingsError Settings :=
  match (Document.parse? text).bind ofDocument? with
  | none => .error .parse
  | some s =>
    match s.validate with
    | .ok () => .ok s
    | .error e => .error e

/-- The settings as JSON, in their order. -/
def toJson (s : Settings) : Json :=
  .object (Field.all.map fun field => (field.label, .number (.integer (s.get field))))

end Settings

end BlockForest
