import BlockForest.BlockType
import BlockForest.KeyMap
import BlockForest.NameHash

/-!
# Registry entries

The entry of a block type holds its table of properties, counts the blocks made through it and
keeps the extensions attached to it. In a stream a property is known by the hash of its name,
so a table is built only if no two names of the type have the same hash; then slots and
identifiers are inverse to each other. An extension is attached at most once, and the list of
extensions is in the order in which they were attached.
-/

set_option autoImplicit false

namespace BlockForest

/-- Why a registry refuses a change. -/
inductive RegistryError where
  | typeNotFound (name : String)
  | duplicateType (name : String)
  | typeIdCollision (name existing : String) (id : UInt32)
  | propertyIdCollision (typeName property existing : String) (id : UInt32)
  | instancesAlive (name : String) (count : Nat)
deriving DecidableEq

/-- The name of the kind of a refusal. -/
def RegistryError.kind : RegistryError → String
  | .typeNotFound _ => "TypeNotFound"
  | .duplicateType _ => "DuplicateType"
  | .typeIdCollision _ _ _ => "TypeIdCollision"
  | .propertyIdCollision _ _ _ _ => "PropertyIdCollision"
  | .instancesAlive _ _ => "InstancesAlive"

def RegistryError.message : RegistryError → String
  | .typeNotFound name => "Block type not found: " ++ name
  | .duplicateType name => "Duplicate block type: " ++ name
  | .typeIdCollision name existing id =>
    "Type identifier " ++ Bytes.hexWord id ++ " of " ++ name ++ " collides with " ++ existing
  | .propertyIdCollision typeName property existing id =>
    "Property identifier " ++ Bytes.hexWord id ++ " of " ++ typeName ++ "." ++ property
      ++ " collides with " ++ existing
  | .instancesAlive name count =>
    "Cannot unregister " ++ name ++ ": " ++ toString count ++ " instances alive"

/-- The properties of a type by slot, with their identifiers. -/
structure PropertyTable (β : Type) where
  properties : List (Property β)
  ids : List UInt32
  slots : KeyMap UInt32 Nat

namespace PropertyTable

variable {β : Type}

def empty : PropertyTable β := ⟨[], [], KeyMap.empty⟩

/-- The table with one more property, which has to have an identifier of its own. -/
def push (typeName : String) (table : PropertyTable β) (p : Property β) :
    Except RegistryError (PropertyTable β) :=
  let id := nameHash p.name
  match table.slots.get? id with
  | some slot =>
    let existing := (table.properties[slot]?).elim "" Property.name
    .error (.propertyIdCollision typeName p.name existing id)
  | none =>
    .ok
      { properties := table.properties ++ [p]
        ids := table.ids ++ [id]
        slots := table.slots.insert id table.properties.length }

/-- The table with more properties, in order; the first collision is reported. -/
def extend (typeName : String) :
    PropertyTable β → List (Property β) → Except RegistryError (PropertyTable β)
  | table, [] => .ok table
  | table, p :: rest =>
    match table.push typeName p with
    | .ok table => extend typeName table rest
    | .error e => .error e

/-- The table of a list of properties. -/
def build (typeName : String) (properties : List (Property β)) :
    Except RegistryError (PropertyTable β) := extend typeName empty properties

/-- The property at a slot. -/
def property? (table : PropertyTable β) (slot : Nat) : Option (Property β) :=
  table.properties[slot]?

/-- The identifier of the property at a slot. -/
def id? (table : PropertyTable β) (slot : Nat) : Option UInt32 := table.ids[slot]?

/-- The slot of the property with an identifier. -/
def slot? (table : PropertyTable β) (id : UInt32) : Option Nat := table.slots.get? id

/-- The slot of the property with a name. A name that merely has the hash of a property in the
table is not in the table. -/
def slotByName? (table : PropertyTable β) (name : String) : Option Nat :=
  (table.slot? (nameHash name)).filter fun slot =>
    (table.property? slot).any fun p => p.name = name

end PropertyTable

/-- An extension attached to a block type. Two extensions are the same only if they have the
same number, whatever their names. -/
structure Extension where
  number : Nat
  name : String
deriving DecidableEq

/-- The registry entry of a block type. -/
structure Entry (β : Type) where
  type : BlockType β
  table : PropertyTable β
  instances : Nat
  extensions : List Extension

namespace Entry

variable {β : Type}

/-- The entry of a type of which no block exists yet. -/
def of (type : BlockType β) : Except RegistryError (Entry β) :=
  match PropertyTable.build type.name type.properties with
  | .ok table => .ok { type, table, instances := 0, extensions := [] }
  | .error e => .error e

def name (e : Entry β) : String := e.type.name

/-- The identifier of the type in streams. -/
def typeId (e : Entry β) : UInt32 := nameHash e.name

/-- Whether the entry may be taken out of a registry. -/
def canUnload (e : Entry β) : Bool := e.instances == 0

/-- The entry with one more block alive. -/
def countUp (e : Entry β) : Entry β := { e with instances := e.instances + 1 }

/-- The entry with one block less. -/
def countDown (e : Entry β) : Entry β := { e with instances := e.instances - 1 }

/-- Whether this very extension is attached. -/
def hasExtension (e : Entry β) (x : Extension) : Bool :=
  e.extensions.any fun y => y.number = x.number

/-- Attaches an extension behind the others, unless it is attached already. -/
def attachExtension (e : Entry β) (x : Extension) : Bool × Entry β :=
  if e.hasExtension x then (false, e) else (true, { e with extensions := e.extensions ++ [x] })

/-- Detaches an extension and says whether it was attached. -/
def detachExtension (e : Entry β) (x : Extension) : Bool × Entry β :=
  let kept := e.extensions.filter fun y => y.number ≠ x.number
  (kept.length != e.extensions.length, { e with extensions := kept })

/-- The first extension with a name. -/
def extension? (e : Entry β) (name : String) : Option Extension :=
  e.extensions.find? fun x => x.name = name

/-- All extensions with a name. -/
def extensionsNamed (e : Entry β) (name : String) : List Extension :=
  e.extensions.filter fun x => x.name = name

/-- The entry without extensions. -/
def clearExtensions (e : Entry β) : Entry β := { e with extensions := [] }

/-- The values of all properties of a payload, with nothing where the entry cannot read it. -/
def readAll (e : Entry β) (payload : β) : List (Option Value) :=
  e.table.properties.map fun p => p.read payload

/-- A property in words. -/
def describeProperty (p : Property β) : String :=
  "PropertyDescriptor \x7b name: \"" ++ p.name ++ "\", stored: " ++ toString p.stored
    ++ ", writable: " ++ toString p.isWritable ++ " \x7d"

/-- The entry in words. -/
def describe (e : Entry β) : String :=
  "MetaBlock \x7b name: \"" ++ e.name ++ "\", type_id: " ++ Bytes.hexWord e.typeId
    ++ ", properties: [" ++ ", ".intercalate (e.table.properties.map describeProperty)
    ++ "], instances: " ++ toString e.instances ++ ", extensions: "
    ++ toString e.extensions.length ++ " \x7d"

end Entry

end BlockForest
