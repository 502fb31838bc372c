import BlockForest.Registry.Entry

/-!
# The catalogue of block types

A registry finds the entry of a block type by the name and by the identifier of the type.
Entries are shared: a block remembers the entry it was made by, and an entry that was taken
out of its registry goes on counting its blocks. So a `Catalogue` keeps all entries in one
place, where an `EntryRef` names them for good, and the registries beside them only refer to
them. Two holders of the same `RegistryRef` share one registry.

A registry keeps its two maps in step: an entry is found under the name of its type if and
only if it is found under the hash of that name. Changes that fail leave the catalogue as it
was.
-/

set_option autoImplicit false

namespace BlockForest

/-- The place of an entry in a catalogue. -/
abbrev EntryRef := Nat

/-- The place of a registry in a catalogue. -/
abbrev RegistryRef := Nat

/-- The block types that can be found, by name and by identifier. -/
structure Registry where
  byName : KeyMap String EntryRef
  byId : KeyMap UInt32 EntryRef

namespace Registry

def empty : Registry := ⟨KeyMap.empty, KeyMap.empty⟩

/-- The number of registered types. -/
def count (r : Registry) : Nat := r.byName.size

/-- The names of the registered types, in order. -/
def names (r : Registry) : List String := r.byName.keys.mergeSort (fun a b => decide (a ≤ b))

/-- The registry in words. -/
def describe (r : Registry) : String :=
  "BlockRegistry \x7b types: [" ++ ", ".intercalate (r.names.map fun n => "\"" ++ n ++ "\"")
    ++ "] \x7d"

end Registry

/-- All entries and registries. -/
structure Catalogue (β : Type) where
  entries : Array (Entry β)
  registries : Array Registry

namespace Catalogue

variable {β : Type}

def empty : Catalogue β := ⟨#[], #[]⟩

def entryAt? (c : Catalogue β) (ref : EntryRef) : Option (Entry β) := c.entries[ref]?

def registryAt? (c : Catalogue β) (r : RegistryRef) : Option Registry := c.registries[r]?

/-- Changes one entry. -/
def modifyEntry (c : Catalogue β) (ref : EntryRef) (f : Entry β → Entry β) : Catalogue β :=
  match c.entryAt? ref with
  | some entry => { c with entries := c.entries.setIfInBounds ref (f entry) }
  | none => c

/-- Puts another registry in the place of one. -/
def setRegistry (c : Catalogue β) (r : RegistryRef) (registry : Registry) : Catalogue β :=
  { c with registries := c.registries.setIfInBounds r registry }

/-- A further registry without any types. -/
def addRegistry (c : Catalogue β) : RegistryRef × Catalogue β :=
  (c.registries.size, { c with registries := c.registries.push Registry.empty })

/-- A further entry that no registry refers to. -/
def pushEntry (c : Catalogue β) (entry : Entry β) : EntryRef × Catalogue β :=
  (c.entries.size, { c with entries := c.entries.push entry })

/-- The entry of a type, in no registry. -/
def addEntry (c : Catalogue β) (type : BlockType β) :
    Except RegistryError EntryRef × Catalogue β :=
  match Entry.of type with
  | .ok entry => let (ref, c) := c.pushEntry entry; (.ok ref, c)
  | .error e => (.error e, c)

/-- Where the entry registered under a name is kept. -/
def lookupName (c : Catalogue β) (r : RegistryRef) (name : String) : Option EntryRef :=
  (c.registryAt? r).bind fun registry => registry.byName.get? name

/-- Where the entry registered under an identifier is kept. -/
def lookupId (c : Catalogue β) (r : RegistryRef) (id : UInt32) : Option EntryRef :=
  (c.registryAt? r).bind fun registry => registry.byId.get? id

/-- The entry registered under a name, with its place. -/
def findName (c : Catalogue β) (r : RegistryRef) (name : String) :
    Option (EntryRef × Entry β) :=
  (c.lookupName r name).bind fun ref => (c.entryAt? ref).map fun entry => (ref, entry)

/-- The entry registered under an identifier, with its place. -/
def findId (c : Catalogue β) (r : RegistryRef) (id : UInt32) : Option (EntryRef × Entry β) :=
  (c.lookupId r id).bind fun ref => (c.entryAt? ref).map fun entry => (ref, entry)

/-- The registry with one more entry, found under its name and its identifier. -/
def link (registry : Registry) (ref : EntryRef) (entry : Entry β) : Registry where
  byName := registry.byName.insert entry.name ref
  byId := registry.byId.insert entry.typeId ref

/-- The registry without the type of a name and an identifier. -/
def unlink (registry : Registry) (name : String) (id : UInt32) : Registry where
  byName := registry.byName.erase name
  byId := registry.byId.erase id

/-- Registers a type. Its own properties are looked at first, then its name, then the
identifier of the name. -/
def register (c : Catalogue β) (r : RegistryRef) (type : BlockType β) :
    Except RegistryError EntryRef × Catalogue β :=
  match Entry.of type with
  | .error e => (.error e, c)
  | .ok entry =>
    if (c.lookupName r entry.name).isSome then (.error (.duplicateType entry.name), c)
    else
      match c.lookupId r entry.typeId with
      | some ref =>
        let existing := (c.entryAt? ref).elim "" Entry.name
        (.error (.typeIdCollision entry.name existing entry.typeId), c)
      | none =>
        let registry := (c.registryAt? r).getD Registry.empty
        let (ref, c) := c.pushEntry entry
        (.ok ref, c.setRegistry r (link registry ref entry))

/-- Takes a type out of a registry, if no block of it is alive. Its extensions are dropped. -/
def unregister (c : Catalogue β) (r : RegistryRef) (name : String) :
    Except RegistryError Unit × Catalogue β :=
  match c.findName r name with
  | none => (.error (.typeNotFound name), c)
  | some (ref, entry) =>
    if !entry.canUnload then (.error (.instancesAlive name entry.instances), c)
    else
      let registry := (c.registryAt? r).getD Registry.empty
      let c := c.modifyEntry ref Entry.clearExtensions
      (.ok (), c.setRegistry r (unlink registry name entry.typeId))

/-- The catalogue after a block was made by an entry. -/
def countUp (c : Catalogue β) (ref : EntryRef) : Catalogue β := c.modifyEntry ref Entry.countUp

/-- The catalogue after a block was handed back to an entry. -/
def release (c : Catalogue β) (ref : EntryRef) : Catalogue β := c.modifyEntry ref Entry.countDown

/-- Makes a payload through an entry, which counts it as alive. -/
def make (c : Catalogue β) (r : RegistryRef) (name : String) : Option β × Catalogue β :=
  match c.findName r name with
  | some (ref, entry) => (some entry.type.initial, c.countUp ref)
  | none => (none, c)

/-- The registered names with the number of blocks alive of each, in the order of names. -/
def census (c : Catalogue β) (r : RegistryRef) : List (String × Nat) :=
  match c.registryAt? r with
  | some registry =>
    registry.names.filterMap fun name =>
      (c.findName r name).map fun (_, entry) => (name, entry.instances)
  | none => []

end Catalogue

end BlockForest
