import BlockForest.Tree.Event

/-!
# A tree at work

Blocks are made by the entries of a catalogue and given back to them, and changes are told to
observers. A `Site` holds what an operation on a tree works with: the tree, the catalogue and
the notices sent so far. An operation that can fail returns its outcome together with the site
it leaves behind, since a failure does not always leave everything as it was.

This module makes and reclaims blocks, and defines how notices are sent and single blocks
changed.
-/

set_option autoImplicit false

namespace BlockForest

/-- A tree, the catalogue its blocks are made from, and the notices sent to its observers. -/
structure Site (β : Type) where
  catalogue : Catalogue β
  tree : Tree β
  notices : Array (Notice β)

namespace Site

variable {β : Type}

/-- The site with another tree. -/
@[inline] def setTree (s : Site β) (t : Tree β) : Site β := { s with tree := t }

/-- The site with one block changed. -/
def modify (s : Site β) (id : BlockId) (f : Node β → Node β) : Site β :=
  s.setTree (s.tree.modify id f)

/-- Tells the observers of an event, if there are any. The tree they are shown still has its
observers, while the program takes them out of it as long as it tells them. Only the debug text of
the tree, which counts them, tells the two apart. -/
def notify (s : Site β) (event : TreeEvent) : Site β :=
  if s.tree.observers.isEmpty then s
  else { s with notices := s.notices.push ⟨event, s.tree⟩ }

/-- Tells the observers of an event for each block of a list. -/
def notifyAll (event : BlockId → TreeEvent) (s : Site β) (blocks : List BlockId) : Site β :=
  blocks.foldl (fun s block => s.notify (event block)) s

/-- Tells the observers of an event for a block and each of its descendants. -/
def notifySubtree (s : Site β) (root : BlockId) (event : BlockId → TreeEvent) : Site β :=
  if s.tree.observers.isEmpty then s else notifyAll event s (s.tree.descendants root)

/-! ### Making blocks -/

variable [Payload β]

/-- A new block that belongs to no library. -/
def place (s : Site β) (payload : β) (entry : Option EntryRef) (ownership : Ownership)
    (flags : Flags) : BlockId × Site β :=
  let (id, tree) := s.tree.alloc
    { payload := payload
      entry := entry
      ownership := ownership
      flags := flags
      name := ""
      index := none
      parent := none
      children := if Payload.isLibrary payload then some [] else none
      frozen := false }
  (id, s.setTree tree)

/-- Makes a block through an entry, which counts it. -/
def createFrom (s : Site β) (ref : EntryRef) (entry : Entry β) : BlockId × Site β :=
  { s with catalogue := s.catalogue.countUp ref }.place entry.type.initial (some ref)
    .registryOwned (entry.type.defaultFlags.union Flags.allocated)

/-- Makes a block of the type registered under a name. -/
def createByName (s : Site β) (name : String) : Option BlockId × Site β :=
  match s.catalogue.findName s.tree.registry name with
  | some (ref, entry) => let (id, s) := s.createFrom ref entry; (some id, s)
  | none => (none, s)

/-- Makes a block of the type registered under a name, which has to be there. -/
def create (s : Site β) (name : String) : Except TreeError BlockId × Site β :=
  match s.createByName name with
  | (some id, s) => (.ok id, s)
  | (none, s) => (.error (.unknownType name), s)

/-- Hands a payload over to the tree, which drops it when its block is destroyed. -/
def insertSystem (s : Site β) (payload : β) : BlockId × Site β :=
  s.place payload (s.catalogue.lookupName s.tree.registry (Payload.typeName payload))
    .staticOwned Flags.system

/-- Places a payload that is managed elsewhere. -/
def adopt (s : Site β) (payload : β) : BlockId × Site β :=
  s.place payload (s.catalogue.lookupName s.tree.registry (Payload.typeName payload))
    .unowned Flags.empty

omit [Payload β] in
/-- Whether a block can be taken back by those who manage it. -/
def checkReclaim (t : Tree β) (id : BlockId) : Except TreeError β :=
  match t.require id with
  | .error e => .error e
  | .ok node =>
    if node.ownership ≠ .unowned then .error (.notReclaimable id)
    else if node.parent.isSome then .error (.alreadyAttached id)
    else if !(node.children.getD []).isEmpty then .error (.notReclaimable id)
    else .ok node.payload

omit [Payload β] in
/-- Takes a payload that is managed elsewhere out of the tree. Its block has to stand alone. -/
def reclaim (s : Site β) (id : BlockId) : Except TreeError β × Site β :=
  match checkReclaim s.tree id with
  | .ok payload => (.ok payload, s.setTree (s.tree.vacate id))
  | .error e => (.error e, s)

end Site

end BlockForest
