import BlockForest.Tree.Basic

/-!
# Questions to a tree

What can be read off a tree without changing it. A stale name is answered as an empty block
would be: no flags, no children, no parent.

The walks go down level by level. A chain of distinct blocks is never longer than the arena,
so as many levels as there are slots reach every descendant; `descendants` lists them before
their own descendants and in the order of the child lists, `totalSize` counts them, and
`findChildren` picks those whose payload passes a test, down to a given level.
-/

set_option autoImplicit false

namespace BlockForest.Tree

variable {β : Type}

/-- Whether the block of a name is still there. -/
def contains (t : Tree β) (id : BlockId) : Bool := (t.node? id).isSome

def payload? (t : Tree β) (id : BlockId) : Option β := (t.node? id).map Node.payload

/-- The place of the entry that a block was made by or is described by. -/
def entryRef? (t : Tree β) (id : BlockId) : Option EntryRef := (t.node? id).bind Node.entry

def ownership? (t : Tree β) (id : BlockId) : Option Ownership := (t.node? id).map Node.ownership

def flags (t : Tree β) (id : BlockId) : Flags := (t.node? id).elim Flags.empty Node.flags

/-- Whether a block has all of some flags. -/
def checkFlag (t : Tree β) (id : BlockId) (flag : Flags) : Bool := (t.flags id).contains flag

def isBeingDeleted (t : Tree β) (id : BlockId) : Bool := t.checkFlag id Flags.beingDeleted

def isSerializable (t : Tree β) (id : BlockId) : Bool := t.checkFlag id Flags.serializable

def isLibrary (t : Tree β) (id : BlockId) : Bool :=
  (t.node? id).any fun node => node.children.isSome

/-- The position of a block in its library. -/
def index? (t : Tree β) (id : BlockId) : Option Nat := (t.node? id).bind Node.index

/-- The library that a block belongs to. -/
def parent? (t : Tree β) (id : BlockId) : Option BlockId := (t.node? id).bind Node.parent

/-- The children of a library, in order. -/
def children (t : Tree β) (id : BlockId) : List BlockId :=
  ((t.node? id).bind Node.children).getD []

def childAt? (t : Tree β) (library : BlockId) (index : Nat) : Option BlockId :=
  (t.children library)[index]?

/-- The number of children. -/
def childCount (t : Tree β) (library : BlockId) : Nat := (t.children library).length

def blockName? (t : Tree β) (id : BlockId) : Option String := (t.node? id).map Node.name

def isFrozen (t : Tree β) (id : BlockId) : Bool := (t.node? id).any Node.frozen

def infoString? [Payload β] (t : Tree β) (id : BlockId) : Option String :=
  (t.payload? id).map Payload.infoString

/-- The block of a name, or the complaint that the name is stale. -/
def require (t : Tree β) (id : BlockId) : Except TreeError (Node β) :=
  match t.node? id with
  | some node => .ok node
  | none => .error (.staleBlock id)

/-- The children of a library, or the complaint that there is no such library. -/
def requireLibrary (t : Tree β) (id : BlockId) : Except TreeError (List BlockId) :=
  match t.node? id with
  | some node =>
    match node.children with
    | some children => .ok children
    | none => .error (.notALibrary id)
  | none => .error (.staleBlock id)

/-- The libraries above a block and the block itself, from the block upwards, as far as the
given number of blocks. -/
def lineage (t : Tree β) : Nat → BlockId → List BlockId
  | 0, _ => []
  | count + 1, id =>
    id :: (t.parent? id).elim [] fun parent => t.lineage count parent

/-- The block and every library above it. -/
def ancestors (t : Tree β) (id : BlockId) : List BlockId := t.lineage (t.slots.size + 1) id

/-- A block and its descendants down to a number of levels below it. -/
def listing (t : Tree β) : Nat → BlockId → List BlockId
  | 0, id => [id]
  | levels + 1, id => id :: (t.children id).flatMap (t.listing levels)

/-- A block and all its descendants, each before its own. -/
def descendants (t : Tree β) (root : BlockId) : List BlockId :=
  if t.contains root then t.listing t.slots.size root else []

/-- The number of descendants down to a number of levels. -/
def countBelow (t : Tree β) : Nat → BlockId → Nat
  | 0, _ => 0
  | levels + 1, id => ((t.children id).map fun child => t.countBelow levels child + 1).sum

/-- The number of descendants of a block, itself not counted. -/
def totalSize (t : Tree β) (library : BlockId) : Nat := t.countBelow t.slots.size library

/-- The blocks whose payload passes a test, among a block and its descendants down to a number
of levels below it. -/
def matching (t : Tree β) (test : β → Bool) : Nat → BlockId → List BlockId
  | 0, id => if (t.payload? id).any test then [id] else []
  | levels + 1, id =>
    (if (t.payload? id).any test then [id] else [])
      ++ (t.children id).flatMap (t.matching test levels)

/-- The blocks whose payload passes a test, among a block and its descendants. Without a depth
the whole subtree is searched. -/
def findChildren (t : Tree β) (test : β → Bool) (root : BlockId) (depth : Option Nat) :
    List BlockId := t.matching test (depth.getD t.slots.size) root

/-- The tree in words. -/
def describe (t : Tree β) : String :=
  "BlockTree \x7b len: " ++ toString t.size ++ ", observers: " ++ toString t.observers.length
    ++ " \x7d"

end BlockForest.Tree
