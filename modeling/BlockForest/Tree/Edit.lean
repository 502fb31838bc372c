import BlockForest.Tree.Site

/-!
# Changing blocks and their places

The attributes of single blocks, and the operations on the child lists of libraries. Each
operation first checks everything that could go wrong and then changes the tree, so one that
fails leaves the tree alone; `reparentAt` checks the target before it takes the block out of
its old library. The exception is `freeze`, which works its way down and stops at the first
child that is gone.

Around every change of a child list the observers are told of it twice. In between come the
changes of positions and, where a block enters or leaves, the blocks of its subtree.
-/

set_option autoImplicit false

namespace BlockForest.Site

variable {β : Type}

/-! ### Attributes -/

/-- Changes a block, if it is there. -/
def update (s : Site β) (id : BlockId) (f : Node β → Node β) : Except TreeError Unit × Site β :=
  if s.tree.contains id then (.ok (), s.modify id f) else (.error (.staleBlock id), s)

/-- Gives a block another name. -/
def rename (s : Site β) (id : BlockId) (name : String) : Except TreeError Unit × Site β :=
  match s.tree.require id with
  | .error e => (.error e, s)
  | .ok node =>
    if node.name = name then (.ok (), s)
    else
      let s := s.modify id fun node => { node with name := name }
      (.ok (), (s.notify (.nameChanged id)).notify (.changed id))

def addFlag (s : Site β) (id : BlockId) (flag : Flags) : Except TreeError Unit × Site β :=
  s.update id fun node => { node with flags := node.flags.union flag }

def removeFlag (s : Site β) (id : BlockId) (flag : Flags) : Except TreeError Unit × Site β :=
  s.update id fun node => { node with flags := node.flags.minus flag }

/-- Says whether a block takes part in serialization. -/
def setSerializable (s : Site β) (id : BlockId) (on : Bool) : Except TreeError Unit × Site β :=
  if on then s.addFlag id Flags.serializable else s.removeFlag id Flags.serializable

/-- Puts another payload into a block. -/
def setPayload (s : Site β) (id : BlockId) (payload : β) : Site β :=
  s.modify id fun node => { node with payload := payload }

/-- Does something to each block of a list, up to the first failure. -/
def forEach (act : Site β → BlockId → Except TreeError Unit × Site β) :
    Site β → List BlockId → Except TreeError Unit × Site β
  | s, [] => (.ok (), s)
  | s, block :: rest =>
    match act s block with
    | (.ok (), s) => forEach act s rest
    | (.error e, s) => (.error e, s)

/-- Freezes or thaws a block and what is below it, down to a number of levels. A block that is
in the wanted state already is passed over together with what is below it. -/
def freezeTo (frozen : Bool) : Nat → Site β → BlockId → Except TreeError Unit × Site β
  | 0, s, _ => (.ok (), s)
  | levels + 1, s, id =>
    match s.tree.require id with
    | .error e => (.error e, s)
    | .ok node =>
      if node.frozen = frozen then (.ok (), s)
      else
        let s := s.modify id fun node => { node with frozen := frozen }
        let s := s.notify (.freezeChanged id frozen)
        forEach (freezeTo frozen levels) s (s.tree.children id)

/-- Freezes or thaws a block and its descendants. -/
def freeze (s : Site β) (id : BlockId) (frozen : Bool) : Except TreeError Unit × Site β :=
  freezeTo frozen (s.tree.slots.size + 1) s id

/-- Optimizes the payloads of a block and its descendants. -/
def optimize [Payload β] (s : Site β) (root : BlockId) : Site β :=
  (s.tree.descendants root).foldl
    (fun s id => s.modify id fun node => { node with payload := Payload.optimize node.payload })
    s

/-! ### Positions -/

/-- Changes the list of children of a library. -/
def modifyChildren (s : Site β) (library : BlockId) (f : List BlockId → List BlockId) : Site β :=
  s.modify library fun node => { node with children := node.children.map f }

def setParent (s : Site β) (block : BlockId) (parent : Option BlockId) : Site β :=
  s.modify block fun node => { node with parent := parent }

/-- Tells a block its position, and the observers if it is a new one. -/
def setIndex (s : Site β) (block : BlockId) (index : Option Nat) : Site β :=
  match s.tree.node? block with
  | none => s
  | some node =>
    if node.index = index then s
    else
      (s.modify block fun node => { node with index := index }).notify
        (.indexChanged block node.index index)

/-- Numbers the blocks of a list from a position on. -/
def number : Site β → Nat → List BlockId → Site β
  | s, _, [] => s
  | s, position, block :: rest => number (s.setIndex block (some position)) (position + 1) rest

/-- Numbers the children of a library from a position on. -/
def reindex (s : Site β) (library : BlockId) (start : Nat) : Site β :=
  number s start ((s.tree.children library).drop start)

/-! ### Insertion -/

variable [Payload β]

omit [Payload β] in
/-- The position of a block among the children of a library. -/
def positionOf (t : Tree β) (library block : BlockId) : Except TreeError Nat :=
  match t.requireLibrary library with
  | .error e => .error e
  | .ok children =>
    match children.idxOf? block with
    | some index => .ok index
    | none => .error (.notAChild library block)

/-- Whether a block may become a child of a library, apart from its position. -/
def checkCompatible (t : Tree β) (library block : BlockId) : Except TreeError Unit :=
  match t.require library, t.require block with
  | .error e, _ => .error e
  | .ok _, .error e => .error e
  | .ok libraryNode, .ok node =>
    if libraryNode.flags.contains Flags.beingDeleted then .error (.beingDeleted library)
    else if node.flags.contains Flags.beingDeleted then .error (.beingDeleted block)
    else if (t.ancestors library).contains block then .error (.cycleDetected library block)
    else if !Payload.accepts libraryNode.payload node.payload then
      .error (.rejected library block)
    else .ok ()

/-- Whether a block may be inserted into a library at a position. -/
def checkInsertion (t : Tree β) (library block : BlockId) (index : Nat) :
    Except TreeError Unit :=
  match t.requireLibrary library with
  | .error e => .error e
  | .ok children =>
    match t.require block with
    | .error e => .error e
    | .ok node =>
      if node.parent.isSome then .error (.alreadyAttached block)
      else if children.length < index then .error (.indexOutOfBounds index children.length)
      else checkCompatible t library block

omit [Payload β] in
/-- Makes a block the child of a library at a position. -/
def attach (s : Site β) (library block : BlockId) (index : Nat) : Site β :=
  let s := s.notify (.addingBlock library index)
  let s := s.modifyChildren library fun children => children.insertIdx index block
  let s := s.setParent block (some library)
  let s := s.reindex library index
  let s := s.notifySubtree block .inserted
  s.notify (.blockAdded library index)

/-- Inserts a block that belongs to no library into a library at a position. -/
def insert (s : Site β) (library block : BlockId) (index : Nat) :
    Except TreeError Unit × Site β :=
  match checkInsertion s.tree library block index with
  | .ok () => (.ok (), s.attach library block index)
  | .error e => (.error e, s)

/-- Inserts a block behind the children of a library. -/
def add (s : Site β) (library block : BlockId) : Except TreeError Unit × Site β :=
  match s.tree.requireLibrary library with
  | .ok children => s.insert library block children.length
  | .error e => (.error e, s)

/-! ### Removal -/

omit [Payload β] in
/-- Takes the child at a position off its library. -/
def unlink (s : Site β) (library block : BlockId) (index : Nat) : Site β :=
  let s := s.notify (.removingBlock library index)
  let s := s.modifyChildren library fun children => children.eraseIdx index
  let s := s.reindex library index
  let s := s.setIndex block none
  let s := s.setParent block none
  let s := s.notifySubtree block .removed
  s.notify (.blockRemoved library index)

omit [Payload β] in
/-- Removes a child from its library. -/
def remove (s : Site β) (library block : BlockId) : Except TreeError Unit × Site β :=
  match positionOf s.tree library block with
  | .ok index => (.ok (), s.unlink library block index)
  | .error e => (.error e, s)

omit [Payload β] in
/-- Removes a block from its library, if it has one. -/
def detach (s : Site β) (block : BlockId) : Except TreeError Unit × Site β :=
  match s.tree.require block with
  | .error e => (.error e, s)
  | .ok node =>
    match node.parent with
    | some library => s.remove library block
    | none => (.ok (), s)

/-! ### Moves -/

/-- Whether a block may be moved to a position of a library; the block is not counted among
the children where it is one of them. -/
def checkReparent (t : Tree β) (block library : BlockId) (index : Nat) :
    Except TreeError (Option BlockId) :=
  match t.require block with
  | .error e => .error e
  | .ok node =>
    match t.requireLibrary library with
    | .error e => .error e
    | .ok children =>
      let length :=
        if node.parent = some library then children.length - 1 else children.length
      if length < index then .error (.indexOutOfBounds index length)
      else
        match checkCompatible t library block with
        | .ok () => .ok node.parent
        | .error e => .error e

/-- Moves a block, whether it belongs to a library or not, to a position of a library. -/
def reparentAt (s : Site β) (block library : BlockId) (index : Nat) :
    Except TreeError Unit × Site β :=
  match checkReparent s.tree block library index with
  | .error e => (.error e, s)
  | .ok none => s.insert library block index
  | .ok (some old) =>
    match s.remove old block with
    | (.ok (), s) => s.insert library block index
    | (.error e, s) => (.error e, s)

/-- Moves a block, whether it belongs to a library or not, behind the children of a library. -/
def reparent (s : Site β) (block library : BlockId) : Except TreeError Unit × Site β :=
  match s.tree.requireLibrary library with
  | .error e => (.error e, s)
  | .ok children =>
    let last :=
      if s.tree.parent? block = some library then children.length - 1 else children.length
    s.reparentAt block library last

omit [Payload β] in
/-- Exchanges the children at two positions, which are given with them. -/
def exchange (s : Site β) (library a b : BlockId) (first second : Nat) : Site β :=
  let s := s.notify (.swappingBlocks library first second)
  let s := s.modifyChildren library fun children => (children.set first b).set second a
  let s := s.setIndex a (some second)
  let s := s.setIndex b (some first)
  s.notify (.blocksSwapped library first second)

omit [Payload β] in
/-- Exchanges two children of a library. -/
def swap (s : Site β) (library a b : BlockId) : Except TreeError Unit × Site β :=
  match positionOf s.tree library a, positionOf s.tree library b with
  | .error e, _ => (.error e, s)
  | .ok _, .error e => (.error e, s)
  | .ok first, .ok second => (.ok (), s.exchange library a b first second)

omit [Payload β] in
/-- Moves the child at one position to another one. -/
def shift (s : Site β) (library block : BlockId) (source target : Nat) : Site β :=
  let s := s.notify (.movingBlock library source target)
  let s := s.modifyChildren library fun children =>
    (children.eraseIdx source).insertIdx target block
  let s := s.reindex library (min source target)
  s.notify (.blockMoved library source target)

omit [Payload β] in
/-- Moves a child of a library to another position. -/
def moveTo (s : Site β) (library block : BlockId) (target : Nat) :
    Except TreeError Unit × Site β :=
  match positionOf s.tree library block with
  | .error e => (.error e, s)
  | .ok source =>
    let length := s.tree.childCount library
    if length ≤ target then (.error (.indexOutOfBounds target length), s)
    else if source = target then (.ok (), s)
    else (.ok (), s.shift library block source target)

end BlockForest.Site
