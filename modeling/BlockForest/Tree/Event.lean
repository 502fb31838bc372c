import BlockForest.Tree.Query

/-!
# Tree events

Observers of a tree are told of every change to its structure twice: of what is about to
happen while the old state still holds, and of what has happened once the new state is in
place. A `Notice` is an event together with the tree as it is shown to the observers at that
moment. All observers receive the same notices in the same order.
-/

set_option autoImplicit false

namespace BlockForest

/-- What a tree tells its observers. -/
inductive TreeEvent where
  | addingBlock (library : BlockId) (index : Nat)
  | blockAdded (library : BlockId) (index : Nat)
  | removingBlock (library : BlockId) (index : Nat)
  | blockRemoved (library : BlockId) (index : Nat)
  | swappingBlocks (library : BlockId) (first second : Nat)
  | blocksSwapped (library : BlockId) (first second : Nat)
  | movingBlock (library : BlockId) (source target : Nat)
  | blockMoved (library : BlockId) (source target : Nat)
  | clearing (library : BlockId)
  | cleared (library : BlockId)
  | indexChanged (block : BlockId) (old new : Option Nat)
  | inserted (block : BlockId)
  | removed (block : BlockId)
  | deleted (block : BlockId)
  | nameChanged (block : BlockId)
  | freezeChanged (block : BlockId) (frozen : Bool)
  | changed (block : BlockId)
deriving DecidableEq

/-- The name of the kind of an event. -/
def TreeEvent.kind : TreeEvent → String
  | .addingBlock _ _ => "AddingBlock"
  | .blockAdded _ _ => "BlockAdded"
  | .removingBlock _ _ => "RemovingBlock"
  | .blockRemoved _ _ => "BlockRemoved"
  | .swappingBlocks _ _ _ => "SwappingBlocks"
  | .blocksSwapped _ _ _ => "BlocksSwapped"
  | .movingBlock _ _ _ => "MovingBlock"
  | .blockMoved _ _ _ => "BlockMoved"
  | .clearing _ => "Clearing"
  | .cleared _ => "Cleared"
  | .indexChanged _ _ _ => "IndexChanged"
  | .inserted _ => "Inserted"
  | .removed _ => "Removed"
  | .deleted _ => "Deleted"
  | .nameChanged _ => "NameChanged"
  | .freezeChanged _ _ => "FreezeChanged"
  | .changed _ => "Changed"

/-- The block that an event is about. -/
def TreeEvent.subject : TreeEvent → BlockId
  | .addingBlock library _ => library
  | .blockAdded library _ => library
  | .removingBlock library _ => library
  | .blockRemoved library _ => library
  | .swappingBlocks library _ _ => library
  | .blocksSwapped library _ _ => library
  | .movingBlock library _ _ => library
  | .blockMoved library _ _ => library
  | .clearing library => library
  | .cleared library => library
  | .indexChanged block _ _ => block
  | .inserted block => block
  | .removed block => block
  | .deleted block => block
  | .nameChanged block => block
  | .freezeChanged block _ => block
  | .changed block => block

/-- An event, and the tree that its receivers see. -/
structure Notice (β : Type) where
  event : TreeEvent
  shown : Tree β

namespace Tree

variable {β : Type}

/-- Adds an observer and returns the number it can be removed by. -/
def subscribe (t : Tree β) : Nat × Tree β :=
  (t.nextObserver,
    { t with
      observers := t.observers ++ [t.nextObserver]
      nextObserver := t.nextObserver + 1 })

/-- Removes an observer and says whether there was one. -/
def unsubscribe (t : Tree β) (observer : Nat) : Bool × Tree β :=
  let kept := t.observers.filter fun o => o ≠ observer
  (kept.length != t.observers.length, { t with observers := kept })

end Tree

end BlockForest
