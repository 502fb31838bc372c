import BlockForest.Tree.Edit

/-!
# Destroying blocks

A block is destroyed in steps: it is marked and announced, its children are destroyed one
after the other, it is taken off its library, and last it goes back to its owner. While a
library that is being deleted tears its child list down, its children drop their links
themselves and the list is emptied at the end. A block that is managed elsewhere goes through
every step but the last, and the operation ends with the remark that it is still there.

A block is destroyed level by level, and no chain of blocks is longer than the arena.
-/

set_option autoImplicit false

namespace BlockForest.Site

variable {β : Type}

/-- Gives a block back to its owner and empties its slot. -/
def surrender (s : Site β) (id : BlockId) : Except TreeError Unit × Site β :=
  match s.tree.require id with
  | .error e => (.error e, s)
  | .ok node =>
    if node.ownership = .unowned then (.error (.notDestructible id), s)
    else
      let s := s.setTree (s.tree.vacate id)
      match node.ownership, node.entry with
      | .registryOwned, some ref => (.ok (), { s with catalogue := s.catalogue.release ref })
      | _, _ => (.ok (), s)

/-- Takes a block off a library that is being deleted, which empties its list itself. -/
def dropLinks (s : Site β) (id : BlockId) : Site β :=
  ((s.notify (.removed id)).setIndex id none).setParent id none

/-- Takes a block that is being destroyed off its library, if it has one. -/
def leave (s : Site β) (id : BlockId) : Except TreeError Unit × Site β :=
  match s.tree.parent? id with
  | none => (.ok (), s)
  | some library =>
    if s.tree.isBeingDeleted library then (.ok (), s.dropLinks id) else s.remove library id

/-- Destroys the children of a library one after the other, whatever becomes of each. -/
def clearWith (destroyChild : Site β → BlockId → Except TreeError Unit × Site β) (s : Site β)
    (library : BlockId) : Except TreeError Unit × Site β :=
  match s.tree.requireLibrary library with
  | .error e => (.error e, s)
  | .ok [] => (.ok (), s)
  | .ok (child :: children) =>
    let s := s.notify (.clearing library)
    let s := (child :: children).foldl (fun s c => (destroyChild s c).2) s
    let s := s.modifyChildren library fun _ => []
    (.ok (), s.notify (.cleared library))

/-- Destroys a block and what is below it, down to a number of levels. -/
def destroyTo : Nat → Site β → BlockId → Except TreeError Unit × Site β
  | 0, s, id => (.error (.staleBlock id), s)
  | levels + 1, s, id =>
    if !s.tree.contains id then (.error (.staleBlock id), s)
    else
      let s := s.modify id fun node => { node with flags := node.flags.union Flags.beingDeleted }
      let s := s.notify (.deleted id)
      let cleared := if s.tree.isLibrary id then clearWith (destroyTo levels) s id else (.ok (), s)
      match cleared with
      | (.error e, s) => (.error e, s)
      | (.ok (), s) =>
        match s.leave id with
        | (.error e, s) => (.error e, s)
        | (.ok (), s) => s.surrender id

/-- Destroys a block and its descendants. -/
def destroy (s : Site β) (id : BlockId) : Except TreeError Unit × Site β :=
  destroyTo (s.tree.slots.size + 1) s id

/-- Destroys the children of a library and their descendants. -/
def clear (s : Site β) (library : BlockId) : Except TreeError Unit × Site β :=
  clearWith (destroyTo (s.tree.slots.size + 1)) s library

/-- Gives a block that is dropped together with its tree back to the entry that counts it. -/
def releaseSlot (c : Catalogue β) (slot : Slot β) : Catalogue β :=
  match slot.node with
  | some node =>
    match node.ownership, node.entry with
    | .registryOwned, some ref => c.release ref
    | _, _ => c
  | none => c

/-- The catalogue after a tree is dropped with all its blocks. -/
def dropTree (c : Catalogue β) (t : Tree β) : Catalogue β := t.slots.toList.foldl releaseSlot c

end BlockForest.Site
