import BlockForest.Registry.Catalogue

/-!
# The arena of blocks

A `Tree` owns the blocks of one forest. A block lives in a slot and is named by a `BlockId`,
the number of the slot and the generation of its tenant: a slot is used again after its block
is gone, under the next generation, so an old name never reaches the new block until the
generations have wrapped around. `node?` is the one way to look a name up, and
`node?_modify` says that `modify` changes the named block and no other.

A block whose payload is a library has a list of children, in order. Each child knows its
library and its own position there.
-/

set_option autoImplicit false

namespace BlockForest

/-- The name of a block in the tree that made it. The index has no bound here. The program keeps it
in 32 bits, so names here are the program's as long as a tree has at most `2 ^ 32` slots. -/
structure BlockId where
  index : Nat
  generation : UInt32
deriving DecidableEq

namespace BlockId

def text (id : BlockId) : String :=
  "#" ++ toString id.index ++ "v" ++ toString id.generation.toNat

/-- Whether a name comes before another: by its index, then by its generation. -/
def le (a b : BlockId) : Bool :=
  a.index < b.index || (a.index == b.index && a.generation ≤ b.generation)

/-- The name as one number, the generation in its upper half. -/
def runtimeId (id : BlockId) : UInt64 :=
  (id.generation.toUInt64 <<< 32) ||| UInt64.ofNat id.index

end BlockId

/-- Who gets a block back when it is destroyed. -/
inductive Ownership where
  /-- The registry entry that made it and counts it. -/
  | registryOwned
  /-- The tree itself. -/
  | staticOwned
  /-- Someone else: destroying the block takes it off its place and keeps it. -/
  | unowned
deriving DecidableEq

def Ownership.text : Ownership → String
  | .registryOwned => "RegistryOwned"
  | .staticOwned => "StaticOwned"
  | .unowned => "Unowned"

/-- Why a tree refuses an operation. -/
inductive TreeError where
  | staleBlock (block : BlockId)
  | notALibrary (block : BlockId)
  | alreadyAttached (block : BlockId)
  | notAChild (library block : BlockId)
  | indexOutOfBounds (index length : Nat)
  | cycleDetected (library block : BlockId)
  | rejected (library block : BlockId)
  | beingDeleted (block : BlockId)
  | notDestructible (block : BlockId)
  | notReclaimable (block : BlockId)
  | unknownType (name : String)
deriving DecidableEq

/-- The name of the kind of a refusal. -/
def TreeError.kind : TreeError → String
  | .staleBlock _ => "StaleBlock"
  | .notALibrary _ => "NotALibrary"
  | .alreadyAttached _ => "AlreadyAttached"
  | .notAChild _ _ => "NotAChild"
  | .indexOutOfBounds _ _ => "IndexOutOfBounds"
  | .cycleDetected _ _ => "CycleDetected"
  | .rejected _ _ => "Rejected"
  | .beingDeleted _ => "BeingDeleted"
  | .notDestructible _ => "NotDestructible"
  | .notReclaimable _ => "NotReclaimable"
  | .unknownType _ => "UnknownType"

def TreeError.message : TreeError → String
  | .staleBlock block => "Stale block handle: " ++ block.text
  | .notALibrary block => "Block " ++ block.text ++ " is not a library"
  | .alreadyAttached block => "Block " ++ block.text ++ " already belongs to a library"
  | .notAChild library block => "Block " ++ block.text ++ " is not a child of " ++ library.text
  | .indexOutOfBounds index length =>
    "Index " ++ toString index ++ " out of bounds for library of size " ++ toString length
  | .cycleDetected library block =>
    "Inserting " ++ block.text ++ " into " ++ library.text ++ " would create a cycle"
  | .rejected library block =>
    "Library " ++ library.text ++ " does not accept block " ++ block.text
  | .beingDeleted block => "Block " ++ block.text ++ " is being deleted"
  | .notDestructible block => "Block " ++ block.text ++ " cannot be destroyed by the tree"
  | .notReclaimable block => "Block " ++ block.text ++ " is owned by the tree"
  | .unknownType name => "Block type not registered: " ++ name

/-- A block and its place in the forest. -/
structure Node (β : Type) where
  payload : β
  entry : Option EntryRef
  ownership : Ownership
  flags : Flags
  name : String
  index : Option Nat
  parent : Option BlockId
  children : Option (List BlockId)
  frozen : Bool

/-- A place for a block. The generation counts how many blocks have left it. -/
structure Slot (β : Type) where
  generation : UInt32
  node : Option (Node β)

/-- An arena of blocks. `free` holds the numbers of the empty slots, the next one to be used
first; `size` is the number of blocks. -/
structure Tree (β : Type) where
  registry : RegistryRef
  slots : Array (Slot β)
  free : List Nat
  size : Nat
  observers : List Nat
  nextObserver : Nat

namespace Tree

variable {β : Type}

/-- A tree without blocks, which makes its blocks through a registry. -/
def empty (registry : RegistryRef) : Tree β where
  registry := registry
  slots := #[]
  free := []
  size := 0
  observers := []
  nextObserver := 0

/-- The block of a name, if it is still there. -/
def node? (t : Tree β) (id : BlockId) : Option (Node β) :=
  match t.slots[id.index]? with
  | some slot => if slot.generation = id.generation then slot.node else none
  | none => none

/-- Changes the block of a name, if it is still there. -/
def modify (t : Tree β) (id : BlockId) (f : Node β → Node β) : Tree β :=
  match t.node? id with
  | some node =>
    { t with slots := t.slots.setIfInBounds id.index ⟨id.generation, some (f node)⟩ }
  | none => t

/-- Puts a block into the slot that became free last, or into a new one. The index of a new slot is
the number of slots, whatever that is. The program casts this number to 32 bits, which changes it
only in a tree that has `2 ^ 32` slots already, so up to then the two name the same slot. -/
def alloc (t : Tree β) (node : Node β) : BlockId × Tree β :=
  match t.free with
  | index :: free =>
    let generation := (t.slots[index]?).elim 0 Slot.generation
    (⟨index, generation⟩,
      { t with
        slots := t.slots.setIfInBounds index ⟨generation, some node⟩
        free := free
        size := t.size + 1 })
  | [] =>
    (⟨t.slots.size, 0⟩,
      { t with slots := t.slots.push ⟨0, some node⟩, size := t.size + 1 })

/-- Empties the slot of a block, whose name becomes stale. -/
def vacate (t : Tree β) (id : BlockId) : Tree β :=
  { t with
    slots := t.slots.setIfInBounds id.index ⟨id.generation + 1, none⟩
    free := id.index :: t.free
    size := t.size - 1 }

/-- To change one block changes what is found under its name and under no other. This is the
equation from which all effects on single blocks are computed. -/
theorem node?_modify (t : Tree β) (id other : BlockId) (f : Node β → Node β) :
    (t.modify id f).node? other = if other = id then (t.node? id).map f else t.node? other := by
  unfold modify
  cases hn : t.node? id with
  | none =>
    by_cases ho : other = id
    · subst ho
      simp [hn]
    · simp [ho]
  | some node =>
    unfold node? at hn
    cases hs : t.slots[id.index]? with
    | none => simp [hs] at hn
    | some slot =>
      simp only [hs] at hn
      obtain ⟨hbound, -⟩ := Array.getElem?_eq_some_iff.mp hs
      by_cases hg : slot.generation = id.generation
      · by_cases hi : id.index = other.index
        · by_cases ho : other = id
          · subst ho
            simp [node?, hbound]
          · have hne : id.generation ≠ other.generation := by
              intro h
              exact ho (by cases other; cases id; simp_all)
            simp only [node?, ho, if_false, hi] at hs ⊢
            rw [← hi, Array.getElem?_setIfInBounds_self_of_lt hbound]
            have hne' : slot.generation ≠ other.generation := by rwa [hg]
            simp [hne, hi, hs, hne']
        · have ho : other ≠ id := fun h => hi (by rw [h])
          simp [node?, ho, Array.getElem?_setIfInBounds_ne hi]
      · simp [hg] at hn

end Tree

end BlockForest
