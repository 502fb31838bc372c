/-!
# Block flags

A block carries 32 flags. The first seven have a meaning of their own, the others are left to
the types, which get them by number from `extension?`. Any combination of bits is a set of
flags, whether declared or not.
-/

set_option autoImplicit false

namespace BlockForest

/-- A set of flags. -/
structure Flags where
  bits : UInt32
deriving DecidableEq

namespace Flags

def empty : Flags := ⟨0⟩

/-- The block is being torn down. -/
def beingDeleted : Flags := ⟨1⟩

/-- The block takes part in serialization. -/
def serializable : Flags := ⟨2⟩

/-- The block can be navigated to. -/
def browsable : Flags := ⟨4⟩

/-- Users can modify the block. -/
def editable : Flags := ⟨8⟩

/-- The block is owned by the system and users cannot remove it. -/
def systemOwned : Flags := ⟨16⟩

/-- The block is part of the system. -/
def system : Flags := ⟨32⟩

/-- The block was made by the registry entry of its type. -/
def allocated : Flags := ⟨64⟩

/-- All flags with a declared meaning. -/
def declared : Flags := ⟨127⟩

def union (a b : Flags) : Flags := ⟨a.bits ||| b.bits⟩

def inter (a b : Flags) : Flags := ⟨a.bits &&& b.bits⟩

/-- The flags of `a` that are not in `b`. -/
def minus (a b : Flags) : Flags := ⟨a.bits &&& ~~~b.bits⟩

/-- Whether every flag of `b` is in `a`. -/
def contains (a b : Flags) : Bool := a.bits &&& b.bits == b.bits

/-- Whether `a` and `b` have a flag in common. -/
def intersects (a b : Flags) : Bool := a.bits &&& b.bits != 0

/-- The number of the first flag that is left to the types. -/
def watermark : UInt32 := 7

/-- The `n`-th flag that is left to the types, if there are so many. -/
def extension? (n : UInt32) : Option Flags :=
  if watermark.toNat + n.toNat < 32 then some ⟨1 <<< (watermark + n)⟩ else none

/-- Whether any flag that is left to the types is set. -/
def hasExtensions (a : Flags) : Bool := a.bits >>> watermark != 0

end Flags

end BlockForest
