import BlockForest.Bytes.Text

/-!
# Identifiers of names

Types and properties are identified in streams by a 32-bit hash of their name: the FNV-1a hash
of its UTF-8 bytes. Streams outlive programs, so the function never changes.
-/

set_option autoImplicit false

namespace BlockForest

/-- Takes one more byte into a hash. -/
def hashByte (hash : UInt32) (b : UInt8) : UInt32 := (hash ^^^ b.toUInt32) * 0x01000193

/-- The identifier of a name. -/
def nameHash (name : String) : UInt32 := (Bytes.ofString name).foldl hashByte 0x811c9dc5

end BlockForest
