import BlockForest.Flags
import BlockForest.Property

/-!
# Payloads and block types

The blocks of a forest carry payloads of one type `β`, which is a sum of all block types in
use. `Payload` is what every payload can be asked, whatever its block type. A `BlockType` is
what a registry needs to know of one of them: a name, the payload that a new block starts
with, the properties in a fixed order, and the flags of a new block.

Two block types may share a name, since a name is what streams refer to and types are revised;
`covers` tells which payloads are of this very type.
-/

set_option autoImplicit false

namespace BlockForest

/-- What every payload can be asked. -/
class Payload (β : Type) where
  /-- The name of its block type. -/
  typeName : β → String
  /-- Whether a block with this payload contains other blocks. -/
  isLibrary : β → Bool
  /-- Whether a library with the first payload accepts a block with the second. -/
  accepts : β → β → Bool
  /-- The payload after optimization. -/
  optimize : β → β
  /-- A description for people. -/
  infoString : β → String
  /-- The icon in a user interface. -/
  iconPath : β → String

/-- A type of blocks. -/
structure BlockType (β : Type) where
  name : String
  initial : β
  properties : List (Property β)
  defaultFlags : Flags
  covers : β → Bool

end BlockForest
