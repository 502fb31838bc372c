import BlockForest.BlockType
import BlockForest.Number.Decimal

/-!
# The stock of block payloads

The payloads of the block types that come with the library: the plain library, which only
contains other blocks, and a set of small types that between them have properties of every
kind, stored, transient and read-only ones, accessors that refuse values, names that share a
hash and two revisions of one type. `Stock` is the sum of them all.
-/

set_option autoImplicit false

namespace BlockForest

/-- A leaf with a name. -/
structure Leaf where
  name : String

/-- A library with a title that accepts leaves, folders and sensors. -/
structure Folder where
  title : String
  compacted : Bool

/-- One property of each kind. -/
structure Sensor where
  enabled : Bool
  offset : Int32
  channel : UInt32
  timestamp : Int64
  serial : UInt64
  level : Double
  label : String
  calibration : Bytes
  history : List Value

/-- The first revision of a gauge. -/
structure Gauge where
  low : Double
  high : Double

/-- The second revision of a gauge, which has a unit. -/
structure UnitGauge where
  low : Double
  high : Double
  unit : String

/-- A library of leaves that keeps any value. -/
structure Vault where
  payload : Value
  signed : Int64
  unsigned : UInt64
  ratio : Double
  optimized : UInt32

/-- A leaf with a property that is described for another type. -/
structure Twin where
  scratch : Bool
  altarage : UInt32
  note : String

/-- A payload of one of the stock types. -/
inductive Stock where
  | library
  | leaf (leaf : Leaf)
  | folder (folder : Folder)
  | sensor (sensor : Sensor)
  | gauge (gauge : Gauge)
  | unitGauge (gauge : UnitGauge)
  | costarring
  | liquid
  | clashing
  | vault (vault : Vault)
  | twin (twin : Twin)

/-- A level in the fewest digits that read back, all written out; of two equally near decimals
the larger one is taken. -/
def levelText (d : Double) : String :=
  if d.isNaN then "NaN"
  else
    let sign := if d.isNegative then "-" else ""
    if d.isInfinite then sign ++ "inf"
    else if d.isZero then sign ++ "0"
    else sign ++ (Decimal.shortest .up d).positional 0

/-- A sensor in words. -/
def Sensor.summary (s : Sensor) : String := "Sensor " ++ s.label ++ " (" ++ levelText s.level ++ ")"

namespace Stock

def typeName : Stock → String
  | .library => "Library"
  | .leaf _ => "Leaf"
  | .folder _ => "Folder"
  | .sensor _ => "Sensor"
  | .gauge _ => "Gauge"
  | .unitGauge _ => "Gauge"
  | .costarring => "costarring"
  | .liquid => "liquid"
  | .clashing => "Clashing"
  | .vault _ => "Vault"
  | .twin _ => "Twin"

def isLibrary : Stock → Bool
  | .library => true
  | .folder _ => true
  | .vault _ => true
  | _ => false

/-- Whether a library accepts a block. A payload that is no library has no objections. -/
def accepts : Stock → Stock → Bool
  | .folder _, child => ["Leaf", "Folder", "Sensor"].contains child.typeName
  | .vault _, child => !child.isLibrary
  | _, _ => true

/-- A folder notes that it was compacted, a vault how often it was optimized. -/
def optimize : Stock → Stock
  | .folder f => .folder { f with compacted := true }
  | .vault v => .vault { v with optimized := v.optimized + 1 }
  | payload => payload

def infoString : Stock → String
  | .library => "Basic data library"
  | .leaf l => "Leaf " ++ l.name
  | .sensor s => s.summary
  | payload => payload.typeName

def iconPath : Stock → String
  | .library => "kore/images/icons/library.png"
  | _ => "kore/images/icons/block.png"

instance : Payload Stock where
  typeName := typeName
  isLibrary := isLibrary
  accepts := accepts
  optimize := optimize
  infoString := infoString
  iconPath := iconPath

/-! ### The types among the payloads -/

def leafFacet : Facet Stock Leaf where
  get? | .leaf l => some l | _ => none
  put := .leaf

def folderFacet : Facet Stock Folder where
  get? | .folder f => some f | _ => none
  put := .folder

def sensorFacet : Facet Stock Sensor where
  get? | .sensor s => some s | _ => none
  put := .sensor

def gaugeFacet : Facet Stock Gauge where
  get? | .gauge g => some g | _ => none
  put := .gauge

def unitGaugeFacet : Facet Stock UnitGauge where
  get? | .unitGauge g => some g | _ => none
  put := .unitGauge

def clashingFacet : Facet Stock Unit where
  get? | .clashing => some () | _ => none
  put _ := .clashing

def vaultFacet : Facet Stock Vault where
  get? | .vault v => some v | _ => none
  put := .vault

def twinFacet : Facet Stock Twin where
  get? | .twin t => some t | _ => none
  put := .twin

end Stock

end BlockForest
