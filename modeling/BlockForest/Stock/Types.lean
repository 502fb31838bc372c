import BlockForest.Stock.Basic

/-!
# The stock of block types

What a registry needs to know of each stock type: its name, the payload of a new block, its
properties and its flags. `StockType.all` lists them, and each is found by its label; the two
revisions of the gauge have labels of their own and one name.
-/

set_option autoImplicit false

namespace BlockForest

namespace Stock

variable {γ : Type}

/-- A property that stores a value of one kind, which `get?` takes out of it. -/
def exact {α : Type} (facet : Facet Stock γ) (name : String) (kind : Value.Kind)
    (read : γ → Value) (get? : Value → Option α) (put : γ → α → γ) : Property Stock :=
  Property.readWrite facet name read fun inner value =>
    match get? value with
    | some a => .ok (put inner a)
    | none => .error (.mismatch name kind value)

def int? : Value → Option Int32
  | .int i => some i
  | _ => none

def uint? : Value → Option UInt32
  | .uint u => some u
  | _ => none

def long? : Value → Option Int64
  | .long l => some l
  | _ => none

def ulong? : Value → Option UInt64
  | .ulong u => some u
  | _ => none

def double? : Value → Option Double
  | .double d => some d
  | _ => none

def leafProperties : List (Property Stock) :=
  [exact leafFacet "name" .string (fun l => .string l.name) Value.asString?
    fun l s => { l with name := s }]

def folderProperties : List (Property Stock) :=
  [exact folderFacet "title" .string (fun f => .string f.title) Value.asString?
      fun f s => { f with title := s },
    (exact folderFacet "compacted" .bool (fun f => .bool f.compacted) Value.asBool?
      fun f b => { f with compacted := b }).transient]

/-- The channel of a sensor, of which there are 64. -/
def channel : Property Stock :=
  Property.readWrite sensorFacet "channel" (fun s => .uint s.channel) fun s value =>
    match value with
    | .uint c =>
      if c < 64 then .ok { s with channel := c }
      else
        .error (.invalidValue "channel" ("channel " ++ toString c.toNat ++ " out of range"))
    | other => .error (.mismatch "channel" .uint other)

def sensorProperties : List (Property Stock) :=
  [exact sensorFacet "enabled" .bool (fun s => .bool s.enabled) Value.asBool?
      fun s b => { s with enabled := b },
    exact sensorFacet "offset" .int (fun s => .int s.offset) int?
      fun s i => { s with offset := i },
    channel,
    exact sensorFacet "timestamp" .long (fun s => .long s.timestamp) long?
      fun s l => { s with timestamp := l },
    exact sensorFacet "serial" .ulong (fun s => .ulong s.serial) ulong?
      fun s u => { s with serial := u },
    exact sensorFacet "level" .double (fun s => .double s.level) double?
      fun s d => { s with level := d },
    exact sensorFacet "label" .string (fun s => .string s.label) Value.asString?
      fun s t => { s with label := t },
    exact sensorFacet "calibration" .bytes (fun s => .bytes s.calibration) Value.asBytes?
      fun s b => { s with calibration := b },
    exact sensorFacet "history" .list (fun s => .list s.history) Value.asList?
      fun s l => { s with history := l },
    Property.readOnly sensorFacet "summary" fun s => .string s.summary]

def gaugeProperties : List (Property Stock) :=
  [exact gaugeFacet "min" .double (fun g => .double g.low) Value.asDouble?
      fun g d => { g with low := d },
    exact gaugeFacet "max" .double (fun g => .double g.high) Value.asDouble?
      fun g d => { g with high := d }]

def unitGaugeProperties : List (Property Stock) :=
  [exact unitGaugeFacet "unit" .string (fun g => .string g.unit) Value.asString?
      fun g s => { g with unit := s },
    exact unitGaugeFacet "min" .double (fun g => .double g.low) Value.asDouble?
      fun g d => { g with low := d },
    exact unitGaugeFacet "max" .double (fun g => .double g.high) Value.asDouble?
      fun g d => { g with high := d }]

def clashingProperties : List (Property Stock) :=
  [Property.readOnly clashingFacet "altarage" fun _ => .bool true,
    Property.readOnly clashingFacet "zinke" fun _ => .bool false]

/-- What a vault keeps: any value but the one that says no. -/
def vaultPayload : Property Stock :=
  Property.readWrite vaultFacet "payload" (fun v => v.payload) fun v value =>
    match value with
    | .bool false => .error (.invalidValue "payload" "false is refused")
    | value => .ok { v with payload := value }

def vaultProperties : List (Property Stock) :=
  [vaultPayload,
    exact vaultFacet "signed" .long (fun v => .long v.signed) Value.asInteger?
      fun v l => { v with signed := l },
    exact vaultFacet "unsigned" .ulong (fun v => .ulong v.unsigned) Value.asNatural?
      fun v u => { v with unsigned := u },
    exact vaultFacet "ratio" .double (fun v => .double v.ratio) Value.asDouble?
      fun v d => { v with ratio := d },
    Property.readOnly vaultFacet "optimized" fun v => .uint v.optimized]

def twinProperties : List (Property Stock) :=
  [(exact twinFacet "scratch" .bool (fun t => .bool t.scratch) Value.asBool?
      fun t b => { t with scratch := b }).transient,
    exact twinFacet "altarage" .uint (fun t => .uint t.altarage) uint?
      fun t u => { t with altarage := u },
    Property.readOnly twinFacet "double" fun t => .ulong (2 * t.altarage.toUInt64),
    Property.readWrite vaultFacet "alien" (fun v => v.payload) fun v value =>
      .ok { v with payload := value },
    exact twinFacet "note" .string (fun t => .string t.note) Value.asString?
      fun t s => { t with note := s }]

end Stock

/-- The stock types. -/
inductive StockType where
  | library
  | leaf
  | folder
  | sensor
  | gauge
  | unitGauge
  | costarring
  | liquid
  | clashing
  | vault
  | twin
deriving DecidableEq

namespace StockType

def all : List StockType :=
  [.library, .leaf, .folder, .sensor, .gauge, .unitGauge, .costarring, .liquid, .clashing,
    .vault, .twin]

def label : StockType → String
  | .library => "Library"
  | .leaf => "Leaf"
  | .folder => "Folder"
  | .sensor => "Sensor"
  | .gauge => "GaugeV1"
  | .unitGauge => "GaugeV2"
  | .costarring => "Costarring"
  | .liquid => "Liquid"
  | .clashing => "Clashing"
  | .vault => "Vault"
  | .twin => "Twin"

def ofLabel? (label : String) : Option StockType := all.find? fun type => type.label = label

/-- The payload of a new block. -/
def initial : StockType → Stock
  | .library => .library
  | .leaf => .leaf ⟨""⟩
  | .folder => .folder ⟨"", false⟩
  | .sensor => .sensor ⟨false, 0, 0, 0, 0, Double.zero, "", [], []⟩
  | .gauge => .gauge ⟨Double.zero, Double.zero⟩
  | .unitGauge => .unitGauge ⟨Double.zero, Double.ofNat 100, "kPa"⟩
  | .costarring => .costarring
  | .liquid => .liquid
  | .clashing => .clashing
  | .vault => .vault ⟨.list [], -1, 1, ⟨0x3fe0000000000000⟩, 0⟩
  | .twin => .twin ⟨false, 0, ""⟩

def properties : StockType → List (Property Stock)
  | .leaf => Stock.leafProperties
  | .folder => Stock.folderProperties
  | .sensor => Stock.sensorProperties
  | .gauge => Stock.gaugeProperties
  | .unitGauge => Stock.unitGaugeProperties
  | .clashing => Stock.clashingProperties
  | .vault => Stock.vaultProperties
  | .twin => Stock.twinProperties
  | _ => []

def defaultFlags : StockType → Flags
  | .library => Flags.browsable
  | .leaf => Flags.serializable.union Flags.editable
  | .folder => Flags.serializable.union Flags.browsable
  | .sensor => Flags.serializable
  | .gauge => Flags.serializable
  | .unitGauge => Flags.serializable
  | .vault => Flags.serializable.union ((Flags.extension? 0).getD Flags.empty)
  | .twin => Flags.serializable
  | _ => Flags.empty

/-- The type of a payload. -/
def of : Stock → StockType
  | .library => .library
  | .leaf _ => .leaf
  | .folder _ => .folder
  | .sensor _ => .sensor
  | .gauge _ => .gauge
  | .unitGauge _ => .unitGauge
  | .costarring => .costarring
  | .liquid => .liquid
  | .clashing => .clashing
  | .vault _ => .vault
  | .twin _ => .twin

/-- Whether a payload is of a type. -/
def covers (type : StockType) (payload : Stock) : Bool := of payload = type

/-- A stock type as a registry takes it. -/
def blockType (type : StockType) : BlockType Stock where
  name := type.initial.typeName
  initial := type.initial
  properties := type.properties
  defaultFlags := type.defaultFlags
  covers := type.covers

end StockType

end BlockForest
