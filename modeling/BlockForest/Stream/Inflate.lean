import BlockForest.Stream.Error
import BlockForest.Stream.Header
import BlockForest.Stream.Monitor
import BlockForest.Tree.Destroy

/-!
# Reading blocks

A block is made through the entry of its type, filled with the properties that the stream
holds for it, and then its children are read and added to it one by one. A block that cannot
be completed is destroyed again, so that a walk that fails or is stopped leaves no block
behind. The block at the top belongs to no library when the walk ends.

The walk asks its monitor before each block and reports where in the source the block starts,
out of the length of the source; when all is read it reports where it ended. It goes down one
level of the settings' nesting limit for each level of blocks.

The source is asked for its position for each report, whether or not somebody watches, and it may
fail then like at any other call. The last of these questions comes when the blocks are complete,
and if it fails nothing takes them back.
-/

set_option autoImplicit false

namespace BlockForest

/-- How a walk that did not fail has ended. -/
inductive InflateStatus where
  /-- The block was read with all its descendants. -/
  | success (root : BlockId)
  /-- The monitor stopped the walk, and what was made is destroyed. -/
  | canceled
deriving DecidableEq

/-- A stream that is being read into a tree. -/
structure Intake (σ β : Type) where
  site : Site β
  source : σ
  monitor : Monitor

namespace Inflate

variable {σ β : Type}

/-- Writes a value into the property at a slot. -/
def writePair (entry : Entry β) (payload : β) (slot : Nat) (value : Value) :
    Except CodecError β :=
  match entry.table.property? slot with
  | none => .error (.corrupt (.missingSlot slot entry.name))
  | some property =>
    match property.write payload value with
    | .ok payload => .ok payload
    | .error e => .error (.propertyWrite entry.name property.name e)

/-- Reads one pair into a payload; `count` is the number that the header announced. -/
def readPair (entry : Entry β) (count : UInt32) (payload : β) (data : Bytes) :
    Except CodecError (β × Bytes) :=
  match Bytes.splitExact? 4 data with
  | none => .error (.corrupt (.missingPairs entry.name count))
  | some (word, data) =>
    let id := Bytes.toWord32 word
    match entry.table.slot? id with
    | none => .error (.unknownProperty entry.name id)
    | some slot =>
      match Value.decode data with
      | (.error e, _) => .error (.corrupt (.value e))
      | (.ok value, data) =>
        match writePair entry payload slot value with
        | .ok payload => .ok (payload, data)
        | .error e => .error e

/-- Reads so many pairs into a payload. -/
def readPairs (entry : Entry β) (count : UInt32) :
    Nat → β → Bytes → Except CodecError (β × Bytes)
  | 0, payload, data => .ok (payload, data)
  | left + 1, payload, data =>
    match readPair entry count payload data with
    | .ok (payload, data) => readPairs entry count left payload data
    | .error e => .error e

/-- The payload that a block of the given properties has. -/
def fillPayload (entry : Entry β) (count : UInt32) (data : Bytes) : Except CodecError β :=
  match readPairs entry count count.toNat entry.type.initial data with
  | .error e => .error e
  | .ok (payload, []) => .ok payload
  | .ok (_, left) => .error (.corrupt (.trailingBytes left.length entry.name))

/-- Where the type of a block is kept, and the bytes of its properties. -/
structure Record (β : Type) where
  header : NodeHeader
  ref : EntryRef
  entry : Entry β
  data : Bytes

/-- Reads the header of a block and the bytes of its properties. -/
def readRecord [ByteSource σ] (settings : Settings) (catalogue : Catalogue β)
    (registry : RegistryRef) (source : σ) : Except CodecError (Record β) × σ :=
  match NodeHeader.readFrom source with
  | (.error e, source) => (.error (.buffer e), source)
  | (.ok header, source) =>
    if settings.maxPayloadSize < header.size then
      (.error (.payloadTooLarge header.size.toNat settings.maxPayloadSize), source)
    else
      match catalogue.findId registry header.blockType with
      | none => (.error (.unknownBlockType header.blockType), source)
      | some (ref, entry) =>
        match ByteSource.readUpTo source header.size.toNat with
        | (.error e, source) => (.error (.buffer e), source)
        | (.ok data, source) =>
          if data.length = header.size.toNat then (.ok { header, ref, entry, data }, source)
          else (.error (.buffer .payloadCut), source)

variable [Payload β]

/-- Destroys a block that could not be completed. -/
def discard (i : Intake σ β) (id : BlockId) : Intake σ β :=
  { i with site := (i.site.destroy id).2 }

/-- Adds a block that was read to its library, or destroys it if the library refuses. -/
def adoptChild (i : Intake σ β) (library child : BlockId) : Except CodecError Unit × Intake σ β :=
  match i.site.add library child with
  | (.ok (), site) => (.ok (), { i with site := site })
  | (.error e, site) => (.error (.tree e), discard { i with site := site } child)

/-- Reads so many children of a library. -/
def children (readBlock : Intake σ β → Except CodecError InflateStatus × Intake σ β)
    (library : BlockId) : Nat → Intake σ β → Except CodecError InflateStatus × Intake σ β
  | 0, i => (.ok (.success library), i)
  | left + 1, i =>
    match readBlock i with
    | (.error e, i) => (.error e, i)
    | (.ok .canceled, i) => (.ok .canceled, i)
    | (.ok (.success child), i) =>
      match adoptChild i library child with
      | (.error e, i) => (.error e, i)
      | (.ok (), i) => children readBlock library left i

/-- Fills a new block with its properties and reads its children. -/
def fill (readBlock : Intake σ β → Except CodecError InflateStatus × Intake σ β)
    (record : Record β) (id : BlockId) (i : Intake σ β) :
    Except CodecError InflateStatus × Intake σ β :=
  match fillPayload record.entry record.header.propertyCount record.data with
  | .error e => (.error e, i)
  | .ok payload =>
    let i := { i with site := i.site.setPayload id payload }
    if 0 < record.header.childCount ∧ !i.site.tree.isLibrary id then
      (.error (.corrupt (.notALibrary record.entry.name record.header.childCount)), i)
    else children readBlock id record.header.childCount.toNat i

/-- Makes the block of a record and fills it. A block that cannot be completed is destroyed again. -/
def build (readBlock : Intake σ β → Except CodecError InflateStatus × Intake σ β)
    (record : Record β) (i : Intake σ β) : Except CodecError InflateStatus × Intake σ β :=
  let (id, site) := i.site.createFrom record.ref record.entry
  match fill readBlock record id { i with site := site } with
  | (.ok (.success _), i) => (.ok (.success id), i)
  | (outcome, i) => (outcome, discard i id)

/-- Reads a block and what is below it, with so many levels left; `total` is the length of the
source. -/
def node [ByteSource σ] (settings : Settings) (total : Nat) :
    Nat → Intake σ β → Except CodecError InflateStatus × Intake σ β :=
  fun levels i =>
    let (goOn, monitor) := i.monitor.poll
    let i := { i with monitor := monitor }
    if !goOn then (.ok .canceled, i)
    else
      match ByteSource.position i.source with
      | (.error e, source) => (.error (.buffer e), { i with source := source })
      | (.ok position, source) =>
        let i := { i with source := source, monitor := i.monitor.report position total }
        match levels with
        | 0 => (.error (.depthExceeded settings.maxDepth), i)
        | levels + 1 =>
          match readRecord settings i.site.catalogue i.site.tree.registry i.source with
          | (.error e, source) => (.error e, { i with source := source })
          | (.ok record, source) =>
            build (node settings total levels) record { i with source := source }

end Inflate

/-- Reads a block and its descendants into a tree. If the source fails when it is asked where the
walk has ended, this is the outcome, and what was read stays in the tree. -/
def inflate {σ β : Type} [ByteSource σ] [Payload β] (settings : Settings) (site : Site β)
    (source : σ) (monitor : Monitor) : Except CodecError InflateStatus × Intake σ β :=
  match ByteSource.measure source with
  | (.error e, source) => (.error (.buffer e), { site, source, monitor })
  | (.ok total, source) =>
    match Inflate.node settings total settings.maxDepth { site, source, monitor } with
    | (.ok (.success root), i) =>
      match ByteSource.position i.source with
      | (.error e, source) => (.error (.buffer e), { i with source := source })
      | (.ok position, source) =>
        (.ok (.success root),
          { i with source := source, monitor := i.monitor.report position total })
    | (outcome, i) => (outcome, i)

end BlockForest
