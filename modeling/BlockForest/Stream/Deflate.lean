import BlockForest.Bytes.Sink
import BlockForest.Stream.Error
import BlockForest.Stream.Header
import BlockForest.Stream.Monitor
import BlockForest.Tree.Query

/-!
# Writing blocks

A block is written as a header, its stored properties as pairs of an identifier and a value,
and its children one after the other. Only blocks that take part in serialization are written:
any other is passed over with all that is below it, and its library does not count it.

The walk asks its monitor before each block and reports after each, out of the number of all
blocks of the subtree, written or not. A block is written whole or, where it fails a check,
not at all; what was written before it stays.
-/

set_option autoImplicit false

namespace BlockForest

/-- How a walk that did not fail has ended. -/
inductive DeflateStatus where
  /-- The block and what is below it were written. -/
  | success
  /-- The block takes no part in serialization and nothing was written. -/
  | skipped
  /-- The monitor stopped the walk. -/
  | canceled
deriving DecidableEq

/-- A walk that writes blocks: what was written, who watches, and how many blocks are done. -/
structure Outflow where
  outlet : Outlet
  monitor : Monitor
  done : Nat

namespace Outflow

/-- Writes bytes, if the sink has room for them. -/
def write (o : Outflow) (data : Bytes) : Except CodecError Unit × Outflow :=
  match o.outlet.write data with
  | (true, outlet) => (.ok (), { o with outlet := outlet })
  | (false, outlet) => (.error (.buffer .sinkFull), { o with outlet := outlet })

/-- Counts one more block as written and reports it. -/
def advance (o : Outflow) (total : Nat) : Outflow :=
  { o with done := o.done + 1, monitor := o.monitor.report (o.done + 1) total }

end Outflow

namespace Deflate

variable {β : Type}

/-- The pairs that are written for a payload: the identifier and the value of each stored
property that can be read, by slot. -/
def pairs (entry : Entry β) (payload : β) : List (UInt32 × Value) :=
  (entry.table.properties.zip entry.table.ids).filterMap fun (p, id) =>
    if p.stored then (p.read payload).map fun value => (id, value) else none

/-- A pair as bytes. -/
def encodePair (pair : UInt32 × Value) : Bytes := Bytes.ofWord32 pair.1 ++ pair.2.encode

/-- The children of a block that are written. -/
def writtenChildren (t : Tree β) (id : BlockId) : List BlockId :=
  (t.children id).filter fun child => t.isSerializable child

/-- The header of a block with the given payload bytes. -/
def header (entry : Entry β) (payload : Bytes) (pairCount childCount : Nat) : NodeHeader where
  size := UInt32.ofNat payload.length
  blockType := entry.typeId
  propertyCount := UInt32.ofNat pairCount
  childCount := UInt32.ofNat childCount

/-- Writes one block without its children. -/
def writeRecord (settings : Settings) (entry : Entry β) (payload : β) (childCount total : Nat)
    (o : Outflow) : Except CodecError Unit × Outflow :=
  let pairs := pairs entry payload
  let data := pairs.flatMap encodePair
  if settings.maxPayloadSize.toNat < data.length then
    (.error (.payloadTooLarge data.length settings.maxPayloadSize), o)
  else
    match o.write (header entry data pairs.length childCount).toBytes with
    | (.error e, o) => (.error e, o)
    | (.ok (), o) =>
      match o.write data with
      | (.error e, o) => (.error e, o)
      | (.ok (), o) => (.ok (), o.advance total)

/-- Writes the blocks of a list until one of them fails or the walk is stopped. -/
def each (writeBlock : Outflow → BlockId → Except CodecError DeflateStatus × Outflow) :
    Outflow → List BlockId → Except CodecError DeflateStatus × Outflow
  | o, [] => (.ok .success, o)
  | o, block :: rest =>
    match writeBlock o block with
    | (.error e, o) => (.error e, o)
    | (.ok .canceled, o) => (.ok .canceled, o)
    | (.ok _, o) => each writeBlock o rest

/-- Writes a block and what is below it, with so many levels left. -/
def node (settings : Settings) (catalogue : Catalogue β) (t : Tree β) (total : Nat) :
    Nat → Outflow → BlockId → Except CodecError DeflateStatus × Outflow :=
  fun levels o id =>
    let (goOn, monitor) := o.monitor.poll
    let o := { o with monitor := monitor }
    if !goOn then (.ok .canceled, o)
    else
      match t.node? id with
      | none => (.error (.tree (.staleBlock id)), o)
      | some block =>
        if !t.isSerializable id then (.ok .skipped, o)
        else
          match levels with
          | 0 => (.error (.depthExceeded settings.maxDepth), o)
          | levels + 1 =>
            match block.entry.bind catalogue.entryAt? with
            | none => (.error (.unregistered id), o)
            | some entry =>
              let children := writtenChildren t id
              match writeRecord settings entry block.payload children.length total o with
              | (.error e, o) => (.error e, o)
              | (.ok (), o) => each (node settings catalogue t total levels) o children

end Deflate

/-- Writes a block and its descendants to a sink. What was written reaches the sink however
the walk ends. -/
def deflate {β : Type} (settings : Settings) (catalogue : Catalogue β) (t : Tree β)
    (root : BlockId) (sink : Sink) (monitor : Monitor) :
    Except CodecError DeflateStatus × Sink × Monitor :=
  let (result, o) :=
    Deflate.node settings catalogue t (t.totalSize root + 1) settings.maxDepth
      { outlet := sink.outlet, monitor := monitor, done := 0 } root
  (result, sink.receive o.outlet, o.monitor)

end BlockForest
