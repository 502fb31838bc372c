import BlockForest.Stream.Deflate

/-!
# Writing streams

A `Dumper` writes the header and the metadata of a stream as soon as it is opened, and then
one subtree after the other behind them. Closing it writes the header once more where it
stands and returns to the end of the stream, whether the dumper is finished or merely dropped.
-/

set_option autoImplicit false

namespace BlockForest

/-- A stream that is being written. -/
structure Dumper where
  sink : Sink
  header : FileHeader
  headerOffset : Nat
  settings : Settings

namespace Dumper

/-- The header of a stream with the given settings and metadata. -/
def headerFor (settings : Settings) (metadata : Bytes) : FileHeader :=
  { FileHeader.ofSubProfile settings.subProfileSignature settings.subProfileVersion with
    metadataSize := UInt32.ofNat metadata.length }

/-- Opens a stream at the position of a sink. On failure the sink comes back as it was left. -/
def create (sink : Sink) (settings : Settings) (metadata : Bytes) :
    Except (StreamError × Sink) Dumper :=
  match settings.validate with
  | .error e => .error (.settings e, sink)
  | .ok () =>
    if UInt32.size ≤ metadata.length then .error (.metadataTooLarge metadata.length, sink)
    else
      let header := headerFor settings metadata
      match sink.write [header.toBytes, metadata] with
      | (true, written) =>
        .ok
          { sink := written
            header := header
            headerOffset := sink.position
            settings := settings }
      | (false, written) => .error (.buffer .sinkFull, written)

/-- Writes a block and its descendants behind what was written before. -/
def dump {β : Type} (d : Dumper) (catalogue : Catalogue β) (t : Tree β) (root : BlockId)
    (monitor : Monitor) : Except StreamError DeflateStatus × Dumper × Monitor :=
  match deflate d.settings catalogue t root d.sink monitor with
  | (.ok status, sink, monitor) => (.ok status, { d with sink := sink }, monitor)
  | (.error e, sink, monitor) => (.error (.codec e), { d with sink := sink }, monitor)

/-- Writes the header again where it stands and returns to where the sink was. If the sink
refuses, it is left where it stopped. -/
def stampHeader (d : Dumper) : Except StreamError Unit × Dumper :=
  match (d.sink.seek d.headerOffset).write [d.header.toBytes] with
  | (true, sink) => (.ok (), { d with sink := sink.seek d.sink.position })
  | (false, sink) => (.error (.buffer .sinkFull), { d with sink := sink })

/-- Closes a stream without asking whether that worked. -/
def drop (d : Dumper) : Sink := d.stampHeader.2.sink

/-- Closes a stream and hands the sink back. A dumper that fails to finish is dropped. -/
def finish (d : Dumper) : Except StreamError Unit × Sink :=
  match d.stampHeader with
  | (.ok (), d) => (.ok (), d.sink)
  | (.error e, d) => (.error e, d.drop)

end Dumper

end BlockForest
