import BlockForest.Stream.Inflate

/-!
# Reading streams

A `Loader` reads the header of a stream when it is opened and, if the stream is of this
format, the metadata behind it. A stream of another format can be opened and looked at, but
not loaded. Each load reads one subtree and goes on where the one before it stopped.
-/

set_option autoImplicit false

namespace BlockForest

/-- A stream that is being read. -/
structure Loader where
  source : Source
  header : FileHeader
  metadata : Bytes
  settings : Settings

namespace Loader

/-- Opens the stream at the position of a buffer. -/
def create (source : Source) (settings : Settings) : Except StreamError Loader :=
  match settings.validate with
  | .error e => .error (.settings e)
  | .ok () =>
    match FileHeader.read source with
    | (none, _) => .error (.buffer .headerCut)
    | (some header, source) =>
      if !header.isValid then .ok { source, header, metadata := [], settings }
      else
        let (metadata, source) := source.readUpTo header.metadataSize.toNat
        if metadata.length = header.metadataSize.toNat then
          .ok { source, header, metadata, settings }
        else .error (.buffer .metadataCut)

/-- Whether the stream can be loaded, and if not, why. -/
def check (header : FileHeader) : Except StreamError Unit :=
  if !header.isValid then .error (.invalidSignature header.signature)
  else if header.version?.isNone then .error (.unsupportedVersion header.formatVersion)
  else if header.hostEncodingVersion ≠ Value.encodingVersion then
    .error (.unsupportedEncoding header.hostEncodingVersion)
  else .ok ()

/-- What a load leaves behind. -/
structure Loaded (β : Type) where
  loader : Loader
  site : Site β
  monitor : Monitor

/-- Reads the next block and its descendants into a tree. -/
def load {β : Type} [Payload β] (l : Loader) (site : Site β) (monitor : Monitor) :
    Except StreamError InflateStatus × Loaded β :=
  match check l.header with
  | .error e => (.error e, { loader := l, site, monitor })
  | .ok () =>
    match inflate l.settings site l.source monitor with
    | (.ok status, i) =>
      (.ok status,
        { loader := { l with source := i.source }, site := i.site, monitor := i.monitor })
    | (.error e, i) =>
      (.error (.codec e),
        { loader := { l with source := i.source }, site := i.site, monitor := i.monitor })

end Loader

end BlockForest
