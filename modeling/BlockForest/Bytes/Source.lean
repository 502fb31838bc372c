import BlockForest.Bytes.Word

/-!
# Reading from a source of bytes

Whoever reads asks a source one thing after the other: where it stands, to go to its end or to a
position, to give some bytes. `ByteSource` collects these calls. Any of them may fail, for a reason
of the source's own, and a source changes as it likes while it is asked.

A `Source` is the source that always answers: a buffer, and the position in it, which may lie
beyond its end. A record of fixed size is read whole or not at all, and the failure uses up what was
left; a blob is read as far as the buffer goes. What is left is kept at hand, so reading costs no
more than what is read.
-/

set_option autoImplicit false

namespace BlockForest

/-- Why bytes cannot be read or written. -/
inductive BufferError where
  /-- The buffer ends inside a header. -/
  | headerCut
  /-- The buffer ends inside the properties of a block. -/
  | payloadCut
  /-- The buffer ends inside the metadata. -/
  | metadataCut
  /-- The sink takes no more bytes. -/
  | sinkFull
  /-- What is read from fails, with a text of its own. -/
  | failed (text : String)
deriving DecidableEq

def BufferError.message : BufferError → String
  | .headerCut => "failed to fill whole buffer"
  | .payloadCut => "stream ends inside a properties payload"
  | .metadataCut => "stream ends inside its metadata blob"
  | .sinkFull => "sink full"
  | .failed text => text

/-- What can be read from, as it is used by a walk. -/
class ByteSource (σ : Type) where
  /-- Where the source stands. -/
  position : σ → Except BufferError Nat × σ
  /-- Goes to the end, and says where that is. -/
  seekEnd : σ → Except BufferError Nat × σ
  /-- Goes to a position. -/
  seekTo : σ → Nat → Except BufferError Unit × σ
  /-- Reads exactly so many bytes. -/
  readExact : σ → Nat → Except BufferError Bytes × σ
  /-- Reads so many bytes, or as many as there are. -/
  readUpTo : σ → Nat → Except BufferError Bytes × σ

/-- The length of a source. To find it out, one goes to the end and back again. -/
def ByteSource.measure {σ : Type} [ByteSource σ] (s : σ) : Except BufferError Nat × σ :=
  match position s with
  | (.error e, s) => (.error e, s)
  | (.ok start, s) =>
    match seekEnd s with
    | (.error e, s) => (.error e, s)
    | (.ok total, s) =>
      match seekTo s start with
      | (.error e, s) => (.error e, s)
      | (.ok (), s) => (.ok total, s)

/-- A buffer that is being read. -/
structure Source where
  /-- The whole buffer. -/
  bytes : Bytes
  position : Nat
  /-- The bytes from the position on. -/
  remaining : Bytes
  remaining_eq : remaining = bytes.drop position

namespace Source

/-- A buffer to be read from a position on. -/
def ofBytes (bytes : Bytes) (position : Nat) : Source :=
  ⟨bytes, position, bytes.drop position, rfl⟩

/-- The length of the whole buffer. -/
def length (s : Source) : Nat := s.bytes.length

/-- The same buffer so many bytes further on. -/
def skip (s : Source) (n : Nat) : Source :=
  ⟨s.bytes, s.position + n, s.remaining.drop n, by rw [s.remaining_eq, List.drop_drop]⟩

/-- The same buffer at its end. -/
def toEnd (s : Source) : Source := ⟨s.bytes, s.length, [], List.drop_length.symm⟩

/-- Reads exactly `n` bytes. -/
def readExact (s : Source) (n : Nat) : Option Bytes × Source :=
  match Bytes.splitExact? n s.remaining with
  | some (taken, _) => (some taken, s.skip n)
  | none => (none, s.toEnd)

/-- Reads `n` bytes, or as many as there are. -/
def readUpTo (s : Source) (n : Nat) : Bytes × Source :=
  let taken := s.remaining.take n
  (taken, s.skip taken.length)

end Source

@[default_instance]
instance : ByteSource Source where
  position s := (.ok s.position, s)
  seekEnd s := (.ok s.length, s.toEnd)
  seekTo s position := (.ok (), .ofBytes s.bytes position)
  readExact s n :=
    match s.readExact n with
    | (some taken, s) => (.ok taken, s)
    | (none, s) => (.error .headerCut, s)
  readUpTo s n := ((.ok (s.readUpTo n).1), (s.readUpTo n).2)

end BlockForest
