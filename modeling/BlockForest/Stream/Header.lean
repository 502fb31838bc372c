import BlockForest.Bytes.Source
import BlockForest.Value.Encoding

/-!
# Stream headers

A stream opens with a `FileHeader` and each block in it with a `NodeHeader`. Both are records
of 32-bit words in little-endian order, so each field stands at four times its place in the
record, and the records of either kind and the byte strings of their size correspond one to
one.
-/

set_option autoImplicit false

namespace BlockForest

/-- Four bytes as a tag. -/
def fourCC (a b c d : UInt8) : UInt32 := Bytes.toWord32 [a, b, c, d]

/-- The tag that opens every stream: `K`, `O`, `R`, `E`. -/
def streamSignature : UInt32 := fourCC 0x4b 0x4f 0x52 0x45

/-- The versions of the stream format. -/
inductive StreamVersion where
  | v1
deriving DecidableEq

namespace StreamVersion

def word : StreamVersion → UInt32
  | .v1 => 1

/-- The version that a word in a header names. -/
def ofWord? (w : UInt32) : Option StreamVersion := if w = 1 then some .v1 else none

/-- The version that is written. -/
def current : StreamVersion := .v1

end StreamVersion

/-- The words of a byte string, as many as asked for. -/
def wordsOf : Nat → Bytes → List UInt32
  | 0, _ => []
  | count + 1, bytes => Bytes.toWord32 (bytes.take 4) :: wordsOf count (bytes.drop 4)

/-- The word at a place of a list, zero beyond its end. -/
def wordAt (words : List UInt32) (place : Nat) : UInt32 := (words[place]?).getD 0

/-- The header of a stream. -/
structure FileHeader where
  signature : UInt32
  formatVersion : UInt32
  hostEncodingVersion : UInt32
  subProfileSignature : UInt32
  subProfileVersion : UInt32
  metadataSize : UInt32
deriving DecidableEq

namespace FileHeader

/-- The length of a header in bytes. -/
def byteSize : Nat := 24

/-- The header of a stream with the given profile and no metadata. -/
def ofSubProfile (signature version : UInt32) : FileHeader where
  signature := streamSignature
  formatVersion := StreamVersion.current.word
  hostEncodingVersion := Value.encodingVersion
  subProfileSignature := signature
  subProfileVersion := version
  metadataSize := 0

/-- Whether the header opens a stream of this format. -/
def isValid (h : FileHeader) : Bool := h.signature == streamSignature

def version? (h : FileHeader) : Option StreamVersion := StreamVersion.ofWord? h.formatVersion

def words (h : FileHeader) : List UInt32 :=
  [h.signature, h.formatVersion, h.hostEncodingVersion, h.subProfileSignature,
    h.subProfileVersion, h.metadataSize]

def ofWords (w : List UInt32) : FileHeader where
  signature := wordAt w 0
  formatVersion := wordAt w 1
  hostEncodingVersion := wordAt w 2
  subProfileSignature := wordAt w 3
  subProfileVersion := wordAt w 4
  metadataSize := wordAt w 5

def toBytes (h : FileHeader) : Bytes := h.words.flatMap Bytes.ofWord32

def ofBytes (bytes : Bytes) : FileHeader := ofWords (wordsOf 6 bytes)

/-- Reads a header from a buffer. -/
def read (s : Source) : Option FileHeader × Source :=
  match s.readExact byteSize with
  | (some bytes, s) => (some (ofBytes bytes), s)
  | (none, s) => (none, s)

end FileHeader

/-- The header of a block in a stream. -/
structure NodeHeader where
  /-- The length of the properties in bytes. -/
  size : UInt32
  /-- The identifier of the type. -/
  blockType : UInt32
  /-- The number of properties. -/
  propertyCount : UInt32
  /-- The number of children. -/
  childCount : UInt32
deriving DecidableEq

namespace NodeHeader

/-- The length of a header in bytes. -/
def byteSize : Nat := 16

def words (h : NodeHeader) : List UInt32 :=
  [h.size, h.blockType, h.propertyCount, h.childCount]

def ofWords (w : List UInt32) : NodeHeader where
  size := wordAt w 0
  blockType := wordAt w 1
  propertyCount := wordAt w 2
  childCount := wordAt w 3

def toBytes (h : NodeHeader) : Bytes := h.words.flatMap Bytes.ofWord32

def ofBytes (bytes : Bytes) : NodeHeader := ofWords (wordsOf 4 bytes)

/-- Reads a header from a buffer. -/
def read (s : Source) : Option NodeHeader × Source :=
  match s.readExact byteSize with
  | (some bytes, s) => (some (ofBytes bytes), s)
  | (none, s) => (none, s)

/-- Reads a header from any source. -/
def readFrom {σ : Type} [ByteSource σ] (s : σ) : Except BufferError NodeHeader × σ :=
  match ByteSource.readExact s byteSize with
  | (.ok bytes, s) => (.ok (ofBytes bytes), s)
  | (.error e, s) => (.error e, s)

end NodeHeader

end BlockForest
