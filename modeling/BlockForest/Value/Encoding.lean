import BlockForest.Bytes.Text
import BlockForest.Value.Basic

/-!
# The binary encoding of values

A value is a tag byte and a little-endian payload. Strings and byte blobs carry their length
and lists their number of items as 32-bit words. `encode` writes a value and `decode` reads
one from the front of a byte string, returning what is left of it; on failure the rest starts
with the first piece that could not be read, and a piece that is merely cut off stays in the
rest. Lists are read down to `maxNesting` levels.

The decoder goes down by levels and along by counts, so it is total; a count is not trusted
for more than the bytes at hand, since every item takes at least one.
-/

set_option autoImplicit false

namespace BlockForest.Value

/-- The version of this encoding that stream headers declare. -/
def encodingVersion : UInt32 := 1

/-- How deep lists may be nested in a value that is read. -/
def maxNesting : Nat := 64

/-- The tag byte of each kind. -/
def Kind.tag : Kind → UInt8
  | .bool => 0x01
  | .int => 0x02
  | .uint => 0x03
  | .long => 0x04
  | .ulong => 0x05
  | .double => 0x06
  | .string => 0x0a
  | .bytes => 0x0c
  | .list => 0x10

/-- The kind that a tag byte announces. -/
def Kind.ofTag? (tag : UInt8) : Option Kind :=
  if tag == 0x01 then some .bool
  else if tag == 0x02 then some .int
  else if tag == 0x03 then some .uint
  else if tag == 0x04 then some .long
  else if tag == 0x05 then some .ulong
  else if tag == 0x06 then some .double
  else if tag == 0x0a then some .string
  else if tag == 0x0c then some .bytes
  else if tag == 0x10 then some .list
  else none

/-- Why bytes are not the encoding of a value. -/
inductive DecodeError where
  | truncated (needed available : Nat)
  | unknownTag (tag : UInt8)
  | invalidUtf8
  | tooDeep
deriving DecidableEq

/-- The name of the kind of a failure. -/
def DecodeError.kind : DecodeError → String
  | .truncated _ _ => "Truncated"
  | .unknownTag _ => "UnknownTag"
  | .invalidUtf8 => "InvalidUtf8"
  | .tooDeep => "TooDeep"

def DecodeError.message : DecodeError → String
  | .truncated needed available =>
    "Truncated value: needed " ++ toString needed ++ " bytes, " ++ toString available
      ++ " available"
  | .unknownTag tag => "Unknown value tag: 0x" ++ String.ofList (Bytes.hexByte tag)
  | .invalidUtf8 => "Invalid UTF-8 in string value"
  | .tooDeep => "List values nested too deeply"

/-- A length and that many bytes. -/
def encodeBlob (data : Bytes) : Bytes := Bytes.ofWord32 (UInt32.ofNat data.length) ++ data

mutual
/-- The encoding of a value. -/
def encode : Value → Bytes
  | .bool b => [Kind.bool.tag, if b then 1 else 0]
  | .int i => Kind.int.tag :: Bytes.ofWord32 i.toUInt32
  | .uint u => Kind.uint.tag :: Bytes.ofWord32 u
  | .long l => Kind.long.tag :: Bytes.ofWord64 l.toUInt64
  | .ulong u => Kind.ulong.tag :: Bytes.ofWord64 u
  | .double d => Kind.double.tag :: Bytes.ofWord64 d.bits
  | .string s => Kind.string.tag :: encodeBlob (Bytes.ofString s)
  | .bytes b => Kind.bytes.tag :: encodeBlob b
  | .list items =>
    Kind.list.tag :: (Bytes.ofWord32 (UInt32.ofNat items.length) ++ encodeItems items)

def encodeItems : List Value → Bytes
  | [] => []
  | v :: rest => encode v ++ encodeItems rest
end

mutual
/-- The length of the encoding, found without writing it. -/
def encodedLength : Value → Nat
  | .bool _ => 2
  | .int _ => 5
  | .uint _ => 5
  | .long _ => 9
  | .ulong _ => 9
  | .double _ => 9
  | .string s => 5 + s.utf8ByteSize
  | .bytes b => 5 + b.length
  | .list items => 5 + itemsLength items

def itemsLength : List Value → Nat
  | [] => 0
  | v :: rest => encodedLength v + itemsLength rest
end

/-- A reading step: a result or the reason why there is none, and the bytes that are left. -/
abbrev Reading (α : Type) := Except DecodeError α × Bytes

/-- The next `n` bytes. -/
def readExact (n : Nat) (input : Bytes) : Reading Bytes :=
  match Bytes.splitExact? n input with
  | some (taken, rest) => (.ok taken, rest)
  | none => (.error (.truncated n input.length), input)

/-- Goes on with what was read, unless nothing was. -/
def Reading.andThen {α β : Type} (r : Reading α) (f : α → Bytes → Reading β) : Reading β :=
  match r with
  | (.ok a, rest) => f a rest
  | (.error e, rest) => (.error e, rest)

/-- Turns what was read into something else. -/
def Reading.map {α β : Type} (f : α → β) (r : Reading α) : Reading β :=
  r.andThen fun a rest => (.ok (f a), rest)

/-- A length and that many bytes. -/
def decodeBlob (input : Bytes) : Reading Bytes :=
  (readExact 4 input).andThen fun word rest => readExact (Bytes.toWord32 word).toNat rest

/-- A text, or the remark that the bytes are none. -/
def decodeText (bytes : Bytes) (rest : Bytes) : Reading Value :=
  match Bytes.toString? bytes with
  | some s => (.ok (.string s), rest)
  | none => (.error .invalidUtf8, rest)

/-- As many items as counted, each read by `item`. -/
def decodeItems (item : Bytes → Reading Value) : Nat → Bytes → Reading (List Value)
  | 0, input => (.ok [], input)
  | count + 1, input =>
    (item input).andThen fun v rest => (decodeItems item count rest).map (v :: ·)

/-- The payload of a value of a kind other than list. -/
def decodeScalar (kind : Kind) (input : Bytes) : Reading Value :=
  match kind with
  | .bool => (readExact 1 input).map fun bytes => .bool (bytes != [0])
  | .int => (readExact 4 input).map fun bytes => .int (Bytes.toWord32 bytes).toInt32
  | .uint => (readExact 4 input).map fun bytes => .uint (Bytes.toWord32 bytes)
  | .long => (readExact 8 input).map fun bytes => .long (Bytes.toWord64 bytes).toInt64
  | .ulong => (readExact 8 input).map fun bytes => .ulong (Bytes.toWord64 bytes)
  | .double => (readExact 8 input).map fun bytes => .double ⟨Bytes.toWord64 bytes⟩
  | .string => (decodeBlob input).andThen decodeText
  | .bytes => (decodeBlob input).map .bytes
  | .list => (.error .tooDeep, input)

/-- A tag and the kind it announces. -/
def decodeKind (input : Bytes) : Reading Kind :=
  (readExact 1 input).andThen fun bytes rest =>
    match Kind.ofTag? (bytes.headD 0) with
    | some kind => (.ok kind, rest)
    | none => (.error (.unknownTag (bytes.headD 0)), rest)

/-- A value whose lists are nested at most `levels` deep. -/
def decodeNested : Nat → Bytes → Reading Value
  | 0, input => (decodeKind input).andThen decodeScalar
  | levels + 1, input =>
    (decodeKind input).andThen fun kind rest =>
      match kind with
      | .list =>
        (readExact 4 rest).andThen fun word rest =>
          (decodeItems (decodeNested levels) (Bytes.toWord32 word).toNat rest).map .list
      | kind => decodeScalar kind rest

/-- The value at the front of a byte string. -/
def decode (input : Bytes) : Reading Value := decodeNested maxNesting input

/-- Values one after another, at most as many as counted, until the bytes end or one of them
cannot be read. -/
def decodeSeries : Nat → Bytes → List Value × Option DecodeError × Bytes
  | 0, input => ([], none, input)
  | count + 1, input =>
    if input.isEmpty then ([], none, input)
    else
      match decode input with
      | (.ok v, rest) =>
        let (values, error, rest) := decodeSeries count rest
        (v :: values, error, rest)
      | (.error e, rest) => ([], some e, rest)

end BlockForest.Value
