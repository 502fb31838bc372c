import Mathlib
import BlockForest.Proofs.DumperFinish
import BlockForest.Proofs.TruncatedStreams

/-!
# Where the words of a header stand

The bytes of a record of words are four for each word, and each word stands at its own offset, the least
significant byte first (`Bytes.HoldsAt`). No other bytes are those of the record
(`Layout.toBytes_eq_iff`), because a word stands where it is read (`Bytes.holdsAt_iff_toWord32`). That
what was written is read back does not say as much: two words might have changed places on both ways.

A record that comes next is read and what follows is left (`Layout.read_ofBytes`). What was written to a
sink comes next from where the sink stood, so it is read back from there (`Layout.read_write`).

Both headers are records of words, and `LaidOut` is what follows for them.
-/

set_option autoImplicit false

namespace BlockForest

/-! ### Words at offsets -/

namespace Bytes

/-- Each byte of a number has its own place, the least significant one the first. -/
theorem getElem?_little {width place : Nat} (h : place < width) (n : Nat) :
    (little width n)[place]? = some (UInt8.ofNat (n / 256 ^ place)) := by
  induction width generalizing n place with
  | zero => exact absurd h (Nat.not_lt_zero place)
  | succ width ih =>
    cases place with
    | zero => simp [little]
    | succ place =>
      rw [little, List.getElem?_cons_succ, ih (Nat.lt_of_succ_lt_succ h), Nat.div_div_eq_div_mul,
        Nat.pow_succ']

/-- At an offset there stands a word, the least significant of its four bytes first. -/
def HoldsAt (bytes : Bytes) (offset : Nat) (w : UInt32) : Prop :=
  ∀ place < 4, bytes[offset + place]? = some (UInt8.ofNat (w.toNat / 256 ^ place))

variable {bytes : Bytes} {offset : Nat} {w : UInt32}

/-- A word stands at an offset exactly if the four bytes from there on are its bytes. -/
theorem holdsAt_iff_ofWord32 :
    HoldsAt bytes offset w ↔ (bytes.drop offset).take 4 = ofWord32 w := by
  have hplace : ∀ place < 4, ((bytes.drop offset).take 4)[place]? = bytes[offset + place]? :=
    fun place hp => by rw [List.getElem?_take_of_lt hp, List.getElem?_drop]
  constructor
  · intro h
    refine List.ext_getElem? fun place => ?_
    rcases Nat.lt_or_ge place 4 with hp | hp
    · rw [hplace place hp, h place hp, ofWord32, getElem?_little hp]
    · rw [List.getElem?_eq_none ((List.length_take_le _ _).trans hp),
        List.getElem?_eq_none ((length_ofWord32 w).le.trans hp)]
  · intro h place hp
    rw [← hplace place hp, h, ofWord32, getElem?_little hp]

/-- A word stands where it is read. -/
theorem holdsAt_iff_toWord32 (h : offset + 4 ≤ bytes.length) :
    HoldsAt bytes offset w ↔ toWord32 ((bytes.drop offset).take 4) = w := by
  have hfour : ((bytes.drop offset).take 4).length = 4 := by
    rw [List.length_take, List.length_drop]
    omega
  rw [holdsAt_iff_ofWord32]
  constructor
  · intro hw
    rw [hw, toWord32_ofWord32]
  · rintro rfl
    exact (ofWord32_toWord32 hfour).symm

end Bytes

/-- The word at a place is read from the four bytes at four times that place. -/
theorem getElem?_wordsOf {count place : Nat} (h : place < count) (bytes : Bytes) :
    (wordsOf count bytes)[place]? =
      some (Bytes.toWord32 ((bytes.drop (4 * place)).take 4)) := by
  induction count generalizing bytes place with
  | zero => exact absurd h (Nat.not_lt_zero place)
  | succ count ih =>
    cases place with
    | zero => rfl
    | succ place =>
      rw [wordsOf, List.getElem?_cons_succ, ih (Nat.lt_of_succ_lt_succ h), List.drop_drop,
        Nat.mul_succ, Nat.add_comm]

namespace Layout

variable {H : Type} (l : Layout H)

/-- The words of a record, each with its offset. -/
def fields (h : H) : List (Nat × UInt32) :=
  (l.words h).zipIdx.map fun (w, place) => (4 * place, w)

variable {l} {h : H} {bytes : Bytes}

/-- The fields of a layout are its words, each with four times its place as offset. -/
theorem mem_fields {field : Nat × UInt32} :
    field ∈ l.fields h ↔ ∃ place, (l.words h)[place]? = some field.2 ∧ 4 * place = field.1 := by
  obtain ⟨offset, w⟩ := field
  simp only [fields, List.mem_map, Prod.exists, Prod.mk.injEq, List.mem_zipIdx_iff_getElem?]
  constructor
  · rintro ⟨_, place, hw, hoffset, rfl⟩
    exact ⟨place, hw, hoffset⟩
  · rintro ⟨place, hw, hoffset⟩
    exact ⟨w, place, hw, hoffset, rfl⟩

/-- A record has as many words as its layout counts. -/
theorem lt_count {place : Nat} {w : UInt32} (hw : (l.words h)[place]? = some w) :
    place < l.count := by
  rw [← l.length_words h]
  exact (List.getElem?_eq_some_iff.mp hw).1

/-- The words that are read are those of a record exactly if each of them stands at its offset. -/
theorem wordsOf_eq_iff (hlen : bytes.length = l.size) :
    wordsOf l.count bytes = l.words h ↔ ∀ field ∈ l.fields h, bytes.HoldsAt field.1 field.2 := by
  have hroom : ∀ place < l.count, 4 * place + 4 ≤ bytes.length := by
    intro place hp
    rw [hlen, size]
    omega
  constructor
  · intro hwords field hfield
    obtain ⟨place, hw, hoffset⟩ := mem_fields.mp hfield
    have hp := lt_count hw
    rw [← hwords, getElem?_wordsOf hp] at hw
    rw [← hoffset, Bytes.holdsAt_iff_toWord32 (hroom place hp)]
    exact Option.some.inj hw
  · intro hfields
    -- Both lists have as many words, so it is enough to look at each word of the record.
    refine List.ext_getElem? fun place => ?_
    rcases hw : (l.words h)[place]? with _ | w
    · rw [List.getElem?_eq_none]
      rw [length_wordsOf, ← l.length_words h]
      exact List.getElem?_eq_none_iff.mp hw
    · have hp := lt_count hw
      have hholds := hfields (4 * place, w) (mem_fields.mpr ⟨place, hw, rfl⟩)
      rw [getElem?_wordsOf hp, (Bytes.holdsAt_iff_toWord32 (hroom place hp)).mp hholds]

/-- Bytes are those of a record exactly if they have its size and each field stands at its
offset. -/
theorem toBytes_eq_iff : l.toBytes h = bytes ↔
    bytes.length = l.size ∧ ∀ field ∈ l.fields h, bytes.HoldsAt field.1 field.2 := by
  constructor
  · rintro rfl
    exact ⟨l.length_toBytes h, (wordsOf_eq_iff (l.length_toBytes h)).mp (l.wordsOf_toBytes h)⟩
  · rintro ⟨hlen, hfields⟩
    rw [← l.toBytes_ofBytes hlen, ofBytes, (wordsOf_eq_iff hlen).mpr hfields, l.ofWords_words]

end Layout

/-! ### Reading on from a position -/

namespace Source

/-- None is read exactly if there are too few bytes left. -/
theorem fst_readExact_eq_none_iff {source : Source} {n : Nat} :
    (source.readExact n).1 = none ↔ source.remaining.length < n := by
  rw [← Bytes.splitExact?_eq_none_iff]
  unfold readExact
  split
  · next hsplit => simp [hsplit]
  · next hsplit => simp [hsplit]

end Source

namespace Layout

variable {H : Type} {l : Layout H} {h : H} {bytes rest : Bytes} {position : Nat}

/-- A record cannot be read exactly if fewer bytes are left than it takes. -/
theorem read_eq_none_iff {source : Source} :
    (l.read source).1 = none ↔ source.remaining.length < l.size := by
  rw [← Source.fst_readExact_eq_none_iff]
  unfold read
  split
  · next hs => simp [hs]
  · next hs => simp [hs]

/-- A record that stands at a position of a buffer is read from there, and what follows is left. -/
theorem read_ofBytes (hnext : (Source.ofBytes bytes position).remaining = l.toBytes h ++ rest) :
    l.read (Source.ofBytes bytes position) = (some h, Source.ofBytes bytes (position + l.size)) ∧
      (Source.ofBytes bytes (position + l.size)).remaining = rest := by
  have hlen := l.length_toBytes h
  have hrest : (Source.ofBytes bytes (position + l.size)).remaining = rest := by
    have hdrop := congrArg (List.drop l.size) hnext
    rwa [List.drop_left' hlen, Source.ofBytes, List.drop_drop] at hdrop
  refine ⟨l.read_eq_some_iff.mpr ⟨rfl, ?_, ?_⟩, hrest⟩
  · rw [hlen]
    rfl
  · rw [hrest, hnext]

/-- What was written to a sink that had room for it is read back from where the sink stood. -/
theorem read_write {sink : Sink} {more : List Bytes}
    (hroom : sink.HasRoom (l.size + more.flatten.length)) :
    ∃ written, sink.write (l.toBytes h :: more) = (true, written) ∧
      let behind := Source.ofBytes written.bytes (sink.position + l.size)
      l.read (Source.ofBytes written.bytes sink.position) = (some h, behind) ∧
        behind.remaining = more.flatten ++
          sink.bytes.drop (sink.position + (l.size + more.flatten.length)) := by
  have hlen : (l.toBytes h :: more).flatten.length = l.size + more.flatten.length := by
    rw [List.flatten_cons, List.length_append, l.length_toBytes]
  have hnext := sink.remaining_put (l.toBytes h :: more).flatten
  rw [hlen, List.flatten_cons, List.append_assoc] at hnext
  exact ⟨_, Sink.write_of_hasRoom (hlen ▸ hroom), read_ofBytes hnext⟩

end Layout

/-! ### Headers -/

/-- Headers of a kind have this size, and these words of theirs stand at these offsets. So they are
written and made of bytes, and so they are read. -/
structure LaidOut {H : Type} (size : Nat) (fields : H → List (Nat × UInt32)) (toBytes : H → Bytes)
    (ofBytes : Bytes → H) (read : Source → Option H × Source) : Prop where
  ofBytes_toBytes : ∀ h, ofBytes (toBytes h) = h
  /-- Any bytes of the size are a header, and no others. -/
  toBytes_ofBytes_iff : ∀ bytes, toBytes (ofBytes bytes) = bytes ↔ bytes.length = size
  /-- Bytes are those of a header exactly if they have the size and each of its words stands at its
  offset. So the words of a header that is made of bytes are those that stand there. -/
  toBytes_eq_iff : ∀ h bytes, toBytes h = bytes ↔
    bytes.length = size ∧ ∀ field ∈ fields h, bytes.HoldsAt field.1 field.2
  /-- A header that comes next is read, and whatever follows is left. -/
  read_append : ∀ h rest (source : Source), source.remaining = toBytes h ++ rest →
    read source = (some h, source.skip size) ∧ (source.skip size).remaining = rest
  /-- None is read only where fewer bytes are left. -/
  read_eq_none_iff : ∀ source, (read source).1 = none ↔ source.remaining.length < size
  /-- A sink takes a header and more, if it has room. The header is read from where the sink stood,
  and left is what was written behind it and what was there before behind that. -/
  read_write : ∀ h (sink : Sink) (more : List Bytes),
    sink.HasRoom (size + more.flatten.length) →
    ∃ written, sink.write (toBytes h :: more) = (true, written) ∧
      let behind := Source.ofBytes written.bytes (sink.position + size)
      read (Source.ofBytes written.bytes sink.position) = (some h, behind) ∧
        behind.remaining = more.flatten ++
          sink.bytes.drop (sink.position + (size + more.flatten.length))

/-- Every layout of words is laid out as it says. The two kinds of header are instances. -/
theorem Layout.laidOut {H : Type} (l : Layout H) :
    LaidOut l.size l.fields l.toBytes l.ofBytes l.read where
  ofBytes_toBytes := l.ofBytes_toBytes
  toBytes_ofBytes_iff bytes := by
    constructor
    · intro hbytes
      rw [← hbytes, l.length_toBytes]
    · exact l.toBytes_ofBytes
  toBytes_eq_iff _ _ := toBytes_eq_iff
  read_append h rest source hsource := by
    obtain ⟨hpass, hrest⟩ := Source.passes_skip hsource
    rw [l.length_toBytes] at hpass hrest
    exact ⟨l.read_eq_some_iff.mpr hpass, hrest⟩
  read_eq_none_iff _ := read_eq_none_iff
  read_write _ _ _ := read_write

/-- The words of the header of a stream, each with its offset. -/
def FileHeader.fields (h : FileHeader) : List (Nat × UInt32) :=
  [(0, h.signature), (4, h.formatVersion), (8, h.hostEncodingVersion),
    (12, h.subProfileSignature), (16, h.subProfileVersion), (20, h.metadataSize)]

/-- The words of the header of a block, each with its offset. -/
def NodeHeader.fields (h : NodeHeader) : List (Nat × UInt32) :=
  [(0, h.size), (4, h.blockType), (8, h.propertyCount), (12, h.childCount)]

/-- Headers of streams and byte strings of length 24 correspond one to one, and so do headers of blocks
and those of length 16. Each word stands at its offset, the least significant byte first. What was written
is read back, whatever follows it, and reading fails only where the bytes run out. -/
theorem laidOut_headers :
    LaidOut 24 FileHeader.fields FileHeader.toBytes FileHeader.ofBytes FileHeader.read ∧
      LaidOut 16 NodeHeader.fields NodeHeader.toBytes NodeHeader.ofBytes NodeHeader.read :=
  ⟨FileHeader.layout.laidOut, NodeHeader.layout.laidOut⟩

/-- Behind a gap the header of a stream is written into a buffer that takes just two bytes more, and it
is read back from there. Of fifteen bytes no header of a block is read. -/
theorem laidOut_headers_gap :
    let h := FileHeader.ofSubProfile 7 2
    h.toBytes.HoldsAt 12 7 ∧ (FileHeader.ofBytes (List.replicate 24 1)).toBytes =
        List.replicate 24 1 ∧
      (∃ written, Sink.write ⟨[9], 3, some 29⟩ [h.toBytes, [7], [8]] = (true, written) ∧
        ∃ behind, FileHeader.read (Source.ofBytes written.bytes 3) = (some h, behind) ∧
          behind.remaining = [7, 8]) ∧
      (NodeHeader.read (Source.ofBytes (List.replicate 15 1) 0)).1 = none := by
  intro h
  obtain ⟨hfile, hnode⟩ := laidOut_headers
  obtain ⟨-, hfields⟩ := (hfile.toBytes_eq_iff h h.toBytes).mp rfl
  have hroom : Sink.HasRoom ⟨[9], 3, some 29⟩ (24 + [[7], [8]].flatten.length) := by
    rintro _ ⟨⟩
    decide
  obtain ⟨written, hwrite, hread, hleft⟩ := hfile.read_write h _ [[7], [8]] hroom
  exact ⟨hfields (12, 7) (by decide), (hfile.toBytes_ofBytes_iff _).mpr rfl,
    ⟨written, hwrite, _, hread, hleft⟩, (hnode.read_eq_none_iff _).mpr (by decide)⟩

example : (NodeHeader.mk 0x01020304 0xa8532270 1 2).toBytes =
    [4, 3, 2, 1, 0x70, 0x22, 0x53, 0xa8, 1, 0, 0, 0, 2, 0, 0, 0] := by decide

end BlockForest
