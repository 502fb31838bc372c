import Mathlib
import BlockForest.Proofs.ByteDecoding
import BlockForest.Proofs.CatalogueInvariants

/-!
# The grammar of streams

A stream describes a block by a header, the pairs of its properties and the blocks below it.
What it describes is a `Blueprint`: types, payloads and children, without any tree that they
stand in. `Pairs` says which byte strings write properties into a payload and what comes of it,
and `WellFormed` which byte strings are blocks. Both are inductive and mention no reader, so they
can be read as the definition of the format.

The readers of the parts are measured against them: `fillPayload_eq_ok_iff` for the properties
and `readRecord_eq_ok_iff` for a header with its data.
-/

set_option autoImplicit false

namespace BlockForest

variable {β : Type}

/-- A block as a stream describes it, with what is below it. -/
inductive Blueprint (β : Type) where
  | block (type : BlockType β) (payload : β) (children : List (Blueprint β))

/-- The payload of the block at the top. -/
def Blueprint.payload : Blueprint β → β
  | .block _ payload _ => payload

/-- The bytes are so many pairs of an identifier and a value, and the values, written one after
the other, turn the first payload into the second. -/
inductive Pairs (properties : List (Property β)) : Nat → β → Bytes → β → Prop
  | nil (payload : β) : Pairs properties 0 payload [] payload
  | cons {count : Nat} {payload next final : β} {p : Property β} {value : Value}
      {piece rest : Bytes} (known : p ∈ properties)
      (decoded : Value.decode piece = (.ok value, []))
      (written : p.write payload value = .ok next)
      (more : Pairs properties count next rest final) :
      Pairs properties (count + 1) payload (Bytes.ofWord32 (nameHash p.name) ++ piece ++ rest)
        final

mutual

/-- The bytes are a block at a depth, as the blueprint has it. -/
inductive WellFormed [Payload β] (settings : Settings) (type? : UInt32 → Option (BlockType β)) :
    Nat → Blueprint β → Bytes → Prop
  | block {depth : Nat} {header : NodeHeader} {type : BlockType β} {payload : β}
      {kids : List (Blueprint β)} {data rest : Bytes}
      (shallow : depth < settings.maxDepth)
      (small : header.size ≤ settings.maxPayloadSize)
      (registered : type? header.blockType = some type)
      (whole : data.length = header.size.toNat)
      (pairs : Pairs type.properties header.propertyCount.toNat type.initial data payload)
      (room : header.childCount = 0 ∨ Payload.isLibrary type.initial)
      (counted : kids.length = header.childCount.toNat)
      (below : WellFormedAll settings type? (depth + 1) payload kids rest) :
      WellFormed settings type? depth (.block type payload kids) (header.toBytes ++ data ++ rest)

/-- The bytes are blocks at a depth, each accepted by a library with the given payload. -/
inductive WellFormedAll [Payload β] (settings : Settings)
    (type? : UInt32 → Option (BlockType β)) : Nat → β → List (Blueprint β) → Bytes → Prop
  | nil {depth : Nat} {library : β} : WellFormedAll settings type? depth library [] []
  | cons {depth : Nat} {library : β} {kid : Blueprint β} {kids : List (Blueprint β)}
      {piece rest : Bytes} (first : WellFormed settings type? depth kid piece)
      (accepted : Payload.accepts library kid.payload)
      (more : WellFormedAll settings type? depth library kids rest) :
      WellFormedAll settings type? depth library (kid :: kids) (piece ++ rest)

end

/-! ### Reading on -/

namespace Source

/-- The second source is the first one after some bytes were read. -/
structure Passes (source source' : Source) (used : Bytes) : Prop where
  bytes : source'.bytes = source.bytes
  position : source'.position = source.position + used.length
  remaining : source.remaining = used ++ source'.remaining

/-- A buffer that is read from a position on has left what stands behind that position. -/
theorem remaining_ofBytes (bytes : Bytes) (position : Nat) :
    (ofBytes bytes position).remaining = bytes.drop position := rfl

/-- To read nothing leaves a source as it is. -/
theorem Passes.refl (source : Source) : Passes source source [] := ⟨rfl, rfl, rfl⟩

/-- To read on is to read all of it. -/
theorem Passes.trans {a b c : Source} {first second : Bytes} (h : Passes a b first)
    (h' : Passes b c second) : Passes a c (first ++ second) where
  bytes := h'.bytes.trans h.bytes
  position := by rw [h'.position, h.position, List.length_append, Nat.add_assoc]
  remaining := by rw [h.remaining, h'.remaining, List.append_assoc]

/-- What was read tells where a source stands afterwards. -/
theorem Passes.eq {a b c : Source} {used : Bytes} (h : Passes a b used) (h' : Passes a c used) :
    b = c := by
  have hbytes : b.bytes = c.bytes := h.bytes.trans h'.bytes.symm
  have hposition : b.position = c.position := h.position.trans h'.position.symm
  rw [b.eq_ofBytes, c.eq_ofBytes, hbytes, hposition]

/-- The buffer does not change while it is read, nor does its length. -/
theorem Passes.length {a b : Source} {used : Bytes} (h : Passes a b used) :
    b.length = a.length := congrArg List.length h.bytes

/-- To read what stands at the front is to skip so many bytes. -/
theorem passes_skip {source : Source} {used rest : Bytes} (h : source.remaining = used ++ rest) :
    source.Passes (source.skip used.length) used ∧
      (source.skip used.length).remaining = rest := by
  have hrest : (source.skip used.length).remaining = rest := by
    show source.remaining.drop used.length = rest
    rw [h, List.drop_left]
  exact ⟨⟨rfl, rfl, by rw [hrest, h]⟩, hrest⟩

/-- So many bytes are read if they come next. -/
theorem readExact_eq_some_iff {source source' : Source} {n : Nat} {taken : Bytes} :
    source.readExact n = (some taken, source') ↔
      Passes source source' taken ∧ taken.length = n := by
  unfold readExact
  constructor
  · intro h
    split at h
    · next hs =>
      cases h
      obtain ⟨hsplit, hlen⟩ := Bytes.splitExact?_eq_some_iff.mp hs
      exact ⟨hlen ▸ (passes_skip hsplit).1, hlen⟩
    · cases h
  · rintro ⟨hpass, rfl⟩
    have hs := Bytes.splitExact?_append taken source'.remaining
    rw [← hpass.remaining] at hs
    simp only [hs, (passes_skip hpass.remaining).1.eq hpass]

/-- A blob is read in full if so many bytes come next. -/
theorem readUpTo_eq_iff {source source' : Source} {n : Nat} {taken : Bytes}
    (hlen : taken.length = n) :
    source.readUpTo n = (taken, source') ↔ Passes source source' taken := by
  subst hlen
  unfold readUpTo
  constructor
  · intro h
    have htaken : source.remaining.take taken.length = taken := congrArg Prod.fst h
    have hsource := congrArg Prod.snd h
    simp only [htaken] at hsource
    rw [← hsource]
    have hsplit := List.take_append_drop taken.length source.remaining
    rw [htaken] at hsplit
    exact (passes_skip hsplit.symm).1
  · intro hpass
    have htaken : source.remaining.take taken.length = taken := by
      rw [hpass.remaining, List.take_left]
    simp only [htaken, (passes_skip hpass.remaining).1.eq hpass]

end Source

namespace Layout

variable {H : Type} (l : Layout H)

/-- Reads a record from a buffer. -/
def read (s : Source) : Option H × Source :=
  match s.readExact l.size with
  | (some bytes, s) => (some (l.ofBytes bytes), s)
  | (none, s) => (none, s)

/-- A record is read if it comes next, and nothing else is passed. -/
theorem read_eq_some_iff {source source' : Source} {h : H} :
    l.read source = (some h, source') ↔ source.Passes source' (l.toBytes h) := by
  unfold read
  constructor
  · intro hread
    split at hread
    · next bytes left hs =>
      cases hread
      obtain ⟨hpass, hlen⟩ := Source.readExact_eq_some_iff.mp hs
      rwa [l.toBytes_ofBytes hlen]
    · cases hread
  · intro hpass
    have hs := Source.readExact_eq_some_iff.mpr ⟨hpass, l.length_toBytes h⟩
    simp only [hs, l.ofBytes_toBytes]

end Layout

/-- The header of a stream is read exactly if its bytes come next. -/
theorem FileHeader.read_eq_some_iff {source source' : Source} {header : FileHeader} :
    read source = (some header, source') ↔ source.Passes source' header.toBytes :=
  layout.read_eq_some_iff

/-- The header of a block is read exactly if its bytes come next. -/
theorem NodeHeader.read_eq_some_iff {source source' : Source} {header : NodeHeader} :
    read source = (some header, source') ↔ source.Passes source' header.toBytes :=
  layout.read_eq_some_iff

/-- A header is read from a buffer as from any other source. -/
theorem NodeHeader.readFrom_buffer (source : Source) :
    readFrom source =
      match read source with
      | (some header, source) => (.ok header, source)
      | (none, source) => (.error .headerCut, source) := by
  have hexact : ByteSource.readExact source byteSize =
      match source.readExact byteSize with
      | (some taken, source) => (.ok taken, source)
      | (none, source) => (.error .headerCut, source) := rfl
  unfold readFrom read
  rw [hexact]
  rcases source.readExact byteSize with ⟨_ | _, behind⟩
  · rfl
  · rfl

namespace Inflate

/-! ### Properties -/

variable {entry : Entry β}

/-- A pair is read from the front of the data if an identifier of the type and a value stand
there and the property takes the value. -/
theorem readPair_eq_ok_iff (hf : entry.table.Faithful)
    (hp : entry.table.properties = entry.type.properties) {count : UInt32} {payload next : β}
    {data rest : Bytes} :
    readPair entry count payload data = .ok (next, rest) ↔
      ∃ p ∈ entry.type.properties, ∃ value piece,
        data = Bytes.ofWord32 (nameHash p.name) ++ piece ++ rest ∧
          Value.decode piece = (.ok value, []) ∧ p.write payload value = .ok next := by
  unfold readPair writePair
  constructor
  · intro h
    split at h
    · cases h
    · next word left hsplit =>
      obtain ⟨rfl, hword⟩ := Bytes.splitExact?_eq_some_iff.mp hsplit
      simp only at h
      split at h
      · cases h
      · next slot hslot =>
        obtain ⟨p, hprop, hid⟩ := hf.property?_of_slot? hslot
        split at h
        · cases h
        · next value left hdecode =>
          obtain ⟨piece, rfl, hpiece⟩ := Value.decode_eq_ok_iff.mp hdecode
          simp only [hprop] at h
          split at h
          · next written hwrite =>
            split at hwrite
            · next hw =>
              cases hwrite
              cases h
              refine ⟨p, hp ▸ List.mem_of_getElem? hprop, value, piece, ?_, hpiece, hw⟩
              rw [hid, Bytes.ofWord32_toWord32 hword, List.append_assoc]
            · cases hwrite
          · cases h
  · rintro ⟨p, hmem, value, piece, rfl, hpiece, hw⟩
    rw [← hp] at hmem
    obtain ⟨slot, hprop⟩ := List.mem_iff_getElem?.mp hmem
    have hslot := hf.slot?_of_property? hprop
    have hsplit := Bytes.splitExact?_append (Bytes.ofWord32 (nameHash p.name)) (piece ++ rest)
    rw [Bytes.length_ofWord32, ← List.append_assoc] at hsplit
    have hdecode : Value.decode (piece ++ rest) = (.ok value, rest) :=
      Value.decode_eq_ok_iff.mpr ⟨piece, rfl, hpiece⟩
    have hprop' : entry.table.property? slot = some p := hprop
    simp only [hsplit, Bytes.toWord32_ofWord32, hslot, hdecode, hprop', hw]

/-- So many pairs are read exactly if they come next in the data and their values can be written one
after the other. By induction on their number. -/
theorem readPairs_eq_ok_iff (hf : entry.table.Faithful)
    (hp : entry.table.properties = entry.type.properties) {count : UInt32} {left : Nat}
    {payload final : β} {data rest : Bytes} :
    readPairs entry count left payload data = .ok (final, rest) ↔
      ∃ used, data = used ++ rest ∧ Pairs entry.type.properties left payload used final := by
  induction left generalizing payload data with
  | zero =>
    unfold readPairs
    constructor
    · intro h
      cases h
      exact ⟨[], rfl, .nil final⟩
    · rintro ⟨used, rfl, hpairs⟩
      cases hpairs
      rfl
  | succ left ih =>
    unfold readPairs
    constructor
    · intro h
      split at h
      · next next between hpair =>
        obtain ⟨p, hmem, value, piece, rfl, hpiece, hw⟩ := (readPair_eq_ok_iff hf hp).mp hpair
        obtain ⟨used, rfl, hmore⟩ := ih.mp h
        exact ⟨_, (List.append_assoc _ _ _).symm, .cons hmem hpiece hw hmore⟩
      · cases h
    · rintro ⟨used, rfl, hpairs⟩
      cases hpairs with
      | @cons _ _ next _ p value piece used hmem hpiece hw hmore =>
        have hpair : readPair entry count payload
            (Bytes.ofWord32 (nameHash p.name) ++ piece ++ used ++ rest) =
              .ok (next, used ++ rest) :=
          (readPair_eq_ok_iff hf hp).mpr
            ⟨p, hmem, value, piece, List.append_assoc _ _ _, hpiece, hw⟩
        simp only [hpair]
        exact ih.mpr ⟨used, rfl, hmore⟩

/-- The data of a block are read exactly if they are the announced number of pairs and nothing
else. -/
theorem fillPayload_eq_ok_iff (hf : entry.table.Faithful)
    (hp : entry.table.properties = entry.type.properties) {count : UInt32} {payload : β}
    {data : Bytes} :
    fillPayload entry count data = .ok payload ↔
      Pairs entry.type.properties count.toNat entry.type.initial data payload := by
  unfold fillPayload
  constructor
  · intro h
    split at h
    · cases h
    · next hpairs =>
      cases h
      obtain ⟨used, rfl, hpairs⟩ := (readPairs_eq_ok_iff hf hp).mp hpairs
      rwa [List.append_nil]
    · cases h
  · intro h
    have hpairs : readPairs entry count count.toNat entry.type.initial data =
        .ok (payload, []) :=
      (readPairs_eq_ok_iff hf hp).mpr ⟨data, (List.append_nil data).symm, h⟩
    simp only [hpairs]

/-! ### Records -/

/-- Reading a record from a buffer: its header, and as many bytes as that announces. -/
theorem readRecord_buffer (settings : Settings) (catalogue : Catalogue β)
    (registry : RegistryRef) (source : Source) :
    readRecord settings catalogue registry source =
      match NodeHeader.read source with
      | (none, source) => (.error (.buffer .headerCut), source)
      | (some header, source) =>
        if settings.maxPayloadSize < header.size then
          (.error (.payloadTooLarge header.size.toNat settings.maxPayloadSize), source)
        else
          match catalogue.findId registry header.blockType with
          | none => (.error (.unknownBlockType header.blockType), source)
          | some (ref, entry) =>
            let (data, source) := source.readUpTo header.size.toNat
            if data.length = header.size.toNat then (.ok { header, ref, entry, data }, source)
            else (.error (.buffer .payloadCut), source) := by
  unfold readRecord
  rw [NodeHeader.readFrom_buffer]
  rcases NodeHeader.read source with ⟨header | _, behind⟩
  · rfl
  · rfl

/-- A record is read exactly if a header of a registered type and as many bytes as it announces
come next. -/
theorem readRecord_eq_ok_iff {settings : Settings} {catalogue : Catalogue β}
    {registry : RegistryRef} {source source' : Source} {record : Record β} :
    readRecord settings catalogue registry source = (.ok record, source') ↔
      record.header.size ≤ settings.maxPayloadSize ∧
        catalogue.findId registry record.header.blockType = some (record.ref, record.entry) ∧
        record.data.length = record.header.size.toNat ∧
        source.Passes source' (record.header.toBytes ++ record.data) := by
  rw [readRecord_buffer]
  constructor
  · intro h
    split at h
    · cases h
    · next header middle hread =>
      have hhead := NodeHeader.read_eq_some_iff.mp hread
      split at h
      · cases h
      · next hsmall =>
        split at h
        · cases h
        · next ref entry hfound =>
          simp only at h
          split at h
          · next hlen =>
            cases h
            have hdata := (Source.readUpTo_eq_iff hlen).mp rfl
            exact ⟨UInt32.not_lt.mp hsmall, hfound, hlen, hhead.trans hdata⟩
          · cases h
  · rintro ⟨hsmall, hfound, hlen, hpass⟩
    obtain ⟨header, ref, entry, data⟩ := record
    simp only at hsmall hfound hlen hpass
    have hfront := hpass.remaining
    rw [List.append_assoc] at hfront
    obtain ⟨hhead, hrest⟩ := Source.passes_skip hfront
    obtain ⟨hdata, -⟩ := Source.passes_skip hrest
    obtain rfl := hpass.eq (hhead.trans hdata)
    have hread := NodeHeader.read_eq_some_iff.mpr hhead
    have hupto := (Source.readUpTo_eq_iff hlen).mpr hdata
    simp only [hread, UInt32.not_lt.mpr hsmall, if_false, hfound, hupto, hlen, if_true]

end Inflate

end BlockForest
