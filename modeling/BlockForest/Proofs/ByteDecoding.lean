import Mathlib
import BlockForest.Bytes.Laws
import BlockForest.Stream.Header

/-!
# Values and headers as bytes

A reader that succeeds uses up the front of its input and would have done the same whatever
stood behind: `Local` says so, it passes from the parts of a reader to the whole, and
`local_decode` is the case of values. It is what lets one cut a stream into pieces and talk
about each piece alone.

The other direction is `decodeNested_encode`: what was written is read back, in front of anything.
It asks for no more than the decoder does, which is that lists are nested at most as deep as it
goes, and that the lengths in the value fit into 32 bits (`Value.Measured`). The latter holds
where the whole encoding is as short as that, and `decode_encode` puts it this way.

Headers are records of words. What both kinds of them have in common is a `Layout`, and that writing
and reading undo each other is said of that.
-/

set_option autoImplicit false

namespace BlockForest

namespace Bytes

/-- So many bytes are split off the front of a list that begins with them, whatever follows. -/
theorem splitExact?_append {α : Type} (taken rest : List α) :
    splitExact? taken.length (taken ++ rest) = some (taken, rest) :=
  splitExact?_eq_some_iff.mpr ⟨rfl, rfl⟩

/-! ### Words -/

/-- A word takes four bytes. -/
@[simp] theorem length_ofWord32 (w : UInt32) : (ofWord32 w).length = 4 := length_little 4 _

/-- A double word takes eight bytes. -/
@[simp] theorem length_ofWord64 (w : UInt64) : (ofWord64 w).length = 8 := length_little 8 _

/-- A word that was written is read back. -/
@[simp] theorem toWord32_ofWord32 (w : UInt32) : toWord32 (ofWord32 w) = w := by
  have hlt : w.toNat % 256 ^ 4 = w.toNat := Nat.mod_eq_of_lt w.toNat_lt
  rw [toWord32, ofWord32, littleNat_little, hlt, UInt32.ofNat_toNat]

/-- A double word that was written is read back. -/
@[simp] theorem toWord64_ofWord64 (w : UInt64) : toWord64 (ofWord64 w) = w := by
  have hlt : w.toNat % 256 ^ 8 = w.toNat := Nat.mod_eq_of_lt w.toNat_lt
  rw [toWord64, ofWord64, littleNat_little, hlt, UInt64.ofNat_toNat]

/-- The number that bytes stand for is less than the number of byte strings of their length, so it
fits into a word of that width. -/
theorem littleNat_lt (bytes : Bytes) : littleNat bytes < 256 ^ bytes.length := by
  induction bytes with
  | nil => simp [littleNat]
  | cons b rest ih =>
    have hb : b.toNat < 256 := b.toNat_lt
    rw [littleNat, List.length_cons, Nat.pow_succ]
    omega

/-- Any four bytes are those of the word that they are read as. -/
theorem ofWord32_toWord32 {bytes : Bytes} (h : bytes.length = 4) :
    ofWord32 (toWord32 bytes) = bytes := by
  have hlt : littleNat bytes < 2 ^ 32 := by
    have := littleNat_lt bytes
    rw [h] at this
    omega
  have hback := little_littleNat bytes
  rw [h] at hback
  rw [ofWord32, toWord32, UInt32.toNat_ofNat', Nat.mod_eq_of_lt hlt, hback]

/-! ### Text -/

/-- The loop behind the list of a byte array appends the bytes from an index on to what it has
gathered. -/
theorem toList_loop (b : ByteArray) (i : Nat) (r : List UInt8) :
    ByteArray.toList.loop b i r = r.reverse ++ b.data.toList.drop i := by
  fun_induction ByteArray.toList.loop b i r with
  | case1 i r hlt ih =>
    have hlen : i < b.data.toList.length := hlt
    have hget : b.get! i = b.data.toList[i] := by
      show b.data[i]! = _
      rw [getElem!_pos b.data i hlt, Array.getElem_toList]
    rw [ih, List.reverse_cons, List.append_assoc, hget, List.singleton_append,
      List.getElem_cons_drop]
  | case2 i r hge =>
    have hlen : b.data.toList.length ≤ i := Nat.le_of_not_lt hge
    rw [List.drop_eq_nil_of_le hlen, List.append_nil]

/-- The bytes of a text are those of its UTF-8 form. -/
theorem ofString_eq (s : String) : ofString s = s.toByteArray.data.toList := by
  show ByteArray.toList.loop s.toByteArray 0 [] = _
  rw [toList_loop]
  rfl

/-- The length of a text in bytes is its size in UTF-8, which is what its count says. -/
theorem length_ofString (s : String) : (ofString s).length = s.utf8ByteSize := by
  rw [ofString_eq]
  rfl

/-- Text that was written is read back. -/
theorem toString?_ofString (s : String) : toString? (ofString s) = some s := by
  have hbytes : (⟨(ofString s).toArray⟩ : ByteArray) = s.toByteArray := by
    rw [ofString_eq, Array.toArray_toList]
  unfold toString? String.fromUTF8?
  rw [hbytes, dif_pos s.isValidUTF8]
  rfl

end Bytes

/-! ### Headers -/

/-- As many words are read as are asked for, since missing bytes count as zero. -/
theorem length_wordsOf (count : Nat) (bytes : Bytes) : (wordsOf count bytes).length = count := by
  induction count generalizing bytes with
  | zero => rfl
  | succ count ih => rw [wordsOf, List.length_cons, ih]

/-- Words written one after the other are read back in their order. -/
theorem wordsOf_flatMap (words : List UInt32) :
    wordsOf words.length (words.flatMap Bytes.ofWord32) = words := by
  induction words with
  | nil => rfl
  | cons w rest ih =>
    have htake : (Bytes.ofWord32 w ++ rest.flatMap Bytes.ofWord32).take 4 = Bytes.ofWord32 w :=
      List.take_left' (Bytes.length_ofWord32 w)
    have hdrop : (Bytes.ofWord32 w ++ rest.flatMap Bytes.ofWord32).drop 4 =
        rest.flatMap Bytes.ofWord32 := List.drop_left' (Bytes.length_ofWord32 w)
    rw [List.flatMap_cons, List.length_cons, wordsOf, htake, hdrop, ih, Bytes.toWord32_ofWord32]

/-- Bytes that are a whole number of words are written again from the words read from them. -/
theorem flatMap_wordsOf {count : Nat} {bytes : Bytes} (h : bytes.length = 4 * count) :
    (wordsOf count bytes).flatMap Bytes.ofWord32 = bytes := by
  induction count generalizing bytes with
  | zero => rw [List.eq_nil_of_length_eq_zero h, wordsOf, List.flatMap_nil]
  | succ count ih =>
    have htake : (bytes.take 4).length = 4 := by
      rw [List.length_take]
      omega
    have hdrop : (bytes.drop 4).length = 4 * count := by
      rw [List.length_drop]
      omega
    rw [wordsOf, List.flatMap_cons, Bytes.ofWord32_toWord32 htake, ih hdrop,
      List.take_append_drop]

/-- How a record of words stands in bytes: so many words, one behind the other. To take a record apart
and to put it together undo each other. -/
structure Layout (H : Type) where
  /-- The number of words. -/
  count : Nat
  words : H → List UInt32
  ofWords : List UInt32 → H
  length_words : ∀ h, (words h).length = count
  ofWords_words : ∀ h, ofWords (words h) = h
  words_ofWords : ∀ w, w.length = count → words (ofWords w) = w

namespace Layout

variable {H : Type} (l : Layout H)

/-- The length of a record in bytes. -/
def size : Nat := 4 * l.count

/-- A record as bytes, one word after the other. -/
def toBytes (h : H) : Bytes := (l.words h).flatMap Bytes.ofWord32

/-- The record that stands at the front of bytes. -/
def ofBytes (bytes : Bytes) : H := l.ofWords (wordsOf l.count bytes)

/-- A record takes the size of its layout. -/
theorem length_toBytes (h : H) : (l.toBytes h).length = l.size := by
  simp [toBytes, size, l.length_words, Nat.mul_comm]

/-- The words that are read from the bytes of a record are its own. -/
theorem wordsOf_toBytes (h : H) : wordsOf l.count (l.toBytes h) = l.words h := by
  rw [toBytes, ← l.length_words h, wordsOf_flatMap]

/-- A record that was written is read back. -/
theorem ofBytes_toBytes (h : H) : l.ofBytes (l.toBytes h) = h := by
  rw [ofBytes, wordsOf_toBytes, l.ofWords_words]

/-- Any bytes of the length of a record are a record. -/
theorem toBytes_ofBytes {bytes : Bytes} (hlen : bytes.length = l.size) :
    l.toBytes (l.ofBytes bytes) = bytes := by
  rw [ofBytes, toBytes, l.words_ofWords _ (length_wordsOf l.count bytes)]
  exact flatMap_wordsOf hlen

end Layout

namespace FileHeader

/-- The header of a stream is six words. -/
def layout : Layout FileHeader where
  count := 6
  words := words
  ofWords := ofWords
  length_words _ := rfl
  ofWords_words _ := rfl
  words_ofWords
    | [_, _, _, _, _, _], _ => rfl

/-- The header of a stream takes 24 bytes. -/
@[simp] theorem length_toBytes (h : FileHeader) : h.toBytes.length = byteSize :=
  layout.length_toBytes h

/-- A header that was written is read back. -/
@[simp] theorem ofBytes_toBytes (h : FileHeader) : ofBytes h.toBytes = h :=
  layout.ofBytes_toBytes h

end FileHeader

namespace NodeHeader

/-- The header of a block is four words. -/
def layout : Layout NodeHeader where
  count := 4
  words := words
  ofWords := ofWords
  length_words _ := rfl
  ofWords_words _ := rfl
  words_ofWords
    | [_, _, _, _], _ => rfl

/-- The header of a block takes 16 bytes. -/
@[simp] theorem length_toBytes (h : NodeHeader) : h.toBytes.length = byteSize :=
  layout.length_toBytes h

/-- A header that was written is read back. -/
@[simp] theorem ofBytes_toBytes (h : NodeHeader) : ofBytes h.toBytes = h :=
  layout.ofBytes_toBytes h

end NodeHeader

/-! ### Readers that use up a prefix -/

namespace Value

/-- The reader uses up the front of its input and does not look at what stands behind. -/
def Local {α : Type} (read : Bytes → Reading α) : Prop :=
  ∀ input a rest, read input = (.ok a, rest) →
    ∃ used, input = used ++ rest ∧ ∀ more, read (used ++ more) = (.ok a, more)

/-- Reading so many bytes does not depend on what stands behind them. -/
theorem local_readExact (n : Nat) : Local (readExact n) := by
  intro input a rest h
  unfold readExact at h
  split at h
  · next taken rest' hs =>
    cases h
    obtain ⟨rfl, rfl⟩ := Bytes.splitExact?_eq_some_iff.mp hs
    refine ⟨a, rfl, fun more => ?_⟩
    rw [readExact, Bytes.splitExact?_append]
  · cases h

/-- Two readers one after the other. -/
theorem Local.andThen {α γ : Type} {read : Bytes → Reading α} {next : α → Bytes → Reading γ}
    (hr : Local read) (hn : ∀ a, Local (next a)) :
    Local fun input => (read input).andThen next := by
  intro input c rest h
  simp only at h
  match hread : read input with
  | (.error e, left) =>
    rw [hread] at h
    cases h
  | (.ok a, left) =>
    rw [hread] at h
    obtain ⟨first, rfl, hfirst⟩ := hr input a left hread
    obtain ⟨second, rfl, hsecond⟩ := hn a left c rest h
    refine ⟨first ++ second, (List.append_assoc _ _ _).symm, fun more => ?_⟩
    simp only
    rw [List.append_assoc, hfirst]
    exact hsecond more

/-- What needs no input uses up none. -/
theorem local_ok {α : Type} (a : α) : Local fun input => (.ok a, input) := by
  intro input b rest h
  cases h
  exact ⟨[], rfl, fun more => rfl⟩

/-- To refuse without looking does not depend on anything. -/
theorem local_error {α : Type} (e : DecodeError) :
    Local fun input => ((.error e, input) : Reading α) := by
  intro input b rest h
  cases h

/-- To change the answer of a reader does not change what it looks at. -/
theorem Local.map {α γ : Type} {read : Bytes → Reading α} (hr : Local read) (f : α → γ) :
    Local fun input => (read input).map f := hr.andThen fun a => local_ok (f a)

/-- A blob is a count and as many bytes, so reading it does not depend on the rest. -/
theorem local_decodeBlob : Local decodeBlob :=
  (local_readExact 4).andThen fun word => local_readExact (Bytes.toWord32 word).toNat

/-- Whether bytes are a text is decided by them alone. -/
theorem local_decodeText (bytes : Bytes) : Local (decodeText bytes) := by
  unfold decodeText
  cases Bytes.toString? bytes with
  | none => exact local_error .invalidUtf8
  | some s => exact local_ok (Value.string s)

/-- A value of fixed size or a blob is read without a look at the rest, whatever its kind. -/
theorem local_decodeScalar (kind : Kind) : Local (decodeScalar kind) := by
  cases kind with
  | bool => exact (local_readExact 1).map _
  | int => exact (local_readExact 4).map _
  | uint => exact (local_readExact 4).map _
  | long => exact (local_readExact 8).map _
  | ulong => exact (local_readExact 8).map _
  | double => exact (local_readExact 8).map _
  | string => exact local_decodeBlob.andThen local_decodeText
  | bytes => exact local_decodeBlob.map _
  | list => exact local_error .tooDeep

/-- The tag at the front decides the kind alone. -/
theorem local_decodeKind : Local decodeKind := by
  refine (local_readExact 1).andThen fun bytes => ?_
  cases Kind.ofTag? (bytes.headD 0) with
  | none => exact local_error _
  | some kind => exact local_ok kind

/-- If one item is read without a look at the rest, so are items in a row. By induction on their
number. -/
theorem local_decodeItems {item : Bytes → Reading Value} (hi : Local item) (count : Nat) :
    Local (decodeItems item count) := by
  induction count with
  | zero => exact local_ok []
  | succ count ih => exact hi.andThen fun v => ih.map _

/-- By induction on the levels that are left, a value is read without a look at the rest. -/
theorem local_decodeNested (levels : Nat) : Local (decodeNested levels) := by
  induction levels with
  | zero => exact local_decodeKind.andThen local_decodeScalar
  | succ levels ih =>
    refine local_decodeKind.andThen fun kind => ?_
    cases kind with
    | list =>
      exact (local_readExact 4).andThen fun word =>
        (local_decodeItems ih (Bytes.toWord32 word).toNat).map Value.list
    | _ => exact local_decodeScalar _

/-- The reader of values does not look behind the value it reads. -/
theorem local_decode : Local decode := local_decodeNested maxNesting

/-- A value stands at the front of a byte string exactly if some first part of it is the value
and nothing else. -/
theorem decode_eq_ok_iff {input rest : Bytes} {v : Value} :
    decode input = (.ok v, rest) ↔ ∃ used, input = used ++ rest ∧ decode used = (.ok v, []) := by
  constructor
  · intro h
    obtain ⟨used, hinput, hused⟩ := local_decode input v rest h
    refine ⟨used, hinput, ?_⟩
    simpa using hused []
  · rintro ⟨used, rfl, h⟩
    obtain ⟨used', hsplit, hused⟩ := local_decode used v [] h
    rw [hsplit, List.append_nil]
    exact hused rest

/-! ### What was written is read back -/

/-- Reading as many bytes as stand in front gives exactly these, and leaves the rest. -/
theorem readExact_append {taken rest : Bytes} {n : Nat} (h : taken.length = n) :
    readExact n (taken ++ rest) = (.ok taken, rest) := by
  subst h
  rw [readExact, Bytes.splitExact?_append]

/-- A blob whose length fits into its count is read back, whatever follows it. -/
theorem decodeBlob_encodeBlob {data : Bytes} (h : data.length < 2 ^ 32) (rest : Bytes) :
    decodeBlob (encodeBlob data ++ rest) = (.ok data, rest) := by
  have hcount : (UInt32.ofNat data.length).toNat = data.length := by
    rw [UInt32.toNat_ofNat', Nat.mod_eq_of_lt h]
  rw [decodeBlob, encodeBlob, List.append_assoc, readExact_append (Bytes.length_ofWord32 _)]
  show readExact (Bytes.toWord32 (Bytes.ofWord32 (UInt32.ofNat data.length))).toNat
    (data ++ rest) = _
  rw [Bytes.toWord32_ofWord32, hcount, readExact_append rfl]

/-- The tag of each kind is read as that kind. -/
theorem decodeKind_tag (kind : Kind) (rest : Bytes) :
    decodeKind (kind.tag :: rest) = (.ok kind, rest) := by
  cases kind <;> rfl

/-- Any value but a list is read in the same way at every level. -/
theorem decodeNested_tag {kind : Kind} (hk : kind ≠ .list) (levels : Nat) (rest : Bytes) :
    decodeNested levels (kind.tag :: rest) = decodeScalar kind rest := by
  cases levels with
  | zero =>
    rw [decodeNested, decodeKind_tag]
    rfl
  | succ levels =>
    rw [decodeNested, decodeKind_tag]
    cases kind with
    | list => exact absurd rfl hk
    | _ => rfl

/-- Behind the tag of a list the reader takes a count and as many items, one level further down. -/
theorem decodeNested_list (levels : Nat) (rest : Bytes) :
    decodeNested (levels + 1) (Kind.list.tag :: rest) =
      (readExact 4 rest).andThen fun word rest =>
        (decodeItems (decodeNested levels) (Bytes.toWord32 word).toNat rest).map Value.list := by
  rw [decodeNested, decodeKind_tag]
  rfl

/-- Every value takes at least its tag. -/
theorem one_le_length_encode (v : Value) : 1 ≤ v.encode.length := by
  cases v <;> simp [encode]

/-- Items take at least one byte each, so a count that fits the bytes fits the items. -/
theorem length_le_encodeItems (items : List Value) :
    items.length ≤ (encodeItems items).length := by
  induction items with
  | nil => simp
  | cons v rest ih =>
    have := one_le_length_encode v
    rw [encodeItems, List.length_cons, List.length_append]
    omega

/-- A number that fits into a word is denoted by it. -/
theorem toNat_ofNat_of_lt {n : Nat} (h : n < 2 ^ 32) : (UInt32.ofNat n).toNat = n := by
  rw [UInt32.toNat_ofNat', Nat.mod_eq_of_lt h]

mutual

/-- The length of each text, each byte blob and each list in a value fits into a word. -/
def Measured : Value → Prop
  | .string s => s.utf8ByteSize < 2 ^ 32
  | .bytes b => b.length < 2 ^ 32
  | .list items => items.length < 2 ^ 32 ∧ itemsMeasured items
  | _ => True

def itemsMeasured : List Value → Prop
  | [] => True
  | v :: rest => v.Measured ∧ itemsMeasured rest

end

mutual

/-- An encoding that is short as a whole has short parts. -/
theorem measured_of_length : ∀ v : Value, v.encode.length < 2 ^ 32 → v.Measured
  | .bool _, _ => trivial
  | .int _, _ => trivial
  | .uint _, _ => trivial
  | .long _, _ => trivial
  | .ulong _, _ => trivial
  | .double _, _ => trivial
  | .string s, h => by
    simp only [encode, encodeBlob, List.length_cons, List.length_append,
      Bytes.length_ofString] at h
    show s.utf8ByteSize < 2 ^ 32
    omega
  | .bytes b, h => by
    simp only [encode, encodeBlob, List.length_cons, List.length_append] at h
    show b.length < 2 ^ 32
    omega
  | .list items, h => by
    have hcount := length_le_encodeItems items
    simp only [encode, List.length_cons, List.length_append] at h
    exact ⟨by omega, itemsMeasured_of_length items (by omega)⟩

/-- Items whose bytes fit into a count of 32 bits are measured, since each part is no longer than
the whole. -/
theorem itemsMeasured_of_length : ∀ items : List Value,
    (encodeItems items).length < 2 ^ 32 → itemsMeasured items
  | [], _ => trivial
  | v :: items, h => by
    rw [encodeItems, List.length_append] at h
    exact ⟨measured_of_length v (by omega), itemsMeasured_of_length items (by omega)⟩

end

mutual

/-- A measured value that is nested no deeper than the levels that are left is read back, whatever
follows. By induction on the value, together with `decodeItems_encode` on its items. -/
theorem decodeNested_encode : ∀ (v : Value) (levels : Nat) (rest : Bytes),
    v.nesting ≤ levels → v.Measured → decodeNested levels (v.encode ++ rest) = (.ok v, rest)
  | .bool b, levels, rest, _, _ => by
    rw [encode, List.cons_append, decodeNested_tag (by decide)]
    cases b <;> rfl
  | .int i, levels, rest, _, _ => by
    rw [encode, List.cons_append, decodeNested_tag (by decide), decodeScalar,
      readExact_append (Bytes.length_ofWord32 _)]
    simp [Reading.map, Reading.andThen]
  | .uint u, levels, rest, _, _ => by
    rw [encode, List.cons_append, decodeNested_tag (by decide), decodeScalar,
      readExact_append (Bytes.length_ofWord32 _)]
    simp [Reading.map, Reading.andThen]
  | .long l, levels, rest, _, _ => by
    rw [encode, List.cons_append, decodeNested_tag (by decide), decodeScalar,
      readExact_append (Bytes.length_ofWord64 _)]
    simp [Reading.map, Reading.andThen]
  | .ulong u, levels, rest, _, _ => by
    rw [encode, List.cons_append, decodeNested_tag (by decide), decodeScalar,
      readExact_append (Bytes.length_ofWord64 _)]
    simp [Reading.map, Reading.andThen]
  | .double d, levels, rest, _, _ => by
    rw [encode, List.cons_append, decodeNested_tag (by decide), decodeScalar,
      readExact_append (Bytes.length_ofWord64 _)]
    simp [Reading.map, Reading.andThen]
  | .string s, levels, rest, _, hs => by
    have hblob : (Bytes.ofString s).length < 2 ^ 32 := by
      rw [Bytes.length_ofString]
      exact hs
    rw [encode, List.cons_append, decodeNested_tag (by decide), decodeScalar,
      decodeBlob_encodeBlob hblob]
    show decodeText (Bytes.ofString s) rest = _
    rw [decodeText, Bytes.toString?_ofString]
  | .bytes b, levels, rest, _, hb => by
    rw [encode, List.cons_append, decodeNested_tag (by decide), decodeScalar,
      decodeBlob_encodeBlob hb]
    rfl
  | .list items, levels, rest, hn, hitems => by
    -- A list takes one level itself, so its items are decoded with one level less.
    rw [nesting] at hn
    obtain ⟨levels, rfl⟩ := Nat.exists_eq_succ_of_ne_zero (by omega : levels ≠ 0)
    rw [encode, List.cons_append, decodeNested_list, List.append_assoc,
      readExact_append (Bytes.length_ofWord32 _)]
    show (decodeItems (decodeNested levels)
      (Bytes.toWord32 (Bytes.ofWord32 (UInt32.ofNat items.length))).toNat _).map Value.list = _
    rw [Bytes.toWord32_ofWord32, toNat_ofNat_of_lt hitems.1,
      decodeItems_encode items levels rest (by omega) hitems.2]
    rfl

/-- Items that were written one after the other are read back one after the other. -/
theorem decodeItems_encode : ∀ (items : List Value) (levels : Nat) (rest : Bytes),
    itemsNesting items ≤ levels → itemsMeasured items →
      decodeItems (decodeNested levels) items.length (encodeItems items ++ rest) =
        (.ok items, rest)
  | [], _, _, _, _ => rfl
  | v :: items, levels, rest, hn, hm => by
    rw [itemsNesting] at hn
    rw [encodeItems, List.length_cons, decodeItems, List.append_assoc,
      decodeNested_encode v levels _ (by omega) hm.1]
    show (decodeItems (decodeNested levels) items.length (encodeItems items ++ rest)).map _ = _
    rw [decodeItems_encode items levels rest (by omega) hm.2]
    rfl

end

/-- What was written is read back, in front of anything. -/
theorem decode_encode {v : Value} (hn : v.nesting ≤ maxNesting)
    (hlen : v.encode.length < 2 ^ 32) (rest : Bytes) :
    decode (v.encode ++ rest) = (.ok v, rest) :=
  decodeNested_encode v maxNesting rest hn (measured_of_length v hlen)

end Value

end BlockForest
