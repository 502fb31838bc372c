import Mathlib
import BlockForest.Proofs.ByteDecoding

/-!
# How deep a value may be nested to be read

The reader of values goes down a fixed number of levels, and an encoding is refused exactly if the
value has more of them. `decodeNested_encode` is one half of this, for a value within the levels.
The other half is `decodeNested_encode_deep`: in a list of items the reader takes up all that stand
before the first one that is too deep, and fails there with `tooDeep` and no other remark. Both
hold for any number of levels, for the reader has one less of them within each list, and an empty
list takes up a level as any other does.

That the length of an encoding is known beforehand needs no bound at all (`length_encode`).
-/

set_option autoImplicit false

namespace BlockForest

namespace Value

/-! ### The length of an encoding -/

mutual

/-- An encoding is as long as it was announced to be. -/
theorem length_encode : ∀ v : Value, v.encode.length = v.encodedLength
  | .bool _ => rfl
  | .int i => by
    rw [encode, List.length_cons, Bytes.length_ofWord32, encodedLength]
  | .uint u => by
    rw [encode, List.length_cons, Bytes.length_ofWord32, encodedLength]
  | .long l => by
    rw [encode, List.length_cons, Bytes.length_ofWord64, encodedLength]
  | .ulong u => by
    rw [encode, List.length_cons, Bytes.length_ofWord64, encodedLength]
  | .double d => by
    rw [encode, List.length_cons, Bytes.length_ofWord64, encodedLength]
  | .string s => by
    rw [encode, List.length_cons, encodeBlob, List.length_append, Bytes.length_ofWord32,
      Bytes.length_ofString, encodedLength]
    omega
  | .bytes b => by
    rw [encode, List.length_cons, encodeBlob, List.length_append, Bytes.length_ofWord32,
      encodedLength]
    omega
  | .list items => by
    rw [encode, List.length_cons, List.length_append, Bytes.length_ofWord32,
      length_encodeItems items, encodedLength]
    omega

/-- Items take as many bytes as their encodings together. The other half of the induction for
`length_encode`. -/
theorem length_encodeItems : ∀ items : List Value, (encodeItems items).length = itemsLength items
  | [] => rfl
  | v :: rest => by
    rw [encodeItems, List.length_append, length_encode v, length_encodeItems rest, itemsLength]

end

/-! ### Values that are nested too deep -/

/-- Nothing is read after a failure. -/
theorem fst_andThen_of_error {α γ : Type} {r : Reading α} {f : α → Bytes → Reading γ}
    {e : DecodeError} (h : r.1 = .error e) : (r.andThen f).1 = .error e := by
  obtain ⟨_, rest⟩ := r
  cases h
  rfl

mutual

/-- A value that is nested deeper than so many levels is refused. -/
theorem decodeNested_encode_deep : ∀ (v : Value) (levels : Nat) (rest : Bytes),
    levels < v.nesting → v.Measured →
      (decodeNested levels (v.encode ++ rest)).1 = .error .tooDeep
  | .bool _, _, _, hn, _ => absurd hn (Nat.not_lt_zero _)
  | .int _, _, _, hn, _ => absurd hn (Nat.not_lt_zero _)
  | .uint _, _, _, hn, _ => absurd hn (Nat.not_lt_zero _)
  | .long _, _, _, hn, _ => absurd hn (Nat.not_lt_zero _)
  | .ulong _, _, _, hn, _ => absurd hn (Nat.not_lt_zero _)
  | .double _, _, _, hn, _ => absurd hn (Nat.not_lt_zero _)
  | .string _, _, _, hn, _ => absurd hn (Nat.not_lt_zero _)
  | .bytes _, _, _, hn, _ => absurd hn (Nat.not_lt_zero _)
  | .list items, 0, rest, _, _ => by
    rw [encode, List.cons_append, decodeNested, decodeKind_tag]
    rfl
  | .list items, levels + 1, rest, hn, hitems => by
    rw [nesting] at hn
    have hdeep := decodeItems_encode_deep items levels rest (by omega) hitems.2
    rw [encode, List.cons_append, decodeNested_list, List.append_assoc,
      readExact_append (Bytes.length_ofWord32 _)]
    show ((decodeItems (decodeNested levels)
      (Bytes.toWord32 (Bytes.ofWord32 (UInt32.ofNat items.length))).toNat _).map Value.list).1 = _
    rw [Bytes.toWord32_ofWord32, toNat_ofNat_of_lt hitems.1]
    exact fst_andThen_of_error hdeep

/-- Items one of which is nested too deep are refused, since the reader comes to it or complains of
nesting before. The other half of the induction for `decodeNested_encode_deep`. -/
theorem decodeItems_encode_deep : ∀ (items : List Value) (levels : Nat) (rest : Bytes),
    levels < itemsNesting items → itemsMeasured items →
      (decodeItems (decodeNested levels) items.length (encodeItems items ++ rest)).1 =
        .error .tooDeep
  | [], _, _, hn, _ => absurd hn (Nat.not_lt_zero _)
  | v :: items, levels, rest, hn, hm => by
    rw [itemsNesting] at hn
    rw [encodeItems, List.length_cons, decodeItems, List.append_assoc]
    by_cases hv : levels < v.nesting
    · exact fst_andThen_of_error (decodeNested_encode_deep v levels _ hv hm.1)
    · have hitems := decodeItems_encode_deep items levels rest (by omega) hm.2
      rw [decodeNested_encode v levels _ (Nat.not_lt.mp hv) hm.1]
      show ((decodeItems (decodeNested levels) items.length
        (encodeItems items ++ rest)).map _).1 = _
      exact fst_andThen_of_error hitems

end

/-- What is read where a value was written is this value, and it is not nested too deep. -/
theorem eq_of_decode_encode {v w : Value} {rest rest' : Bytes} (hlen : v.encode.length < 2 ^ 32)
    (h : decode (v.encode ++ rest) = (.ok w, rest')) :
    v.nesting ≤ maxNesting ∧ w = v ∧ rest' = rest := by
  by_cases hn : v.nesting ≤ maxNesting
  · rw [decode_encode hn hlen] at h
    cases h
    exact ⟨hn, rfl, rfl⟩
  · have hdeep := decodeNested_encode_deep v maxNesting rest (Nat.not_le.mp hn)
      (measured_of_length v hlen)
    rw [decode] at h
    rw [h] at hdeep
    cases hdeep

/-! ### The limit on both sides -/

/-- A value whose lengths fit into words has an encoding of the announced length. In front of
anything it is read back to the last bit, and nothing of what follows is used up, as long as its
lists are nested at most 64 deep; if they are nested deeper, it is refused for that. -/
theorem encode_decode_exact {v : Value} (h : v.Measured) (rest : Bytes) :
    v.encode.length = v.encodedLength ∧
      (v.nesting ≤ 64 → decode (v.encode ++ rest) = (.ok v, rest)) ∧
      (64 < v.nesting → (decode (v.encode ++ rest)).1 = .error .tooDeep) :=
  ⟨length_encode v, fun hn => decodeNested_encode v 64 rest hn h,
    fun hn => decodeNested_encode_deep v 64 rest hn h⟩

/-- So many lists around one another, the innermost of them empty. -/
def nested : Nat → Value
  | 0 => .list []
  | depth + 1 => .list [nested depth]

/-- A NaN with a payload comes back with it, next to a text and an empty list; of lists around one
another, 64 are read and 65 are not. -/
theorem encode_decode_exact_nested :
    decode ((list [.double ⟨0x7ff800000000beef⟩, .string "é", .list []]).encode ++ [0x10]) =
        (.ok (list [.double ⟨0x7ff800000000beef⟩, .string "é", .list []]), [0x10]) ∧
      decode ((nested 63).encode ++ [0x10]) = (.ok (nested 63), [0x10]) ∧
      (decode ((nested 64).encode ++ [0x10])).1 = .error .tooDeep := by
  have hnested : ∀ depth, (nested depth).Measured ∧ (nested depth).nesting = depth + 1 := by
    intro depth
    induction depth with
    | zero => exact ⟨⟨by decide, trivial⟩, rfl⟩
    | succ depth ih =>
      refine ⟨⟨by simp, ih.1, trivial⟩, ?_⟩
      rw [nested, nesting, itemsNesting, itemsNesting, ih.2]
      rfl
  have hmixed : (list [.double ⟨0x7ff800000000beef⟩, .string "é", .list []]).Measured :=
    ⟨by decide, trivial, (by decide : "é".utf8ByteSize < 2 ^ 32), ⟨by decide, trivial⟩, trivial⟩
  exact ⟨(encode_decode_exact hmixed [0x10]).2.1 (by decide),
    (encode_decode_exact (hnested 63).1 [0x10]).2.1 (by rw [(hnested 63).2]),
    (encode_decode_exact (hnested 64).1 [0x10]).2.2 (by rw [(hnested 64).2]; decide)⟩

end Value

end BlockForest
