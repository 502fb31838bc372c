import Mathlib
import BlockForest.Proofs.ValueNesting

/-!
# Which bytes are read as a value

What the reader takes for a value is its encoding, but for one thing: any byte other than zero
stands for a truth value that holds, and a one is written for it. The places of these bytes in an
encoding are known from the value (`flagPlaces`). `settle` puts a one there for whatever else is not
zero, and the bytes that were read come out as the encoding (`Rendered`).

The proof goes down with the reader, by its levels and along its counts. In a list the places of an
item move up by the length of what stands before it (`settle_append`); everything else is the same
for all kinds, since words and texts have one spelling each.
-/

set_option autoImplicit false

namespace BlockForest

namespace Bytes

/-- Any eight bytes are those of the double word that they are read as. -/
theorem ofWord64_toWord64 {bytes : Bytes} (h : bytes.length = 8) :
    ofWord64 (toWord64 bytes) = bytes := by
  have hlt : littleNat bytes < 2 ^ 64 := by
    have := littleNat_lt bytes
    rw [h] at this
    omega
  have hback := little_littleNat bytes
  rw [h] at hback
  rw [ofWord64, toWord64, UInt64.toNat_ofNat', Nat.mod_eq_of_lt hlt, hback]

/-- A text has no other form than its own. -/
theorem ofString_of_toString? {bytes : Bytes} {s : String} (h : toString? bytes = some s) :
    ofString s = bytes := by
  unfold toString? String.fromUTF8? at h
  split at h
  · cases h
    rw [ofString_eq]
    rfl
  · cases h

end Bytes

namespace Value

/-! ### Truth values in an encoding -/

mutual

/-- The places in the encoding of a value where a truth value stands. -/
def flagPlaces : Value → List Nat
  | .bool _ => [1]
  | .list items => (itemFlagPlaces items).map (· + 5)
  | _ => []

def itemFlagPlaces : List Value → List Nat
  | [] => []
  | v :: rest => v.flagPlaces ++ (itemFlagPlaces rest).map (· + v.encodedLength)

end

mutual

/-- The places of truth values lie within the encoding of a value. By induction on the value,
together with `itemFlagPlaces_lt`. -/
theorem flagPlaces_lt : ∀ (v : Value), ∀ place ∈ v.flagPlaces, place < v.encodedLength
  | .bool _, place, h => by
    rw [flagPlaces, List.mem_singleton] at h
    rw [h, encodedLength]
    decide
  | .list items, place, h => by
    rw [flagPlaces] at h
    obtain ⟨inner, hinner, rfl⟩ := List.mem_map.mp h
    have := itemFlagPlaces_lt items inner hinner
    rw [encodedLength]
    omega
  | .int _, _, h => absurd h List.not_mem_nil
  | .uint _, _, h => absurd h List.not_mem_nil
  | .long _, _, h => absurd h List.not_mem_nil
  | .ulong _, _, h => absurd h List.not_mem_nil
  | .double _, _, h => absurd h List.not_mem_nil
  | .string _, _, h => absurd h List.not_mem_nil
  | .bytes _, _, h => absurd h List.not_mem_nil

/-- The places of truth values in items lie within the encoding of these items. -/
theorem itemFlagPlaces_lt : ∀ (items : List Value), ∀ place ∈ itemFlagPlaces items,
    place < itemsLength items
  | [], _, h => absurd h List.not_mem_nil
  | v :: rest, place, h => by
    rw [itemFlagPlaces, List.mem_append] at h
    rw [itemsLength]
    rcases h with hfirst | hrest
    · have := flagPlaces_lt v place hfirst
      omega
    · obtain ⟨inner, hinner, rfl⟩ := List.mem_map.mp hrest
      have := itemFlagPlaces_lt rest inner hinner
      omega

end

/-- The bytes with a one for every byte other than zero at the given places. -/
def settle (places : List Nat) (bytes : Bytes) : Bytes :=
  bytes.mapIdx fun i b => if i ∈ places then (if b = 0 then 0 else 1) else b

/-- To settle bytes replaces some of them and leaves their number alone. -/
theorem length_settle (places : List Nat) (bytes : Bytes) :
    (settle places bytes).length = bytes.length := List.length_mapIdx

/-- A settled byte is zero or one at a place of a truth value and what it was elsewhere. -/
theorem getElem?_settle (places : List Nat) (bytes : Bytes) (i : Nat) :
    (settle places bytes)[i]? =
      bytes[i]?.map fun b => if i ∈ places then (if b = 0 then 0 else 1) else b :=
  List.getElem?_mapIdx

/-- Without places there is nothing to settle. -/
@[simp] theorem settle_nil (bytes : Bytes) : settle [] bytes = bytes := by
  apply List.ext_getElem?
  intro i
  rw [getElem?_settle]
  simp

/-- Places behind a first part are settled in what stands behind it. -/
theorem settle_append {places : List Nat} {first : Bytes}
    (h : ∀ place ∈ places, place < first.length) (places' : List Nat) (second : Bytes) :
    settle (places ++ places'.map (· + first.length)) (first ++ second) =
      settle places first ++ settle places' second := by
  unfold settle
  rw [List.mapIdx_append]
  congr 1
  · rw [List.mapIdx_eq_mapIdx_iff]
    intro i hi
    have hout : i ∉ places'.map (· + first.length) := by
      intro hin
      obtain ⟨j, -, rfl⟩ := List.mem_map.mp hin
      omega
    simp only [List.mem_append, hout, or_false]
  · rw [List.mapIdx_eq_mapIdx_iff]
    intro i _
    have hout : i + first.length ∉ places := fun hin => by
      have := h _ hin
      omega
    have hin : i + first.length ∈ places'.map (· + first.length) ↔ i ∈ places' := by
      simp
    simp only [List.mem_append, hout, hin, false_or]

/-! ### What a reading step has used -/

/-- Two readers in a row succeed only if the first one does and the second one does with what is
left. -/
theorem andThen_eq_ok {α γ : Type} {r : Reading α} {f : α → Bytes → Reading γ} {c : γ}
    {rest : Bytes} (h : r.andThen f = (.ok c, rest)) :
    ∃ a left, r = (.ok a, left) ∧ f a left = (.ok c, rest) := by
  match r with
  | (.ok a, left) => exact ⟨a, left, rfl, h⟩
  | (.error _, _) => cases h

/-- A reader whose answer is changed succeeds exactly as it did before. -/
theorem map_eq_ok {α γ : Type} {r : Reading α} {f : α → γ} {c : γ} {rest : Bytes}
    (h : r.map f = (.ok c, rest)) : ∃ a, r = (.ok a, rest) ∧ f a = c := by
  obtain ⟨a, left, hr, heq⟩ := andThen_eq_ok h
  cases heq
  exact ⟨a, hr, rfl⟩

/-- Bytes that were read stood in front of the input, and there were as many as were asked for. -/
theorem readExact_eq_ok {n : Nat} {input taken rest : Bytes}
    (h : readExact n input = (.ok taken, rest)) : input = taken ++ rest ∧ taken.length = n := by
  unfold readExact at h
  split at h
  · next hs =>
    cases h
    exact Bytes.splitExact?_eq_some_iff.mp hs
  · cases h

/-- A tag that is known as that of a kind is the tag with which the kind is written. -/
theorem tag_of_ofTag? {tag : UInt8} {kind : Kind} (h : Kind.ofTag? tag = some kind) :
    tag = kind.tag := by
  unfold Kind.ofTag? at h
  split_ifs at h with htag htag htag htag htag htag htag htag htag <;>
    · cases h
      exact eq_of_beq htag

/-- If a kind is read, its tag stood in front. -/
theorem decodeKind_eq_ok {input rest : Bytes} {kind : Kind}
    (h : decodeKind input = (.ok kind, rest)) : input = kind.tag :: rest := by
  obtain ⟨bytes, left, hread, hkind⟩ := andThen_eq_ok h
  obtain ⟨rfl, hlen⟩ := readExact_eq_ok hread
  obtain ⟨tag, rfl⟩ := List.length_eq_one_iff.mp hlen
  split at hkind
  · next kind' htag =>
    cases hkind
    rw [← tag_of_ofTag? htag]
    rfl
  · cases hkind

/-- A blob is its length and its bytes, and the length fits into a word. -/
theorem decodeBlob_eq_ok {input data rest : Bytes} (h : decodeBlob input = (.ok data, rest)) :
    input = encodeBlob data ++ rest ∧ data.length < 2 ^ 32 := by
  obtain ⟨word, left, hword, hdata⟩ := andThen_eq_ok h
  obtain ⟨rfl, hfour⟩ := readExact_eq_ok hword
  obtain ⟨rfl, hlen⟩ := readExact_eq_ok hdata
  refine ⟨?_, hlen ▸ UInt32.toNat_lt _⟩
  rw [encodeBlob, hlen, UInt32.ofNat_toNat, Bytes.ofWord32_toWord32 hfour, List.append_assoc]

/-! ### Bytes that are read -/

/-- The bytes are read as the value, whose lists are nested no deeper than so many levels: settled,
they are its encoding, and its lengths fit into words. -/
structure Rendered (levels : Nat) (v : Value) (used : Bytes) : Prop where
  settled : settle v.flagPlaces used = v.encode
  nested : v.nesting ≤ levels
  measured : v.Measured

/-- The bytes of a value are as many as its encoding has, also where they are not its encoding. -/
theorem Rendered.length_eq {levels : Nat} {v : Value} {used : Bytes} (h : Rendered levels v used) :
    used.length = v.encodedLength := by
  rw [← length_encode, ← h.settled, length_settle]

/-- A value without truth values and lists is read from its encoding alone. -/
theorem rendered_of_eq {v : Value} {used : Bytes} (h : used = v.encode) (levels : Nat)
    (hplaces : v.flagPlaces = []) (hnesting : v.nesting = 0) (hmeasured : v.Measured) :
    Rendered levels v used where
  settled := by rw [hplaces, settle_nil, h]
  nested := by
    rw [hnesting]
    exact Nat.zero_le levels
  measured := hmeasured

/-- Any byte behind the tag of a truth value is read as one, and settled it is the byte that is
written. -/
theorem rendered_bool (levels : Nat) (b : UInt8) :
    Rendered levels (.bool ([b] != [0])) [Kind.bool.tag, b] where
  settled := by
    show [Kind.bool.tag, if b = 0 then 0 else 1] = [Kind.bool.tag, if ([b] != [0]) then 1 else 0]
    by_cases hb : b = 0
    · rw [hb]
      rfl
    · simp [hb]
  nested := Nat.zero_le levels
  measured := trivial

/-- A payload of a fixed length. -/
theorem rendered_of_fixed {levels n : Nat} {kind : Kind} {f : Bytes → Value} {input rest : Bytes}
    {v : Value} (h : (readExact n input).map f = (.ok v, rest))
    (hf : ∀ payload, payload.length = n → Rendered levels (f payload) (kind.tag :: payload)) :
    ∃ payload, input = payload ++ rest ∧ Rendered levels v (kind.tag :: payload) := by
  obtain ⟨payload, hread, rfl⟩ := map_eq_ok h
  obtain ⟨rfl, hlen⟩ := readExact_eq_ok hread
  exact ⟨payload, rfl, hf payload hlen⟩

/-- The payload of a value that is no list. -/
theorem rendered_of_decodeScalar (levels : Nat) {kind : Kind} {input rest : Bytes} {v : Value}
    (h : decodeScalar kind input = (.ok v, rest)) :
    ∃ payload, input = payload ++ rest ∧ Rendered levels v (kind.tag :: payload) := by
  cases kind with
  | bool =>
    refine rendered_of_fixed h fun payload hlen => ?_
    obtain ⟨b, rfl⟩ := List.length_eq_one_iff.mp hlen
    exact rendered_bool levels b
  | int =>
    refine rendered_of_fixed h fun payload hlen => rendered_of_eq ?_ levels rfl rfl trivial
    rw [encode, UInt32.toUInt32_toInt32, Bytes.ofWord32_toWord32 hlen]
  | uint =>
    refine rendered_of_fixed h fun payload hlen => rendered_of_eq ?_ levels rfl rfl trivial
    rw [encode, Bytes.ofWord32_toWord32 hlen]
  | long =>
    refine rendered_of_fixed h fun payload hlen => rendered_of_eq ?_ levels rfl rfl trivial
    rw [encode, UInt64.toUInt64_toInt64, Bytes.ofWord64_toWord64 hlen]
  | ulong =>
    refine rendered_of_fixed h fun payload hlen => rendered_of_eq ?_ levels rfl rfl trivial
    rw [encode, Bytes.ofWord64_toWord64 hlen]
  | double =>
    refine rendered_of_fixed h fun payload hlen => rendered_of_eq ?_ levels rfl rfl trivial
    rw [encode, Bytes.ofWord64_toWord64 hlen]
  | string =>
    obtain ⟨data, left, hread, htext⟩ := andThen_eq_ok h
    obtain ⟨rfl, hlen⟩ := decodeBlob_eq_ok hread
    unfold decodeText at htext
    split at htext
    · next s hs =>
      cases htext
      have hform := Bytes.ofString_of_toString? hs
      refine ⟨_, rfl, rendered_of_eq ?_ levels rfl rfl ?_⟩
      · rw [encode, hform]
      · show s.utf8ByteSize < 2 ^ 32
        rw [← Bytes.length_ofString, hform]
        exact hlen
    · cases htext
  | bytes =>
    obtain ⟨data, hread, rfl⟩ := map_eq_ok h
    obtain ⟨rfl, hlen⟩ := decodeBlob_eq_ok hread
    exact ⟨_, rfl, rendered_of_eq rfl levels rfl rfl hlen⟩
  | list => cases h

/-- The items of a list are read one after the other. -/
theorem rendered_of_decodeItems {levels : Nat} {item : Bytes → Reading Value}
    (hitem : ∀ input v rest, item input = (.ok v, rest) →
      ∃ used, input = used ++ rest ∧ Rendered levels v used)
    (count : Nat) {input rest : Bytes} {items : List Value}
    (h : decodeItems item count input = (.ok items, rest)) :
    ∃ used, input = used ++ rest ∧ items.length = count ∧
      settle (itemFlagPlaces items) used = encodeItems items ∧ itemsNesting items ≤ levels ∧
        itemsMeasured items := by
  induction count generalizing input items with
  | zero =>
    cases h
    exact ⟨[], rfl, rfl, rfl, Nat.zero_le _, trivial⟩
  | succ count ih =>
    obtain ⟨v, left, hfirst, hmore⟩ := andThen_eq_ok h
    obtain ⟨items, hitems, rfl⟩ := map_eq_ok hmore
    obtain ⟨first, rfl, hv⟩ := hitem input v left hfirst
    obtain ⟨used, rfl, hlen, hsettled, hnested, hmeasured⟩ := ih hitems
    refine ⟨first ++ used, (List.append_assoc _ _ _).symm, congrArg (· + 1) hlen, ?_,
      max_le hv.nested hnested, hv.measured, hmeasured⟩
    have hplaces : ∀ place ∈ v.flagPlaces, place < first.length := by
      rw [hv.length_eq]
      exact flagPlaces_lt v
    rw [itemFlagPlaces, ← hv.length_eq, settle_append hplaces, hv.settled, hsettled, encodeItems]

/-- A list within so many levels more than its items. -/
theorem rendered_list {levels : Nat} {items : List Value} {word used : Bytes}
    (hfour : word.length = 4) (hcount : items.length = (Bytes.toWord32 word).toNat)
    (hsettled : settle (itemFlagPlaces items) used = encodeItems items)
    (hnested : itemsNesting items ≤ levels) (hmeasured : itemsMeasured items) :
    Rendered (levels + 1) (.list items) (Kind.list.tag :: (word ++ used)) where
  settled := by
    have hfront : (Kind.list.tag :: word).length = 5 := by
      rw [List.length_cons, hfour]
    have hnone : ∀ place ∈ [], place < (Kind.list.tag :: word).length := by simp
    have hpieces := settle_append hnone (itemFlagPlaces items) used
    rw [hfront, List.nil_append, settle_nil, hsettled] at hpieces
    rw [flagPlaces, ← List.cons_append, hpieces, encode, hcount, UInt32.ofNat_toNat,
      Bytes.ofWord32_toWord32 hfour, List.cons_append]
  nested := Nat.succ_le_succ hnested
  measured := ⟨hcount ▸ UInt32.toNat_lt _, hmeasured⟩

/-- Whatever is read as a value is its rendering: with truth values settled, the encoding of the
value. By induction on the levels, as the reader descends. -/
theorem rendered_of_decodeNested (levels : Nat) {input rest : Bytes} {v : Value}
    (h : decodeNested levels input = (.ok v, rest)) :
    ∃ used, input = used ++ rest ∧ Rendered levels v used := by
  induction levels generalizing input v rest with
  | zero =>
    obtain ⟨kind, left, hkind, hpayload⟩ := andThen_eq_ok h
    obtain rfl := decodeKind_eq_ok hkind
    obtain ⟨payload, rfl, hv⟩ := rendered_of_decodeScalar 0 hpayload
    exact ⟨_, rfl, hv⟩
  | succ levels ih =>
    obtain ⟨kind, left, hkind, hpayload⟩ := andThen_eq_ok h
    obtain rfl := decodeKind_eq_ok hkind
    split at hpayload
    · obtain ⟨word, left', hword, hmap⟩ := andThen_eq_ok hpayload
      obtain ⟨rfl, hfour⟩ := readExact_eq_ok hword
      obtain ⟨items, hitems, rfl⟩ := map_eq_ok hmap
      obtain ⟨used, rfl, hcount, hsettled, hnested, hmeasured⟩ :=
        rendered_of_decodeItems (fun _ _ _ hv => ih hv) _ hitems
      refine ⟨_, ?_, rendered_list hfour hcount hsettled hnested hmeasured⟩
      rw [List.cons_append, List.append_assoc]
    · obtain ⟨payload, rfl, hv⟩ := rendered_of_decodeScalar (levels + 1) hpayload
      exact ⟨_, rfl, hv⟩

/-- No value takes less than a tag and one more byte. -/
theorem two_le_encodedLength (v : Value) : 2 ≤ v.encodedLength := by
  cases v <;> simp only [encodedLength] <;> omega

/-- The bytes that a value is read from are as many as were announced, and two at least. They are
its encoding but for the bytes of truth values: wherever one of these is not zero, a one is written.
So they are the encoding exactly if each of them is zero or one, and the encoding is read as the
value again. -/
theorem encode_of_decode {input rest : Bytes} {v : Value} (h : decode input = (.ok v, rest)) :
    ∃ used, input = used ++ rest ∧ used.length = v.encodedLength ∧ 2 ≤ used.length ∧
      (∀ i, i ∉ v.flagPlaces → v.encode[i]? = used[i]?) ∧
      (∀ i ∈ v.flagPlaces, ∃ b, used[i]? = some b ∧
        v.encode[i]? = some (if b = 0 then 0 else 1)) ∧
      (used = v.encode ↔ ∀ i ∈ v.flagPlaces, used[i]? = some 0 ∨ used[i]? = some 1) ∧
      ∀ more, decode (v.encode ++ more) = (.ok v, more) := by
  obtain ⟨used, rfl, hv⟩ := rendered_of_decodeNested maxNesting h
  have hlen := hv.length_eq
  have hplace : ∀ i, v.encode[i]? =
      used[i]?.map fun b => if i ∈ v.flagPlaces then (if b = 0 then 0 else 1) else b := by
    intro i
    rw [← hv.settled, getElem?_settle]
  have hothers : ∀ i, i ∉ v.flagPlaces → v.encode[i]? = used[i]? := by
    intro i hi
    simp only [hplace, hi, if_false, Option.map_id']
  have hflags : ∀ i ∈ v.flagPlaces, ∃ b, used[i]? = some b ∧
      v.encode[i]? = some (if b = 0 then 0 else 1) := by
    intro i hi
    have hlt : i < used.length := hlen ▸ flagPlaces_lt v i hi
    refine ⟨used[i], List.getElem?_eq_getElem hlt, ?_⟩
    simp only [hplace, List.getElem?_eq_getElem hlt, hi, if_true, Option.map_some]
  refine ⟨used, rfl, hlen, hlen ▸ two_le_encodedLength v, hothers, hflags, ⟨?_, ?_⟩,
    fun more => decodeNested_encode v maxNesting more hv.nested hv.measured⟩
  · intro hsame i hi
    obtain ⟨b, hb, hwritten⟩ := hflags i hi
    rw [← hsame, hb] at hwritten
    rw [hb, Option.some.inj hwritten]
    by_cases hzero : b = 0
    · simp [hzero]
    · simp [hzero]
  -- Zeros and ones are their own settled form, so no byte differs.
  · intro hall
    apply List.ext_getElem?
    intro i
    by_cases hi : i ∈ v.flagPlaces
    · obtain ⟨b, hb, hwritten⟩ := hflags i hi
      rw [hwritten, hb]
      rcases hall i hi with hzero | hone
      · rw [hb] at hzero
        rw [Option.some.inj hzero]
        rfl
      · rw [hb] at hone
        rw [Option.some.inj hone]
        rfl
    · exact (hothers i hi).symm

/-- A seven is read as true, and written as a one. -/
theorem encode_of_decode_seven :
    let v := list [.bool true, .list [.bool false]]
    decode [0x10, 2, 0, 0, 0, 1, 7, 0x10, 1, 0, 0, 0, 1, 0, 0xff] = (.ok v, [0xff]) ∧
      v.flagPlaces = [6, 13] ∧ v.encode[6]? = some 1 ∧
      [0x10, 2, 0, 0, 0, 1, 7, 0x10, 1, 0, 0, 0, 1, 0] ≠ v.encode ∧
      decode v.encode = (.ok v, []) := by
  intro v
  have hdecode : decode [0x10, 2, 0, 0, 0, 1, 7, 0x10, 1, 0, 0, 0, 1, 0, 0xff] =
      (.ok v, [0xff]) := rfl
  have hplaces : v.flagPlaces = [6, 13] := rfl
  obtain ⟨used, hused, -, -, -, hflags, hsame, hagain⟩ := encode_of_decode hdecode
  have hsplit : [0x10, 2, 0, 0, 0, 1, 7, 0x10, 1, 0, 0, 0, 1, 0] ++ [0xff] = used ++ [0xff] := hused
  obtain rfl := List.append_cancel_right hsplit
  obtain ⟨b, hb, hone⟩ := hflags 6 (by rw [hplaces]; simp)
  cases hb
  refine ⟨hdecode, hplaces, hone, fun heq => ?_, ?_⟩
  · rcases hsame.mp heq 6 (by rw [hplaces]; simp) with hzero | hone
    · exact absurd hzero (by decide)
    · exact absurd hone (by decide)
  · have := hagain []
    rwa [List.append_nil] at this

end Value

end BlockForest
