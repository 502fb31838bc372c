import Mathlib
import BlockForest.Proofs.RoundTrip

/-!
# What is written of a tree

An `Excerpt` is the part of a tree that a stream is made of: names of types, stored values, and
those children that take part in serialization, in their order. `Site.Excerpted` reads it off a
tree, and `Excerpt.Recorded` says which bytes stand for it. In these bytes every length and every
count is a word that denotes a number, and the number has to be the true one; nothing is said of
what a word holds that a number is too large for.

`recorded_of_deflate` puts the two together: a walk that succeeds writes the bytes that stand for
the excerpt. What is not in the excerpt has no influence. It neither changes the bytes nor decides
whether there are any, as the walk down a second tree shows, which keeps abreast of the first.
-/

set_option autoImplicit false

namespace BlockForest

variable {β : Type}

namespace Value

/-- The bytes stand for a value: a tag, and the contents with their true length or number. -/
inductive Spells : Value → Bytes → Prop
  | bool (b : Bool) : Spells (.bool b) [0x01, if b then 1 else 0]
  | int (i : Int32) : Spells (.int i) (0x02 :: Bytes.ofWord32 i.toUInt32)
  | uint (u : UInt32) : Spells (.uint u) (0x03 :: Bytes.ofWord32 u)
  | long (l : Int64) : Spells (.long l) (0x04 :: Bytes.ofWord64 l.toUInt64)
  | ulong (u : UInt64) : Spells (.ulong u) (0x05 :: Bytes.ofWord64 u)
  | double (d : Double) : Spells (.double d) (0x06 :: Bytes.ofWord64 d.bits)
  | string {s : String} {length : UInt32} (whole : length.toNat = (Bytes.ofString s).length) :
      Spells (.string s) (0x0a :: (Bytes.ofWord32 length ++ Bytes.ofString s))
  | bytes {data : Bytes} {length : UInt32} (whole : length.toNat = data.length) :
      Spells (.bytes data) (0x0c :: (Bytes.ofWord32 length ++ data))
  | list {items : List Value} {count : UInt32} {pieces : List Bytes}
      (counted : count.toNat = items.length) (spelled : List.Forall₂ Spells items pieces) :
      Spells (.list items) (0x10 :: (Bytes.ofWord32 count ++ pieces.flatten))

/-- The bytes of items are their encodings one after the other. -/
theorem encodeItems_eq_flatten (items : List Value) :
    encodeItems items = (items.map encode).flatten := by
  induction items with
  | nil => rfl
  | cons v rest ih => rw [encodeItems, ih, List.map_cons, List.flatten_cons]

mutual

/-- An encoding that is short enough for its length to be written stands for the value. -/
theorem spells_encode : ∀ v : Value, v.encode.length < 2 ^ 32 → v.Spells v.encode
  | .bool b, _ => .bool b
  | .int i, _ => .int i
  | .uint u, _ => .uint u
  | .long l, _ => .long l
  | .ulong u, _ => .ulong u
  | .double d, _ => .double d
  | .string s, h => by
    simp only [encode, encodeBlob, List.length_cons, List.length_append] at h
    exact .string (toNat_ofNat_of_lt (by omega))
  | .bytes data, h => by
    simp only [encode, encodeBlob, List.length_cons, List.length_append] at h
    exact .bytes (toNat_ofNat_of_lt (by omega))
  | .list items, h => by
    have hcount := length_le_encodeItems items
    simp only [encode, List.length_cons, List.length_append] at h
    rw [encode, encodeItems_eq_flatten]
    exact .list (toNat_ofNat_of_lt (by omega)) (forall₂_spells_encode items (by omega))

/-- Items whose bytes fit into a count are spelled by their encodings. The other half of the
induction for `spells_encode`. -/
theorem forall₂_spells_encode : ∀ items : List Value, (encodeItems items).length < 2 ^ 32 →
    List.Forall₂ Spells items (items.map encode)
  | [], _ => .nil
  | v :: rest, h => by
    rw [encodeItems, List.length_append] at h
    exact .cons (spells_encode v (by omega)) (forall₂_spells_encode rest (by omega))

end

mutual

/-- No other bytes stand for the value. -/
theorem eq_encode_of_spells : ∀ (v : Value) {data : Bytes}, v.Spells data → data = v.encode
  | .bool _, _, .bool _ => rfl
  | .int _, _, .int _ => rfl
  | .uint _, _, .uint _ => rfl
  | .long _, _, .long _ => rfl
  | .ulong _, _, .ulong _ => rfl
  | .double _, _, .double _ => rfl
  | .string s, _, .string whole => by
    rw [encode, encodeBlob, ← whole, UInt32.ofNat_toNat]
    rfl
  | .bytes data, _, .bytes whole => by
    rw [encode, encodeBlob, ← whole, UInt32.ofNat_toNat]
    rfl
  | .list items, _, .list counted spelled => by
    rw [encode, ← counted, UInt32.ofNat_toNat, encodeItems_eq_flatten,
      eq_map_encode_of_spells items spelled]
    rfl

/-- Bytes that spell items are their encodings. The other half of the induction for
`eq_encode_of_spells`. -/
theorem eq_map_encode_of_spells : ∀ (items : List Value) {pieces : List Bytes},
    List.Forall₂ Spells items pieces → pieces = items.map encode
  | [], _, .nil => rfl
  | v :: rest, _, .cons first more => by
    rw [List.map_cons, ← eq_encode_of_spells v first, ← eq_map_encode_of_spells rest more]

end

end Value

/-- The part of a tree that a stream is made of: the name of a type, the stored values by the names
of their properties, and the children. -/
inductive Excerpt where
  | block (name : String) (values : List (String × Value)) (children : List Excerpt)

namespace Excerpt

/-- The bytes stand for a property with its value. -/
inductive Listed : String × Value → Bytes → Prop
  | pair (name : String) {value : Value} {data : Bytes} (spelled : value.Spells data) :
      Listed (name, value) (Bytes.ofWord32 (nameHash name) ++ data)

/-- The bytes stand for an excerpt: four words, of which the second is the identifier of the type
and the others are the length of the properties, their number and the number of children; then the
properties, and then the children. -/
inductive Recorded : Excerpt → Bytes → Prop
  | block {name : String} {values : List (String × Value)} {children : List Excerpt}
      {size valueCount childCount : UInt32} {pairs kids : List Bytes}
      (listed : List.Forall₂ Listed values pairs)
      (sized : size.toNat = pairs.flatten.length)
      (valuesCounted : valueCount.toNat = values.length)
      (childrenCounted : childCount.toNat = children.length)
      (below : List.Forall₂ Recorded children kids) :
      Recorded (.block name values children)
        (Bytes.ofWord32 size ++ Bytes.ofWord32 (nameHash name) ++ Bytes.ofWord32 valueCount
          ++ Bytes.ofWord32 childCount ++ pairs.flatten ++ kids.flatten)

/-- A property with its value as bytes. -/
def encodeValue (v : String × Value) : Bytes := Deflate.encodePair (nameHash v.1, v.2)

/-- A property with its value has one form in bytes. -/
theorem eq_encodeValue_of_listed {v : String × Value} {data : Bytes} (h : Listed v data) :
    data = encodeValue v := by
  cases h with
  | pair name spelled => rw [Value.eq_encode_of_spells _ spelled]; rfl

/-- A property whose value fits into a count is listed by its encoding. -/
theorem listed_encodeValue {v : String × Value} (h : (encodeValue v).length < 2 ^ 32) :
    Listed v (encodeValue v) := by
  obtain ⟨name, value⟩ := v
  have hlen : value.encode.length ≤ (encodeValue (name, value)).length :=
    (List.suffix_append _ _).length_le
  exact .pair name (Value.spells_encode value (by omega))

/-- Stored values have one form in bytes, one after the other. -/
theorem eq_map_encodeValue_of_listed {values : List (String × Value)} {pairs : List Bytes}
    (h : List.Forall₂ Listed values pairs) : pairs = values.map encodeValue := by
  induction h with
  | nil => rfl
  | cons hfirst _ ih => rw [List.map_cons, ← eq_encodeValue_of_listed hfirst, ← ih]

/-- Stored values that fit into a count together are listed by their encodings. -/
theorem forall₂_listed_encodeValue {values : List (String × Value)}
    (h : (values.flatMap encodeValue).length < 2 ^ 32) :
    List.Forall₂ Listed values (values.map encodeValue) := by
  induction values with
  | nil => exact .nil
  | cons v rest ih =>
    rw [List.flatMap_cons, List.length_append] at h
    exact .cons (listed_encodeValue (by omega)) (ih (by omega))

mutual

/-- An excerpt has one record. -/
theorem recorded_unique : ∀ (ex : Excerpt) {data data' : Bytes}, ex.Recorded data →
    ex.Recorded data' → data = data'
  | .block _ _ children, _, _, .block listed sized counted childrenCounted below,
      .block listed' sized' counted' childrenCounted' below' => by
    have hpairs := (eq_map_encodeValue_of_listed listed).trans
      (eq_map_encodeValue_of_listed listed').symm
    subst hpairs
    rw [UInt32.toNat_inj.mp (sized.trans sized'.symm),
      UInt32.toNat_inj.mp (counted.trans counted'.symm),
      UInt32.toNat_inj.mp (childrenCounted.trans childrenCounted'.symm),
      forall₂_recorded_unique children below below']

/-- Children have one form in bytes, one after the other. The other half of the induction for
`recorded_unique`. -/
theorem forall₂_recorded_unique : ∀ (children : List Excerpt) {kids kids' : List Bytes},
    List.Forall₂ Recorded children kids → List.Forall₂ Recorded children kids' → kids = kids'
  | [], _, _, .nil, .nil => rfl
  | ex :: rest, _, _, .cons first more, .cons first' more' => by
    rw [recorded_unique ex first first', forall₂_recorded_unique rest more more']

end

/-- The properties of every block are no longer than a limit, and so many levels are enough. -/
inductive Fits (limit : Nat) : Nat → Excerpt → Prop
  | block {levels : Nat} {name : String} {values : List (String × Value)}
      {children : List Excerpt} (small : (values.flatMap encodeValue).length ≤ limit)
      (below : ∀ child ∈ children, Fits limit levels child) :
      Fits limit (levels + 1) (.block name values children)

end Excerpt

namespace Site

/-- The excerpt is what a stream is made of, from a block downwards. -/
inductive Excerpted (s : Site β) : BlockId → Excerpt → Prop
  | block {id : BlockId} {payload : β} {entry : Entry β} {children : List Excerpt}
      (held : s.tree.payload? id = some payload)
      (made : (s.tree.entryRef? id).bind s.catalogue.entryAt? = some entry)
      (below : List.Forall₂ (Excerpted s)
        ((s.tree.children id).filter fun child => s.tree.isSerializable child) children) :
      Excerpted s id (.block entry.name
        ((entry.type.storedValues payload).map fun w => (w.1.name, w.2)) children)

/-- What an excerpt says of its block. -/
theorem Excerpted.inv {s : Site β} {id : BlockId} {name : String} {values : List (String × Value)}
    {children : List Excerpt} (h : s.Excerpted id (.block name values children)) :
    ∃ node entry, s.tree.node? id = some node ∧
      node.entry.bind s.catalogue.entryAt? = some entry ∧ entry.name = name ∧
      (entry.type.storedValues node.payload).map (fun w => (w.1.name, w.2)) = values ∧
      List.Forall₂ s.Excerpted (Deflate.writtenChildren s.tree id) children := by
  generalize hex : Excerpt.block name values children = ex at h
  cases h with
  | @block _ payload entry kids held made below =>
    cases hex
    obtain ⟨node, hnode, rfl⟩ := Option.map_eq_some_iff.mp held
    rw [Tree.entryRef?, hnode] at made
    exact ⟨node, entry, hnode, made, rfl, rfl, below⟩

/-- A block is written with its excerpt. -/
theorem Excerpted.writes {s : Site β} {id : BlockId} {name : String}
    {values : List (String × Value)} {children : List Excerpt}
    (h : s.Excerpted id (.block name values children)) :
    ∃ node entry, s.tree.node? id = some node ∧ s.Writes id id node.payload entry ∧
      entry.name = name ∧
      (entry.type.storedValues node.payload).map (fun w => (w.1.name, w.2)) = values ∧
      List.Forall₂ s.Excerpted (Deflate.writtenChildren s.tree id) children := by
  obtain ⟨node, entry, hnode, hentry, hname, hvalues, hbelow⟩ := h.inv
  refine ⟨node, entry, hnode, ⟨.self id, ?_, ?_⟩, hname, hvalues, hbelow⟩
  · rw [Tree.payload?, hnode]
    rfl
  · rw [Tree.entryRef?, hnode]
    exact hentry

mutual

/-- A block has one excerpt. -/
theorem excerpted_unique (s : Site β) : ∀ (ex : Excerpt) {ex' : Excerpt} {id : BlockId},
    s.Excerpted id ex → s.Excerpted id ex' → ex = ex'
  | .block _ _ children, _, _, .block held made below, h' => by
    cases h' with
    | block held' made' below' =>
      cases held.symm.trans held'
      cases made.symm.trans made'
      rw [forall₂_excerpted_unique s children below below']

/-- Children have one excerpt each. The other half of the induction for `excerpted_unique`. -/
theorem forall₂_excerpted_unique (s : Site β) : ∀ (children : List Excerpt)
    {children' : List Excerpt} {ids : List BlockId},
    List.Forall₂ s.Excerpted ids children → List.Forall₂ s.Excerpted ids children' →
      children = children'
  | [], _, _, .nil, .nil => rfl
  | ex :: rest, _, _, .cons first more, .cons first' more' => by
    rw [excerpted_unique s ex first first', forall₂_excerpted_unique s rest more more']

end

end Site

namespace Deflate

open Excerpt

variable {s : Site β} {settings : Settings} {total : Nat} {o o' : Outflow}

/-! ### The walk down -/

/-- What is written of each block of a list is written one after the other. -/
theorem each_success {ξ : Type}
    {write : Outflow → BlockId → Except CodecError DeflateStatus × Outflow}
    {R : BlockId → ξ → Prop} {S : ξ → Bytes → Prop} {ids : List BlockId}
    (hwrite : ∀ id ∈ ids, ∀ o o', write o id = (.ok .success, o') →
      ∃ x used, R id x ∧ S x used ∧ o'.outlet.bytes = o.outlet.bytes ++ used)
    (hskip : ∀ id ∈ ids, ∀ o o', write o id ≠ (.ok .skipped, o'))
    (h : each write o ids = (.ok .success, o')) :
    ∃ xs useds, List.Forall₂ R ids xs ∧ List.Forall₂ S xs useds ∧
      o'.outlet.bytes = o.outlet.bytes ++ useds.flatten := by
  induction ids generalizing o with
  | nil =>
    cases h
    exact ⟨[], [], .nil, .nil, (List.append_nil _).symm⟩
  | cons id ids ih =>
    unfold each at h
    split at h
    · cases h
    · cases h
    · next status o₁ hnot hfirst =>
      cases status with
      | canceled => exact (hnot rfl).elim
      | skipped => exact absurd hfirst (hskip id List.mem_cons_self o o₁)
      | success =>
        obtain ⟨x, piece, hx, hs, hpiece⟩ := hwrite id List.mem_cons_self o o₁ hfirst
        obtain ⟨xs, useds, hxs, hss, hused⟩ :=
          ih (fun y hy => hwrite y (List.mem_cons_of_mem _ hy))
            (fun y hy => hskip y (List.mem_cons_of_mem _ hy)) h
        refine ⟨x :: xs, piece :: useds, .cons hx hxs, .cons hs hss, ?_⟩
        rw [hused, hpiece, List.flatten_cons, List.append_assoc]

/-- The values that are written for a block, by the names of their properties. -/
theorem data_eq_flatMap_encodeValue {entry : Entry β} (hf : entry.table.Faithful)
    (hp : entry.table.properties = entry.type.properties) (payload : β) :
    (pairs entry payload).flatMap encodePair =
      ((entry.type.storedValues payload).map fun w => (w.1.name, w.2)).flatMap encodeValue := by
  rw [data_eq_flatMap_encodeStored hf hp, List.flatMap_map]
  rfl

/-- What a record is, with the words of its header in front. -/
theorem toBytes_header (entry : Entry β) (data : Bytes) (pairCount childCount : Nat) :
    (header entry data pairCount childCount).toBytes =
      Bytes.ofWord32 (UInt32.ofNat data.length) ++ Bytes.ofWord32 (nameHash entry.name)
        ++ Bytes.ofWord32 (UInt32.ofNat pairCount) ++ Bytes.ofWord32 (UInt32.ofNat childCount) := by
  simp [header, NodeHeader.toBytes, NodeHeader.words, Entry.typeId]

/-- A walk that has written a block has written the record of its excerpt, within the limits. -/
theorem recorded_node (hs : s.tree.Sound) (hc : s.catalogue.Consistent)
    (hwords : ∀ x, s.tree.contains x → x.index < 2 ^ 32) (levels : Nat) {id : BlockId}
    (h : node settings s.catalogue s.tree total levels o id = (.ok .success, o')) :
    ∃ ex used, s.Excerpted id ex ∧
      (ex.Fits settings.maxPayloadSize.toNat levels ∧ ex.Recorded used) ∧
      o'.outlet.bytes = o.outlet.bytes ++ used := by
  induction levels generalizing id o o' with
  | zero =>
    obtain ⟨left, _, _, _, hlevels, -⟩ := node_success h
    cases hlevels
  | succ levels ih =>
    obtain ⟨left, block, entry, o₁, hlevels, hblock, hentry, hrecord, heach⟩ := node_success h
    cases hlevels
    have hpayload : s.tree.payload? id = some block.payload := by
      rw [Tree.payload?, hblock]
      rfl
    have hmade : (s.tree.entryRef? id).bind s.catalogue.entryAt? = some entry := by
      rw [Tree.entryRef?, hblock]
      exact hentry
    obtain ⟨ref, -, href⟩ := Option.bind_eq_some_iff.mp hentry
    obtain ⟨hfaithful, hproperties⟩ := PropertyTable.faithful_of_build (hc.table ref entry href)
    obtain ⟨hsmall, hbytes⟩ := bytes_of_writeRecord hrecord
    have hcount := length_pairs_le hfaithful hproperties block.payload
    have hnumber : (pairs entry block.payload).length =
        ((entry.type.storedValues block.payload).map fun w => (w.1.name, w.2)).length := by
      rw [length_pairs_eq hfaithful hproperties, List.length_map]
    rw [data_eq_flatMap_encodeValue hfaithful hproperties] at hsmall hbytes hcount
    rw [hnumber] at hbytes hcount
    obtain ⟨values, hvalues⟩ : ∃ values : List (String × Value),
        (entry.type.storedValues block.payload).map (fun w => (w.1.name, w.2)) = values :=
      ⟨_, rfl⟩
    rw [hvalues] at hsmall hbytes hcount
    obtain ⟨children, kids, hbelow, hrecords, hused⟩ := each_success
      (S := fun (ex : Excerpt) used =>
        ex.Fits settings.maxPayloadSize.toNat levels ∧ ex.Recorded used)
      (fun child _ o o' hchild => ih hchild)
      (fun child hmem o o' hskipped =>
        not_serializable_of_skipped hskipped (List.mem_filter.mp hmem).2) heach
    obtain ⟨hfits, hrecords⟩ := (List.forall₂_and_left _ _).mp hrecords
    have hlength : (writtenChildren s.tree id).length = children.length := hbelow.length_eq
    -- Children have different names, and there are fewer names than numbers in a word.
    have hfew : children.length < 2 ^ 32 := by
      have hid := Tree.contains_of_node? hblock
      have hlt := hs.forest.length_children_lt hwords hid
      have hle : (writtenChildren s.tree id).length ≤ (s.tree.children id).length :=
        List.length_filter_le _ _
      omega
    have hlimit := settings.maxPayloadSize.toNat_lt
    have hlen : (values.map encodeValue).flatten = values.flatMap encodeValue :=
      List.flatMap_def.symm
    have hexcerpt : s.Excerpted id (.block entry.name values children) :=
      hvalues ▸ .block hpayload hmade hbelow
    have hrecord : (Excerpt.block entry.name values children).Recorded _ :=
      .block (forall₂_listed_encodeValue (by omega))
        (Value.toNat_ofNat_of_lt (n := (values.flatMap encodeValue).length) (by omega))
        (Value.toNat_ofNat_of_lt (n := values.length) (by omega))
        (Value.toNat_ofNat_of_lt hfew) hrecords
    refine ⟨_, _, hexcerpt, ⟨.block hsmall hfits, hrecord⟩, ?_⟩
    rw [hused, hbytes, toBytes_header, hlength, hlen, List.append_assoc]

/-! ### A second walk -/

/-- Two walks that have written the same and have been answered the same. -/
structure Abreast (o p : Outflow) : Prop where
  outlet : p.outlet = o.outlet
  answer : p.monitor.answer = o.monitor.answer
  polls : p.monitor.polls = o.monitor.polls

variable {t : Site β} {p : Outflow} {total' : Nat}

/-- Walks that go abreast have the same outlet, so the second one takes what the first one takes. -/
theorem abreast_write {data : Bytes} (hab : Abreast o p) (h : o.write data = (.ok (), o')) :
    ∃ p', p.write data = (.ok (), p') ∧ Abreast o' p' := by
  unfold Outflow.write at h ⊢
  rw [hab.outlet]
  split at h
  · cases h
    exact ⟨_, rfl, rfl, hab.answer, hab.polls⟩
  · cases h

/-- Of a block nothing is written but the identifier of its type, its values and the number of its
children. -/
theorem abreast_writeRecord {entry entry' : Entry β} {payload payload' : β} {childCount : Nat}
    (hid : entry'.typeId = entry.typeId) (hpairs : pairs entry' payload' = pairs entry payload)
    (hab : Abreast o p)
    (h : writeRecord settings entry payload childCount total o = (.ok (), o')) :
    ∃ p', writeRecord settings entry' payload' childCount total' p = (.ok (), p') ∧
      Abreast o' p' := by
  have hheader : ∀ data pairCount,
      header entry' data pairCount childCount = header entry data pairCount childCount := by
    intro data pairCount
    rw [header, header, hid]
  unfold writeRecord at h ⊢
  simp only [hpairs, hheader] at h ⊢
  split at h
  · cases h
  · next hsmall =>
    rw [if_neg hsmall]
    split at h
    · cases h
    · next o₁ hhead =>
      obtain ⟨p₁, hhead', hab₁⟩ := abreast_write hab hhead
      rw [hhead']
      split at h
      · cases h
      · next o₂ hdata =>
        obtain ⟨p₂, hdata', hab₂⟩ := abreast_write hab₁ hdata
        rw [hdata']
        cases h
        exact ⟨_, rfl, hab₂.outlet, hab₂.answer, hab₂.polls⟩

/-- If the walks for one child each go abreast, so do the walks for all children. -/
theorem abreast_each {write write' : Outflow → BlockId → Except CodecError DeflateStatus × Outflow}
    {ids ids' : List BlockId} {exs : List Excerpt} (hab : Abreast o p)
    (hexs : List.Forall₂ s.Excerpted ids exs) (hexs' : List.Forall₂ t.Excerpted ids' exs)
    (hwrite : ∀ id ∈ ids, ∀ id' ∈ ids', ∀ ex o o' p, s.Excerpted id ex → t.Excerpted id' ex →
      Abreast o p → write o id = (.ok .success, o') →
        ∃ p', write' p id' = (.ok .success, p') ∧ Abreast o' p')
    (hskip : ∀ id ∈ ids, ∀ o o', write o id ≠ (.ok .skipped, o'))
    (h : each write o ids = (.ok .success, o')) :
    ∃ p', each write' p ids' = (.ok .success, p') ∧ Abreast o' p' := by
  induction hexs generalizing ids' o p with
  | nil =>
    cases hexs'
    cases h
    exact ⟨p, rfl, hab⟩
  | @cons id ex ids exs hex _ ih =>
    cases hexs' with
    | @cons id' _ ids' _ hex' hexs' =>
      unfold each at h ⊢
      split at h
      · cases h
      · cases h
      · next status o₁ hnot hfirst =>
        cases status with
        | canceled => exact (hnot rfl).elim
        | skipped => exact absurd hfirst (hskip id List.mem_cons_self o o₁)
        | success =>
          obtain ⟨p₁, hfirst', hab₁⟩ := hwrite id List.mem_cons_self id' List.mem_cons_self ex
            o o₁ p hex hex' hab hfirst
          rw [hfirst']
          exact ih hab₁ hexs'
            (fun x hx x' hx' => hwrite x (List.mem_cons_of_mem _ hx) x'
              (List.mem_cons_of_mem _ hx'))
            (fun x hx => hskip x (List.mem_cons_of_mem _ hx)) h

/-- If a walk writes a block, the walk abreast of it writes each block with the same excerpt. -/
theorem abreast_node (hs : s.catalogue.Consistent) (ht : t.catalogue.Consistent)
    (total' levels : Nat) {id id' : BlockId} {ex : Excerpt} (hex : s.Excerpted id ex)
    (hex' : t.Excerpted id' ex)
    (hwritten : t.tree.isSerializable id') (hab : Abreast o p)
    (h : node settings s.catalogue s.tree total levels o id = (.ok .success, o')) :
    ∃ p', node settings t.catalogue t.tree total' levels p id' = (.ok .success, p') ∧
      Abreast o' p' := by
  induction levels generalizing id id' ex o o' p with
  | zero =>
    obtain ⟨left, _, _, _, hlevels, -⟩ := node_success h
    cases hlevels
  | succ levels ih =>
    obtain ⟨hpoll, -, left, block, entry, o₁, hlevels, hblock, hentry, hrecord, heach⟩ :=
      node_eq_success_iff.mp h
    cases hlevels
    obtain ⟨name, values, children⟩ := ex
    obtain ⟨node, entry₁, hnode, hentry₁, hname, hvalues, hbelow⟩ := hex.inv
    obtain ⟨block', entry', hblock', hentry', hname', hvalues', hbelow'⟩ := hex'.inv
    cases hblock.symm.trans hnode
    cases hentry.symm.trans hentry₁
    -- What is written of a block depends on its excerpt alone, on either side.
    have htable : ∀ {u : Site β} {node : Node β} {entry : Entry β}, u.catalogue.Consistent →
        node.entry.bind u.catalogue.entryAt? = some entry → ∀ payload, pairs entry payload =
          ((entry.type.storedValues payload).map fun w => (w.1.name, w.2)).map
            fun v => (nameHash v.1, v.2) := by
      intro u node entry hc hentry payload
      obtain ⟨ref, -, href⟩ := Option.bind_eq_some_iff.mp hentry
      obtain ⟨hfaithful, hproperties⟩ := PropertyTable.faithful_of_build (hc.table ref entry href)
      rw [pairs_eq_storedValues hfaithful hproperties, List.map_map]
      rfl
    have hid : entry'.typeId = entry.typeId := by
      rw [Entry.typeId, Entry.typeId, hname, hname']
    have hpairs : pairs entry' block'.payload = pairs entry block.payload := by
      rw [htable ht hentry', htable hs hentry, hvalues, hvalues']
    have hlength : (writtenChildren t.tree id').length = (writtenChildren s.tree id).length :=
      hbelow'.length_eq.trans hbelow.length_eq.symm
    have hpolled : Abreast { o with monitor := o.monitor.poll.2 }
        { p with monitor := p.monitor.poll.2 } :=
      ⟨hab.outlet, hab.answer, congrArg (· + 1) hab.polls⟩
    obtain ⟨p₁, hrecord', hab₁⟩ := abreast_writeRecord hid hpairs hpolled hrecord
    obtain ⟨p', heach', hab'⟩ := abreast_each hab₁ hbelow hbelow'
      (fun _ _ id' hmem' _ _ _ _ hex hex' hab hchild =>
        ih hex hex' (List.mem_filter.mp hmem').2 hab hchild)
      (fun child hmem o o' hskipped =>
        not_serializable_of_skipped hskipped (List.mem_filter.mp hmem).2) heach
    have hpoll' : p.monitor.poll.1 := by
      rw [Monitor.poll, hab.answer, hab.polls]
      exact hpoll
    rw [← hlength] at hrecord'
    exact ⟨p', node_eq_success_iff.mpr ⟨hpoll', hwritten, levels, block', entry', p₁, rfl, hblock',
      hentry', hrecord', heach'⟩, hab'⟩

end Deflate

namespace Site

variable {s : Site β}

/-- What a walk gathers is put into the sink. -/
theorem deflate_eq_ok_iff {settings : Settings} {root : BlockId} {sink sink' : Sink}
    {watcher watcher' : Monitor} {status : DeflateStatus} :
    deflate settings s.catalogue s.tree root sink watcher = (.ok status, sink', watcher') ↔
      ∃ o, Deflate.node settings s.catalogue s.tree (s.tree.totalSize root + 1) settings.maxDepth
          ⟨sink.outlet, watcher, 0⟩ root = (.ok status, o) ∧
        sink' = sink.put o.outlet.bytes ∧ watcher' = o.monitor := by
  unfold deflate
  constructor
  · intro h
    simp only [Prod.mk.injEq] at h
    obtain ⟨hstatus, rfl, rfl⟩ := h
    exact ⟨_, Prod.ext hstatus rfl, rfl, rfl⟩
  · rintro ⟨o, hnode, rfl, rfl⟩
    simp only [hnode]
    rfl

variable [Payload β]

/-- What a walk that succeeds has put into its sink. -/
theorem put_of_deflate (hs : Reached Guarded s) (hslots : s.tree.slots.size < 2 ^ 32)
    {settings : Settings} {root : BlockId} {sink sink' : Sink} {watcher watcher' : Monitor}
    (hdeflate : deflate settings s.catalogue s.tree root sink watcher =
      (.ok .success, sink', watcher')) :
    ∃ ex data, s.Excerpted root ex ∧
      (ex.Fits settings.maxPayloadSize.toNat settings.maxDepth ∧ ex.Recorded data) ∧
      sink' = sink.put data := by
  obtain ⟨o, hnode, rfl, -⟩ := deflate_eq_ok_iff.mp hdeflate
  have hwords : ∀ x, s.tree.contains x → x.index < 2 ^ 32 := by
    intro x hx
    obtain ⟨node, hn⟩ := Option.isSome_iff_exists.mp hx
    exact (Tree.index_lt_of_node? hn).trans hslots
  obtain ⟨ex, data, hex, hrecorded, hbytes⟩ :=
    Deflate.recorded_node hs.sound hs.consistent hwords settings.maxDepth hnode
  exact ⟨ex, data, hex, hrecorded, congrArg sink.put hbytes⟩

omit [Payload β] in
/-- A block of a type, with the excerpts of the children that are written, has the excerpt that goes
with them. -/
theorem Excerpted.of_type {id : BlockId} {payload : β} {type : BlockType β}
    {children : List Excerpt} (held : s.tree.payload? id = some payload)
    (typed : s.typeOf? id = some type)
    (below : List.Forall₂ s.Excerpted (Deflate.writtenChildren s.tree id) children) :
    s.Excerpted id
      (.block type.name ((type.storedValues payload).map fun w => (w.1.name, w.2)) children) := by
  obtain ⟨entry, made, rfl⟩ := Option.map_eq_some_iff.mp typed
  exact .block held made below

/-- What is written of the shelf. -/
def shelfExcerpt : Excerpt := .block "Library" [] [.block "Leaf" [("name", .string "alpha")] []]

/-- Next to the leaf of the shelf there is one that is not written, and the library is frozen and
has a name. -/
def crowdedShelf : Site Stock :=
  ((((shelf.perform (.create "Leaf")).perform (.setSerializable ⟨2, 0⟩ false)).perform
    (.insert ⟨0, 0⟩ ⟨2, 0⟩ 0)).perform (.rename ⟨0, 0⟩ "books")).perform (.freeze ⟨0, 0⟩ true)

/-- The crowded shelf is reached without a mark that is set by hand. -/
theorem reached_crowdedShelf : Reached Guarded crowdedShelf :=
  .perform (.perform (.perform (.perform (.perform reached_shelf.guarded trivial) trivial) trivial)
    trivial) trivial

/-- A library with a leaf named alpha, as far as it is written. -/
theorem excerpted_shelf {s : Site Stock} (library : s.tree.payload? ⟨0, 0⟩ = some .library)
    (libraryType : s.typeOf? ⟨0, 0⟩ = some StockType.library.blockType)
    (kids : Deflate.writtenChildren s.tree ⟨0, 0⟩ = [⟨1, 0⟩])
    (leaf : s.tree.payload? ⟨1, 0⟩ = some (.leaf ⟨"alpha"⟩))
    (leafType : s.typeOf? ⟨1, 0⟩ = some StockType.leaf.blockType)
    (none : Deflate.writtenChildren s.tree ⟨1, 0⟩ = []) : s.Excerpted ⟨0, 0⟩ shelfExcerpt := by
  refine .of_type library libraryType ?_
  rw [kids]
  refine .cons (.of_type leaf leafType ?_) .nil
  rw [none]
  exact .nil

/-- A walk that succeeds writes the one record of the one excerpt of its root. Another tree with the
same excerpt, whatever else is in it, gives the same bytes, and is written wherever this one is. -/
theorem recorded_of_deflate (hs : Reached Guarded s) (hslots : s.tree.slots.size < 2 ^ 32)
    (settings : Settings) {root : BlockId} {sink sink' : Sink} {watcher watcher' : Monitor}
    (hdeflate : deflate settings s.catalogue s.tree root sink watcher =
      (.ok .success, sink', watcher')) :
    ∃ ex data, s.tree.isSerializable root ∧ (∀ other, s.Excerpted root other ↔ other = ex) ∧
      (∀ other, ex.Recorded other ↔ other = data) ∧ sink' = sink.put data ∧
      ∀ (t : Site β) (root' : BlockId), Reached Guarded t → t.Excerpted root' ex →
        (t.tree.slots.size < 2 ^ 32 → ∀ settings' sink₁ sink₂ watcher₁ watcher₂,
          deflate settings' t.catalogue t.tree root' sink₁ watcher₁ =
            (.ok .success, sink₂, watcher₂) → sink₂ = sink₁.put data) ∧
        (t.tree.isSerializable root' → ∀ watcher₁, watcher₁.answer = watcher.answer →
          watcher₁.polls = watcher.polls → ∃ watcher₂,
            deflate settings t.catalogue t.tree root' sink watcher₁ =
              (.ok .success, sink', watcher₂)) := by
  obtain ⟨ex, data, hex, ⟨-, hrecorded⟩, hput⟩ := put_of_deflate hs hslots hdeflate
  obtain ⟨o, hnode, hsink, -⟩ := deflate_eq_ok_iff.mp hdeflate
  have hdata : ∀ other, ex.Recorded other ↔ other = data := fun other =>
    ⟨fun h => Excerpt.recorded_unique ex h hrecorded, fun h => h ▸ hrecorded⟩
  refine ⟨ex, data, (Deflate.node_eq_success_iff.mp hnode).2.1, fun other =>
    ⟨fun h => excerpted_unique s other h hex, fun h => h ▸ hex⟩, hdata, hput, ?_⟩
  intro t root' ht hex'
  constructor
  · intro hslots' settings' sink₁ sink₂ watcher₁ watcher₂ hdeflate'
    obtain ⟨ex', data', hex'', ⟨-, hrecorded'⟩, hput'⟩ := put_of_deflate ht hslots' hdeflate'
    cases excerpted_unique t ex' hex'' hex'
    rw [hput', (hdata data').mp hrecorded']
  · intro hwritten watcher₁ hanswer hpolls
    have hstart : Deflate.Abreast ⟨sink.outlet, watcher, 0⟩ ⟨sink.outlet, watcher₁, 0⟩ :=
      ⟨rfl, hanswer, hpolls⟩
    obtain ⟨p, hnode', hab⟩ := Deflate.abreast_node hs.consistent ht.consistent
      (t.tree.totalSize root' + 1) settings.maxDepth hex hex' hwritten hstart hnode
    refine ⟨p.monitor, deflate_eq_ok_iff.mpr ⟨p, hnode', ?_, rfl⟩⟩
    rw [hsink, hab.outlet]

/-- A leaf that has been added to the shelf and is not written leaves no trace in the stream. -/
theorem recorded_of_deflate_shelf :
    let write := fun s : Site Stock =>
      deflate Settings.defaults s.catalogue s.tree ⟨0, 0⟩ (Sink.empty none) Monitor.always
    (write shelf).1 = .ok .success ∧ crowdedShelf.tree.children ⟨0, 0⟩ = [⟨2, 0⟩, ⟨1, 0⟩] ∧
      ∃ watcher, write crowdedShelf = (.ok .success, (write shelf).2.1, watcher) := by
  intro write
  have hdeflate : (write shelf).1 = .ok .success := by decide +kernel
  have hexcerpt : shelf.Excerpted ⟨0, 0⟩ shelfExcerpt :=
    excerpted_shelf (by cbv) (by cbv) (by cbv) (by cbv) (by cbv) (by cbv)
  have hcrowded : crowdedShelf.Excerpted ⟨0, 0⟩ shelfExcerpt :=
    excerpted_shelf (by cbv) (by cbv) (by cbv) (by cbv) (by cbv) (by cbv)
  obtain ⟨ex, data, -, hex, -, hput, hothers⟩ := recorded_of_deflate reached_shelf.guarded
    (by decide +kernel) Settings.defaults (Prod.ext hdeflate rfl)
  obtain rfl := (hex shelfExcerpt).mp hexcerpt
  obtain ⟨-, hwrites⟩ := hothers crowdedShelf ⟨0, 0⟩ reached_crowdedShelf hcrowded
  exact ⟨hdeflate, by decide +kernel, hwrites (by decide +kernel) Monitor.always rfl rfl⟩

end Site

end BlockForest
