import Mathlib
import BlockForest.Proofs.PayloadKinds
import BlockForest.Proofs.InflateParses
import BlockForest.Stream.Deflate

/-!
# What is written is well formed

A walk that writes blocks and is not stopped leaves a well-formed stream, provided that the types
at the other end take the values in. The blueprint of this stream is `Drawn` from the blocks:
each has the payload that comes about when the stored values are written into a new payload of the
type, and the children of a block are drawn from those that take part in serialization, in their
order.

The values of one block are treated first (`carries_of_takes`), then its record, and then the walk
down by an induction on levels. Lengths and counts are written as words of 32 bits. That they fit
follows from the limit on the size of a record and, for the children, from the names of blocks,
whose indexes are such words.
-/

set_option autoImplicit false

namespace BlockForest

variable {β κ : Type}

namespace BlockType

/-- The properties that a type writes of a payload, with their values. -/
def storedValues (type : BlockType β) (payload : β) : List (Property β × Value) :=
  type.properties.filterMap fun p =>
    if p.stored then (p.read payload).map fun value => (p, value) else none

/-- A property takes a value in as a lens does. A payload of the type that accepts it gives it back
as it was, and shows the values of the other properties that can be written as before. -/
structure Takes (kind : β → κ) (type : BlockType β) (p : Property β) (value : Value) : Prop where
  alike : ∀ payload next, kind payload = kind type.initial → p.write payload value = .ok next →
    kind next = kind payload
  read : ∀ payload next, kind payload = kind type.initial → p.write payload value = .ok next →
    p.read next = some value
  others : ∀ payload next, kind payload = kind type.initial → p.write payload value = .ok next →
    ∀ q ∈ type.properties, q.name ≠ p.name → q.isWritable → q.read next = q.read payload

/-- The values are accepted when they are written into a payload one after the other. -/
def Accepts : List (Property β × Value) → β → Prop
  | [], _ => True
  | w :: ws, payload => ∃ next, w.1.write payload w.2 = .ok next ∧ Accepts ws next

/-- The values, written one after the other, turn the first payload into the second. -/
def Fills : List (Property β × Value) → β → β → Prop
  | [], payload, final => payload = final
  | w :: ws, payload, final => ∃ next, w.1.write payload w.2 = .ok next ∧ Fills ws next final

/-- Values that are accepted one after the other lead to a payload. -/
theorem exists_fills {ws : List (Property β × Value)} {payload : β} (h : Accepts ws payload) :
    ∃ final, Fills ws payload final := by
  induction ws generalizing payload with
  | nil => exact ⟨payload, rfl⟩
  | cons w ws ih =>
    obtain ⟨next, hnext, hrest⟩ := h
    obtain ⟨final, hfinal⟩ := ih hrest
    exact ⟨final, next, hnext, hfinal⟩

/-- The second payload has the stored values of the first one, and otherwise the values of a new
payload. -/
structure Carries (type : BlockType β) (payload filled : β) : Prop where
  values : ∀ p ∈ type.properties, p.stored → ∀ value, p.read payload = some value →
    p.read filled = some value
  defaults : ∀ p ∈ type.properties, p.isWritable → (p.stored → p.read payload = none) →
    p.read filled = p.read type.initial

variable {type : BlockType β} {payload : β}

/-- A value is stored exactly if a property of the type stores it and reads it off the payload. -/
theorem mem_storedValues {w : Property β × Value} :
    w ∈ type.storedValues payload ↔
      w.1 ∈ type.properties ∧ w.1.stored ∧ w.1.read payload = some w.2 := by
  obtain ⟨q, value⟩ := w
  unfold storedValues
  rw [List.mem_filterMap]
  constructor
  · rintro ⟨p, hp, hw⟩
    split at hw
    · next hstored =>
      obtain ⟨v, hread, heq⟩ := Option.map_eq_some_iff.mp hw
      cases heq
      exact ⟨hp, hstored, hread⟩
    · cases hw
  · rintro ⟨hp, hstored, hread⟩
    simp only at hp hstored hread
    exact ⟨q, hp, by simp [hstored, hread]⟩

/-- Values are stored in the order of the properties and at most one for each. -/
theorem names_storedValues_sublist (type : BlockType β) (payload : β) :
    ((type.storedValues payload).map fun w => w.1.name).Sublist
      (type.properties.map Property.name) := by
  unfold storedValues
  induction type.properties with
  | nil => exact .slnil
  | cons p rest ih =>
    rw [List.map_cons, List.filterMap_cons]
    split
    · exact ih.cons _
    · next w hw =>
      have hname : w.1 = p := by
        split at hw
        · obtain ⟨v, -, rfl⟩ := Option.map_eq_some_iff.mp hw
          rfl
        · cases hw
      rw [List.map_cons, hname]
      exact ih.cons_cons p.name

end BlockType

/-! ### Properties -/

/-- Only a property that can be written accepts a value. -/
theorem Property.isWritable_of_write {p : Property β} {payload next : β} {value : Value}
    (h : p.write payload value = .ok next) : p.isWritable := by
  unfold Property.write at h
  unfold isWritable
  cases hw : p.write? with
  | none =>
    rw [hw] at h
    cases h
  | some write => rfl

/-- A property with its value as bytes. -/
def encodeStored (w : Property β × Value) : Bytes :=
  Deflate.encodePair (nameHash w.1.name, w.2)

/-- The encoding of a value is the end of what is stored for it, so it is no longer than that. -/
theorem length_encode_le (w : Property β × Value) :
    w.2.encode.length ≤ (encodeStored w).length := (List.suffix_append _ _).length_le

/-- Values that are taken in one after the other are there in the end, and the others that can be
written are as before. -/
theorem BlockType.Fills.read {kind : β → κ} {type : BlockType β} {ws : List (Property β × Value)}
    {payload final : β} (h : Fills ws payload final)
    (hws : ∀ w ∈ ws, w.1 ∈ type.properties ∧ type.Takes kind w.1 w.2)
    (hnames : (ws.map fun w => w.1.name).Nodup) (hkind : kind payload = kind type.initial) :
    kind final = kind payload ∧ (∀ w ∈ ws, w.1.read final = some w.2) ∧
      ∀ q ∈ type.properties, q.isWritable → q.name ∉ ws.map (fun w => w.1.name) →
        q.read final = q.read payload := by
  induction ws generalizing payload with
  | nil =>
    cases h
    exact ⟨rfl, by simp, fun _ _ _ _ => rfl⟩
  | cons w ws ih =>
    obtain ⟨next, hnext, hrest⟩ := h
    obtain ⟨hp, htakes⟩ := hws w List.mem_cons_self
    rw [List.map_cons, List.nodup_cons] at hnames
    have hkept := htakes.alike payload next hkind hnext
    obtain ⟨hfinal, hvalues, hothers⟩ := ih hrest
      (fun x hx => hws x (List.mem_cons_of_mem _ hx)) hnames.2 (hkept.trans hkind)
    refine ⟨hfinal.trans hkept, fun x hx => ?_, fun q hq hwritable hout => ?_⟩
    · rcases List.mem_cons.mp hx with rfl | hx
      · rw [hothers x.1 hp (Property.isWritable_of_write hnext) hnames.1]
        exact htakes.read payload next hkind hnext
      · exact hvalues x hx
    · rw [List.map_cons, List.mem_cons, not_or] at hout
      rw [hothers q hq hwritable hout.2]
      exact htakes.others payload next hkind hnext q hq hout.1 hwritable

/-- Values that are accepted one after the other form pairs. -/
theorem pairs_of_fills {properties : List (Property β)} {ws : List (Property β × Value)}
    (hprops : ∀ w ∈ ws, w.1 ∈ properties) (hlen : (ws.flatMap encodeStored).length < 2 ^ 32)
    (hnested : ∀ w ∈ ws, w.2.nesting ≤ Value.maxNesting) {payload final : β}
    (h : BlockType.Fills ws payload final) :
    Pairs properties ws.length payload (ws.flatMap encodeStored) final := by
  induction ws generalizing payload with
  | nil =>
    cases h
    exact .nil _
  | cons w ws ih =>
    obtain ⟨next, hnext, hrest⟩ := h
    rw [List.flatMap_cons, List.length_append] at hlen
    have hshort := length_encode_le w
    have hpairs := ih (fun x hx => hprops x (List.mem_cons_of_mem _ hx)) (by omega)
      (fun x hx => hnested x (List.mem_cons_of_mem _ hx)) hrest
    have hdecode := Value.decode_encode (hnested w List.mem_cons_self) (by omega) []
    rw [List.append_nil] at hdecode
    rw [List.flatMap_cons]
    exact .cons (hprops w List.mem_cons_self) hdecode hnext hpairs

/-- Each stored value takes at least a byte, so there are no more values than bytes. -/
theorem length_le_length_stored (ws : List (Property β × Value)) :
    ws.length ≤ (ws.flatMap encodeStored).length := by
  induction ws with
  | nil => simp
  | cons w ws ih =>
    have hpair : 4 ≤ (encodeStored w).length := by
      rw [encodeStored, Deflate.encodePair, List.length_append, Bytes.length_ofWord32]
      omega
    rw [List.flatMap_cons, List.length_append, List.length_cons]
    omega

/-- The identifiers in a table are those of its properties, so the pairs that are written are the
stored values. -/
theorem pairs_eq_storedValues {entry : Entry β} (hf : entry.table.Faithful)
    (hp : entry.table.properties = entry.type.properties) (payload : β) :
    Deflate.pairs entry payload =
      (entry.type.storedValues payload).map fun w => (nameHash w.1.name, w.2) := by
  unfold Deflate.pairs BlockType.storedValues
  rw [hf.ids_eq, hp, ← List.map_prod_left_eq_zip, List.filterMap_map, List.map_filterMap]
  apply List.filterMap_congr
  intro p _
  simp only [Function.comp_apply]
  split
  · rw [Option.map_map]
    rfl
  · rfl

/-- What is written of a payload through its entry is what the type stores of it, since the entry
has the properties of its type. -/
theorem data_eq_flatMap_encodeStored {entry : Entry β} (hf : entry.table.Faithful)
    (hp : entry.table.properties = entry.type.properties) (payload : β) :
    (Deflate.pairs entry payload).flatMap Deflate.encodePair =
      (entry.type.storedValues payload).flatMap encodeStored := by
  rw [pairs_eq_storedValues hf hp, List.flatMap_map]
  rfl

/-- The count in the header is the number of stored values. -/
theorem length_pairs_eq {entry : Entry β} (hf : entry.table.Faithful)
    (hp : entry.table.properties = entry.type.properties) (payload : β) :
    (Deflate.pairs entry payload).length = (entry.type.storedValues payload).length := by
  rw [pairs_eq_storedValues hf hp, List.length_map]

/-- The data that are written for a block fill a new payload that carries its values. -/
theorem carries_of_takes {kind : β → κ} {entry : Entry β} (hf : entry.table.Faithful)
    (hp : entry.table.properties = entry.type.properties) {payload : β}
    (hv : ∀ w ∈ entry.type.storedValues payload, w.2.nesting ≤ Value.maxNesting ∧
      entry.type.Takes kind w.1 w.2)
    (haccepts : BlockType.Accepts (entry.type.storedValues payload) entry.type.initial)
    (hlen : ((Deflate.pairs entry payload).flatMap Deflate.encodePair).length < 2 ^ 32) :
    ∃ filled, Pairs entry.type.properties (Deflate.pairs entry payload).length
        entry.type.initial ((Deflate.pairs entry payload).flatMap Deflate.encodePair) filled ∧
      kind filled = kind entry.type.initial ∧ entry.type.Carries payload filled := by
  have hnames : (entry.type.properties.map Property.name).Nodup := hp ▸ hf.nodup_names
  rw [data_eq_flatMap_encodeStored hf hp, length_pairs_eq hf hp]
  rw [data_eq_flatMap_encodeStored hf hp] at hlen
  obtain ⟨filled, hfills⟩ := BlockType.exists_fills haccepts
  have hprops : ∀ w ∈ entry.type.storedValues payload, w.1 ∈ entry.type.properties :=
    fun w hw => (BlockType.mem_storedValues.mp hw).1
  obtain ⟨hkind, hvalues, hothers⟩ := hfills.read (fun w hw => ⟨hprops w hw, (hv w hw).2⟩)
    (hnames.sublist (BlockType.names_storedValues_sublist entry.type payload)) rfl
  refine ⟨filled, pairs_of_fills hprops hlen (fun w hw => (hv w hw).1) hfills, hkind, ?_, ?_⟩
  · intro p hmem hstored value hread
    exact hvalues (p, value) (BlockType.mem_storedValues.mpr ⟨hmem, hstored, hread⟩)
  · intro p hmem hwritable hnone
    refine hothers p hmem hwritable fun hin => ?_
    obtain ⟨w, hw, hname⟩ := List.mem_map.mp hin
    obtain ⟨hwmem, hwstored, hwread⟩ := BlockType.mem_storedValues.mp hw
    have hsame : w.1 = p := List.inj_on_of_nodup_map hnames hwmem hmem hname
    rw [hsame] at hwstored hwread
    rw [hnone hwstored] at hwread
    cases hwread

/-! ### The blocks that are written -/

namespace Tree.Typed

variable [Payload β] {kind : β → κ} {t : Tree β} {id : BlockId} {block : Node β}

/-- A library of a kind accepts what is of the kind of a child. -/
theorem accepts_alike (ht : t.Typed) (hk : Kinds kind) (hblock : t.node? id = some block)
    {child : BlockId} (hchild : child ∈ t.children id) {filled payload other : β}
    (hsame : kind filled = kind block.payload) (hheld : t.payload? child = some payload)
    (halike : kind other = kind payload) : Payload.accepts filled other := by
  obtain ⟨node, hnode, rfl⟩ := Option.map_eq_some_iff.mp hheld
  rw [Tree.children_of_node? hblock] at hchild
  rw [hk.accepts _ _ _ _ hsame halike]
  exact ht.accepted id block hblock child hchild node hnode

/-- Only a library has children, and so has any payload of its kind room for some. -/
theorem isLibrary_alike (ht : t.Typed) (hk : Kinds kind) (hblock : t.node? id = some block)
    {other : β} (halike : kind block.payload = kind other) :
    Deflate.writtenChildren t id = [] ∨ Payload.isLibrary other := by
  by_cases hnone : Deflate.writtenChildren t id = []
  · exact .inl hnone
  · right
    obtain ⟨child, hmem⟩ := List.exists_mem_of_ne_nil _ hnone
    have hlib := Tree.isLibrary_of_mem_children (List.mem_filter.mp hmem).1
    rw [Tree.isLibrary, hblock] at hlib
    rw [← hk.isLibrary _ _ halike, ← ht.holds id block hblock]
    exact hlib

end Tree.Typed

/-- A block is written together with a root: it takes part in serialization, and so do all blocks
between the two. -/
inductive Tree.Written (t : Tree β) : BlockId → BlockId → Prop
  | self (root : BlockId) : Written t root root
  | under {root child id : BlockId} : child ∈ Deflate.writtenChildren t root →
      Written t child id → Written t root id

namespace Site

/-- A block is written together with a root, through an entry and with a payload. -/
structure Writes (s : Site β) (root id : BlockId) (payload : β) (entry : Entry β) : Prop where
  written : s.tree.Written root id
  payload : s.tree.payload? id = some payload
  entry : (s.tree.entryRef? id).bind s.catalogue.entryAt? = some entry

variable {s : Site β}

/-- The entry that a block is written with is in the catalogue, so its properties have names of
their own. -/
theorem Writes.nodup_names (hc : s.catalogue.Consistent) {root id : BlockId} {payload : β}
    {entry : Entry β} (h : s.Writes root id payload entry) :
    (entry.type.properties.map Property.name).Nodup := by
  obtain ⟨ref, -, href⟩ := Option.bind_eq_some_iff.mp h.entry
  obtain ⟨hfaithful, hproperties⟩ := PropertyTable.faithful_of_build (hc.table ref entry href)
  exact hproperties ▸ hfaithful.nodup_names

/-- What is written below a child that is written is written below its library, too. -/
theorem Writes.below {root child id : BlockId} {payload : β} {entry : Entry β}
    (hc : child ∈ Deflate.writtenChildren s.tree root) (h : s.Writes child id payload entry) :
    s.Writes root id payload entry := ⟨.under hc h.written, h.payload, h.entry⟩

/-- The blueprint has what is written of a block and of the blocks below it. -/
inductive Drawn (kind : β → κ) (s : Site β) : BlockId → Blueprint β → Prop
  | block {id : BlockId} {payload filled : β} {entry : Entry β} {kids : List (Blueprint β)}
      (held : s.tree.payload? id = some payload)
      (made : (s.tree.entryRef? id).bind s.catalogue.entryAt? = some entry)
      (alike : kind filled = kind payload) (carries : entry.type.Carries payload filled)
      (below : List.Forall₂ (Drawn kind s) (Deflate.writtenChildren s.tree id) kids) :
      Drawn kind s id (.block entry.type filled kids)

/-- The payload of a blueprint is of the kind of the payload that it was drawn from. -/
theorem Drawn.alike {kind : β → κ} {id : BlockId} {plan : Blueprint β} (h : Drawn kind s id plan) :
    ∃ payload, s.tree.payload? id = some payload ∧ kind plan.payload = kind payload := by
  cases h with
  | block hpayload _ halike => exact ⟨_, hpayload, halike⟩

/-- Whatever is drawn from a child is of its kind, so it is accepted as the child is. -/
theorem Drawn.accepted [Payload β] {kind : β → κ} (hk : Kinds kind) (ht : s.tree.Typed)
    {id child : BlockId} {block : Node β} (hblock : s.tree.node? id = some block)
    (hchild : child ∈ s.tree.children id) {filled : β} (hsame : kind filled = kind block.payload)
    {plan : Blueprint β} (h : s.Drawn kind child plan) : Payload.accepts filled plan.payload := by
  obtain ⟨payload, hheld, halike⟩ := h.alike
  exact ht.accepts_alike hk hblock hchild hsame hheld halike

end Site

/-- Children of a block stand in slots of their own, none of them in that of the block. -/
theorem Tree.Forest.length_children_lt {t : Tree β} (h : t.Forest) {n : Nat}
    (hn : ∀ id, t.contains id → id.index < n) {id : BlockId} (hid : t.contains id) :
    (t.children id).length < n := by
  have hout : id ∉ t.children id := by
    intro hin
    obtain ⟨d, hd⟩ := h.grounded id
    have := hd.unique (Tree.Rises.up (h.mem_children_iff.mp hin) hd)
    omega
  have halive : ∀ x ∈ id :: t.children id, t.contains x := by
    intro x hx
    rcases List.mem_cons.mp hx with rfl | hx
    · exact hid
    · exact Tree.contains_of_parent? (h.mem_children_iff.mp hx)
  have hlen := Tree.length_le_of_index_lt (List.nodup_cons.mpr ⟨hout, h.nodup_children id⟩)
    halive fun x hx => hn x (halive x hx)
  rw [List.length_cons] at hlen
  omega

namespace Deflate

variable {o o' : Outflow} {total : Nat}

/-- What a walk writes stands behind what it had written before. -/
theorem bytes_of_write {data : Bytes} (h : o.write data = (.ok (), o')) :
    o'.outlet.bytes = o.outlet.bytes ++ data := by
  have hpieces : ∀ outlet : Outlet, o.outlet.write data = (true, outlet) →
      outlet.bytes = o.outlet.bytes ++ data := by
    intro outlet hw
    unfold Outlet.write at hw
    split at hw
    · cases hw
      simp [Outlet.bytes]
    · split at hw
      · cases hw
        simp [Outlet.bytes]
      · cases hw
  unfold Outflow.write at h
  split at h
  · next outlet hw =>
    cases h
    exact hpieces outlet hw
  · cases h

/-- The header and the data of a block, as its record has them in the end. -/
theorem bytes_of_writeRecord {settings : Settings} {entry : Entry β} {payload : β}
    {childCount : Nat} (h : writeRecord settings entry payload childCount total o = (.ok (), o')) :
    let data := (pairs entry payload).flatMap encodePair
    data.length ≤ settings.maxPayloadSize.toNat ∧
      o'.outlet.bytes = o.outlet.bytes ++
        ((header entry data (pairs entry payload).length childCount).toBytes ++ data) := by
  intro data
  unfold writeRecord at h
  simp only at h
  split at h
  · cases h
  · next hsmall =>
    refine ⟨Nat.not_lt.mp hsmall, ?_⟩
    split at h
    · cases h
    · next o₁ hhead =>
      split at h
      · cases h
      · next o₂ hdata =>
        cases h
        show o₂.outlet.bytes = _
        rw [bytes_of_write hdata, bytes_of_write hhead, List.append_assoc]

section

variable [Payload β] {settings : Settings} {type? : UInt32 → Option (BlockType β)} {depth : Nat}
  {kind : β → κ} {s : Site β}

/-- What is asked of a block that is written: its payload is of the type of its entry, a new payload
of the type takes its values in, and the other end knows the type. -/
structure Portable (kind : β → κ) (type? : UInt32 → Option (BlockType β)) (payload : β)
    (entry : Entry β) : Prop where
  alike : kind payload = kind entry.type.initial
  values : ∀ w ∈ entry.type.storedValues payload, w.2.nesting ≤ Value.maxNesting ∧
    entry.type.Takes kind w.1 w.2
  accepted : BlockType.Accepts (entry.type.storedValues payload) entry.type.initial
  known : type? entry.typeId = some entry.type

/-- What a walk has written is a block at a depth, drawn from the one in the tree. -/
def Leads (kind : β → κ) (s : Site β) (settings : Settings)
    (type? : UInt32 → Option (BlockType β)) (depth : Nat) (id : BlockId) (o o' : Outflow) : Prop :=
  ∃ plan used, s.Drawn kind id plan ∧ WellFormed settings type? depth plan used ∧
    o'.outlet.bytes = o.outlet.bytes ++ used

/-- A walk over children never answers that all was passed over. It ends well also if each of them
is. -/
theorem each_ne_skipped {write : Outflow → BlockId → Except CodecError DeflateStatus × Outflow}
    (o o' : Outflow) (ids : List BlockId) : each write o ids ≠ (.ok .skipped, o') := by
  induction ids generalizing o with
  | nil =>
    intro h
    cases h
  | cons id ids ih =>
    unfold each
    split
    · intro h
      cases h
    · intro h
      cases h
    · exact ih _

omit [Payload β] in
/-- Only a block that takes no part in serialization is passed over. -/
theorem not_serializable_of_skipped {levels : Nat} {id : BlockId}
    (h : node settings s.catalogue s.tree total levels o id = (.ok .skipped, o')) :
    ¬ s.tree.isSerializable id := by
  unfold node at h
  simp only at h
  split at h
  · cases h
  · split at h
    · cases h
    · split at h
      · next hnot => simpa using hnot
      · split at h
        · cases h
        · split at h
          · cases h
          · split at h
            · cases h
            · exact absurd h (each_ne_skipped _ _ _)

omit [Payload β] in
/-- When a walk writes a block, and what it goes through. -/
theorem node_eq_success_iff {levels : Nat} {id : BlockId} :
    node settings s.catalogue s.tree total levels o id = (.ok .success, o') ↔
      o.monitor.poll.1 ∧ s.tree.isSerializable id ∧
        ∃ left block entry o₁, levels = left + 1 ∧ s.tree.node? id = some block ∧
          block.entry.bind s.catalogue.entryAt? = some entry ∧
          writeRecord settings entry block.payload (writtenChildren s.tree id).length total
            { o with monitor := o.monitor.poll.2 } = (.ok (), o₁) ∧
          each (node settings s.catalogue s.tree total left) o₁ (writtenChildren s.tree id) =
            (.ok .success, o') := by
  constructor
  · intro h
    unfold node at h
    simp only at h
    split at h
    · cases h
    · next hpoll =>
      split at h
      · cases h
      · next block hblock =>
        split at h
        · cases h
        · next hwritten =>
          split at h
          · cases h
          · next left =>
            split at h
            · cases h
            · next entry hentry =>
              split at h
              · cases h
              · next o₁ hrecord =>
                exact ⟨by simpa using hpoll, by simpa using hwritten, left, block, entry, o₁, rfl,
                  hblock, hentry, hrecord, h⟩
  · rintro ⟨hpoll, hwritten, left, block, entry, o₁, rfl, hblock, hentry, hrecord, heach⟩
    unfold node
    simp only [hpoll, hblock, hwritten, hentry, hrecord, heach, Bool.not_true, Bool.false_eq_true,
      if_false]

omit [Payload β] in
/-- A walk that answers success was at a live block of a known type with levels left, has written
its record and then all its children. -/
theorem node_success {levels : Nat} {id : BlockId}
    (h : node settings s.catalogue s.tree total levels o id = (.ok .success, o')) :
    ∃ left block entry o₁, levels = left + 1 ∧ s.tree.node? id = some block ∧
      block.entry.bind s.catalogue.entryAt? = some entry ∧
      writeRecord settings entry block.payload (writtenChildren s.tree id).length total
        { o with monitor := o.monitor.poll.2 } = (.ok (), o₁) ∧
      each (node settings s.catalogue s.tree total left) o₁ (writtenChildren s.tree id) =
        (.ok .success, o') := (node_eq_success_iff.mp h).2.2

omit [Payload β] in
/-- Each pair takes a byte at least. -/
theorem length_pairs_le {entry : Entry β} (hf : entry.table.Faithful)
    (hp : entry.table.properties = entry.type.properties) (payload : β) :
    (pairs entry payload).length ≤ ((pairs entry payload).flatMap encodePair).length := by
  rw [data_eq_flatMap_encodeStored hf hp, length_pairs_eq hf hp]
  exact length_le_length_stored _

/-- A record is well formed with the header that is written in front of it: the words of the
header are the numbers that they stand for. -/
theorem wellFormed_header {entry : Entry β} {filled : β} {data used : Bytes} {count : Nat}
    {kids : List (Blueprint β)} (hdepth : depth < settings.maxDepth)
    (hsmall : data.length ≤ settings.maxPayloadSize.toNat) (hcount : count ≤ data.length)
    (hfew : kids.length < 2 ^ 32) (hknown : type? entry.typeId = some entry.type)
    (hpairs : Pairs entry.type.properties count entry.type.initial data filled)
    (hroom : kids = [] ∨ Payload.isLibrary entry.type.initial)
    (hall : WellFormedAll settings type? (depth + 1) filled kids used) :
    WellFormed settings type? depth (.block entry.type filled kids)
      ((header entry data count kids.length).toBytes ++ data ++ used) := by
  have hlimit := settings.maxPayloadSize.toNat_lt
  have hword : ∀ n, n < 2 ^ 32 → (UInt32.ofNat n).toNat = n := by
    intro n hn
    rw [UInt32.toNat_ofNat', Nat.mod_eq_of_lt hn]
  have hsize : (UInt32.ofNat data.length).toNat = data.length := hword _ (by omega)
  refine .block hdepth ?_ hknown hsize.symm ?_ ?_ (hword _ hfew).symm hall
  · show UInt32.ofNat data.length ≤ settings.maxPayloadSize
    rw [UInt32.le_iff_toNat_le, hsize]
    exact hsmall
  · show Pairs _ (UInt32.ofNat count).toNat _ _ _
    rw [hword count (by omega)]
    exact hpairs
  · rcases hroom with rfl | hlib
    · exact .inl rfl
    · exact .inr hlib

/-- Blocks that a library accepts are written one after the other. -/
theorem leads_each {write : Outflow → BlockId → Except CodecError DeflateStatus × Outflow}
    {library : β} {ids : List BlockId}
    (hwrite : ∀ id ∈ ids, ∀ o o', write o id = (.ok .success, o') →
      Leads kind s settings type? depth id o o')
    (hskip : ∀ id ∈ ids, ∀ o o', write o id ≠ (.ok .skipped, o'))
    (haccepts : ∀ id ∈ ids, ∀ plan, s.Drawn kind id plan →
      Payload.accepts library plan.payload)
    (h : each write o ids = (.ok .success, o')) :
    ∃ kids used, List.Forall₂ (s.Drawn kind) ids kids ∧
      WellFormedAll settings type? depth library kids used ∧
      o'.outlet.bytes = o.outlet.bytes ++ used := by
  induction ids generalizing o with
  | nil =>
    cases h
    exact ⟨[], [], .nil, .nil, (List.append_nil _).symm⟩
  | cons id ids ih =>
    unfold each at h
    split at h
    · cases h
    · cases h
    · next status o₁ hnot hfirst =>
      cases status with
      | canceled => exact (hnot rfl).elim
      | skipped => exact absurd hfirst (hskip id List.mem_cons_self o o₁)
      | success =>
        obtain ⟨plan, piece, hdrawn, hplan, hpiece⟩ :=
          hwrite id List.mem_cons_self o o₁ hfirst
        obtain ⟨kids, used, hkids, hall, hused⟩ :=
          ih (fun x hx => hwrite x (List.mem_cons_of_mem _ hx))
            (fun x hx => hskip x (List.mem_cons_of_mem _ hx))
            (fun x hx => haccepts x (List.mem_cons_of_mem _ hx)) h
        refine ⟨plan :: kids, piece ++ used, .cons hdrawn hkids,
          .cons hplan (haccepts id List.mem_cons_self plan hdrawn) hall, ?_⟩
        rw [hused, hpiece, List.append_assoc]

/-- A walk that has written a block has written what leads to a copy of it. -/
theorem leads_node (hk : Kinds kind) (hs : s.tree.Sound) (ht : s.tree.Typed)
    (hc : s.catalogue.Consistent) (hwords : ∀ x, s.tree.contains x → x.index < 2 ^ 32)
    (levels : Nat) (hdepth : depth + levels = settings.maxDepth) {id : BlockId}
    (hw : ∀ x payload entry, s.Writes id x payload entry → Portable kind type? payload entry)
    (h : node settings s.catalogue s.tree total levels o id = (.ok .success, o')) :
    Leads kind s settings type? depth id o o' := by
  induction levels generalizing depth id o o' with
  | zero =>
    obtain ⟨left, _, _, _, hlevels, -⟩ := node_success h
    cases hlevels
  | succ levels ih =>
    obtain ⟨left, block, entry, o₁, hlevels, hblock, hentry, hrecord, heach⟩ := node_success h
    cases hlevels
    have hpayload : s.tree.payload? id = some block.payload := by
      rw [Tree.payload?, hblock]
      rfl
    have hmade : (s.tree.entryRef? id).bind s.catalogue.entryAt? = some entry := by
      rw [Tree.entryRef?, hblock]
      exact hentry
    have hport := hw id block.payload entry ⟨.self id, hpayload, hmade⟩
    obtain ⟨ref, -, href⟩ := Option.bind_eq_some_iff.mp hentry
    obtain ⟨hfaithful, hproperties⟩ := PropertyTable.faithful_of_build (hc.table ref entry href)
    obtain ⟨hsmall, hbytes⟩ := bytes_of_writeRecord hrecord
    have hlimit := settings.maxPayloadSize.toNat_lt
    obtain ⟨filled, hpairs, halike, hcarries⟩ :=
      carries_of_takes hfaithful hproperties hport.values hport.accepted (by omega)
    have hlikewise : kind filled = kind block.payload := halike.trans hport.alike.symm
    have hchild : ∀ child ∈ writtenChildren s.tree id, child ∈ s.tree.children id :=
      fun child hmem => (List.mem_filter.mp hmem).1
    -- The children are written by the same walk, one level below.
    have hwrite : ∀ child ∈ writtenChildren s.tree id, ∀ o o',
        node settings s.catalogue s.tree total levels o child = (.ok .success, o') →
          Leads kind s settings type? (depth + 1) child o o' := fun child hmem o o' hsuccess =>
      ih (by omega) (fun x payload entry hx => hw x payload entry (hx.below hmem)) hsuccess
    obtain ⟨kids, used, hkids, hall, hused⟩ := leads_each hwrite
      (fun child hmem o o' hskipped =>
        not_serializable_of_skipped hskipped (List.mem_filter.mp hmem).2)
      (fun child hmem plan hdrawn => hdrawn.accepted hk ht hblock (hchild child hmem) hlikewise)
      heach
    have hcount := hkids.length_eq
    have hfew : kids.length < 2 ^ 32 := by
      have hid := Tree.contains_of_node? hblock
      have hlt := hs.forest.length_children_lt hwords hid
      have hle : (writtenChildren s.tree id).length ≤ (s.tree.children id).length :=
        List.length_filter_le _ _
      omega
    have hroom : kids = [] ∨ Payload.isLibrary entry.type.initial := by
      refine (ht.isLibrary_alike hk hblock hport.alike).imp_left fun hnone => ?_
      rw [← List.length_eq_zero_iff, ← hcount, hnone]
      rfl
    rw [hcount] at hbytes
    refine ⟨_, _, .block hpayload hmade hlikewise hcarries hkids,
      wellFormed_header (by omega) hsmall (length_pairs_le hfaithful hproperties _) hfew
        hport.known hpairs hroom hall, ?_⟩
    rw [hused, hbytes, List.append_assoc]

end

end Deflate

end BlockForest
