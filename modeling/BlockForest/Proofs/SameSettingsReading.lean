import Mathlib
import BlockForest.Proofs.WrittenExcerpt
import BlockForest.Proofs.ValueNesting

/-!
# Which streams their own settings refuse

A stream that was written is read again under the same settings, unless one of two things is the
case for a block in it: a new payload of its type does not take the stored values in, or a stored
value is nested deeper than the reader follows. No other limit is in the way, for the writer keeps
those on the size of a record and on the depth of blocks. It does not look at the nesting of values
at all, which is why `not_inflate_of_nested` finds a vault that is written and not read.

The reader goes along the record of the excerpt. In one direction the record is well formed
(`wellFormed_of_recorded`), in the other each step of the reader takes up what was written for one
block and nothing else (`readmits_node`).
-/

set_option autoImplicit false

namespace BlockForest

variable {β κ : Type}

/-! ### Properties -/

/-- The stored values of a payload can be written into a new one, one after the other, and none of
them is nested too deep to be read. -/
structure BlockType.Readmits (type : BlockType β) (payload : β) : Prop where
  nested : ∀ w ∈ type.storedValues payload, w.2.nesting ≤ Value.maxNesting
  accepted : BlockType.Accepts (type.storedValues payload) type.initial

/-- Where values were written, pairs are these values. -/
theorem accepts_of_pairs {properties : List (Property β)} {ws : List (Property β × Value)}
    (hprops : ∀ w ∈ ws, w.1 ∈ properties)
    (hids : (properties.map fun p => nameHash p.name).Nodup)
    (hlen : (ws.flatMap encodeStored).length < 2 ^ 32) {payload final : β}
    (hpairs : Pairs properties ws.length payload (ws.flatMap encodeStored) final) :
    (∀ w ∈ ws, w.2.nesting ≤ Value.maxNesting) ∧ BlockType.Accepts ws payload := by
  induction ws generalizing payload with
  | nil => exact ⟨by simp, trivial⟩
  | cons w ws ih =>
    rw [List.flatMap_cons, List.length_append] at hlen
    have hshort := length_encode_le w
    rw [List.flatMap_cons, List.length_cons] at hpairs
    generalize hdata : encodeStored w ++ ws.flatMap encodeStored = data at hpairs
    cases hpairs with
    | @cons _ _ next _ p value piece rest hp hdecode hwrite hmore =>
      rw [encodeStored, Deflate.encodePair, List.append_assoc, List.append_assoc] at hdata
      obtain ⟨hword, htail⟩ := List.append_inj hdata (by simp)
      have hname : nameHash w.1.name = nameHash p.name := by
        rw [← Bytes.toWord32_ofWord32 (nameHash w.1.name), hword, Bytes.toWord32_ofWord32]
      obtain rfl := List.inj_on_of_nodup_map hids (hprops w List.mem_cons_self) hp hname
      have hread : Value.decode (w.2.encode ++ ws.flatMap encodeStored) = (.ok value, rest) :=
        htail ▸ Value.decode_eq_ok_iff.mpr ⟨piece, rfl, hdecode⟩
      obtain ⟨hnested, rfl, rfl⟩ := Value.eq_of_decode_encode (by omega) hread
      obtain ⟨hall, haccepts⟩ :=
        ih (fun x hx => hprops x (List.mem_cons_of_mem _ hx)) (by omega) hmore
      exact ⟨List.forall_mem_cons.mpr ⟨hnested, hall⟩, next, hwrite, haccepts⟩

/-! ### Records -/

/-- The bytes of listed values are their encodings one after the other. -/
theorem length_eq_of_listed {values : List (String × Value)} {pairs : List Bytes}
    (h : List.Forall₂ Excerpt.Listed values pairs) :
    pairs.flatten = values.flatMap Excerpt.encodeValue := by
  rw [Excerpt.eq_map_encodeValue_of_listed h, List.flatMap_def]

/-- A record as the reader sees it. -/
theorem Excerpt.Recorded.inv {name : String} {values : List (String × Value)}
    {children : List Excerpt} {data : Bytes}
    (h : (Excerpt.block name values children).Recorded data) :
    ∃ (header : NodeHeader) (kids : List Bytes),
      data = header.toBytes ++ values.flatMap encodeValue ++ kids.flatten ∧
        header.blockType = nameHash name ∧
        header.size.toNat = (values.flatMap encodeValue).length ∧
        header.propertyCount.toNat = values.length ∧
        header.childCount.toNat = children.length ∧
        List.Forall₂ Recorded children kids := by
  cases h with
  | @block _ _ _ size valueCount childCount pairs kids listed sized valuesCounted childrenCounted
      below =>
    rw [length_eq_of_listed listed] at sized ⊢
    refine ⟨⟨size, nameHash name, valueCount, childCount⟩, kids, ?_, rfl, sized, valuesCounted,
      childrenCounted, below⟩
    simp [NodeHeader.toBytes, NodeHeader.words]

/-- What is written of values with their names is what is written of them with their properties. -/
theorem flatMap_encodeValue (ws : List (Property β × Value)) :
    (ws.map fun w => (w.1.name, w.2)).flatMap Excerpt.encodeValue = ws.flatMap encodeStored := by
  rw [List.flatMap_map]
  rfl

section

variable [Payload β] {kind : β → κ} {s : Site β} {settings : Settings}
  {type? : UInt32 → Option (BlockType β)} {limit depth levels : Nat}

/-- What is asked of a block that was written: its payload is of the type of its entry, writing a
property keeps that type, and the other end knows it. -/
structure Deflate.Typed (kind : β → κ) (type? : UInt32 → Option (BlockType β)) (payload : β)
    (entry : Entry β) : Prop where
  alike : kind payload = kind entry.type.initial
  keeps : entry.type.KeepsKind kind
  known : type? entry.typeId = some entry.type

/-- Records of children are well formed one after the other. -/
theorem wellFormedAll_of_recorded {library : β} {ids : List BlockId} {children : List Excerpt}
    {kids : List Bytes} (hex : List.Forall₂ s.Excerpted ids children)
    (hrecords : List.Forall₂ Excerpt.Recorded children kids)
    (hone : ∀ id ∈ ids, ∀ ex ∈ children, ∀ data, s.Excerpted id ex → ex.Recorded data →
      ∃ plan, WellFormed settings type? depth plan data ∧ Payload.accepts library plan.payload) :
    ∃ plans, plans.length = children.length ∧
      WellFormedAll settings type? depth library plans kids.flatten := by
  induction hex generalizing kids with
  | nil =>
    cases hrecords
    exact ⟨[], rfl, .nil⟩
  | @cons id ex ids children hid _ ih =>
    cases hrecords with
    | @cons _ data _ kids hrecord hrecords =>
      obtain ⟨plan, hplan, haccepts⟩ :=
        hone id List.mem_cons_self ex List.mem_cons_self data hid hrecord
      obtain ⟨plans, hlength, hall⟩ := ih hrecords fun x hx y hy =>
        hone x (List.mem_cons_of_mem _ hx) y (List.mem_cons_of_mem _ hy)
      exact ⟨plan :: plans, by rw [List.length_cons, hlength, List.length_cons],
        .cons hplan haccepts hall⟩

/-- A record within the limits is well formed, if every type in it readmits its values. -/
theorem wellFormed_of_recorded (hk : Kinds kind) (ht : s.tree.Typed) {ex : Excerpt}
    (hfits : ex.Fits settings.maxPayloadSize.toNat levels)
    (hdepth : depth + levels = settings.maxDepth) {id : BlockId} (hex : s.Excerpted id ex)
    {data : Bytes} (hrecorded : ex.Recorded data)
    (htyped : ∀ x payload entry, s.Writes id x payload entry →
      Deflate.Typed kind type? payload entry)
    (hreadmits : ∀ x payload entry, s.Writes id x payload entry → entry.type.Readmits payload) :
    ∃ plan, WellFormed settings type? depth plan data ∧
      ∃ payload, s.tree.payload? id = some payload ∧ kind plan.payload = kind payload := by
  induction hfits generalizing depth id data with
  | @block levels name values children hsmall _ ih =>
    obtain ⟨node, entry, hnode, hwrites, rfl, rfl, hbelow⟩ := hex.writes
    obtain ⟨header, kids, rfl, htype, hsize, hcount, hchildren, hrecords⟩ := hrecorded.inv
    rw [flatMap_encodeValue] at hsize hsmall ⊢
    rw [List.length_map] at hcount
    obtain ⟨halike, hkeeps, hknown⟩ := htyped id node.payload entry hwrites
    obtain ⟨hnested, haccepted⟩ := hreadmits id node.payload entry hwrites
    have hlimit := settings.maxPayloadSize.toNat_lt
    obtain ⟨filled, hfills⟩ := BlockType.exists_fills haccepted
    have hpairs := pairs_of_fills (fun w hw => (BlockType.mem_storedValues.mp hw).1) (by omega)
      hnested hfills
    have hfilled : kind filled = kind node.payload := (hpairs.kind hkeeps).trans halike.symm
    -- A child of the blueprint is accepted because the one in the tree is, and acceptance goes by kinds.
    have hone : ∀ child ∈ Deflate.writtenChildren s.tree id, ∀ ex ∈ children, ∀ data,
        s.Excerpted child ex → ex.Recorded data → ∃ plan,
          WellFormed settings type? (depth + 1) plan data ∧
            Payload.accepts filled plan.payload := by
      intro child hmem ex hin data hchild hdata
      obtain ⟨plan, hplan, payload, hpayload, hsame⟩ :=
        ih ex hin (Nat.add_right_comm depth 1 levels ▸ hdepth) hchild hdata
          (fun x payload entry hx => htyped x payload entry (hx.below hmem))
          (fun x payload entry hx => hreadmits x payload entry (hx.below hmem))
      exact ⟨plan, hplan,
        ht.accepts_alike hk hnode (List.mem_filter.mp hmem).1 hfilled hpayload hsame⟩
    obtain ⟨plans, hlength, hall⟩ := wellFormedAll_of_recorded hbelow hrecords hone
    refine ⟨.block entry.type filled plans, .block (by omega) ?_ ?_ hsize.symm ?_ ?_ ?_ hall, ?_⟩
    · rw [UInt32.le_iff_toNat_le, hsize]
      exact hsmall
    · rw [htype]
      exact hknown
    · rw [hcount]
      exact hpairs
    · refine (ht.isLibrary_alike hk hnode halike).imp_left fun hnone => ?_
      have hzero : children.length = 0 := by
        rw [← hbelow.length_eq, hnone]
        rfl
      rw [← UInt32.toNat_inj, hchildren, hzero]
      rfl
    · rw [hlength, hchildren]
    · exact ⟨node.payload, hwrites.payload, hfilled⟩

/-! ### The reader on a record -/

open Inflate

/-- Children that were adopted are read from their records, one after the other. -/
theorem remaining_of_children
    {readBlock : Intake Source β → Except CodecError InflateStatus × Intake Source β} {library kept : BlockId}
    {P : BlockId → Prop} {ids : List BlockId} {children : List Excerpt} {kids : List Bytes}
    (hlasting : ∀ i, Site.Lasting i.site (readBlock i).2.site)
    (hanswer : ∀ i, (readBlock i).2.monitor.answer = i.monitor.answer)
    (hread : ∀ id ∈ ids, ∀ i i' copy ex data rest, Ready type? i → s.Excerpted id ex →
      ex.Recorded data → i.source.remaining = data ++ rest →
        readBlock i = (.ok (.success copy), i') → P id ∧ i'.source.remaining = rest)
    (hex : List.Forall₂ s.Excerpted ids children)
    (hrecords : List.Forall₂ Excerpt.Recorded children kids) {i i' : Intake Source β}
    (hi : Ready type? i) {rest : Bytes} (hrem : i.source.remaining = kids.flatten ++ rest)
    (h : Inflate.children readBlock library children.length i = (.ok (.success kept), i')) :
    (∀ id ∈ ids, P id) ∧ i'.source.remaining = rest := by
  induction hex generalizing kids i with
  | nil =>
    cases hrecords
    cases h
    exact ⟨by simp, hrem⟩
  | @cons id ex ids children hid _ ih =>
    cases hrecords with
    | @cons _ data _ kids hrecord hrecords =>
      rw [List.flatten_cons, List.append_assoc] at hrem
      rw [List.length_cons, Inflate.children] at h
      have hlast := hlasting i
      have hans := hanswer i
      cases hr : readBlock i with
      | mk result i₁ =>
        simp only [hr] at h hlast hans
        cases result with
        | error e => cases h
        | ok status =>
          cases status with
          | canceled => cases h
          | success copy =>
            obtain ⟨hP, hrem₁⟩ :=
              hread id List.mem_cons_self i i₁ copy ex data _ hi hid hrecord hrem hr
            cases ha : adoptChild i₁ library copy with
            | mk outcome i₂ =>
              simp only [ha] at h
              cases outcome with
              | error e => cases h
              | ok _ =>
                rw [adoptChild_of_attachable (attachable_of_adoptChild ha)] at ha
                cases ha
                have hi₂ := (hi.of_lasting hlast hans).attach library copy
                  (i₁.site.tree.children library).length
                obtain ⟨hall, hrem'⟩ := ih (fun x hx => hread x (List.mem_cons_of_mem _ hx))
                  hrecords hi₂ hrem₁ h
                exact ⟨List.forall_mem_cons.mpr ⟨hP, hall⟩, hrem'⟩

/-- If the reader finds a block where one was written, it has read the record of this block, and
every type in it readmits its values. -/
theorem readmits_node (total levels : Nat) {i i' : Intake Source β} {id copy : BlockId}
    {ex : Excerpt} {data rest : Bytes} (hi : Ready type? i)
    (hknown : ∀ x payload entry, s.Writes id x payload entry →
      type? entry.typeId = some entry.type)
    (hex : s.Excerpted id ex) (hrecorded : ex.Recorded data)
    (hrem : i.source.remaining = data ++ rest)
    (h : node settings total levels i = (.ok (.success copy), i')) :
    (∀ x payload entry, s.Writes id x payload entry → entry.type.Readmits payload) ∧
      i'.source.remaining = rest := by
  induction levels generalizing i i' id copy ex data rest with
  | zero =>
    obtain ⟨k, hk, -⟩ := (leaves_node settings total 0 i hi.orderly).1 copy (congrArg Prod.fst h)
    cases hk
  | succ levels ih =>
    obtain ⟨name, values, children⟩ := ex
    obtain ⟨block, entry, hblock, hwrites, rfl, rfl, hbelow⟩ := hex.writes
    obtain ⟨header, kids, rfl, htype, hsize, hcount, hchildren, hrecords⟩ := hrecorded.inv
    rw [flatMap_encodeValue] at hsize hrem
    rw [List.length_map] at hcount
    obtain ⟨record, source, kept, hrecord, rfl, hfill⟩ :=
      (node_eq_success_iff (hi.willing _)).mp h
    obtain ⟨hsmall, hfound, hwhole, hpasses⟩ := readRecord_eq_ok_iff.mp hrecord
    obtain ⟨hrecordEntry, hrecordType, hfaithful, hproperties⟩ := hi.entry hfound
    obtain ⟨payload, hpayload, -, hread⟩ := fill_eq_success_iff.mp hfill
    -- The record that is read is the one that was written.
    have hbytes : record.header.toBytes ++ (record.data ++ source.remaining) =
        header.toBytes ++ ((entry.type.storedValues block.payload).flatMap encodeStored ++
          (kids.flatten ++ rest)) := by
      rw [← List.append_assoc, ← hpasses.remaining, hrem]
      simp only [List.append_assoc]
    obtain ⟨hheader, htail⟩ := List.append_inj hbytes (by simp)
    obtain rfl : record.header = header := by
      rw [← NodeHeader.ofBytes_toBytes record.header, hheader, NodeHeader.ofBytes_toBytes]
    obtain ⟨hdata, hrest⟩ := List.append_inj htail (hwhole.trans hsize)
    have hsame : record.entry.type = entry.type := by
      have hentryType := hi.types _ _ (hknown id block.payload entry hwrites)
      rw [Entry.typeId, ← htype, hrecordType] at hentryType
      exact Option.some.inj hentryType
    have hreadmits : entry.type.Readmits block.payload := by
      have hpairs := (fillPayload_eq_ok_iff hfaithful hproperties).mp hpayload
      have hids := hfaithful.nodup_nameHash
      rw [hproperties, hsame] at hids
      rw [hsame, hcount, hdata] at hpairs
      have hlimit := record.header.size.toNat_lt
      obtain ⟨hnested, haccepted⟩ := accepts_of_pairs
        (fun w hw => (BlockType.mem_storedValues.mp hw).1) hids (by omega) hpairs
      exact ⟨hnested, haccepted⟩
    obtain ⟨hready, -⟩ := hi.filled total levels hrecordEntry source payload
    rw [hchildren] at hread
    obtain ⟨hall, hrem'⟩ := remaining_of_children
      (P := fun child => ∀ x payload entry, s.Writes child x payload entry →
        entry.type.Readmits payload)
      (fun i => (keeps_lasting i.site).node settings total levels (.refl _))
      (answer_node settings total levels)
      (fun child hmem i i' copy ex data rest hi hex hdata hrem hchild =>
        ih hi (fun x payload entry hx => hknown x payload entry (hx.below hmem)) hex hdata hrem
          hchild)
      hbelow hrecords hready hrest hread
    refine ⟨fun x payload entry' hx => ?_, hrem'⟩
    obtain ⟨hwritten, hxheld, hxmade⟩ := hx
    cases hwritten with
    | self =>
      cases hwrites.payload.symm.trans hxheld
      cases hwrites.entry.symm.trans hxmade
      exact hreadmits
    | under hmem hbelow => exact hall _ hmem x payload entry' ⟨hbelow, hxheld, hxmade⟩

end

/-! ### A vault with a nested value -/

namespace StockType

/-- Writing a property of a vault leaves it a vault. -/
theorem keepsKind_vault : vault.blockType.KeepsKind StockType.of := by
  intro p hp payload value next hwrite
  have hput : ∀ (name : String) (read : Vault → Value)
      (write : Vault → Value → Except PropertyError Vault),
      (Property.readWrite Stock.vaultFacet name read write).write payload value = .ok next →
        StockType.of next = StockType.of payload := by
    intro name read write h
    cases payload with
    | vault v =>
      have hmap : (write v value).map Stock.vault = .ok next := h
      cases hw : write v value with
      | error e =>
        rw [hw] at hmap
        cases hmap
      | ok w =>
        rw [hw] at hmap
        cases hmap
        rfl
    | _ => cases h
  have hlist : vault.blockType.properties = Stock.vaultProperties := rfl
  rw [hlist, Stock.vaultProperties] at hp
  simp only [List.mem_cons, List.not_mem_nil, or_false] at hp
  rcases hp with rfl | rfl | rfl | rfl | rfl
  · exact hput _ _ _ hwrite
  · exact hput _ _ _ hwrite
  · exact hput _ _ _ hwrite
  · exact hput _ _ _ hwrite
  · cases hwrite

end StockType

namespace Site

/-- A value inside so many lists. -/
def nested : Nat → Value
  | 0 => .uint 7
  | levels + 1 => .list [nested levels]

/-- A value inside so many lists is nested so deep. -/
theorem nesting_nested (levels : Nat) : (nested levels).nesting = levels := by
  induction levels with
  | zero => rfl
  | succ levels ih =>
    rw [nested, Value.nesting, Value.itemsNesting, Value.itemsNesting, ih,
      max_eq_left (Nat.zero_le _)]

/-- A vault that holds a value inside so many lists. -/
def nestedVault (levels : Nat) : Vault := ⟨nested levels, -1, 1, ⟨0x3fe0000000000000⟩, 0⟩

/-- A tree whose registry knows vaults. -/
def bareVault : Site Stock :=
  { start 0 with
    catalogue := (Catalogue.empty.perform .addRegistry).perform
      (.register 0 StockType.vault.blockType) }

/-- The value was written into a new vault. -/
def deepVault (levels : Nat) : Site Stock :=
  (bareVault.perform (.create "Vault")).perform
    (.setPayload ⟨0, 0⟩ (.vault (nestedVault levels)))

/-- A vault with any value in it is reached by creating it and writing its property. -/
theorem reached_deepVault (levels : Nat) : Reached (Tame StockType.of) (deepVault levels) := by
  have hold : (bareVault.perform (.create "Vault")).tree.payload? ⟨0, 0⟩ =
      some StockType.vault.initial := by cbv
  refine .perform (.perform (((Reached.start 0).elsewhere .addRegistry).elsewhere
    (.register 0 StockType.vault.blockType)) trivial) ?_
  intro old heq
  rw [hold] at heq
  cases heq
  rfl

/-- The vault alone is written. -/
theorem writes_deepVault {id : BlockId} {payload : Stock} {entry : Entry Stock}
    (h : (deepVault 64).Writes ⟨0, 0⟩ id payload entry) :
    payload = .vault (nestedVault 64) ∧ entry.type = StockType.vault.blockType := by
  have hheld : (deepVault 64).tree.payload? ⟨0, 0⟩ = some (.vault (nestedVault 64)) := by cbv
  have hmade : (deepVault 64).typeOf? ⟨0, 0⟩ = some StockType.vault.blockType := by cbv
  exact h.of_leaf (by cbv) hheld hmade

/-- A vault takes in again what is nested no deeper than the limit. -/
theorem readmits_nestedVault {levels : Nat} (h : levels ≤ Value.maxNesting) :
    StockType.vault.blockType.Readmits (.vault (nestedVault levels)) where
  nested w hw := by
    have hvalues : (StockType.vault.blockType.storedValues (.vault (nestedVault levels))).map
        Prod.snd = [nested levels, .long (-1), .ulong 1, .double ⟨0x3fe0000000000000⟩] := rfl
    have hmem := List.mem_map_of_mem (f := Prod.snd) hw
    rw [hvalues, List.mem_cons] at hmem
    rcases hmem with heq | hscalar
    · rw [heq, nesting_nested]
      exact h
    · simp only [List.mem_cons, List.not_mem_nil, or_false] at hscalar
      rcases hscalar with heq | heq | heq <;> rw [heq] <;> exact Nat.zero_le _
  accepted := by
    cases levels with
    | zero => exact ⟨_, rfl, _, rfl, _, rfl, _, rfl, trivial⟩
    | succ levels => exact ⟨_, rfl, _, rfl, _, rfl, _, rfl, trivial⟩

end Site

/-! ### Which streams are read again -/

namespace Site

variable [Payload β] {kind : β → κ} {s t : Site β}

/-- A stream that was written is read again under the same settings exactly if every type in it
readmits its values: a new payload accepts them one after the other, and none is nested deeper than
the reader follows. -/
theorem inflate_success_iff_readmits (hk : Kinds kind) (hs : Reached (Tame kind) s)
    (hslots : s.tree.slots.size < 2 ^ 32) (ht : Reached Any t) (settings : Settings)
    {root : BlockId} {limit : Option Nat} {watcher watcher' : Monitor} {sink : Sink}
    (hdeflate : deflate settings s.catalogue s.tree root (Sink.empty limit) watcher =
      (.ok .success, sink, watcher'))
    (halike : ∀ id payload entry, s.Writes root id payload entry →
      kind payload = kind entry.type.initial)
    (hkeeps : ∀ id payload entry, s.Writes root id payload entry → entry.type.KeepsKind kind)
    (hknown : ∀ id payload entry, s.Writes root id payload entry →
      ∃ ref entry', t.catalogue.findName t.tree.registry entry.name = some (ref, entry') ∧
        entry'.type = entry.type ∧ ¬ entry.type.defaultFlags.contains Flags.beingDeleted)
    {source : Source} {rest : Bytes} (hsource : source.remaining = sink.bytes ++ rest) :
    (∃ copy, (inflate settings t source Monitor.always).1 = .ok (.success copy)) ↔
      ∀ id payload entry, s.Writes root id payload entry → entry.type.Readmits payload := by
  obtain ⟨ex, data, hex, ⟨hfits, hrecorded⟩, rfl⟩ := put_of_deflate hs.guarded hslots hdeflate
  rw [bytes_put_empty] at hsource
  have htyped : ∀ id payload entry, s.Writes root id payload entry →
      Deflate.Typed kind t.unmarkedType? payload entry := by
    intro id payload entry hw
    obtain ⟨ref, entry', hfound, htype, hu⟩ := hknown id payload entry hw
    exact ⟨halike id payload entry hw, hkeeps id payload entry hw,
      unmarkedType?_of_findName ht.consistent hfound htype hu⟩
  have hready : Inflate.Ready t.unmarkedType? ⟨t, source, Monitor.always⟩ :=
    ⟨ht.orderly, ht.consistent, fun _ _ htype => (Option.filter_eq_some_iff.mp htype).1,
      fun _ => rfl⟩
  rw [(Inflate.inflate_eq_node settings t source Monitor.always).1]
  constructor
  · rintro ⟨copy, hcopy⟩
    exact (readmits_node source.length settings.maxDepth hready (fun id payload entry hw =>
      (htyped id payload entry hw).known) hex hrecorded hsource (Prod.ext hcopy rfl)).1
  · intro hreadmits
    obtain ⟨plan, hplan, -⟩ := wellFormed_of_recorded hk (hs.typed hk) hfits
      (Nat.zero_add settings.maxDepth) hex hrecorded htyped hreadmits
    obtain ⟨copy, hfound⟩ := (Inflate.parses_node t.unmarked_unmarkedType? settings source.length
      settings.maxDepth (Nat.zero_add settings.maxDepth)).complete _ plan data rest hready hplan
        hsource
    exact ⟨copy, hfound.success⟩

/-- A value inside 64 lists is read again. -/
theorem inflate_success_iff_readmits_vault :
    let write := deflate Settings.defaults (deepVault 64).catalogue (deepVault 64).tree ⟨0, 0⟩
      (Sink.empty none) Monitor.always
    write.1 = .ok .success ∧
      ∃ copy, (inflate Settings.defaults (deepVault 64) (Source.ofBytes write.2.1.bytes 0)
        Monitor.always).1 = .ok (.success copy) := by
  intro write
  have hdeflate : write.1 = .ok .success := by decide +kernel
  refine ⟨hdeflate, (inflate_success_iff_readmits StockType.kinds (reached_deepVault 64)
    (by decide +kernel) ((reached_deepVault 64).mono fun _ _ _ => trivial) Settings.defaults
    (Prod.ext hdeflate rfl) ?_ ?_ ?_ (List.append_nil _).symm).mpr ?_⟩
  · intro id payload entry hw
    obtain ⟨rfl, htype⟩ := writes_deepVault hw
    rw [htype]
    rfl
  · intro id payload entry hw
    rw [(writes_deepVault hw).2]
    exact StockType.keepsKind_vault
  · intro id payload entry hw
    obtain ⟨-, htype⟩ := writes_deepVault hw
    have hfound : ((deepVault 64).catalogue.findName (deepVault 64).tree.registry
        StockType.vault.blockType.name).map (fun found => found.2.type) =
          some StockType.vault.blockType := by cbv
    obtain ⟨⟨ref, entry'⟩, hfind, hsame⟩ := Option.map_eq_some_iff.mp hfound
    rw [Entry.name, htype]
    exact ⟨ref, entry', hfind, hsame, by decide⟩
  · intro id payload entry hw
    obtain ⟨rfl, htype⟩ := writes_deepVault hw
    rw [htype]
    exact readmits_nestedVault le_rfl

/-- A value inside 65 lists is accepted by a new vault and written, and its stream is refused. -/
theorem not_inflate_of_nested :
    let write := deflate Settings.defaults (deepVault 65).catalogue (deepVault 65).tree ⟨0, 0⟩
      (Sink.empty none) Monitor.always
    Stock.vaultPayload.write StockType.vault.initial (nested 65) =
        .ok (.vault (nestedVault 65)) ∧
      Reached (Tame StockType.of) (deepVault 65) ∧
      (deepVault 65).tree.payload? ⟨0, 0⟩ = some (.vault (nestedVault 65)) ∧
      write.1 = .ok .success ∧
      (inflate Settings.defaults (deepVault 65) (Source.ofBytes write.2.1.bytes 0)
        Monitor.always).1 = .error (.corrupt (.value .tooDeep)) := by
  refine ⟨rfl, reached_deepVault 65, ?_, ?_, ?_⟩
  · cbv
  · decide +kernel
  · decide +kernel

end Site

end BlockForest
