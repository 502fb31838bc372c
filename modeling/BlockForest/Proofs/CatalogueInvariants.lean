import Mathlib
import BlockForest.Proofs.OperationInvariants

/-!
# What holds of a catalogue

A table of properties is built from the properties of a type one by one, and the construction
stops at the first two that share an identifier. So in a finished table slots and identifiers
are inverse to each other. A `Consistent` catalogue has such a table in every entry, and each
of its registries finds an entry by name exactly if it finds it by identifier. All changes of a
catalogue keep it consistent.
-/

set_option autoImplicit false

namespace BlockForest

variable {β : Type}

namespace PropertyTable

/-- The identifiers of a table are those of its properties, and each is found at its slot. -/
structure Faithful (table : PropertyTable β) : Prop where
  ids_eq : table.ids = table.properties.map fun p => nameHash p.name
  slot?_eq_some_iff : ∀ id slot, table.slot? id = some slot ↔ table.ids[slot]? = some id

/-- A table without properties is faithful. -/
theorem faithful_empty : (empty : PropertyTable β).Faithful :=
  ⟨rfl, fun id slot => by simp [empty, slot?]⟩

/-- A property that a table takes in gets the next slot, and the table stays faithful. -/
theorem Faithful.push {typeName : String} {table table' : PropertyTable β} {p : Property β}
    (h : table.Faithful) (hp : table.push typeName p = .ok table') :
    table'.Faithful ∧ table'.properties = table.properties ++ [p] := by
  unfold PropertyTable.push at hp
  simp only at hp
  split at hp
  · cases hp
  · next hfree =>
    cases hp
    have hlen : table.ids.length = table.properties.length := by
      rw [h.ids_eq, List.length_map]
    refine ⟨⟨by simp [h.ids_eq], ?_⟩, rfl⟩
    intro id slot
    show (table.slots.insert _ _).get? id = some slot ↔ _
    rw [KeyMap.get?_insert, ← hlen]
    have hold := h.slot?_eq_some_iff id slot
    unfold slot? at hold
    -- The identifier of the new property was free, so it leads to the new slot and to no other.
    by_cases hid : id = nameHash p.name
    · subst hid
      rw [if_pos rfl, List.getElem?_append]
      have hnone : table.ids[slot]? ≠ some (nameHash p.name) := by
        intro heq
        rw [← hold, hfree] at heq
        cases heq
      split
      · next hlt =>
        constructor
        · intro heq
          cases heq
          omega
        · exact fun heq => absurd heq hnone
      · next hge =>
        rw [List.getElem?_singleton]
        constructor
        · intro heq
          cases heq
          simp
        · intro heq
          have : slot - table.ids.length = 0 := by
            by_contra hne
            simp [hne] at heq
          rw [Option.some.injEq]
          omega
    · rw [if_neg hid, hold, List.getElem?_append]
      split
      · rfl
      · next hge =>
        rw [List.getElem?_singleton, List.getElem?_eq_none (by omega)]
        have hne : ¬ nameHash p.name = id := fun heq => hid heq.symm
        split <;> simp [hne]

/-- By induction on the list, a table that takes in properties one by one stays faithful and has
them in this order. -/
theorem Faithful.extend {typeName : String} {properties : List (Property β)}
    {table table' : PropertyTable β} (h : table.Faithful)
    (ht : extend typeName table properties = .ok table') :
    table'.Faithful ∧ table'.properties = table.properties ++ properties := by
  induction properties generalizing table with
  | nil =>
    cases ht
    exact ⟨h, (List.append_nil _).symm⟩
  | cons p rest ih =>
    unfold PropertyTable.extend at ht
    split at ht
    · next pushed hp =>
      obtain ⟨hpushed, hlist⟩ := h.push hp
      obtain ⟨hfaithful, hall⟩ := ih hpushed ht
      exact ⟨hfaithful, by rw [hall, hlist, List.append_assoc, List.singleton_append]⟩
    · cases ht

/-- A table that could be built holds the properties in their order. -/
theorem faithful_of_build {typeName : String} {properties : List (Property β)}
    {table : PropertyTable β} (h : build typeName properties = .ok table) :
    table.Faithful ∧ table.properties = properties := faithful_empty.extend h

variable {table : PropertyTable β}

/-- An identifier leads to the property that has it. -/
theorem Faithful.property?_of_slot? (h : table.Faithful) {id : UInt32} {slot : Nat}
    (hs : table.slot? id = some slot) :
    ∃ p, table.property? slot = some p ∧ nameHash p.name = id := by
  rw [h.slot?_eq_some_iff, h.ids_eq, List.getElem?_map] at hs
  exact Option.map_eq_some_iff.mp hs

/-- The hash of the name of a property leads back to its slot. -/
theorem Faithful.slot?_of_property? (h : table.Faithful) {slot : Nat} {p : Property β}
    (hp : table.property? slot = some p) : table.slot? (nameHash p.name) = some slot := by
  rw [h.slot?_eq_some_iff, h.ids_eq, List.getElem?_map]
  unfold property? at hp
  rw [hp]
  rfl

/-- The identifiers of a faithful table are distinct, each being that of its own slot. -/
theorem Faithful.nodup_ids (h : table.Faithful) : table.ids.Nodup := by
  rw [List.nodup_iff_getElem?_ne_getElem?]
  intro i j hij hj heq
  have hi : table.ids[i]? = some table.ids[i] := List.getElem?_eq_getElem (by omega)
  have hslot := (h.slot?_eq_some_iff _ _).mpr hi
  rw [heq, ← h.slot?_eq_some_iff, hslot] at hi
  cases hi
  omega

/-- The properties of a table have identifiers of their own. -/
theorem Faithful.nodup_nameHash (h : table.Faithful) :
    (table.properties.map fun p => nameHash p.name).Nodup := h.ids_eq ▸ h.nodup_ids

/-- Properties of a faithful table have distinct names, since their hashes are distinct. -/
theorem Faithful.nodup_names (h : table.Faithful) :
    (table.properties.map Property.name).Nodup := by
  refine List.Nodup.of_map nameHash ?_
  rw [List.map_map]
  exact h.nodup_nameHash

end PropertyTable

namespace Catalogue

variable {c c' : Catalogue β}

/-- Every table belongs to its type, and the two maps of every registry are in step. -/
structure Consistent (c : Catalogue β) : Prop where
  table : ∀ ref entry, c.entryAt? ref = some entry →
    PropertyTable.build entry.type.name entry.type.properties = .ok entry.table
  named : ∀ r name ref, c.lookupName r name = some ref →
    ∃ entry, c.entryAt? ref = some entry ∧ entry.name = name ∧
      c.lookupId r entry.typeId = some ref
  identified : ∀ r id ref, c.lookupId r id = some ref →
    ∃ entry, c.entryAt? ref = some entry ∧ entry.typeId = id ∧
      c.lookupName r entry.name = some ref

/-- A catalogue without registries is consistent. -/
theorem consistent_empty : (empty : Catalogue β).Consistent := by
  refine ⟨?_, ?_, ?_⟩ <;> simp [entryAt?, empty, lookupName, lookupId, registryAt?]

/-- A catalogue stays consistent when entries that are there keep their type and table and
nothing is registered. -/
theorem Consistent.of_entries (h : c.Consistent) (hr : c'.registries = c.registries)
    (hold : ∀ ref entry, c.entryAt? ref = some entry →
      ∃ entry', c'.entryAt? ref = some entry' ∧ entry'.type = entry.type)
    (hnew : ∀ ref entry, c'.entryAt? ref = some entry →
      PropertyTable.build entry.type.name entry.type.properties = .ok entry.table) :
    c'.Consistent where
  table := hnew
  named r name ref hn := by
    unfold lookupName lookupId registryAt? at *
    rw [hr] at hn ⊢
    obtain ⟨entry, he, hname, hid⟩ := h.named r name ref hn
    obtain ⟨entry', he', ht⟩ := hold ref entry he
    refine ⟨entry', he', ?_, ?_⟩
    · rw [← hname, Entry.name, Entry.name, ht]
    · rw [Entry.typeId, Entry.name, ht]
      exact hid
  identified r id ref hi := by
    unfold lookupName lookupId registryAt? at *
    rw [hr] at hi ⊢
    obtain ⟨entry, he, hid, hname⟩ := h.identified r id ref hi
    obtain ⟨entry', he', ht⟩ := hold ref entry he
    refine ⟨entry', he', ?_, ?_⟩
    · rw [← hid, Entry.typeId, Entry.typeId, Entry.name, Entry.name, ht]
    · rw [Entry.name, ht]
      exact hname

/-- A change of one entry that keeps its type and table. -/
theorem Consistent.modifyEntry (h : c.Consistent) (ref : EntryRef) {f : Entry β → Entry β}
    (hf : ∀ e, (f e).type = e.type ∧ (f e).table = e.table) :
    (c.modifyEntry ref f).Consistent := by
  apply h.of_entries (registries_modifyEntry c ref f)
  · intro other entry he
    rw [entryAt?_modifyEntry, he]
    refine ⟨_, rfl, ?_⟩
    split
    · exact (hf entry).1
    · rfl
  · intro other entry he
    rw [entryAt?_modifyEntry] at he
    obtain ⟨entry₀, he₀, rfl⟩ := Option.map_eq_some_iff.mp he
    have htable := h.table other entry₀ he₀
    split
    · rw [(hf entry₀).1, (hf entry₀).2]
      exact htable
    · exact htable

/-- Counting blocks changes no entry's type and no map, so a catalogue stays consistent. -/
theorem Consistent.recounted (h : c.Consistent) (hr : Recounted c c') : c'.Consistent := by
  have hsame : ∀ {e e' : Entry β},
      ({ e with instances := 0 } : Entry β) = { e' with instances := 0 } →
        e.type = e'.type ∧ e.table = e'.table := by
    intro e e' heq
    simp only [Entry.mk.injEq] at heq
    exact ⟨heq.1, heq.2.1⟩
  apply h.of_entries hr.registries
  · intro ref entry he
    have hzero := hr.entries ref
    rw [he, Option.map_some] at hzero
    obtain ⟨entry', he', heq⟩ := Option.map_eq_some_iff.mp hzero
    exact ⟨entry', he', (hsame heq).1⟩
  · intro ref entry he
    have hzero := hr.entries ref
    rw [he, Option.map_some] at hzero
    obtain ⟨entry₀, he₀, heq⟩ := Option.map_eq_some_iff.mp hzero.symm
    obtain ⟨ht, htable⟩ := hsame heq
    rw [← ht, ← htable]
    exact h.table ref entry₀ he₀

/-- A new entry stands behind all others, and these stay where they are. -/
theorem entryAt?_pushEntry (c : Catalogue β) (entry : Entry β) (ref : EntryRef) :
    (c.pushEntry entry).2.entryAt? ref =
      if ref = c.entries.size then some entry else c.entryAt? ref := by
  unfold pushEntry entryAt?
  simp only [Array.getElem?_push]

/-- A reading that finds the same in a new entry as where there is none does not change with it. -/
theorem elim_pushEntry {α : Type} {blank : α} {read : Entry β → α} {entry : Entry β}
    (h : read entry = blank) (c : Catalogue β) (ref : EntryRef) :
    ((c.pushEntry entry).2.entryAt? ref).elim blank read = (c.entryAt? ref).elim blank read := by
  rw [entryAt?_pushEntry]
  split
  · next heq =>
    rw [Option.elim_some, h, heq, entryAt?, Array.getElem?_eq_none le_rfl]
    rfl
  · rfl

/-- Whatever is read off an entry and blank in a new one is the same after an entry was added, also
where there was none. -/
theorem elim_addEntry {α : Type} {blank : α} {read : Entry β → α}
    (h : ∀ type entry, Entry.of type = .ok entry → read entry = blank) (c : Catalogue β)
    (type : BlockType β) (ref : EntryRef) :
    ((c.addEntry type).2.entryAt? ref).elim blank read = (c.entryAt? ref).elim blank read := by
  unfold addEntry
  split
  · next hof => exact elim_pushEntry (h _ _ hof) c ref
  · rfl

/-- Whatever is read off an entry and blank in a new one is the same after a registration, whether
it succeeds or not. -/
theorem elim_register {α : Type} {blank : α} {read : Entry β → α}
    (h : ∀ type entry, Entry.of type = .ok entry → read entry = blank) (c : Catalogue β)
    (r : RegistryRef) (type : BlockType β) (ref : EntryRef) :
    ((c.register r type).2.entryAt? ref).elim blank read = (c.entryAt? ref).elim blank read := by
  unfold register
  split
  · rfl
  · next hof =>
    split
    · rfl
    · split
      · rfl
      · exact elim_pushEntry (h _ _ hof) c ref

/-- References lead to entries that are there, so the next one is free. -/
theorem entryAt?_lt {ref : EntryRef} {entry : Entry β} (h : c.entryAt? ref = some entry) :
    ref < c.entries.size := (Array.getElem?_eq_some_iff.mp h).1

/-- A new entry whose table was built from the properties of its type keeps the catalogue
consistent. -/
theorem Consistent.pushEntry (h : c.Consistent) {entry : Entry β}
    (ht : PropertyTable.build entry.type.name entry.type.properties = .ok entry.table) :
    (c.pushEntry entry).2.Consistent := by
  have hregistries : (c.pushEntry entry).2.registries = c.registries := rfl
  apply h.of_entries hregistries
  · intro ref other he
    refine ⟨other, ?_, rfl⟩
    have hlt := entryAt?_lt he
    rw [entryAt?_pushEntry, if_neg (Nat.ne_of_lt hlt), he]
  · intro ref other he
    rw [entryAt?_pushEntry] at he
    split_ifs at he with href
    · cases he
      exact ht
    · exact h.table ref other he

/-- An entry that could be made of a type has this type, and a table that was built from its
properties. -/
theorem table_of {type : BlockType β} {entry : Entry β} (h : Entry.of type = .ok entry) :
    entry.type = type ∧
      PropertyTable.build entry.type.name entry.type.properties = .ok entry.table := by
  unfold Entry.of at h
  split at h
  · next ht =>
    cases h
    exact ⟨rfl, ht⟩
  · cases h

/-- A new entry counts no block and has no extension. -/
theorem fresh_of {type : BlockType β} {entry : Entry β} (h : Entry.of type = .ok entry) :
    entry.instances = 0 ∧ entry.extensions = [] := by
  unfold Entry.of at h
  split at h
  · cases h
    exact ⟨rfl, rfl⟩
  · cases h

/-- To add an entry outside of all registries keeps the catalogue consistent. -/
theorem Consistent.addEntry (h : c.Consistent) (type : BlockType β) :
    (c.addEntry type).2.Consistent := by
  unfold Catalogue.addEntry
  split
  · next ht => exact h.pushEntry (table_of ht).2
  · exact h

/-- A new registry is empty, and the others stay as they are. -/
theorem registryAt?_addRegistry (c : Catalogue β) (r : RegistryRef) :
    c.addRegistry.2.registryAt? r =
      if r = c.registries.size then some Registry.empty else c.registryAt? r := by
  unfold addRegistry registryAt?
  simp only [Array.getElem?_push]

/-- An empty registry finds nothing, so a catalogue with one more registry stays consistent. -/
theorem Consistent.addRegistry (h : c.Consistent) : c.addRegistry.2.Consistent where
  table := h.table
  named r name ref hn := by
    unfold lookupName lookupId at *
    rw [registryAt?_addRegistry] at hn ⊢
    split_ifs at hn ⊢
    · cases hn
    · exact h.named r name ref hn
  identified r id ref hi := by
    unfold lookupName lookupId at *
    rw [registryAt?_addRegistry] at hi ⊢
    split_ifs at hi ⊢
    · cases hi
    · exact h.identified r id ref hi

/-- A registry that is replaced is another one only under its own reference. -/
theorem registryAt?_setRegistry (c : Catalogue β) (r other : RegistryRef)
    (registry : Registry) :
    (c.setRegistry r registry).registryAt? other =
      if other = r then (c.registryAt? r).map fun _ => registry else c.registryAt? other := by
  unfold setRegistry registryAt?
  by_cases ho : other = r
  · subst ho
    by_cases hlt : other < c.registries.size
    · simp [hlt]
    · simp [hlt]
  · have hne : r ≠ other := fun h => ho h.symm
    simp [ho, Array.getElem?_setIfInBounds_ne hne]

/-- What is found by a name after a registry was replaced: what the new one finds, if it is
asked. -/
theorem lookupName_setRegistry (c : Catalogue β) (r other : RegistryRef) (registry : Registry)
    (name : String) :
    (c.setRegistry r registry).lookupName other name =
      if other = r then (c.registryAt? r).bind fun _ => registry.byName.get? name
      else c.lookupName other name := by
  unfold lookupName
  rw [registryAt?_setRegistry]
  split_ifs
  · cases c.registryAt? r <;> rfl
  · rfl

/-- What is found by an identifier after a registry was replaced: what the new one finds, if it is
asked. -/
theorem lookupId_setRegistry (c : Catalogue β) (r other : RegistryRef) (registry : Registry)
    (id : UInt32) :
    (c.setRegistry r registry).lookupId other id =
      if other = r then (c.registryAt? r).bind fun _ => registry.byId.get? id
      else c.lookupId other id := by
  unfold lookupId
  rw [registryAt?_setRegistry]
  split_ifs
  · cases c.registryAt? r <;> rfl
  · rfl

/-- Another registry in the place of one keeps the catalogue consistent if its own two maps are
in step. -/
theorem Consistent.setRegistry (h : c.Consistent) (r : RegistryRef) {registry : Registry}
    (hnamed : ∀ name ref, registry.byName.get? name = some ref →
      ∃ entry, c.entryAt? ref = some entry ∧ entry.name = name ∧
        registry.byId.get? entry.typeId = some ref)
    (hidentified : ∀ id ref, registry.byId.get? id = some ref →
      ∃ entry, c.entryAt? ref = some entry ∧ entry.typeId = id ∧
        registry.byName.get? entry.name = some ref) : (c.setRegistry r registry).Consistent where
  table := h.table
  named other name ref hn := by
    rw [lookupName_setRegistry] at hn
    simp only [lookupId_setRegistry]
    split_ifs at hn ⊢
    · obtain ⟨old, hold, hn⟩ := Option.bind_eq_some_iff.mp hn
      rw [hold]
      exact hnamed name ref hn
    · exact h.named other name ref hn
  identified other id ref hi := by
    rw [lookupId_setRegistry] at hi
    simp only [lookupName_setRegistry]
    split_ifs at hi ⊢
    · obtain ⟨old, hold, hi⟩ := Option.bind_eq_some_iff.mp hi
      rw [hold]
      exact hidentified id ref hi
    · exact h.identified other id ref hi

/-- What a registry holds is what is looked up in it. -/
theorem lookup_getD (c : Catalogue β) (r : RegistryRef) :
    (∀ name, ((c.registryAt? r).getD Registry.empty).byName.get? name = c.lookupName r name) ∧
      ∀ id, ((c.registryAt? r).getD Registry.empty).byId.get? id = c.lookupId r id := by
  unfold lookupName lookupId
  cases c.registryAt? r with
  | none => exact ⟨fun _ => rfl, fun _ => rfl⟩
  | some registry => exact ⟨fun _ => rfl, fun _ => rfl⟩

/-- Registration keeps the two maps in step: neither the name nor the identifier was taken. -/
theorem Consistent.register (h : c.Consistent) (r : RegistryRef) (type : BlockType β) :
    (c.register r type).2.Consistent := by
  unfold Catalogue.register
  split
  · exact h
  · next entry ht =>
    split
    · exact h
    · next hname =>
      split
      · exact h
      · next hid =>
        obtain ⟨hbyName, hbyId⟩ := lookup_getD c r
        have hnew : (c.pushEntry entry).2.entryAt? (c.pushEntry entry).1 = some entry := by
          rw [entryAt?_pushEntry]
          exact if_pos rfl
        have hold : ∀ {ref other}, c.entryAt? ref = some other →
            (c.pushEntry entry).2.entryAt? ref = some other := by
          intro ref other he
          have hlt := entryAt?_lt he
          rw [entryAt?_pushEntry, if_neg (Nat.ne_of_lt hlt), he]
        have hfree : c.lookupName r entry.name = none := by simpa using hname
        apply (h.pushEntry (table_of ht).2).setRegistry r
        · intro name ref hn
          simp only [link, KeyMap.get?_insert, hbyName, hbyId] at hn ⊢
          split_ifs at hn with heq
          · cases hn
            exact ⟨entry, hnew, heq.symm, if_pos rfl⟩
          · obtain ⟨other, he, hother, hlookup⟩ := h.named r name ref hn
            refine ⟨other, hold he, hother, ?_⟩
            rw [if_neg, hlookup]
            intro hsame
            rw [hsame, hid] at hlookup
            cases hlookup
        · intro id ref hi
          simp only [link, KeyMap.get?_insert, hbyName, hbyId] at hi ⊢
          split_ifs at hi with heq
          · cases hi
            exact ⟨entry, hnew, heq.symm, if_pos rfl⟩
          · obtain ⟨other, he, hother, hlookup⟩ := h.identified r id ref hi
            refine ⟨other, hold he, hother, ?_⟩
            rw [if_neg, hlookup]
            intro hsame
            rw [hsame, hfree] at hlookup
            cases hlookup

/-- What leaves a registry leaves both maps: no other entry has the name or the identifier. -/
theorem Consistent.unregister (h : c.Consistent) (r : RegistryRef) (name : String) :
    (c.unregister r name).2.Consistent := by
  unfold Catalogue.unregister
  split
  · exact h
  · next gone entry hfound =>
    split
    · exact h
    · obtain ⟨hbyName, hbyId⟩ := lookup_getD c r
      obtain ⟨hlookup, hentry⟩ : c.lookupName r name = some gone ∧
          c.entryAt? gone = some entry := by
        obtain ⟨ref, hlookup, hentry⟩ := Option.bind_eq_some_iff.mp hfound
        obtain ⟨e, he, heq⟩ := Option.map_eq_some_iff.mp hentry
        cases heq
        exact ⟨hlookup, he⟩
      obtain ⟨entry', hentry', hname, hid⟩ := h.named r name gone hlookup
      rw [hentry] at hentry'
      cases hentry'
      have hkept : ∀ {ref other}, c.entryAt? ref = some other →
          ∃ other', (c.modifyEntry gone Entry.clearExtensions).entryAt? ref = some other' ∧
            other'.type = other.type := by
        intro ref other he
        rw [entryAt?_modifyEntry, he]
        refine ⟨_, rfl, ?_⟩
        split <;> rfl
      -- The entry stays where it is and only loses its extensions. Nobody finds it by name any more.
      have hcleared : (c.modifyEntry gone Entry.clearExtensions).Consistent :=
        h.modifyEntry gone fun _ => ⟨rfl, rfl⟩
      apply hcleared.setRegistry r
      · intro other ref hn
        simp only [unlink, KeyMap.get?_erase, hbyName, hbyId] at hn ⊢
        split_ifs at hn with heq
        obtain ⟨e, he, hother, hlook⟩ := h.named r other ref hn
        obtain ⟨e', he', ht⟩ := hkept he
        refine ⟨e', he', by rw [← hother, Entry.name, Entry.name, ht], ?_⟩
        have htype : e'.typeId = e.typeId := by
          rw [Entry.typeId, Entry.typeId, Entry.name, Entry.name, ht]
        -- Another name keeps its identifier, since the two maps are inverse to one another.
        rw [htype, if_neg, hlook]
        intro hsame
        rw [hsame, hid] at hlook
        cases hlook
        rw [hentry] at he
        cases he
        exact heq (hother.symm.trans hname)
      · intro id ref hi
        simp only [unlink, KeyMap.get?_erase, hbyName, hbyId] at hi ⊢
        split_ifs at hi with heq
        obtain ⟨e, he, hother, hlook⟩ := h.identified r id ref hi
        obtain ⟨e', he', ht⟩ := hkept he
        have htype : e'.name = e.name := by rw [Entry.name, Entry.name, ht]
        refine ⟨e', he', by rw [← hother, Entry.typeId, Entry.typeId, htype], ?_⟩
        rw [htype, if_neg, hlook]
        intro hsame
        rw [hsame, hlookup] at hlook
        cases hlook
        rw [hentry] at he
        cases he
        exact heq hother.symm

/-- An entry that is found by name is found by the identifier of the name, too. -/
theorem Consistent.findId_of_findName (h : c.Consistent) {r : RegistryRef} {name : String}
    {ref : EntryRef} {entry : Entry β} (hf : c.findName r name = some (ref, entry)) :
    c.findId r (nameHash name) = some (ref, entry) := by
  obtain ⟨ref', hlookup, hentry⟩ := Option.bind_eq_some_iff.mp hf
  obtain ⟨entry', he, heq⟩ := Option.map_eq_some_iff.mp hentry
  cases heq
  obtain ⟨entry', he', hname, hid⟩ := h.named r name ref hlookup
  rw [he] at he'
  cases he'
  rw [Entry.typeId, hname] at hid
  unfold findId
  rw [hid, Option.bind_some, he]
  rfl

end Catalogue

end BlockForest
