import Mathlib
import BlockForest.Proofs.ReachedSites
import BlockForest.Stock.Types

/-!
# Registering types

The two maps of a registry are one catalogue. `Consistent` says that what is found by one of them
is found by the other; since an entry has one name, and the identifier is the hash of the name, no
two entries of a registry share either of them, and the names of one map are matched with the
identifiers of the other (`perm_keys`). So both are of the same size.

A type is looked at in three steps, and each has its own refusal: its own properties come first
(`Entry.of_eq_ok_iff`), then its name, then the hash of its name. `register_cases` puts together
what comes of them. A refusal changes nothing at all, and neither does a refused attempt to take a
type out; where one was taken out, no name with its hash is left that could be in the way.
-/

set_option autoImplicit false

namespace BlockForest

variable {β : Type}

/-! ### Properties of one type -/

namespace PropertyTable

/-- The identifiers of properties. -/
def identifiers (properties : List (Property β)) : List UInt32 :=
  properties.map fun p => nameHash p.name

/-- The first property in a list whose identifier is taken, and the one that has taken it. -/
def FirstCollision (properties : List (Property β)) (earlier later : Property β) : Prop :=
  ∃ before after, properties = before ++ later :: after ∧ earlier ∈ before ∧
    nameHash earlier.name = nameHash later.name ∧ (identifiers before).Nodup

/-- Where two properties collide the identifiers are not distinct. -/
theorem FirstCollision.not_nodup {properties : List (Property β)} {earlier later : Property β}
    (h : FirstCollision properties earlier later) : ¬ (identifiers properties).Nodup := by
  obtain ⟨before, after, rfl, hmem, heq, -⟩ := h
  intro hnd
  rw [identifiers, List.map_append, List.map_cons, List.nodup_append] at hnd
  exact hnd.2.2 _ (List.mem_map_of_mem hmem) _ List.mem_cons_self heq

/-- A faithful table has no collision. -/
theorem Faithful.nodup_identifiers {table : PropertyTable β} (h : table.Faithful) :
    (identifiers table.properties).Nodup := h.nodup_nameHash

/-- A property is refused for one that is in the table already. -/
theorem Faithful.push_error {typeName : String} {table : PropertyTable β} {p : Property β}
    {e : RegistryError} (h : table.Faithful) (hp : table.push typeName p = .error e) :
    ∃ q ∈ table.properties, nameHash q.name = nameHash p.name ∧
      e = .propertyIdCollision typeName p.name q.name (nameHash p.name) := by
  unfold PropertyTable.push at hp
  simp only at hp
  split at hp
  · next slot hslot =>
    obtain ⟨q, hq, hhash⟩ := h.property?_of_slot? hslot
    unfold property? at hq
    cases hp
    exact ⟨q, List.mem_of_getElem? hq, hhash, by rw [hq, Option.elim_some]⟩
  · cases hp

/-- A table refuses properties for the first collision and names both of them. -/
theorem Faithful.extend_error {typeName : String} {rest : List (Property β)}
    {table : PropertyTable β} {e : RegistryError} (h : table.Faithful)
    (ht : PropertyTable.extend typeName table rest = .error e) :
    ∃ earlier later, FirstCollision (table.properties ++ rest) earlier later ∧
      e = .propertyIdCollision typeName later.name earlier.name (nameHash later.name) := by
  induction rest generalizing table with
  | nil => cases ht
  | cons p rest ih =>
    unfold PropertyTable.extend at ht
    split at ht
    · next pushed hp =>
      obtain ⟨hpushed, hlist⟩ := h.push hp
      have hfirst := ih hpushed ht
      rwa [hlist, List.append_assoc, List.singleton_append] at hfirst
    · next hp =>
      cases ht
      obtain ⟨q, hq, hhash, he⟩ := h.push_error hp
      exact ⟨q, p, ⟨table.properties, rest, rfl, hq, hhash, h.nodup_identifiers⟩, he⟩

end PropertyTable

namespace Entry

open PropertyTable

variable {type : BlockType β}

/-- There is an entry for a type unless two of its properties share an identifier. -/
theorem of_eq_ok_iff : (∃ entry, Entry.of type = .ok entry) ↔
    (identifiers type.properties).Nodup := by
  unfold Entry.of
  cases hbuild : build type.name type.properties with
  | ok table =>
    obtain ⟨hfaithful, hlist⟩ := faithful_of_build hbuild
    exact ⟨fun _ => hlist ▸ hfaithful.nodup_identifiers, fun _ => ⟨_, rfl⟩⟩
  | error e =>
    obtain ⟨earlier, later, hfirst, -⟩ := faithful_empty.extend_error hbuild
    exact ⟨fun ⟨_, hok⟩ => (nomatch hok), fun hnd => absurd hnd hfirst.not_nodup⟩

/-- A type is refused for the first two of its properties that share an identifier. -/
theorem of_eq_error {e : RegistryError} (h : Entry.of type = .error e) :
    ∃ earlier later, FirstCollision type.properties earlier later ∧
      e = .propertyIdCollision type.name later.name earlier.name (nameHash later.name) := by
  unfold Entry.of at h
  split at h
  · cases h
  · next hbuild =>
    cases h
    exact faithful_empty.extend_error hbuild

/-- An entry has the name of its type. -/
theorem name_of {entry : Entry β} (h : Entry.of type = .ok entry) : entry.name = type.name := by
  rw [Entry.name, (Catalogue.table_of h).1]

end Entry

namespace Catalogue

variable {c : Catalogue β} {r : RegistryRef} {registry : Registry}

/-! ### One catalogue in two maps -/

/-- The maps of every registry list each key once. -/
def Keyed (c : Catalogue β) : Prop :=
  ∀ r registry, c.registryAt? r = some registry →
    registry.byName.keys.Nodup ∧ registry.byId.keys.Nodup

/-- Whether keys are listed once depends on the registries alone. -/
theorem Keyed.of_registries {c' : Catalogue β} (h : c.Keyed)
    (hr : c'.registries = c.registries) : c'.Keyed := by
  intro r registry hreg
  rw [registryAt?, hr] at hreg
  exact h r registry hreg

/-- A registry may be replaced by one that lists its keys once. -/
theorem Keyed.setRegistry (h : c.Keyed) (r : RegistryRef)
    (hnew : registry.byName.keys.Nodup ∧ registry.byId.keys.Nodup) :
    (c.setRegistry r registry).Keyed := by
  intro other registry' hreg
  rw [registryAt?_setRegistry] at hreg
  split_ifs at hreg
  · obtain ⟨_, -, rfl⟩ := Option.map_eq_some_iff.mp hreg
    exact hnew
  · exact h other registry' hreg

/-- A registry of the catalogue lists its keys once, and so does the empty one that stands for a
missing registry. -/
theorem Keyed.getD (h : c.Keyed) (r : RegistryRef) :
    ((c.registryAt? r).getD Registry.empty).byName.keys.Nodup ∧
      ((c.registryAt? r).getD Registry.empty).byId.keys.Nodup := by
  cases hr : c.registryAt? r with
  | none => exact ⟨List.nodup_nil, List.nodup_nil⟩
  | some registry => exact h r registry hr

/-- Every change of a catalogue keeps the keys of its maps distinct. -/
theorem Keyed.perform (h : c.Keyed) (op : Op β) : (c.perform op).Keyed := by
  cases op with
  | addRegistry =>
    intro r registry hreg
    rw [Catalogue.perform, registryAt?_addRegistry] at hreg
    split_ifs at hreg
    · cases hreg
      exact ⟨List.nodup_nil, List.nodup_nil⟩
    · exact h r registry hreg
  | addEntry type =>
    show (c.addEntry type).2.Keyed
    unfold addEntry
    split
    · exact h.of_registries rfl
    · exact h
  | register r type =>
    show (c.register r type).2.Keyed
    unfold register
    split
    · exact h
    · next entry _ =>
      split
      · exact h
      · split
        · exact h
        · obtain ⟨hnames, hids⟩ := h.getD r
          have hpushed : (c.pushEntry entry).2.Keyed := h.of_registries rfl
          exact hpushed.setRegistry r
            ⟨KeyMap.nodup_insert hnames _ _, KeyMap.nodup_insert hids _ _⟩
  | unregister r name =>
    show (c.unregister r name).2.Keyed
    unfold unregister
    split
    · exact h
    · split
      · exact h
      · obtain ⟨hnames, hids⟩ := h.getD r
        exact (h.of_registries (registries_modifyEntry c _ _)).setRegistry r
          ⟨KeyMap.nodup_erase hnames _, KeyMap.nodup_erase hids _⟩
  | attachExtension ref x => exact h.of_registries (registries_modifyEntry c _ _)
  | detachExtension ref x => exact h.of_registries (registries_modifyEntry c _ _)
  | countUp ref => exact h.of_registries (registries_modifyEntry c _ _)
  | release ref => exact h.of_registries (registries_modifyEntry c _ _)

/-- What is looked up in a registry is what its maps hold. -/
theorem lookup_of_registryAt? (hr : c.registryAt? r = some registry) :
    (∀ name, c.lookupName r name = registry.byName.get? name) ∧
      ∀ id, c.lookupId r id = registry.byId.get? id := by
  unfold lookupName lookupId
  rw [hr]
  exact ⟨fun _ => rfl, fun _ => rfl⟩

/-- What the names lead to is what the identifiers lead to, for an entry with both. -/
theorem Consistent.byName_iff (h : c.Consistent) (hr : c.registryAt? r = some registry)
    (name : String) (ref : EntryRef) :
    registry.byName.get? name = some ref ↔
      ∃ entry, c.entryAt? ref = some entry ∧ entry.name = name ∧
        registry.byId.get? entry.typeId = some ref := by
  obtain ⟨hnames, hids⟩ := lookup_of_registryAt? hr
  rw [← hnames]
  simp only [← hids]
  constructor
  · exact h.named r name ref
  · rintro ⟨entry, he, rfl, hid⟩
    obtain ⟨entry', he', -, hname⟩ := h.identified r _ ref hid
    rw [he] at he'
    cases he'
    exact hname

/-- The same from the side of the identifiers. -/
theorem Consistent.byId_iff (h : c.Consistent) (hr : c.registryAt? r = some registry)
    (id : UInt32) (ref : EntryRef) :
    registry.byId.get? id = some ref ↔
      ∃ entry, c.entryAt? ref = some entry ∧ entry.typeId = id ∧
        registry.byName.get? entry.name = some ref := by
  obtain ⟨hnames, hids⟩ := lookup_of_registryAt? hr
  rw [← hids]
  simp only [← hnames]
  constructor
  · exact h.identified r id ref
  · rintro ⟨entry, he, rfl, hname⟩
    obtain ⟨entry', he', -, hid⟩ := h.named r _ ref hname
    rw [he] at he'
    cases he'
    exact hid

/-- The name under which something is registered can be told from its hash. -/
theorem Consistent.name_eq_of_nameHash (h : c.Consistent) (hr : c.registryAt? r = some registry)
    {name name' : String} {ref ref' : EntryRef} (hname : registry.byName.get? name = some ref)
    (hname' : registry.byName.get? name' = some ref') (heq : nameHash name = nameHash name') :
    name = name' ∧ ref = ref' := by
  obtain ⟨entry, he, rfl, hid⟩ := (h.byName_iff hr name ref).mp hname
  obtain ⟨entry', he', rfl, hid'⟩ := (h.byName_iff hr name' ref').mp hname'
  rw [Entry.typeId, heq, ← Entry.typeId, hid'] at hid
  cases hid
  rw [he] at he'
  cases he'
  exact ⟨rfl, rfl⟩

/-- The identifiers that are in use are the hashes of the names that are. -/
theorem Consistent.perm_keys (h : c.Consistent) (hk : c.Keyed)
    (hr : c.registryAt? r = some registry) :
    registry.byId.keys.Perm (registry.byName.keys.map nameHash) := by
  have hnames : (registry.byName.keys.map nameHash).Nodup := by
    refine List.Nodup.map_on ?_ (hk r registry hr).1
    intro name hname name' hname' heq
    obtain ⟨ref, hget⟩ := KeyMap.mem_keys_iff.mp hname
    obtain ⟨ref', hget'⟩ := KeyMap.mem_keys_iff.mp hname'
    exact (h.name_eq_of_nameHash hr hget hget' heq).1
  rw [List.perm_ext_iff_of_nodup (hk r registry hr).2 hnames]
  intro id
  rw [KeyMap.mem_keys_iff, List.mem_map]
  constructor
  · rintro ⟨ref, hget⟩
    obtain ⟨entry, -, rfl, hname⟩ := (h.byId_iff hr id ref).mp hget
    exact ⟨entry.name, KeyMap.mem_keys_iff.mpr ⟨ref, hname⟩, rfl⟩
  · rintro ⟨name, hmem, rfl⟩
    obtain ⟨ref, hname⟩ := KeyMap.mem_keys_iff.mp hmem
    obtain ⟨entry, -, rfl, hid⟩ := (h.byName_iff hr name ref).mp hname
    exact ⟨ref, hid⟩

/-- The two maps of a registry find the same entries, by the names of their types and by the
hashes of these names, and each of them holds as many as are counted. -/
structure InStep (c : Catalogue β) (registry : Registry) : Prop where
  named : ∀ name ref, registry.byName.get? name = some ref ↔
    ∃ entry, c.entryAt? ref = some entry ∧ entry.name = name ∧
      registry.byId.get? entry.typeId = some ref
  identified : ∀ id ref, registry.byId.get? id = some ref ↔
    ∃ entry, c.entryAt? ref = some entry ∧ entry.typeId = id ∧
      registry.byName.get? entry.name = some ref
  distinct : ∀ ref ref' entry entry', c.entryAt? ref = some entry →
    c.entryAt? ref' = some entry' → registry.byName.get? entry.name = some ref →
    registry.byName.get? entry'.name = some ref' →
    entry.name = entry'.name ∨ entry.typeId = entry'.typeId → ref = ref'
  keys : registry.byName.keys.Nodup ∧ registry.byId.keys.Nodup
  count : registry.count = registry.byName.size ∧ registry.count = registry.byId.size

/-- The maps of a registry of a consistent catalogue are in step. -/
theorem Consistent.inStep (h : c.Consistent) (hk : c.Keyed)
    (hr : c.registryAt? r = some registry) : c.InStep registry where
  named := h.byName_iff hr
  identified := h.byId_iff hr
  distinct ref ref' entry entry' _ _ hname hname' heq := by
    have hhash : nameHash entry.name = nameHash entry'.name := by
      rcases heq with heq | heq
      · rw [heq]
      · exact heq
    exact (h.name_eq_of_nameHash hr hname hname' hhash).2
  keys := hk r registry hr
  count := by
    have hlen := (h.perm_keys hk hr).length_eq
    rw [List.length_map] at hlen
    simp only [KeyMap.keys, List.length_map] at hlen
    exact ⟨rfl, hlen.symm⟩

/-! ### What comes of a registration -/

open PropertyTable

variable {type : BlockType β}

/-- The three refusals, each where the ones before it do not apply, and the success. -/
theorem register_cases (h : c.Consistent) (hr : c.registryAt? r = some registry)
    (type : BlockType β) :
    (¬ (identifiers type.properties).Nodup ∧
        ∃ earlier later, FirstCollision type.properties earlier later ∧
          c.register r type = (.error (.propertyIdCollision type.name later.name earlier.name
            (nameHash later.name)), c)) ∨
      ((identifiers type.properties).Nodup ∧ (registry.byName.get? type.name).isSome ∧
        c.register r type = (.error (.duplicateType type.name), c)) ∨
      ((identifiers type.properties).Nodup ∧ registry.byName.get? type.name = none ∧
        ∃ ref existing, registry.byId.get? (nameHash type.name) = some ref ∧
          c.entryAt? ref = some existing ∧
          c.register r type =
            (.error (.typeIdCollision type.name existing.name (nameHash type.name)), c)) ∨
      ((identifiers type.properties).Nodup ∧ registry.byName.get? type.name = none ∧
        registry.byId.get? (nameHash type.name) = none ∧
        (c.register r type).1 = .ok c.entries.size ∧
        (c.register r type).2.lookupName r type.name = some c.entries.size ∧
        (c.register r type).2.lookupId r (nameHash type.name) = some c.entries.size) := by
  obtain ⟨hnames, hids⟩ := lookup_of_registryAt? hr
  unfold register
  cases hof : Entry.of type with
  | error e =>
    obtain ⟨earlier, later, hfirst, rfl⟩ := Entry.of_eq_error hof
    exact .inl ⟨hfirst.not_nodup, earlier, later, hfirst, rfl⟩
  | ok entry =>
    have hnd := Entry.of_eq_ok_iff.mp ⟨entry, hof⟩
    have hname := Entry.name_of hof
    simp only [Entry.typeId, hname, hnames, hids]
    by_cases htaken : (registry.byName.get? type.name).isSome
    · exact .inr (.inl ⟨hnd, htaken, if_pos htaken⟩)
    · have hfree : registry.byName.get? type.name = none := by simpa using htaken
      rw [if_neg htaken]
      cases hid : registry.byId.get? (nameHash type.name) with
      | some ref =>
        obtain ⟨existing, he, -⟩ := (h.byId_iff hr _ ref).mp hid
        exact .inr (.inr (.inl ⟨hnd, hfree, ref, existing, rfl, he, by simp only [he]; rfl⟩))
      | none =>
        have hkept : (c.pushEntry entry).2.registryAt? r = some registry := hr
        refine .inr (.inr (.inr ⟨hnd, hfree, rfl, rfl, ?_, ?_⟩))
        · simp only [lookupName_setRegistry, if_pos]
          rw [hkept, Option.bind_some, link, KeyMap.get?_insert, if_pos hname.symm]
          rfl
        · simp only [lookupId_setRegistry, if_pos]
          rw [hkept, Option.bind_some, link, KeyMap.get?_insert, Entry.typeId,
            if_pos (by rw [hname])]
          rfl

/-- When a type is registered and what it is refused for. -/
structure Examined (c : Catalogue β) (r : RegistryRef) (registry : Registry)
    (type : BlockType β) : Prop where
  property : (∃ property existing id, (c.register r type).1 =
      .error (.propertyIdCollision type.name property existing id)) ↔
    ¬ (identifiers type.properties).Nodup
  /-- The properties that are named are the first two that collide. -/
  collision : ∀ typeName property existing id, (c.register r type).1 =
      .error (.propertyIdCollision typeName property existing id) →
    typeName = type.name ∧ ∃ earlier later, FirstCollision type.properties earlier later ∧
      property = later.name ∧ existing = earlier.name ∧ id = nameHash property
  name : ∀ name, (c.register r type).1 = .error (.duplicateType name) ↔
    (identifiers type.properties).Nodup ∧ name = type.name ∧
      (registry.byName.get? name).isSome
  identifier : ∀ name existing id, (c.register r type).1 =
      .error (.typeIdCollision name existing id) ↔
    (identifiers type.properties).Nodup ∧ name = type.name ∧ id = nameHash name ∧
      registry.byName.get? name = none ∧
      ∃ ref entry, registry.byId.get? id = some ref ∧ c.entryAt? ref = some entry ∧
        entry.name = existing
  free : (∃ ref, (c.register r type).1 = .ok ref) ↔
    (identifiers type.properties).Nodup ∧ registry.byName.get? type.name = none ∧
      registry.byId.get? (nameHash type.name) = none
  found : ∀ ref, (c.register r type).1 = .ok ref →
    (c.register r type).2.lookupName r type.name = some ref ∧
      (c.register r type).2.lookupId r (nameHash type.name) = some ref
  unchanged : ∀ e, (c.register r type).1 = .error e → (c.register r type).2 = c

/-- Registering a type in a consistent catalogue is examined, with every refusal in its place. -/
theorem Consistent.examined (h : c.Consistent) (hr : c.registryAt? r = some registry)
    (type : BlockType β) : c.Examined r registry type := by
  rcases register_cases h hr type with ⟨hnd, earlier, later, hfirst, heq⟩ | ⟨hnd, htaken, heq⟩ |
    ⟨hnd, hfree, ref, existing, hid, he, heq⟩ | ⟨hnd, hfree, hid, hok, hname, hident⟩
  -- what came of it excludes what is said of the other cases
  · constructor <;> grind
  · constructor <;> grind
  · constructor <;> grind
  · constructor <;> grind

/-! ### What comes of taking a type out -/

/-- A type that cannot be unregistered leaves the catalogue as it is. -/
theorem unregister_unchanged {name : String} {e : RegistryError}
    (h : (c.unregister r name).1 = .error e) : (c.unregister r name).2 = c := by
  unfold unregister at h ⊢
  split
  · rfl
  · next ref entry hfound =>
    rw [hfound] at h
    simp only at h
    split
    · rfl
    · next hload =>
      rw [if_neg hload] at h
      cases h

/-- A type that was taken out is found neither by its name nor by the hash of it, and the registry
is the one that there was. -/
theorem unregister_ok (h : c.Consistent) (hr : c.registryAt? r = some registry) {name : String}
    (hok : (c.unregister r name).1 = .ok ()) :
    (c.unregister r name).2.registryAt? r = some (unlink registry name (nameHash name)) := by
  unfold unregister at hok ⊢
  split at hok
  · cases hok
  · next ref entry hfound =>
    split at hok
    · cases hok
    · next hload =>
      have hname : entry.name = name := by
        obtain ⟨hlook, he⟩ := entryAt?_of_findName hfound
        obtain ⟨entry', he', hname, -⟩ := h.named r name ref hlook
        rw [he] at he'
        cases he'
        exact hname
      have hkept : (c.modifyEntry ref Entry.clearExtensions).registryAt? r = some registry := by
        rw [registryAt?, registries_modifyEntry]
        exact hr
      simp only [if_neg hload, registryAt?_setRegistry, if_pos, hkept, hr, Option.getD_some,
        Entry.typeId, hname, Option.map_some]

/-! ### Runs -/

/-- What a sequence of changes makes of a catalogue without types. -/
def run (ops : List (Op β)) : Catalogue β := ops.foldl perform empty

/-- By induction on the run, every catalogue that comes about is consistent. -/
theorem consistent_run (ops : List (Op β)) : (run ops).Consistent :=
  List.foldlRecOn ops perform consistent_empty fun _ hc op _ => hc.perform op

/-- By induction on the run, its maps list each key once. -/
theorem keyed_run (ops : List (Op β)) : (run ops).Keyed :=
  List.foldlRecOn ops perform (fun _ _ hr => nomatch hr) fun _ hk op _ => hk.perform op

/-- Whatever is done to a catalogue, failing or not, the maps of each registry are in step, a type
is registered unless one of the three refusals applies, a refusal changes nothing, and a type that
was taken out leaves its name and its identifier to any other. -/
theorem maps_one_catalogue (ops : List (Op β)) {r : RegistryRef} {registry : Registry}
    (hr : (run ops).registryAt? r = some registry) :
    (run ops).InStep registry ∧
      (∀ type, (run ops).Examined r registry type) ∧
      (∀ name e, ((run ops).unregister r name).1 = .error e →
        ((run ops).unregister r name).2 = run ops) ∧
      ∀ name, ((run ops).unregister r name).1 = .ok () →
        ((run ops).unregister r name).2.lookupName r name = none ∧
          ((run ops).unregister r name).2.lookupId r (nameHash name) = none ∧
          ∀ type : BlockType β, (identifiers type.properties).Nodup →
            nameHash type.name = nameHash name →
              ∃ ref, (((run ops).unregister r name).2.register r type).1 = .ok ref := by
  have hc := consistent_run ops
  refine ⟨hc.inStep (keyed_run ops) hr, hc.examined hr, fun _ _ => unregister_unchanged, ?_⟩
  intro name hok
  have hr' := unregister_ok hc hr hok
  obtain ⟨hnames, hids⟩ := lookup_of_registryAt? hr'
  have hid : (unlink registry name (nameHash name)).byId.get? (nameHash name) = none := by
    rw [unlink, KeyMap.get?_erase, if_pos rfl]
  refine ⟨?_, (hids _).trans hid, ?_⟩
  · rw [hnames, unlink, KeyMap.get?_erase, if_pos rfl]
  · intro type hnd hhash
    have hc' := hc.unregister r name
    refine (hc'.examined hr' type).free.mpr ⟨hnd, ?_, hhash ▸ hid⟩
    -- whoever has the name would have the identifier, too
    rw [Option.eq_none_iff_forall_ne_some]
    intro ref hget
    obtain ⟨entry, -, hname, hentry⟩ := (hc'.byName_iff hr' _ ref).mp hget
    rw [Entry.typeId, hname, hhash, hid] at hentry
    cases hentry

/-- Two names that share a hash, and a type that two of its own properties forbid: the second name
is refused for the first until the first is taken out. -/
theorem maps_one_catalogue_costarring :
    let c : Catalogue Stock := run [.addRegistry, .register 0 StockType.costarring.blockType]
    (c.register 0 StockType.liquid.blockType).1 =
        .error (.typeIdCollision "liquid" "costarring" 0x5e4daa9d) ∧
      (∃ property existing id, (c.register 0 StockType.clashing.blockType).1 =
        .error (.propertyIdCollision "Clashing" property existing id)) ∧
      ∃ ref, ((c.unregister 0 "costarring").2.register 0 StockType.liquid.blockType).1 =
        .ok ref := by
  intro c
  have hsome : (c.registryAt? 0).isSome := by decide +kernel
  obtain ⟨registry, hr⟩ := Option.isSome_iff_exists.mp hsome
  obtain ⟨hnames, hids⟩ := lookup_of_registryAt? hr
  obtain ⟨-, hexamined, -, hfreed⟩ := maps_one_catalogue _ hr
  have hfree : c.lookupName 0 "liquid" = none := by decide +kernel
  have htaken : c.lookupId 0 0x5e4daa9d = some 0 := by decide +kernel
  have hholder : (c.entryAt? 0).map Entry.name = some "costarring" := by decide +kernel
  obtain ⟨entry, he, hname⟩ := Option.map_eq_some_iff.mp hholder
  refine ⟨?_, ?_, ?_⟩
  · exact ((hexamined _).identifier _ _ _).mpr ⟨by decide +kernel, rfl, by decide +kernel,
      (hnames _).symm.trans hfree, 0, entry, (hids _).symm.trans htaken, he, hname⟩
  · exact (hexamined StockType.clashing.blockType).property.mpr (by decide +kernel)
  · exact (hfreed "costarring" (by decide +kernel)).2.2 _ (by decide +kernel) (by decide +kernel)

end Catalogue

end BlockForest
