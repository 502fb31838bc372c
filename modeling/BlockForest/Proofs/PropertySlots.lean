import Mathlib
import BlockForest.Proofs.TypeRegistration

/-!
# Slots, identifiers and names

In a table that could be built, a slot leads to an identifier and an identifier to a slot, and one
way undoes the other (`Faithful`). A name leads to the slot of its hash only if the property there
has this very name, so a foreign name leads nowhere even if its hash is in the table
(`Faithful.slotByName?_eq_some_iff`).

A table that could not be built failed at the first property whose identifier one before it has.
No two of those before it share theirs, so there is only one that it can have met, and the refusal
names these two (`FirstCollision.collides`).
-/

set_option autoImplicit false

namespace BlockForest

variable {β : Type}

namespace PropertyTable

variable {table : PropertyTable β} {properties : List (Property β)}

/-- The identifier of a slot is the hash of the name of the property there. -/
theorem Faithful.id?_eq (h : table.Faithful) (slot : Nat) :
    table.id? slot = (table.property? slot).map fun p => nameHash p.name := by
  rw [id?, h.ids_eq, List.getElem?_map, property?]

/-- A name leads to a slot exactly if the property there has this name. Another name with the same
hash leads nowhere. -/
theorem Faithful.slotByName?_eq_some_iff (h : table.Faithful) {name : String} {slot : Nat} :
    table.slotByName? name = some slot ↔ ∃ p, table.property? slot = some p ∧ p.name = name := by
  rw [slotByName?, Option.filter_eq_some_iff, Option.any_eq_true]
  simp only [decide_eq_true_eq]
  constructor
  · rintro ⟨-, p, hp, hname⟩
    exact ⟨p, hp, hname⟩
  · rintro ⟨p, hp, rfl⟩
    exact ⟨h.slot?_of_property? hp, p, hp, rfl⟩

/-- The property at the second slot is the first one whose identifier was there before, and the only
one before it that has this identifier stands at the first slot. -/
structure Collides (properties : List (Property β)) (first second : Nat)
    (earlier later : Property β) : Prop where
  earlier_eq : properties[first]? = some earlier
  later_eq : properties[second]? = some later
  lt : first < second
  same : nameHash earlier.name = nameHash later.name
  /-- Up to there all identifiers are different. -/
  apart : (identifiers (properties.take second)).Nodup
  only : ∀ slot p, slot < second → properties[slot]? = some p →
    nameHash p.name = nameHash later.name → slot = first

/-- The first collision of a list stands at two slots that are determined. -/
theorem FirstCollision.collides {earlier later : Property β}
    (h : FirstCollision properties earlier later) :
    ∃ first second, Collides properties first second earlier later := by
  obtain ⟨before, after, rfl, hmem, hsame, hnd⟩ := h
  obtain ⟨first, hlt, hfirst⟩ := List.mem_iff_getElem.mp hmem
  have hbefore : ∀ slot, slot < before.length →
      (before ++ later :: after)[slot]? = before[slot]? := fun slot hs =>
    List.getElem?_append_left hs
  refine ⟨first, before.length, ?_, by simp, hlt, hsame, ?_, ?_⟩
  · rw [hbefore first hlt, List.getElem?_eq_getElem hlt, hfirst]
  · rwa [List.take_left]
  · intro slot p hs hp heq
    rw [hbefore slot hs] at hp
    have hid : (identifiers before)[slot]? = (identifiers before)[first]? := by
      simp only [identifiers, List.getElem?_map, hp, List.getElem?_eq_getElem hlt, hfirst,
        Option.map_some, heq, hsame]
    exact (List.getElem?_inj (by simpa [identifiers] using hs) hnd).mp hid

end PropertyTable

namespace Entry

open PropertyTable

/-- There is an entry for a type exactly if its properties have identifiers of their own. Then slots
and identifiers lead to one another, a name leads to the slot of the property that has it, and a name
that no property has leads nowhere, whatever its hash, nor does a slot past the end. Otherwise the
refusal names the first property whose identifier was there before, and the one that had it. -/
theorem slots_of_type (type : BlockType β) :
    ((∃ entry, Entry.of type = .ok entry) ↔ (identifiers type.properties).Nodup) ∧
      (∀ entry, Entry.of type = .ok entry →
        (∀ slot p, type.properties[slot]? = some p →
          entry.table.property? slot = some p ∧ ∃ id, id = nameHash p.name ∧
            entry.table.id? slot = some id ∧ entry.table.slot? id = some slot ∧
              entry.table.slotByName? p.name = some slot) ∧
        (∀ id slot, entry.table.slot? id = some slot → entry.table.id? slot = some id) ∧
        (∀ name, (∀ p ∈ type.properties, p.name ≠ name) →
          entry.table.slotByName? name = none) ∧
        ∀ slot, type.properties.length ≤ slot →
          entry.table.property? slot = none ∧ entry.table.id? slot = none) ∧
      ∀ e, Entry.of type = .error e →
        ∃ first second earlier later,
          Collides type.properties first second earlier later ∧
            e = .propertyIdCollision type.name later.name earlier.name (nameHash later.name) := by
  refine ⟨of_eq_ok_iff, fun entry hok => ?_, fun e he => ?_⟩
  · obtain ⟨htype, hbuild⟩ := Catalogue.table_of hok
    obtain ⟨hfaithful, hlist⟩ := faithful_of_build hbuild
    rw [htype] at hlist
    have hproperty : ∀ slot, entry.table.property? slot = type.properties[slot]? := fun slot => by
      rw [property?, hlist]
    refine ⟨fun slot p hp => ?_, fun id slot => (hfaithful.slot?_eq_some_iff id slot).mp,
      fun name hforeign => ?_, fun slot hpast => ?_⟩
    · rw [← hproperty] at hp
      exact ⟨hp, _, rfl, by rw [hfaithful.id?_eq, hp, Option.map_some],
        hfaithful.slot?_of_property? hp, hfaithful.slotByName?_eq_some_iff.mpr ⟨p, hp, rfl⟩⟩
    · rw [Option.eq_none_iff_forall_ne_some]
      intro slot hslot
      obtain ⟨p, hp, hname⟩ := hfaithful.slotByName?_eq_some_iff.mp hslot
      rw [hproperty] at hp
      exact hforeign p (List.mem_of_getElem? hp) hname
    · have hnone : entry.table.property? slot = none :=
        (hproperty slot).trans (List.getElem?_eq_none hpast)
      exact ⟨hnone, by rw [hfaithful.id?_eq, hnone, Option.map_none]⟩
  · obtain ⟨earlier, later, hcollision, heq⟩ := of_eq_error he
    obtain ⟨first, second, hcollides⟩ := hcollision.collides
    exact ⟨first, second, earlier, later, hcollides, heq⟩

/-- Two names with one hash. Where only one of them is declared, the other one leads nowhere; where
both are, the second is refused for the first. -/
theorem slots_of_type_sameHash :
    (∃ entry, Entry.of StockType.twin.blockType = .ok entry ∧
        entry.table.slotByName? "altarage" = some 1 ∧
        entry.table.slot? (nameHash "zinke") = some 1 ∧
        entry.table.slotByName? "zinke" = none) ∧
      ∃ typeName id, Entry.of StockType.clashing.blockType =
        .error (.propertyIdCollision typeName "zinke" "altarage" id) := by
  have hhash : nameHash "altarage" = nameHash "zinke" := by decide +kernel
  constructor
  · obtain ⟨hof, hslots, -⟩ := slots_of_type StockType.twin.blockType
    obtain ⟨entry, hentry⟩ := hof.mpr (by decide +kernel)
    obtain ⟨hdeclared, -, hforeign, -⟩ := hslots entry hentry
    obtain ⟨p, hp, hname⟩ := Option.map_eq_some_iff.mp (show
      (StockType.twin.blockType.properties[1]?).map Property.name = some "altarage" by decide)
    obtain ⟨-, id, rfl, -, hslot, hbyName⟩ := hdeclared 1 p hp
    rw [hname] at hslot hbyName
    exact ⟨entry, hentry, hbyName, hhash ▸ hslot, hforeign "zinke" (by decide)⟩
  · obtain ⟨hof, -, hrefused⟩ := slots_of_type StockType.clashing.blockType
    cases hresult : Entry.of StockType.clashing.blockType with
    | ok entry => exact absurd (hof.mp ⟨entry, hresult⟩) (by decide +kernel)
    | error e =>
      obtain ⟨first, second, earlier, later, hcollides, rfl⟩ := hrefused e hresult
      obtain ⟨hearlier, hlater, hlt, -, -, -⟩ := hcollides
      have hshort : second < 2 := (List.getElem?_eq_some_iff.mp hlater).1
      obtain rfl : second = 1 := by omega
      obtain rfl : first = 0 := by omega
      cases hearlier
      cases hlater
      exact ⟨_, _, rfl⟩

end Entry

end BlockForest
