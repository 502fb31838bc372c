import Mathlib
import BlockForest.Proofs.InstanceCounts

/-!
# Entries that stay registered

An entry that counts a block is not taken out of a registry, and whoever is registered takes
nobody's name. So if blocks are made of registered entries only, the entries of all blocks that
are counted stay in the registry of their tree. `Site.Vouched` says this of one tree, and it is
kept by each elementary change of a site.
-/

set_option autoImplicit false

namespace BlockForest

variable {β : Type}

namespace Catalogue

variable {c c' : Catalogue β} {r : RegistryRef} {ref : EntryRef}

/-- The entry is in the registry under some name. -/
def Registers (c : Catalogue β) (r : RegistryRef) (ref : EntryRef) : Prop :=
  ∃ name, c.lookupName r name = some ref

/-- Who is registered depends on the registries alone. -/
theorem Registers.of_registries (h : c.Registers r ref) (hr : c'.registries = c.registries) :
    c'.Registers r ref := by
  obtain ⟨name, hn⟩ := h
  refine ⟨name, ?_⟩
  unfold lookupName registryAt? at hn ⊢
  rwa [hr]

/-- An entry that a consistent registry finds is registered. -/
theorem Registers.of_finds {entry : Entry β} (hc : c.Consistent)
    (hf : c.Finds r ref entry) : c.Registers r ref := by
  rcases hf with ⟨name, hf⟩ | ⟨id, hf⟩
  · exact ⟨name, (entryAt?_of_findName hf).1⟩
  · obtain ⟨ref', hid, hentry⟩ := Option.bind_eq_some_iff.mp hf
    obtain ⟨entry', -, heq⟩ := Option.map_eq_some_iff.mp hentry
    cases heq
    obtain ⟨e, -, -, hname⟩ := hc.identified r id _ hid
    exact ⟨e.name, hname⟩

/-- An entry that is registered is found by its name and by the identifier of its type. -/
theorem Registers.find (h : c.Registers r ref) (hc : c.Consistent) :
    ∃ entry, c.entryAt? ref = some entry ∧ c.findName r entry.name = some (ref, entry) ∧
      c.findId r entry.typeId = some (ref, entry) := by
  obtain ⟨name, hn⟩ := h
  obtain ⟨entry, he, rfl, hid⟩ := hc.named r name ref hn
  refine ⟨entry, he, ?_, ?_⟩
  · rw [findName, hn, Option.bind_some, he]
    rfl
  · rw [findId, hid, Option.bind_some, he]
    rfl

/-- A new registry takes nobody out of the others. -/
theorem Registers.addRegistry (h : c.Registers r ref) : c.addRegistry.2.Registers r ref := by
  obtain ⟨name, hn⟩ := h
  refine ⟨name, ?_⟩
  unfold lookupName at hn ⊢
  obtain ⟨registry, hr, hn⟩ := Option.bind_eq_some_iff.mp hn
  have hlt := (Array.getElem?_eq_some_iff.mp hr).1
  rw [registryAt?_addRegistry, if_neg (Nat.ne_of_lt hlt), hr]
  exact hn

/-- Whoever is registered anew takes nobody's name. -/
theorem Registers.register (h : c.Registers r ref) (r' : RegistryRef) (type : BlockType β) :
    (c.register r' type).2.Registers r ref := by
  unfold Catalogue.register
  split
  · exact h
  · next entry _ =>
    split
    · exact h
    · next hfree =>
      split
      · exact h
      · obtain ⟨name, hn⟩ := h
        refine ⟨name, ?_⟩
        simp only [pushEntry, lookupName_setRegistry]
        split
        · next heq =>
          subst heq
          have hne : name ≠ entry.name := by
            rintro rfl
            rw [hn] at hfree
            exact hfree rfl
          obtain ⟨registry, hr, hget⟩ := Option.bind_eq_some_iff.mp hn
          show (c.registryAt? r).bind _ = _
          rw [hr, Option.bind_some, Option.getD_some, link, KeyMap.get?_insert, if_neg hne]
          exact hget
        · exact hn

/-- An entry that counts a block is not taken out. -/
theorem Registers.unregister (h : c.Registers r ref) (hcount : 0 < c.instances ref)
    (r' : RegistryRef) (name : String) : (c.unregister r' name).2.Registers r ref := by
  unfold Catalogue.unregister
  split
  · exact h
  · next gone entry hfound =>
    split
    · exact h
    · next hload =>
      obtain ⟨hlook, hentry⟩ := entryAt?_of_findName hfound
      have hne : gone ≠ ref := by
        rintro rfl
        rw [instances_of_entryAt? hentry] at hcount
        simp [Entry.canUnload] at hload
        omega
      obtain ⟨other, hn⟩ := h
      refine ⟨other, ?_⟩
      have hkept : (c.modifyEntry gone Entry.clearExtensions).registryAt? = c.registryAt? := by
        funext r
        rw [registryAt?, registries_modifyEntry, registryAt?]
      simp only [lookupName_setRegistry, hkept]
      split
      · next heq =>
        subst heq
        have hname : other ≠ name := by
          rintro rfl
          rw [hn, Option.some.injEq] at hlook
          exact hne hlook.symm
        obtain ⟨registry, hr, hget⟩ := Option.bind_eq_some_iff.mp hn
        rw [hr, Option.bind_some, Option.getD_some, unlink, KeyMap.get?_erase, if_neg hname]
        exact hget
      · rw [lookupName, hkept]
        exact hn

end Catalogue

namespace Site

variable {s s' : Site β}

/-- A block that an entry owns has one, and it is in the registry of the tree. -/
def Vouched (s : Site β) : Prop :=
  ∀ id entry, (s.tree.node? id).map Node.holder = some (.registryOwned, entry) →
    ∃ ref, entry = some ref ∧ s.catalogue.Registers s.tree.registry ref

/-- The catalogue is consistent, the slots are in order, and the blocks are of registered entries. -/
structure Registered (s : Site β) : Prop where
  consistent : s.catalogue.Consistent
  orderly : s.tree.Orderly
  vouched : s.Vouched

/-- If no new block is owned by an entry, the blocks stay vouched for. -/
theorem Vouched.mono (h : s.Vouched) (hl : Lasting s s')
    (hsub : ∀ id entry, (s'.tree.node? id).map Node.holder = some (.registryOwned, entry) →
      (s.tree.node? id).map Node.holder = some (.registryOwned, entry)) : s'.Vouched := by
  intro id entry hn
  obtain ⟨ref, hentry, hreg⟩ := h id entry (hsub id entry hn)
  refine ⟨ref, hentry, ?_⟩
  rw [hl.registry]
  exact hreg.of_registries hl.catalogue.registries

/-- A block that leaves takes nothing with it. -/
theorem Vouched.vacate (h : s.Vouched) {id : BlockId} (hid : s.tree.contains id)
    (hl : Lasting s s') (ht : s'.tree = s.tree.vacate id) : s'.Vouched := by
  refine h.mono hl fun other entry hn => ?_
  rw [ht, Tree.node?_vacate hid] at hn
  split at hn
  · cases hn
  · exact hn

/-- A new block is vouched for if it has no owner or comes from a registered entry. -/
theorem Vouched.setTree_alloc (h : s.Vouched) (ho : s.tree.Orderly) {node : Node β}
    (hnew : node.ownership = .registryOwned →
      ∃ ref, node.entry = some ref ∧ s.catalogue.Registers s.tree.registry ref) :
    (s.setTree (s.tree.alloc node).2).Vouched := by
  have hl := lasting_alloc s node
  intro id entry hn
  rw [hl.registry]
  change ((s.tree.alloc node).2.node? id).map Node.holder = _ at hn
  rw [Tree.node?_alloc ho] at hn
  by_cases hid : id = (s.tree.alloc node).1
  · rw [if_pos hid, Option.map_some, Option.some.injEq, Node.holder, Prod.mk.injEq] at hn
    exact hn.2 ▸ hnew hn.1
  · rw [if_neg hid] at hn
    exact h id entry hn

/-- What lasts keeps a site registered, if its blocks are still vouched for. -/
theorem Registered.lasting (h : s.Registered) (hl : Lasting s s') (hv : s'.Vouched) :
    s'.Registered := ⟨h.consistent.recounted hl.catalogue, hl.orderly h.orderly, hv⟩

variable [Payload β]

/-- A block that is made by a registered entry is vouched for. -/
theorem Vouched.createFrom (h : s.Vouched) (ho : s.tree.Orderly) {ref : EntryRef}
    (entry : Entry β) (hreg : s.catalogue.Registers s.tree.registry ref) :
    (s.createFrom ref entry).2.Vouched := by
  let s₁ : Site β := { s with catalogue := s.catalogue.countUp ref }
  have hcount : Lasting s s₁ := (Lasting.refl s).recount (Catalogue.recounted_countUp _ ref)
  have h₁ : s₁.Vouched := h.mono hcount fun _ _ hn => hn
  exact h₁.setTree_alloc ho fun _ => ⟨ref, rfl, hreg.of_registries hcount.catalogue.registries⟩

/-- So a site stays registered when an entry makes a block. -/
theorem Registered.createFrom (h : s.Registered) {ref : EntryRef} (entry : Entry β)
    (hreg : s.catalogue.Registers s.tree.registry ref) : (s.createFrom ref entry).2.Registered :=
  h.lasting (lasting_createFrom s ref entry) (h.vouched.createFrom h.orderly entry hreg)

/-- Every step of an operation keeps a site registered. -/
theorem tended_registered : Tended (Registered (β := β)) where
  work h hr := h.lasting hr.lasting (h.vouched.mono hr.lasting fun id entry hn => by
    rwa [hr.holder] at hn)
  surrender {s} id h := by
    have hl := lasting_surrender s id
    refine h.lasting hl ?_
    rcases surrender_cases s id with heq | ⟨node, hn, heq⟩
    · rw [heq]
      exact h.vouched
    · exact h.vouched.vacate (Tree.contains_of_node? hn) hl (by rw [heq]; rfl)
  place payload entry ownership flags hown h :=
    h.lasting (lasting_place _ _ _ _ _)
      (h.vouched.setTree_alloc h.orderly fun hreg => absurd hreg hown)
  createFrom ref entry hfinds h := h.createFrom entry (.of_finds h.consistent hfinds)
  reclaim {s} id h := by
    have hl := lasting_reclaim s id
    refine h.lasting hl ?_
    unfold Site.reclaim at hl ⊢
    split
    · next hcheck =>
      rw [hcheck] at hl
      exact h.vouched.vacate (alone_of_checkReclaim hcheck).1 hl rfl
    · exact h.vouched
  audience {s t} hs hf hz hr h := by
    have hl : Lasting s (s.setTree t) := lasting_setTree (fun ho => ho.of_slots hs hf hz) hr
    refine h.lasting hl (h.vouched.mono hl fun id entry hn => ?_)
    change (t.node? id).map Node.holder = _ at hn
    unfold Tree.node? at hn ⊢
    rwa [hs] at hn

/-- Blocks are made of entries only that are in the registry of the tree. -/
def FromRegistry : Site β → Op β → Prop
  | s, .createFrom ref => s.catalogue.Registers s.tree.registry ref
  | _, _ => True

/-- Every operation that makes blocks of registered entries only keeps a site registered. -/
theorem Registered.perform (h : s.Registered) {op : Op β} (hop : FromRegistry s op) :
    (s.perform op).Registered := by
  refine tended_registered.perform h ?_
  rintro ref entry rfl -
  exact h.createFrom entry hop

end Site

end BlockForest
