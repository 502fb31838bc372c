import Mathlib
import BlockForest.Tree.Query

/-!
# Slots and names

A tree is in order if its free list names each empty slot exactly once and its size is the
number of occupied slots. Then a block that is placed gets a name that no block had, a block
that leaves takes its own name away and no other, and the size can be read off the names:
two trees in which the same names are alive have the same size.

Everything later is said in terms of `node?`. This module is the only one that looks at slots
and at the free list.
-/

set_option autoImplicit false

namespace BlockForest.Tree

variable {β : Type}

/-- The name of the block in a slot. -/
def tenant? (t : Tree β) (index : Nat) : Option BlockId :=
  (t.slots[index]?).bind fun slot => slot.node.map fun _ => ⟨index, slot.generation⟩

/-- The names that are alive, by slot. -/
def tenants (t : Tree β) : List BlockId := (List.range t.slots.size).filterMap t.tenant?

/-- The free list and the size are those that belong to the slots. -/
structure Orderly (t : Tree β) : Prop where
  free_nodup : t.free.Nodup
  mem_free : ∀ index,
    index ∈ t.free ↔ ∃ slot, t.slots[index]? = some slot ∧ slot.node = none
  size_eq : t.size = t.tenants.length

/-! ### Names and slots -/

/-- A name finds a block exactly if the slot at its index holds the block under its generation. -/
theorem node?_eq_some_iff {t : Tree β} {id : BlockId} {node : Node β} :
    t.node? id = some node ↔ t.slots[id.index]? = some ⟨id.generation, some node⟩ := by
  unfold node?
  cases hs : t.slots[id.index]? with
  | none => simp
  | some slot =>
    obtain ⟨generation, tenant⟩ := slot
    by_cases hg : generation = id.generation
    · simp [hg]
    · simp [hg]

/-- A name that finds a block is alive. -/
theorem contains_of_node? {t : Tree β} {id : BlockId} {node : Node β}
    (h : t.node? id = some node) : t.contains id := by
  rw [contains, h]
  rfl

/-- A name that finds a block has an index within the slots. -/
theorem index_lt_of_node? {t : Tree β} {id : BlockId} {node : Node β}
    (h : t.node? id = some node) : id.index < t.slots.size :=
  (Array.getElem?_eq_some_iff.mp (node?_eq_some_iff.mp h)).1

/-- Two blocks that are alive never share a slot. -/
theorem eq_of_index_eq {t : Tree β} {a b : BlockId} {nodeA nodeB : Node β}
    (ha : t.node? a = some nodeA) (hb : t.node? b = some nodeB) (h : a.index = b.index) :
    a = b := by
  rw [node?_eq_some_iff] at ha hb
  rw [h, hb] at ha
  have hg : b.generation = a.generation := by
    simp only [Option.some.injEq, Slot.mk.injEq] at ha
    exact ha.1
  cases a
  cases b
  simp_all

/-- Blocks that are alive stand in slots of their own. -/
theorem length_le_of_index_lt {t : Tree β} {ids : List BlockId} {n : Nat} (hnd : ids.Nodup)
    (halive : ∀ id ∈ ids, t.contains id) (hlt : ∀ id ∈ ids, id.index < n) : ids.length ≤ n := by
  have hmap : (ids.map BlockId.index).Nodup := by
    refine List.Nodup.map_on ?_ hnd
    intro a ha b hb hab
    obtain ⟨nodeA, hA⟩ := Option.isSome_iff_exists.mp (halive a ha)
    obtain ⟨nodeB, hB⟩ := Option.isSome_iff_exists.mp (halive b hb)
    exact eq_of_index_eq hA hB hab
  have hsub : ids.map BlockId.index ⊆ List.range n := by
    intro index hi
    obtain ⟨id, hid, rfl⟩ := List.mem_map.mp hi
    exact List.mem_range.mpr (hlt id hid)
  have hlen := (hmap.subperm hsub).length_le
  simpa using hlen

/-- So many blocks as are alive have room in the arena. -/
theorem length_le_of_alive {t : Tree β} {ids : List BlockId} (hnd : ids.Nodup)
    (halive : ∀ id ∈ ids, t.contains id) : ids.length ≤ t.slots.size := by
  apply length_le_of_index_lt hnd halive
  intro id hid
  obtain ⟨node, hn⟩ := Option.isSome_iff_exists.mp (halive id hid)
  exact index_lt_of_node? hn

/-! ### The names that are alive -/

/-- The tenant of a slot is the live name with its index. -/
theorem tenant?_eq_some_iff {t : Tree β} {index : Nat} {id : BlockId} :
    t.tenant? index = some id ↔ id.index = index ∧ t.contains id := by
  unfold tenant? contains
  rw [Option.isSome_iff_exists]
  constructor
  · intro h
    obtain ⟨slot, hs, h⟩ := Option.bind_eq_some_iff.mp h
    obtain ⟨node, hn, rfl⟩ := Option.map_eq_some_iff.mp h
    refine ⟨rfl, node, node?_eq_some_iff.mpr ?_⟩
    rw [hs, ← hn]
  · rintro ⟨rfl, node, hn⟩
    rw [node?_eq_some_iff] at hn
    simp [hn]

/-- The tenants are the names that are alive. -/
theorem mem_tenants {t : Tree β} {id : BlockId} : id ∈ t.tenants ↔ t.contains id := by
  unfold tenants
  rw [List.mem_filterMap]
  constructor
  · rintro ⟨index, -, h⟩
    exact (tenant?_eq_some_iff.mp h).2
  · intro h
    obtain ⟨node, hn⟩ := Option.isSome_iff_exists.mp h
    exact ⟨id.index, List.mem_range.mpr (index_lt_of_node? hn), tenant?_eq_some_iff.mpr ⟨rfl, h⟩⟩

/-- No name is listed twice, since a slot has one tenant at most. -/
theorem nodup_tenants (t : Tree β) : t.tenants.Nodup := by
  refine List.Nodup.filterMap ?_ List.nodup_range
  intro i j id hi hj
  have h₁ := (tenant?_eq_some_iff.mp hi).1
  have h₂ := (tenant?_eq_some_iff.mp hj).1
  omega

/-- A list is counted through position by position. -/
theorem countP_range {α : Type} (p : α → Bool) (l : List α) :
    (List.range l.length).countP (fun i => (l[i]?).any p) = l.countP p := by
  induction l with
  | nil => rfl
  | cons a l ih =>
    rw [List.length_cons, List.range_succ_eq_map, List.countP_cons, List.countP_map,
      List.countP_cons, ← ih]
    rfl

/-- In an orderly tree the size is the number of slots that are taken. -/
theorem Orderly.size_eq_countP {t : Tree β} (h : t.Orderly) :
    t.size = t.slots.toList.countP fun slot => slot.node.isSome := by
  rw [h.size_eq, tenants, List.length_filterMap_eq_countP, ← countP_range _ t.slots.toList,
    Array.length_toList]
  congr 1
  funext index
  rw [Array.getElem?_toList, tenant?]
  cases t.slots[index]? with
  | none => rfl
  | some slot => cases hn : slot.node <;> simp [hn]

/-- The size of a tree is determined by the names that are alive in it. -/
theorem Orderly.size_eq_of_alive {t t' : Tree β} (h : t.Orderly) (h' : t'.Orderly)
    (halive : ∀ id, t'.contains id = t.contains id) : t'.size = t.size := by
  have hperm : t'.tenants.Perm t.tenants := by
    refine (List.perm_ext_iff_of_nodup (nodup_tenants t') (nodup_tenants t)).mpr ?_
    intro id
    rw [mem_tenants, mem_tenants, halive]
  rw [h.size_eq, h'.size_eq, hperm.length_eq]

/-- If so many of the blocks that were alive are gone and none is new, the size is less by their
number. -/
theorem Orderly.size_add_of_gone {t t' : Tree β} (h : t.Orderly) (h' : t'.Orderly)
    {gone : List BlockId} (hnd : gone.Nodup) (hgone : ∀ id ∈ gone, t.contains id)
    (halive : ∀ id, t'.contains id ↔ t.contains id ∧ id ∉ gone) :
    t'.size + gone.length = t.size := by
  have hdis : ∀ a ∈ t'.tenants, ∀ b ∈ gone, a ≠ b := by
    rintro a ha _ hb rfl
    exact ((halive a).mp (mem_tenants.mp ha)).2 hb
  have hperm : (t'.tenants ++ gone).Perm t.tenants := by
    refine (List.perm_ext_iff_of_nodup (List.nodup_append.mpr ⟨nodup_tenants t', hnd, hdis⟩)
      (nodup_tenants t)).mpr ?_
    intro id
    rw [List.mem_append, mem_tenants, mem_tenants, halive]
    by_cases hid : id ∈ gone
    · simp [hid, hgone id hid]
    · simp [hid]
  rw [h.size_eq, h'.size_eq, ← hperm.length_eq, List.length_append]

/-- A tree without slots is in order. -/
theorem orderly_empty (registry : RegistryRef) : (empty registry : Tree β).Orderly where
  free_nodup := List.nodup_nil
  mem_free := by simp [empty]
  size_eq := by simp [empty, tenants]

/-- The observers and the registry have no part in the order of the slots. -/
theorem Orderly.of_slots {t t' : Tree β} (h : t.Orderly) (hs : t'.slots = t.slots)
    (hf : t'.free = t.free) (hz : t'.size = t.size) : t'.Orderly where
  free_nodup := hf ▸ h.free_nodup
  mem_free index := by
    rw [hf, hs]
    exact h.mem_free index
  size_eq := by
    have htenants : t'.tenants = t.tenants := by
      unfold tenants tenant?
      rw [hs]
    rw [hz, htenants]
    exact h.size_eq

/-- A tree without slots has no blocks. -/
@[simp] theorem node?_empty (registry : RegistryRef) (id : BlockId) :
    (empty registry : Tree β).node? id = none := by
  simp [empty, node?]

/-! ### Changing a block -/

/-- To change a block ends none and makes none. -/
theorem contains_modify (t : Tree β) (id other : BlockId) (f : Node β → Node β) :
    (t.modify id f).contains other = t.contains other := by
  unfold contains
  rw [node?_modify]
  by_cases h : other = id
  · simp [h]
  · simp [h]

/-- To change a block leaves the number of slots alone. -/
@[simp] theorem size_slots_modify (t : Tree β) (id : BlockId) (f : Node β → Node β) :
    (t.modify id f).slots.size = t.slots.size := by
  unfold modify
  cases t.node? id <;> simp

/-- To change a block frees no slot and takes none. -/
theorem free_modify (t : Tree β) (id : BlockId) (f : Node β → Node β) :
    (t.modify id f).free = t.free := by
  unfold modify
  cases t.node? id <;> rfl

/-- A change of a block empties no slot and fills none. -/
theorem vacant_modify (t : Tree β) (id : BlockId) (f : Node β → Node β) (index : Nat) :
    (∃ slot, (t.modify id f).slots[index]? = some slot ∧ slot.node = none) ↔
      ∃ slot, t.slots[index]? = some slot ∧ slot.node = none := by
  unfold modify
  cases hn : t.node? id with
  | none => rfl
  | some node =>
    have hslot := node?_eq_some_iff.mp hn
    by_cases hi : id.index = index
    · subst hi
      rw [Array.getElem?_setIfInBounds_self_of_lt (index_lt_of_node? hn), hslot]
      simp
    · simp [Array.getElem?_setIfInBounds_ne hi]

/-- To change a block keeps the slots in order. -/
theorem Orderly.modify {t : Tree β} (h : t.Orderly) (id : BlockId) (f : Node β → Node β) :
    (t.modify id f).Orderly where
  free_nodup := by
    rw [free_modify]
    exact h.free_nodup
  mem_free index := by
    rw [free_modify, vacant_modify]
    exact h.mem_free index
  size_eq := by
    have hsize : (t.modify id f).size = t.size := by
      unfold Tree.modify
      cases t.node? id <;> rfl
    have hperm : (t.modify id f).tenants.Perm t.tenants := by
      refine (List.perm_ext_iff_of_nodup (nodup_tenants _) (nodup_tenants t)).mpr ?_
      intro other
      rw [mem_tenants, mem_tenants, contains_modify]
    rw [hsize, h.size_eq, hperm.length_eq]

/-! ### Placing a block -/

/-- What placing a block does to the slots, by whether a slot is free. -/
theorem alloc_cases {t : Tree β} (h : t.Orderly) (node : Node β) :
    (∃ index free slot, t.free = index :: free ∧ t.slots[index]? = some slot ∧
        slot.node = none ∧
        t.alloc node = (⟨index, slot.generation⟩,
          { t with
            slots := t.slots.setIfInBounds index ⟨slot.generation, some node⟩
            free := free
            size := t.size + 1 })) ∨
      (t.free = [] ∧
        t.alloc node = (⟨t.slots.size, 0⟩,
          { t with slots := t.slots.push ⟨0, some node⟩, size := t.size + 1 })) := by
  unfold alloc
  cases hf : t.free with
  | nil => exact Or.inr ⟨rfl, rfl⟩
  | cons index free =>
    obtain ⟨slot, hs, hn⟩ := (h.mem_free index).mp (by simp [hf])
    refine Or.inl ⟨index, free, slot, rfl, hs, hn, ?_⟩
    simp [hs]

/-- The name of a new block belonged to no block before. -/
theorem node?_alloc_fresh {t : Tree β} (h : t.Orderly) (node : Node β) :
    t.node? (t.alloc node).1 = none := by
  rcases alloc_cases h node with ⟨index, free, slot, -, hs, hn, ha⟩ | ⟨-, ha⟩
  · rw [ha]
    simp [node?, hs, hn]
  · rw [ha]
    simp [node?]

/-- After a block was placed it is found under its new name, and all others are as they were. -/
theorem node?_alloc {t : Tree β} (h : t.Orderly) (node : Node β) (id : BlockId) :
    (t.alloc node).2.node? id = if id = (t.alloc node).1 then some node else t.node? id := by
  rcases alloc_cases h node with ⟨index, free, slot, -, hs, hn, ha⟩ | ⟨-, ha⟩
  · rw [ha]
    have hlt : index < t.slots.size := (Array.getElem?_eq_some_iff.mp hs).1
    by_cases hi : index = id.index
    · by_cases hg : slot.generation = id.generation
      · have hid : id = ⟨index, slot.generation⟩ := by
          cases id
          simp_all
        simp [hid, node?, hlt]
      · have hid : id ≠ ⟨index, slot.generation⟩ := by
          rintro rfl
          exact hg rfl
        subst hi
        rw [if_neg hid]
        unfold node?
        rw [hs, Array.getElem?_setIfInBounds_self_of_lt hlt]
        simp [hg]
    · have hid : id ≠ ⟨index, slot.generation⟩ := by
        rintro rfl
        exact hi rfl
      simp [hid, node?, Array.getElem?_setIfInBounds_ne hi]
  · rw [ha]
    by_cases hi : id.index = t.slots.size
    · by_cases hg : id.generation = 0
      · have hid : id = ⟨t.slots.size, 0⟩ := by
          cases id
          simp_all
        simp [hid, node?]
      · have hid : id ≠ ⟨t.slots.size, 0⟩ := by
          rintro rfl
          exact hg rfl
        have hg' : ¬(0 = id.generation) := fun hz => hg hz.symm
        simp [hid, node?, hi, hg']
    · have hid : id ≠ ⟨t.slots.size, 0⟩ := by
        rintro rfl
        exact hi rfl
      simp [hid, node?, Array.getElem?_push, hi]

/-- The names that are alive after a block was placed are the new one and those from before. -/
theorem contains_alloc {t : Tree β} (h : t.Orderly) (node : Node β) (id : BlockId) :
    (t.alloc node).2.contains id ↔ id = (t.alloc node).1 ∨ t.contains id := by
  unfold contains
  rw [node?_alloc h]
  by_cases hid : id = (t.alloc node).1
  · simp [hid]
  · simp [hid]

/-- To place a block keeps the slots in order: the slot that it takes leaves the free list. -/
theorem Orderly.alloc {t : Tree β} (h : t.Orderly) (node : Node β) :
    (t.alloc node).2.Orderly where
  free_nodup := by
    rcases alloc_cases h node with ⟨index, free, slot, hf, -, -, ha⟩ | ⟨-, ha⟩
    · rw [ha]
      exact (List.nodup_cons.mp (hf ▸ h.free_nodup)).2
    · rw [ha]
      exact h.free_nodup
  mem_free other := by
    rcases alloc_cases h node with ⟨index, free, slot, hf, hs, hn, ha⟩ | ⟨hf, ha⟩
    · rw [ha]
      have hmem := h.mem_free other
      have hnot := (List.nodup_cons.mp (hf ▸ h.free_nodup)).1
      have hlt : index < t.slots.size := (Array.getElem?_eq_some_iff.mp hs).1
      by_cases ho : index = other
      · subst ho
        simp [hnot, hlt]
      · have ho' : other ≠ index := fun e => ho e.symm
        rw [hf, List.mem_cons, or_iff_right ho'] at hmem
        simpa [Array.getElem?_setIfInBounds_ne ho] using hmem
    · rw [ha]
      have hmem := h.mem_free other
      rw [hf] at hmem ⊢
      by_cases ho : other = t.slots.size
      · simp [ho]
      · simpa [Array.getElem?_push, ho] using hmem
  size_eq := by
    have hsize : (t.alloc node).2.size = t.size + 1 := by
      rcases alloc_cases h node with ⟨_, _, _, _, _, _, ha⟩ | ⟨_, ha⟩ <;> rw [ha]
    have hnew : (t.alloc node).1 ∉ t.tenants := by
      rw [mem_tenants]
      simp [contains, node?_alloc_fresh h]
    -- The size counts the tenants, and there is one more of them.
    have hperm : (t.alloc node).2.tenants.Perm ((t.alloc node).1 :: t.tenants) := by
      refine (List.perm_ext_iff_of_nodup (nodup_tenants _)
        (List.nodup_cons.mpr ⟨hnew, nodup_tenants t⟩)).mpr ?_
      intro id
      rw [List.mem_cons, mem_tenants, mem_tenants]
      exact contains_alloc h node id
    rw [hsize, hperm.length_eq, List.length_cons, h.size_eq]

/-! ### Emptying a slot -/

/-- A block that leaves takes its own name away and no other: the other names of its slot were
stale already. -/
theorem node?_vacate {t : Tree β} {id : BlockId} (hid : t.contains id) (other : BlockId) :
    (t.vacate id).node? other = if other = id then none else t.node? other := by
  obtain ⟨node, hn⟩ := Option.isSome_iff_exists.mp hid
  have hslot := node?_eq_some_iff.mp hn
  have hlt := index_lt_of_node? hn
  by_cases hi : id.index = other.index
  · have hnone : (t.vacate id).node? other = none := by
      simp [vacate, node?, ← hi, hlt]
    rw [hnone]
    by_cases ho : other = id
    · simp [ho]
    · cases hn' : t.node? other with
      | none => simp
      | some node' => exact absurd (eq_of_index_eq hn' hn hi.symm) ho
  · have ho : other ≠ id := by
      rintro rfl
      exact hi rfl
    simp [vacate, node?, ho, Array.getElem?_setIfInBounds_ne hi]

/-- To empty the slot of a live block keeps the slots in order: it goes to the front of the free
list. -/
theorem Orderly.vacate {t : Tree β} (h : t.Orderly) {id : BlockId} (hid : t.contains id) :
    (t.vacate id).Orderly where
  free_nodup := by
    obtain ⟨node, hn⟩ := Option.isSome_iff_exists.mp hid
    have hslot := node?_eq_some_iff.mp hn
    refine List.nodup_cons.mpr ⟨?_, h.free_nodup⟩
    intro hmem
    obtain ⟨slot, hs, hnone⟩ := (h.mem_free id.index).mp hmem
    rw [hslot] at hs
    cases hs
    simp at hnone
  mem_free other := by
    obtain ⟨node, hn⟩ := Option.isSome_iff_exists.mp hid
    have hlt := index_lt_of_node? hn
    have hmem := h.mem_free other
    by_cases ho : id.index = other
    · subst ho
      simp [Tree.vacate, hlt]
    · have ho' : other ≠ id.index := fun e => ho e.symm
      simpa [Tree.vacate, ho', Array.getElem?_setIfInBounds_ne ho] using hmem
  size_eq := by
    have hnot : id ∉ (t.vacate id).tenants := by
      rw [mem_tenants]
      simp [contains, node?_vacate hid]
    -- There is one tenant less.
    have hperm : t.tenants.Perm (id :: (t.vacate id).tenants) := by
      refine (List.perm_ext_iff_of_nodup (nodup_tenants t)
        (List.nodup_cons.mpr ⟨hnot, nodup_tenants _⟩)).mpr ?_
      intro other
      rw [List.mem_cons, mem_tenants, mem_tenants]
      unfold contains at hid ⊢
      rw [node?_vacate hid]
      by_cases ho : other = id
      · simp [ho, hid]
      · simp [ho]
    have hlen := hperm.length_eq
    rw [List.length_cons] at hlen
    show t.size - 1 = (t.vacate id).tenants.length
    rw [h.size_eq]
    omega

end BlockForest.Tree
