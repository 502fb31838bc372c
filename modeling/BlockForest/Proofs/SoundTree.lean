import Mathlib
import BlockForest.Proofs.ChildListReplacement

/-!
# What holds of a tree between operations

`Sound` is the invariant of a tree: its slots are in order, its blocks are a forest, and a block
that carries the mark of one being torn down stands alone. The mark matters because a block on
its way out leaves its library by another way where the library carries the mark as well; as
long as only `destroy` sets it, nobody who is attached or has children carries it when an
operation begins.

The lemmas of this module say how the elementary changes keep the invariant: a new block, a
block that leaves, a change that touches no link, and another list of children.
-/

set_option autoImplicit false

namespace BlockForest

namespace Flags

/-- The mark is the lowest bit. -/
theorem contains_beingDeleted_iff (a : Flags) :
    a.contains beingDeleted ↔ a.bits.toNat.testBit 0 := by
  have hand : (a.bits &&& 1).toNat = a.bits.toNat % 2 := by
    rw [UInt32.toNat_and]
    exact Nat.and_one_is_mod _
  rw [contains, beingDeleted, beq_iff_eq, ← UInt32.toNat_inj, hand, Nat.testBit_zero]
  simp

/-- A union has the mark exactly if one of its parts has it. -/
theorem contains_beingDeleted_union {a b : Flags} :
    (a.union b).contains beingDeleted ↔ a.contains beingDeleted ∨ b.contains beingDeleted := by
  simp only [contains_beingDeleted_iff, union, UInt32.toNat_or, Nat.testBit_or, Bool.or_eq_true]

/-- Taking flags away does not bring the mark. -/
theorem contains_beingDeleted_of_minus {a b : Flags} (h : (a.minus b).contains beingDeleted) :
    a.contains beingDeleted := by
  rw [contains_beingDeleted_iff, minus, UInt32.toNat_and, Nat.testBit_and, Bool.and_eq_true] at h
  exact (contains_beingDeleted_iff a).mpr h.1

end Flags

namespace Tree

variable {β : Type} {t t' : Tree β}

/-- The slots are in order, the blocks are a forest, and whoever carries the mark stands alone. -/
structure Sound (t : Tree β) : Prop where
  orderly : t.Orderly
  forest : t.Forest
  marked : ∀ id, t.isBeingDeleted id → t.parent? id = none ∧ t.children id = []

/-- A tree without blocks is sound. -/
theorem sound_empty (registry : RegistryRef) : (empty registry : Tree β).Sound where
  orderly := orderly_empty registry
  forest := by
    refine ⟨?_, ?_, ?_, fun id => ⟨0, Rises.top (by simp [parent?])⟩⟩ <;>
      simp [children, parent?, index?]
  marked := by simp [children, parent?]

/-- The flags of a live block are a field of it. -/
theorem flags_of_node? {id : BlockId} {node : Node β} (h : t.node? id = some node) :
    t.flags id = node.flags := by
  simp [flags, h]

/-- Whether a live block is marked is one of its flags. -/
theorem isBeingDeleted_of_node? {id : BlockId} {node : Node β} (h : t.node? id = some node) :
    t.isBeingDeleted id = node.flags.contains Flags.beingDeleted := by
  rw [isBeingDeleted, checkFlag, flags_of_node? h]

/-- The children of a live block are those it holds, or none if it holds no list. -/
theorem children_of_node? {id : BlockId} {node : Node β} (h : t.node? id = some node) :
    t.children id = node.children.getD [] := by
  simp [children, h]

/-- A library is a block with a list of children. -/
theorem exists_node_of_isLibrary {library : BlockId} (h : t.isLibrary library) :
    ∃ node, t.node? library = some node ∧ node.children = some (t.children library) := by
  obtain ⟨node, hn⟩ := Option.isSome_iff_exists.mp (contains_of_isLibrary h)
  rw [isLibrary, hn] at h
  obtain ⟨children, hc⟩ := Option.isSome_iff_exists.mp h
  refine ⟨node, hn, ?_⟩
  rw [children_of_node? hn, hc]
  rfl

/-- The parent of a live block is a field of it. -/
theorem parent?_of_node? {id : BlockId} {node : Node β} (h : t.node? id = some node) :
    t.parent? id = node.parent := by
  simp [parent?, h]

/-- The index of a live block is a field of it. -/
theorem index?_of_node? {id : BlockId} {node : Node β} (h : t.node? id = some node) :
    t.index? id = node.index := by
  simp [index?, h]

/-! ### Changes that touch no link -/

/-- The blocks are linked in the same way. Blocks without links may have come or gone. -/
structure SameLinks (t t' : Tree β) : Prop where
  children : ∀ id, t'.children id = t.children id
  parent? : ∀ id, t'.parent? id = t.parent? id
  index? : ∀ id, t'.index? id = t.index? id

/-- A tree that is linked in the same way is a forest, too. -/
theorem SameLinks.forest (hs : SameLinks t t') (h : t.Forest) : t'.Forest where
  child library index id hid := by
    rw [hs.children] at hid
    rw [hs.parent?, hs.index?]
    exact h.child library index id hid
  listed id library hp := by
    rw [hs.parent?] at hp
    rw [hs.children]
    exact h.listed id library hp
  indexed id := by
    rw [hs.parent?, hs.index?]
    exact h.indexed id
  grounded id := by
    obtain ⟨d, hd⟩ := h.grounded id
    refine ⟨d, ?_⟩
    induction hd with
    | top hp => exact Rises.top ((hs.parent? _).trans hp)
    | up hp _ ih => exact Rises.up ((hs.parent? _).trans hp) ih

/-- The links of a block: its index, its library and its children. -/
def links (t : Tree β) (id : BlockId) : Option Nat × Option BlockId × List BlockId :=
  (t.index? id, t.parent? id, t.children id)

/-- Trees in which every name has the same links are linked in the same way. -/
theorem SameLinks.of_links (hl : ∀ id, t'.links id = t.links id) : SameLinks t t' := by
  refine ⟨?_, ?_, ?_⟩ <;> intro id <;> have := hl id <;> simp only [links, Prod.mk.injEq] at this
  · exact this.2.2
  · exact this.2.1
  · exact this.1

/-- The links of a live block are three of its fields. -/
theorem links_of_node? {id : BlockId} {node : Node β} (h : t.node? id = some node) :
    t.links id = (node.index, node.parent, node.children.getD []) := by
  rw [links, index?_of_node? h, parent?_of_node? h, children_of_node? h]

/-- A stale name has no links. -/
theorem links_of_stale {id : BlockId} (h : t.node? id = none) :
    t.links id = (none, none, []) := by
  simp [links, index?, parent?, children, h]

/-- The links of a block depend on the block alone. -/
theorem links_eq_of_node?_eq {id : BlockId} (h : t'.node? id = t.node? id) :
    t'.links id = t.links id := by
  simp only [links, index?, parent?, children, h]

/-- Whether a block is marked depends on the block alone. -/
theorem isBeingDeleted_eq_of_node?_eq {id : BlockId} (h : t'.node? id = t.node? id) :
    t'.isBeingDeleted id = t.isBeingDeleted id := by
  simp only [isBeingDeleted, checkFlag, flags, h]

/-- One block may differ, as long as it has the links it had. -/
theorem SameLinks.of_single (id : BlockId)
    (hother : ∀ other, other ≠ id → t'.node? other = t.node? other)
    (hlinks : t'.links id = t.links id) : SameLinks t t' := by
  refine .of_links fun other => ?_
  by_cases hid : other = id
  · rw [hid, hlinks]
  · exact links_eq_of_node?_eq (hother other hid)

/-- A change of a block that is not about its links leaves all links as they were. -/
theorem sameLinks_modify (t : Tree β) (id : BlockId) {f : Node β → Node β}
    (hi : ∀ node, (f node).index = node.index) (hp : ∀ node, (f node).parent = node.parent)
    (hc : ∀ node, (f node).children = node.children) :
    SameLinks t (t.modify id f) := by
  have hnode := node?_modify t id id f
  rw [if_pos rfl] at hnode
  apply SameLinks.of_single id
  · intro other ho
    rw [node?_modify, if_neg ho]
  · cases hn : t.node? id with
    | none => exact links_eq_of_node?_eq (by rw [hnode, hn]; rfl)
    | some node =>
      rw [hn, Option.map_some] at hnode
      rw [links_of_node? hn, links_of_node? hnode, hi, hp, hc]

/-- A new block stands alone. -/
theorem sameLinks_alloc (ho : t.Orderly) {node : Node β} (hi : node.index = none)
    (hp : node.parent = none) (hc : node.children.getD [] = []) :
    SameLinks t (t.alloc node).2 := by
  have hn : (t.alloc node).2.node? (t.alloc node).1 = some node := by
    rw [node?_alloc ho, if_pos rfl]
  apply SameLinks.of_single (t.alloc node).1
  · intro other hother
    rw [node?_alloc ho, if_neg hother]
  · rw [links_of_node? hn, links_of_stale (node?_alloc_fresh ho node), hi, hp, hc]

/-- A block that stands alone may leave. -/
theorem Forest.sameLinks_vacate (h : t.Forest) {id : BlockId} (hid : t.contains id)
    (hp : t.parent? id = none) (hc : t.children id = []) : SameLinks t (t.vacate id) := by
  have hindex : t.index? id = none := by
    have := h.indexed id
    rw [hp] at this
    simpa using this
  apply SameLinks.of_single id
  · intro other ho
    rw [node?_vacate hid, if_neg ho]
  · have hgone : (t.vacate id).node? id = none := by
      rw [node?_vacate hid, if_pos rfl]
    rw [links_of_stale hgone, links, hindex, hp, hc]

/-- Neither a link nor a mark differs. -/
structure Retouched (t t' : Tree β) : Prop where
  links : SameLinks t t'
  isBeingDeleted : ∀ id, t'.isBeingDeleted id = t.isBeingDeleted id

/-- A tree that is left alone is retouched. -/
theorem Retouched.refl (t : Tree β) : Retouched t t :=
  ⟨⟨fun _ => rfl, fun _ => rfl, fun _ => rfl⟩, fun _ => rfl⟩

/-- Links that stay the same twice stay the same. -/
theorem SameLinks.trans {t'' : Tree β} (h : SameLinks t t') (h' : SameLinks t' t'') :
    SameLinks t t'' where
  children id := (h'.children id).trans (h.children id)
  parent? id := (h'.parent? id).trans (h.parent? id)
  index? id := (h'.index? id).trans (h.index? id)

/-- Retouching twice is retouching. -/
theorem Retouched.trans {t'' : Tree β} (h : Retouched t t') (h' : Retouched t' t'') :
    Retouched t t'' where
  links := h.links.trans h'.links
  isBeingDeleted id := (h'.isBeingDeleted id).trans (h.isBeingDeleted id)

/-- Trees with the same blocks differ in neither links nor marks. -/
theorem Retouched.of_node?_eq (h : ∀ id, t'.node? id = t.node? id) : Retouched t t' where
  links := .of_links fun id => links_eq_of_node?_eq (h id)
  isBeingDeleted id := isBeingDeleted_eq_of_node?_eq (h id)

/-- The observers and the registry have no part in the forest. -/
theorem Retouched.of_slots (hs : t'.slots = t.slots) : Retouched t t' := by
  apply Retouched.of_node?_eq
  intro id
  unfold node?
  rw [hs]

/-- A change of a block that is about neither its links nor its flags is a retouch. -/
theorem retouched_modify (t : Tree β) (id : BlockId) {f : Node β → Node β}
    (hi : ∀ node, (f node).index = node.index) (hp : ∀ node, (f node).parent = node.parent)
    (hc : ∀ node, (f node).children = node.children)
    (hf : ∀ node, (f node).flags = node.flags) : Retouched t (t.modify id f) where
  links := sameLinks_modify t id hi hp hc
  isBeingDeleted other := by
    have hflags : (t.modify id f).flags other = t.flags other := by
      unfold flags
      rw [node?_modify]
      by_cases ho : other = id
      · rw [if_pos ho, ho]
        cases t.node? id with
        | none => rfl
        | some node => exact hf node
      · rw [if_neg ho]
    rw [isBeingDeleted, isBeingDeleted, checkFlag, checkFlag, hflags]

/-- A sound tree stays sound when it is retouched and its slots are in order. -/
theorem Sound.retouched (h : t.Sound) (ho : t'.Orderly) (hr : Retouched t t') : t'.Sound := by
  refine ⟨ho, hr.links.forest h.forest, fun id hm => ?_⟩
  rw [hr.isBeingDeleted] at hm
  rw [hr.links.parent?, hr.links.children]
  exact h.marked id hm

/-- Whether a tree is sound depends on its slots, their order and the size. -/
theorem Sound.of_slots (h : t.Sound) (hs : t'.slots = t.slots) (hf : t'.free = t.free)
    (hz : t'.size = t.size) : t'.Sound :=
  h.retouched (h.orderly.of_slots hs hf hz) (.of_slots hs)

/-- If no link changes and no block is marked anew, one that stands alone apart, the tree stays
sound. -/
theorem Sound.of_single (h : t.Sound) (ho : t'.Orderly) (hlinks : SameLinks t t') (id : BlockId)
    (hother : ∀ other, other ≠ id → t'.node? other = t.node? other)
    (hmark : t'.isBeingDeleted id → t.isBeingDeleted id ∨
      t.parent? id = none ∧ t.children id = []) : t'.Sound where
  orderly := ho
  forest := hlinks.forest h.forest
  marked other hm := by
    rw [hlinks.parent?, hlinks.children]
    by_cases hid : other = id
    · subst hid
      rcases hmark hm with hold | halone
      · exact h.marked other hold
      · exact halone
    · rw [isBeingDeleted_eq_of_node?_eq (hother other hid)] at hm
      exact h.marked other hm

/-- A change of a block that touches no link and sets no mark. -/
theorem Sound.modify (h : t.Sound) (id : BlockId) {f : Node β → Node β}
    (hi : ∀ node, (f node).index = node.index) (hp : ∀ node, (f node).parent = node.parent)
    (hc : ∀ node, (f node).children = node.children)
    (hf : ∀ node, (f node).flags.contains Flags.beingDeleted →
      node.flags.contains Flags.beingDeleted) : (t.modify id f).Sound := by
  apply h.of_single (h.orderly.modify id f) (sameLinks_modify t id hi hp hc) id
  · intro other ho
    rw [node?_modify, if_neg ho]
  · -- A mark after the change was there before it.
    intro hm
    left
    cases hn : t.node? id with
    | none =>
      have hsame : (t.modify id f).node? id = t.node? id := by
        rw [node?_modify, if_pos rfl, hn]
        rfl
      rwa [isBeingDeleted_eq_of_node?_eq hsame] at hm
    | some node =>
      have hn' : (t.modify id f).node? id = some (f node) := by
        rw [node?_modify, if_pos rfl, hn]
        rfl
      rw [isBeingDeleted_of_node? hn'] at hm
      rw [isBeingDeleted_of_node? hn]
      exact hf node hm

/-! ### Blocks that come and go -/

/-- A block without links may come into a sound tree, marked or not. -/
theorem Sound.alloc (h : t.Sound) {node : Node β} (hi : node.index = none)
    (hp : node.parent = none) (hc : node.children.getD [] = []) : (t.alloc node).2.Sound := by
  have hold := links_of_stale (node?_alloc_fresh h.orderly node)
  simp only [links, Prod.mk.injEq] at hold
  apply h.of_single (h.orderly.alloc node) (sameLinks_alloc h.orderly hi hp hc) (t.alloc node).1
  · intro other ho
    rw [node?_alloc h.orderly, if_neg ho]
  · exact fun _ => Or.inr hold.2

/-- A block without links may leave a sound tree. -/
theorem Sound.vacate (h : t.Sound) {id : BlockId} (hid : t.contains id)
    (hp : t.parent? id = none) (hc : t.children id = []) : (t.vacate id).Sound := by
  apply h.of_single (h.orderly.vacate hid) (h.forest.sameLinks_vacate hid hp hc) id
  · intro other ho
    rw [node?_vacate hid, if_neg ho]
  · exact fun _ => Or.inr ⟨hp, hc⟩

/-! ### Another list of children -/

/-- Another list of children changes no mark. -/
theorem Relisted.isBeingDeleted_eq {library : BlockId} {new : List BlockId}
    (hr : Relisted t t' library new) (id : BlockId) :
    t'.isBeingDeleted id = t.isBeingDeleted id := by
  unfold isBeingDeleted checkFlag flags
  rw [hr id]
  cases t.node? id <;> rfl

/-- Another list of children keeps a tree sound, as long as neither the library nor a block that
it takes in carries the mark. -/
theorem Sound.relist {library : BlockId} {new : List BlockId} (h : t.Sound)
    (ho : t'.Orderly) (hadm : Admissible t library new) (hr : Relisted t t' library new)
    (hlib : ¬ t.isBeingDeleted library) (hnew : ∀ id ∈ new, ¬ t.isBeingDeleted id) :
    t'.Sound where
  orderly := ho
  forest := h.forest.relist hadm hr
  marked id hm := by
    rw [hr.isBeingDeleted_eq] at hm
    obtain ⟨hp, hc⟩ := h.marked id hm
    have hne : id ≠ library := by
      rintro rfl
      exact hlib hm
    rw [hadm.parent?_eq h.forest hr, if_neg fun hin => hnew id hin hm, hp, ite_self,
      hr.children_eq hadm.isLibrary, if_neg hne]
    exact ⟨rfl, hc⟩

/-- Who is attached or has children carries no mark. -/
theorem Sound.not_marked_of_mem (h : t.Sound) {library id : BlockId}
    (hid : id ∈ t.children library) : ¬ t.isBeingDeleted library ∧ ¬ t.isBeingDeleted id := by
  constructor
  · intro hm
    rw [(h.marked library hm).2] at hid
    cases hid
  · intro hm
    have hp := h.forest.mem_children_iff.mp hid
    rw [(h.marked id hm).1] at hp
    cases hp

/-- A library may get any rearrangement of a part of its children. -/
theorem Sound.relist_sub {library : BlockId} {new : List BlockId} (h : t.Sound)
    (ho : t'.Orderly) (hr : Relisted t t' library new) (hlib : t.isLibrary library)
    (hmark : ¬ t.isBeingDeleted library) (hnd : new.Nodup)
    (hsub : ∀ id ∈ new, id ∈ t.children library) : t'.Sound :=
  h.relist ho ⟨hlib, hnd, fun id hid hnot => absurd (hsub id hid) hnot⟩ hr hmark
    fun id hid => (h.not_marked_of_mem (hsub id hid)).2

end Tree

end BlockForest
