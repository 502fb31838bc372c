import Mathlib
import BlockForest.Proofs.SlotsAndNames
import BlockForest.Tree.Destroy

/-!
# Changes to single blocks

The operations on child lists are made of a few steps that change blocks one at a time and tell
the observers. `Reworked` says what such steps have in common: no block comes or goes and
nothing outside the blocks changes. Besides, each of them leaves every slot its generation, also
where it is empty, and this is `ReworkedInPlace`. What each step does to the blocks is an equation
for `node?`; the steps that number the blocks of a list come down to one such equation, too.
-/

set_option autoImplicit false

namespace BlockForest

variable {β : Type}

/-- Who owns a block, and the entry it names. -/
def Node.holder (node : Node β) : Ownership × Option EntryRef := (node.ownership, node.entry)

/-- The entry that counts a block as alive. -/
def Node.countedBy? (node : Node β) : Option EntryRef :=
  if node.ownership = .registryOwned then node.entry else none

/-- Which entry a block goes back to, case by case. -/
theorem Node.elim_countedBy? {α : Type} (node : Node β) (a : α) (f : EntryRef → α) :
    node.countedBy?.elim a f =
      match node.ownership, node.entry with
      | .registryOwned, some ref => f ref
      | _, _ => a := by
  unfold countedBy?
  cases node.ownership with
  | registryOwned => cases node.entry <;> rfl
  | staticOwned => rfl
  | unowned => rfl

namespace Site

/-- Only the contents of blocks differ, and what the observers were told. -/
structure Reworked (s s' : Site β) : Prop where
  catalogue : s'.catalogue = s.catalogue
  registry : s'.tree.registry = s.tree.registry
  observers : s'.tree.observers = s.tree.observers
  slots : s'.tree.slots.size = s.tree.slots.size
  orderly : s.tree.Orderly → s'.tree.Orderly
  holder : ∀ id, (s'.tree.node? id).map Node.holder = (s.tree.node? id).map Node.holder

/-- To do nothing is a change of this kind, the start of every composition. -/
theorem Reworked.refl (s : Site β) : Reworked s s :=
  ⟨rfl, rfl, rfl, rfl, id, fun _ => rfl⟩

/-- Two such changes in a row are one, so an operation is followed step by step. -/
theorem Reworked.trans {s s' s'' : Site β} (h : Reworked s s') (h' : Reworked s' s'') :
    Reworked s s'' where
  catalogue := h'.catalogue.trans h.catalogue
  registry := h'.registry.trans h.registry
  observers := h'.observers.trans h.observers
  slots := h'.slots.trans h.slots
  orderly ho := h'.orderly (h.orderly ho)
  holder id := (h'.holder id).trans (h.holder id)

/-- Since no block comes or goes, the same names are alive. -/
theorem Reworked.contains {s s' : Site β} (h : Reworked s s') (id : BlockId) :
    s'.tree.contains id = s.tree.contains id := by
  have hsome := congrArg Option.isSome (h.holder id)
  rwa [Option.isSome_map, Option.isSome_map] at hsome

end Site

/-- The generation of a slot, and whether there is a block in it. -/
def Slot.tenancy (slot : Slot β) : UInt32 × Bool := (slot.generation, slot.node.isSome)

/-- The same slots are taken, under the same generations, and the same are to be used next. -/
structure Tree.SameTenancy (t t' : Tree β) : Prop where
  slots : t'.slots.map Slot.tenancy = t.slots.map Slot.tenancy
  free : t'.free = t.free
  size : t'.size = t.size

/-- A tree has the slots that it has. -/
theorem Tree.SameTenancy.refl (t : Tree β) : t.SameTenancy t := ⟨rfl, rfl, rfl⟩

/-- Slots that stay the same twice stay the same, so the steps of an operation compose. -/
theorem Tree.SameTenancy.trans {t t' t'' : Tree β} (h : t.SameTenancy t')
    (h' : t'.SameTenancy t'') : t.SameTenancy t'' :=
  ⟨h'.slots.trans h.slots, h'.free.trans h.free, h'.size.trans h.size⟩

/-- To change a block does not move it to another slot or free one. -/
theorem Tree.sameTenancy_modify (t : Tree β) (id : BlockId) (f : Node β → Node β) :
    t.SameTenancy (t.modify id f) := by
  unfold Tree.modify
  cases hn : t.node? id with
  | none => exact .refl t
  | some node =>
    refine ⟨Array.ext_getElem? fun index => ?_, rfl, rfl⟩
    rw [Array.getElem?_map, Array.getElem?_map]
    by_cases hi : id.index = index
    · subst hi
      rw [Array.getElem?_setIfInBounds_self_of_lt (index_lt_of_node? hn),
        node?_eq_some_iff.mp hn]
      rfl
    · rw [Array.getElem?_setIfInBounds_ne hi]

namespace Site

/-- Nothing but the contents of blocks differs, and each slot has the generation it had. -/
structure ReworkedInPlace (s s' : Site β) : Prop extends Reworked s s' where
  tenancy : s.tree.SameTenancy s'.tree

/-- To do nothing changes no slot and no block. -/
theorem ReworkedInPlace.refl (s : Site β) : ReworkedInPlace s s := ⟨.refl s, .refl s.tree⟩

/-- Changes that stay within the slots compose. -/
theorem ReworkedInPlace.trans {s s' s'' : Site β} (h : ReworkedInPlace s s')
    (h' : ReworkedInPlace s' s'') : ReworkedInPlace s s'' :=
  ⟨h.toReworked.trans h'.toReworked, h.tenancy.trans h'.tenancy⟩

/-! ### Telling the observers -/

/-- Telling observers leaves the tree alone. -/
@[simp] theorem tree_notify (s : Site β) (event : TreeEvent) : (s.notify event).tree = s.tree := by
  unfold notify
  split <;> rfl

/-- Telling observers leaves the catalogue alone. -/
@[simp] theorem catalogue_notify (s : Site β) (event : TreeEvent) :
    (s.notify event).catalogue = s.catalogue := by
  unfold notify
  split <;> rfl

/-- Telling observers of an event for many blocks leaves the tree alone. By induction on the list,
each event does. -/
@[simp] theorem tree_notifyAll (event : BlockId → TreeEvent) (s : Site β)
    (blocks : List BlockId) : (notifyAll event s blocks).tree = s.tree := by
  unfold notifyAll
  induction blocks generalizing s with
  | nil => rfl
  | cons block rest ih => rw [List.foldl_cons, ih, tree_notify]

/-- Telling observers of an event for many blocks leaves the catalogue alone. -/
@[simp] theorem catalogue_notifyAll (event : BlockId → TreeEvent) (s : Site β)
    (blocks : List BlockId) : (notifyAll event s blocks).catalogue = s.catalogue := by
  unfold notifyAll
  induction blocks generalizing s with
  | nil => rfl
  | cons block rest ih => rw [List.foldl_cons, ih, catalogue_notify]

/-- Telling observers of an event throughout a subtree leaves the tree alone. -/
@[simp] theorem tree_notifySubtree (s : Site β) (root : BlockId) (event : BlockId → TreeEvent) :
    (s.notifySubtree root event).tree = s.tree := by
  unfold notifySubtree
  split
  · rfl
  · exact tree_notifyAll _ _ _

/-- Telling observers of an event throughout a subtree leaves the catalogue alone. -/
@[simp] theorem catalogue_notifySubtree (s : Site β) (root : BlockId)
    (event : BlockId → TreeEvent) : (s.notifySubtree root event).catalogue = s.catalogue := by
  unfold notifySubtree
  split
  · rfl
  · exact catalogue_notifyAll _ _ _

/-- What leaves tree and catalogue alone is no change of a block. -/
theorem ReworkedInPlace.of_eq {s s' : Site β} (ht : s'.tree = s.tree)
    (hc : s'.catalogue = s.catalogue) : ReworkedInPlace s s' := by
  refine ⟨⟨hc, ?_, ?_, ?_, ?_, ?_⟩, ?_⟩ <;> rw [ht]
  · exact id
  · exact fun _ => rfl
  · exact .refl _

/-- An event changes no block, so it can stand anywhere in a chain of changes. -/
theorem reworked_notify (s : Site β) (event : TreeEvent) : ReworkedInPlace s (s.notify event) :=
  .of_eq (tree_notify s event) (catalogue_notify s event)

/-- Events throughout a subtree change no block either. -/
theorem reworked_notifySubtree (s : Site β) (root : BlockId) (event : BlockId → TreeEvent) :
    ReworkedInPlace s (s.notifySubtree root event) :=
  .of_eq (tree_notifySubtree s root event) (catalogue_notifySubtree s root event)

/-! ### Changing one block -/

/-- To change a block of a site is to change it in its tree. -/
@[simp] theorem tree_modify (s : Site β) (id : BlockId) (f : Node β → Node β) :
    (s.modify id f).tree = s.tree.modify id f := rfl

/-- To change a block leaves the counts of the entries alone. -/
@[simp] theorem catalogue_modify (s : Site β) (id : BlockId) (f : Node β → Node β) :
    (s.modify id f).catalogue = s.catalogue := rfl

/-- A change of one block that leaves its owner alone. -/
theorem reworked_modify (s : Site β) (id : BlockId) (f : Node β → Node β)
    (hf : ∀ node, (f node).holder = node.holder := by exact fun _ => rfl) :
    ReworkedInPlace s (s.modify id f) where
  tenancy := Tree.sameTenancy_modify s.tree id f
  catalogue := rfl
  registry := by
    simp only [tree_modify, Tree.modify]
    split <;> rfl
  observers := by
    simp only [tree_modify, Tree.modify]
    split <;> rfl
  slots := Tree.size_slots_modify s.tree id f
  orderly h := h.modify id f
  holder other := by
    rw [tree_modify, Tree.node?_modify]
    by_cases ho : other = id
    · rw [if_pos ho, ho, Option.map_map]
      congr 1
      funext node
      exact hf node
    · rw [if_neg ho]

/-- What a site finds after a block was changed: the changed block under its name, everything else
as before. -/
theorem node?_modify (s : Site β) (id other : BlockId) (f : Node β → Node β) :
    (s.modify id f).tree.node? other =
      if other = id then (s.tree.node? id).map f else s.tree.node? other :=
  Tree.node?_modify s.tree id other f

/-- The children of a library are changed and no other field of any block, and blocks that hold no
children still hold none. -/
theorem node?_modifyChildren (s : Site β) (library id : BlockId)
    (f : List BlockId → List BlockId) :
    (s.modifyChildren library f).tree.node? id =
      (s.tree.node? id).map fun node =>
        { node with children := if id = library then node.children.map f else node.children } := by
  rw [modifyChildren, node?_modify]
  by_cases hid : id = library
  · subst hid
    simp
  · simp [hid]

/-- The parent of one block is set and nothing else of any block. -/
theorem node?_setParent (s : Site β) (block id : BlockId) (parent : Option BlockId) :
    (s.setParent block parent).tree.node? id =
      (s.tree.node? id).map fun node =>
        { node with parent := if id = block then parent else node.parent } := by
  rw [setParent, node?_modify]
  by_cases hid : id = block
  · subst hid
    simp
  · simp [hid]

/-- The index of one block is set and nothing else of any block. -/
theorem node?_setIndex (s : Site β) (block id : BlockId) (index : Option Nat) :
    (s.setIndex block index).tree.node? id =
      (s.tree.node? id).map fun node =>
        { node with index := if id = block then index else node.index } := by
  unfold setIndex
  cases hn : s.tree.node? block with
  | none =>
    by_cases hid : id = block
    · simp [hid, hn]
    · simp [hid]
  | some node =>
    by_cases hi : node.index = index
    · subst hi
      by_cases hid : id = block
      · simp [hid, hn]
      · simp [hid]
    · simp only [hi, if_false, tree_notify, node?_modify, hn, Option.map_some]
      by_cases hid : id = block
      · simp [hid, hn]
      · simp [hid]

/-- To give a block an index, with the notice that goes with it, changes no more than this block. -/
theorem reworked_setIndex (s : Site β) (id : BlockId) (index : Option Nat) :
    ReworkedInPlace s (s.setIndex id index) := by
  unfold setIndex
  split
  · exact .refl s
  · split
    · exact .refl s
    · exact (reworked_modify s id _).trans (reworked_notify _ _)

/-! ### Numbering -/

/-- To number the blocks of a list is a chain of such steps, so it is a change of the same kind. -/
theorem reworked_number (s : Site β) (start : Nat) (blocks : List BlockId) :
    ReworkedInPlace s (number s start blocks) := by
  induction blocks generalizing s start with
  | nil => exact .refl s
  | cons block rest ih => exact (reworked_setIndex s block _).trans (ih _ _)

/-- After the blocks of a list were numbered, each has its position in the list, counted from the
start, and blocks that are not in the list keep their indexes. -/
theorem node?_number (s : Site β) (start : Nat) {blocks : List BlockId} (hnd : blocks.Nodup)
    (id : BlockId) :
    (number s start blocks).tree.node? id =
      (s.tree.node? id).map fun node =>
        { node with
          index := if id ∈ blocks then some (start + blocks.idxOf id) else node.index } := by
  induction blocks generalizing s start with
  | nil => simp [number]
  | cons block rest ih =>
    obtain ⟨hnot, hnd⟩ := List.nodup_cons.mp hnd
    rw [number, ih _ _ hnd, node?_setIndex, Option.map_map]
    congr 1
    funext node
    by_cases hb : id = block
    · subst hb
      simp [hnot]
    · have hidx : (block :: rest).idxOf id = rest.idxOf id + 1 :=
        List.idxOf_cons_ne rest fun h => hb h.symm
      by_cases hr : id ∈ rest
      · simp [hr, hidx, Nat.add_assoc, Nat.add_comm 1]
      · simp [hr, hb]

/-- Numbering the children from a position on gives each of them its place in the list. -/
theorem node?_reindex (s : Site β) (library : BlockId) (start : Nat)
    (hnd : (s.tree.children library).Nodup) (id : BlockId) :
    (s.reindex library start).tree.node? id =
      (s.tree.node? id).map fun node =>
        { node with
          index := if id ∈ (s.tree.children library).drop start then
              some ((s.tree.children library).idxOf id)
            else node.index } := by
  rw [reindex, node?_number s start (hnd.sublist (List.drop_sublist _ _))]
  congr 1
  funext node
  by_cases hmem : id ∈ (s.tree.children library).drop start
  · have hsplit := List.take_append_drop start (s.tree.children library)
    have hnot : id ∉ (s.tree.children library).take start := by
      intro htake
      rw [← hsplit] at hnd
      exact (List.nodup_append.mp hnd).2.2 id htake id hmem rfl
    have hlt : start ≤ (s.tree.children library).length := by
      by_contra hgt
      rw [List.drop_eq_nil_of_le (by omega)] at hmem
      simp at hmem
    have hidx : (s.tree.children library).idxOf id =
        start + ((s.tree.children library).drop start).idxOf id := by
      conv_lhs => rw [← hsplit, List.idxOf_append_of_notMem hnot, List.length_take]
      omega
    rw [if_pos hmem, if_pos hmem, hidx]
  · rw [if_neg hmem, if_neg hmem]

/-- To renumber the children of a library from some position on is to number a part of its list. -/
theorem reworked_reindex (s : Site β) (library : BlockId) (start : Nat) :
    ReworkedInPlace s (s.reindex library start) := reworked_number _ _ _

end Site

end BlockForest
