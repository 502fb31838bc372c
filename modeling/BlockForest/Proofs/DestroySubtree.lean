import Mathlib
import BlockForest.Proofs.SoundTree
import BlockForest.Proofs.OperationInvariants

/-!
# What destroying a block does

A block that is destroyed takes its whole subtree with it, and each block goes back to its
owner: the entry that made it counts one block less. Blocks that are managed elsewhere stay,
marked and without links. `Razed` says this of a list of blocks, and that nothing else changes.

While a subtree is torn down the tree is no forest: the children of a block that goes drop
their links one after the other while its child list still names them. So the walk is followed
with `Upright`, which speaks of what is not yet torn down. `Hollowed` is the point at which the
block itself is still in its place and its subtree is gone.
-/

set_option autoImplicit false

namespace BlockForest

variable {β : Type}

/-- The mark is set once, however often it is put. -/
theorem Flags.union_beingDeleted_twice (a : Flags) :
    (a.union beingDeleted).union beingDeleted = a.union beingDeleted := by
  unfold union
  rw [UInt32.or_assoc, UInt32.or_self]

/-- A block that is marked and has lost its children. -/
def Node.hollowed (node : Node β) : Node β :=
  { node with
    flags := node.flags.union Flags.beingDeleted
    children := node.children.map fun _ => [] }

/-- A block that is marked and has lost all its links. -/
def Node.bare (node : Node β) : Node β := { node.hollowed with index := none, parent := none }

/-- What is left of a block that is destroyed. -/
def Node.remains (node : Node β) : Option (Node β) :=
  if node.ownership = .unowned then some node.bare else none

/-- A block that was hollowed before it is stripped ends as if it were stripped at once. -/
theorem Node.bare_hollowed (node : Node β) : node.hollowed.bare = node.bare := by
  unfold bare hollowed
  simp only [Flags.union_beingDeleted_twice, Option.map_map]
  rfl

/-- What is left of a block does not depend on whether it was hollowed before. -/
theorem Node.remains_hollowed (node : Node β) : node.hollowed.remains = node.remains := by
  unfold remains
  rw [bare_hollowed]
  rfl

/-- An entry that gets a block back counts one less. -/
theorem Catalogue.entryAt?_elim_release (c : Catalogue β) (counted : Option EntryRef)
    (ref : EntryRef) :
    (counted.elim c c.release).entryAt? ref = (c.entryAt? ref).map fun e =>
      { e with instances := e.instances - if counted = some ref then 1 else 0 } := by
  cases counted with
  | none => simp
  | some other =>
    rw [Option.elim_some, release, entryAt?_modifyEntry]
    simp only [Option.some.injEq, eq_comm (a := other)]
    congr 1
    funext e
    by_cases ho : ref = other
    · simp [ho, Entry.countDown]
    · simp [ho]

namespace Tree

variable {t t' : Tree β}

/-- How many blocks of a list an entry counts as alive. -/
def tally (t : Tree β) (ref : EntryRef) (ids : List BlockId) : Nat :=
  ids.countP fun id => decide ((t.node? id).bind Node.countedBy? = some ref)

/-- No blocks count nothing. -/
@[simp] theorem tally_nil (ref : EntryRef) : t.tally ref [] = 0 := rfl

/-- The counts of two lists add up. -/
theorem tally_append (ref : EntryRef) (a b : List BlockId) :
    t.tally ref (a ++ b) = t.tally ref a + t.tally ref b := List.countP_append

/-- The count of a list is that of its first block and that of the rest. -/
theorem tally_cons (ref : EntryRef) (id : BlockId) (ids : List BlockId) :
    t.tally ref (id :: ids) = t.tally ref [id] + t.tally ref ids :=
  tally_append ref [id] ids

/-- What is counted of some blocks depends on who made them only. -/
theorem tally_congr_of_countedBy? {ids : List BlockId}
    (h : ∀ id ∈ ids, (t'.node? id).bind Node.countedBy? = (t.node? id).bind Node.countedBy?)
    (ref : EntryRef) : t'.tally ref ids = t.tally ref ids := by
  unfold tally
  apply List.countP_congr
  intro id hid
  rw [h id hid]

/-- What an entry counts in a list depends on the blocks of the list alone. -/
theorem tally_congr {ids : List BlockId} (h : ∀ id ∈ ids, t'.node? id = t.node? id)
    (ref : EntryRef) : t'.tally ref ids = t.tally ref ids := by
  apply tally_congr_of_countedBy?
  intro id hid
  rw [h id hid]

end Tree

namespace Site

variable {s s' s'' : Site β}

/-- The number of blocks alive of an entry when some of them are gone. -/
def discount (t : Tree β) (ref : EntryRef) (ids : List BlockId) (entry : Entry β) : Entry β :=
  { entry with instances := entry.instances - t.tally ref ids }

/-- The blocks of a list were destroyed and nothing else happened. -/
structure Razed (s s' : Site β) (ids : List BlockId) : Prop where
  node? : ∀ id, s'.tree.node? id =
    if id ∈ ids then (s.tree.node? id).bind Node.remains else s.tree.node? id
  entryAt? : ∀ ref, s'.catalogue.entryAt? ref =
    (s.catalogue.entryAt? ref).map (discount s.tree ref ids)
  slots : s'.tree.slots.size = s.tree.slots.size
  lasting : Lasting s s'

/-- The blocks of a list were destroyed, and another one is marked and has lost its children. -/
structure Hollowed (s s' : Site β) (root : BlockId) (ids : List BlockId) : Prop where
  node? : ∀ id, s'.tree.node? id =
    if id = root then (s.tree.node? id).map Node.hollowed
    else if id ∈ ids then (s.tree.node? id).bind Node.remains else s.tree.node? id
  entryAt? : ∀ ref, s'.catalogue.entryAt? ref =
    (s.catalogue.entryAt? ref).map (discount s.tree ref ids)
  slots : s'.tree.slots.size = s.tree.slots.size
  lasting : Lasting s s'

namespace Hollowed

variable {root : BlockId} {ids : List BlockId} (h : Hollowed s s' root ids)

include h

/-- The block itself is marked and has lost its children. -/
theorem node?_root {node : Node β} (hn : s.tree.node? root = some node) :
    s'.tree.node? root = some node.hollowed := by
  rw [h.node?, if_pos rfl, hn]
  rfl

/-- The block keeps its place. -/
theorem parent?_root : s'.tree.parent? root = s.tree.parent? root := by
  unfold Tree.parent?
  rw [h.node?, if_pos rfl]
  cases s.tree.node? root <;> rfl

/-- The block keeps its index as long as it stands. -/
theorem index?_root : s'.tree.index? root = s.tree.index? root := by
  unfold Tree.index?
  rw [h.node?, if_pos rfl]
  cases s.tree.node? root <;> rfl

omit h

/-- A block outside the subtree is as it was. -/
theorem node?_of_not_mem {levels : Nat} (h : Hollowed s s' root (s.tree.under levels root))
    {id : BlockId} (hid : id ∉ s.tree.listing levels root) :
    s'.tree.node? id = s.tree.node? id := by
  rw [Tree.mem_listing_iff, not_or] at hid
  rw [h.node?, if_neg hid.1, if_neg hid.2]

end Hollowed

/-- Where no block is gone, no count changes. -/
theorem discount_nil (t : Tree β) (ref : EntryRef) : discount t ref [] = id := by
  funext e
  rfl

/-- Where nothing happens, no blocks are razed. -/
theorem Razed.nil (s : Site β) : Razed s s [] := by
  refine ⟨fun id => by simp, fun ref => ?_, rfl, .refl s⟩
  rw [discount_nil, Option.map_id_fun, id]

/-- Blocks outside of the list are what they were. -/
theorem Razed.node?_of_not_mem {ids : List BlockId} (h : Razed s s' ids) {id : BlockId}
    (hid : id ∉ ids) : s'.tree.node? id = s.tree.node? id := by
  rw [h.node?, if_neg hid]

/-- Two lists of blocks that have none in common may be destroyed one after the other. -/
theorem Razed.trans {a b : List BlockId} (h : Razed s s' a) (h' : Razed s' s'' b)
    (hdis : ∀ id ∈ b, id ∉ a) : Razed s s'' (a ++ b) where
  node? id := by
    rw [h'.node?, h.node?]
    by_cases hb : id ∈ b
    · simp [hb, hdis id hb]
    · simp [hb]
  entryAt? ref := by
    have hsame : s'.tree.tally ref b = s.tree.tally ref b :=
      Tree.tally_congr (fun id hid => h.node?_of_not_mem (hdis id hid)) ref
    rw [h'.entryAt?, h.entryAt?, Option.map_map]
    congr 1
    funext e
    simp only [Function.comp_apply, discount, hsame, Tree.tally_append, Nat.sub_sub]
  slots := h'.slots.trans h.slots
  lasting := h.lasting.trans h'.lasting

/-! ### A block goes back to its owner -/

/-- A slot that is emptied is not taken away. -/
theorem size_slots_vacate (t : Tree β) (id : BlockId) :
    (t.vacate id).slots.size = t.slots.size := by
  simp [Tree.vacate]

/-- A block without links that is marked and has no children goes back to its owner, unless it
is managed elsewhere; then it stays as it is. -/
theorem razed_surrender {id : BlockId} {node : Node β} (hn : s.tree.node? id = some node)
    (hbare : node.bare = node) :
    Razed s (s.surrender id).2 [id] ∧
      (s.surrender id).1 =
        if node.ownership = .unowned then .error (.notDestructible id) else .ok () := by
  have hsurrender := surrender_of_node? hn
  have htally : ∀ ref, s.tree.tally ref [id] = if node.countedBy? = some ref then 1 else 0 := by
    intro ref
    simp [Tree.tally, hn, List.countP_singleton]
  have hlasting := lasting_surrender s id
  by_cases hown : node.ownership = .unowned
  · rw [if_pos hown] at hsurrender ⊢
    have hzero : ∀ ref, s.tree.tally ref [id] = 0 := by
      intro ref
      rw [htally]
      simp [Node.countedBy?, hown]
    rw [hsurrender] at hlasting ⊢
    refine ⟨⟨?_, ?_, rfl, hlasting⟩, rfl⟩
    · intro other
      by_cases ho : other = id
      · simp [ho, hn, Node.remains, hown, hbare]
      · simp [ho]
    · intro ref
      unfold discount
      simp [hzero ref]
  · rw [if_neg hown] at hsurrender ⊢
    rw [hsurrender] at hlasting ⊢
    refine ⟨⟨?_, ?_, size_slots_vacate _ _, hlasting⟩, rfl⟩
    · intro other
      show (s.tree.vacate id).node? other = _
      rw [Tree.node?_vacate (Tree.contains_of_node? hn)]
      by_cases ho : other = id
      · simp [ho, hn, Node.remains, hown]
      · simp [ho]
    · intro ref
      show (node.countedBy?.elim s.catalogue s.catalogue.release).entryAt? ref = _
      rw [Catalogue.entryAt?_elim_release]
      unfold discount
      rw [htally]

/-! ### A block leaves its library -/

/-- Changes to blocks that are then destroyed do not show. -/
theorem Razed.after {ids : List BlockId} {f : Node β → Node β} (hr : Reworked s s')
    (hnode : ∀ id, s'.tree.node? id =
      if id ∈ ids then (s.tree.node? id).map f else s.tree.node? id)
    (hf : ∀ node, (f node).remains = node.remains ∧ (f node).countedBy? = node.countedBy?)
    (h : Razed s' s'' ids) : Razed s s'' ids where
  node? id := by
    rw [h.node?, hnode]
    by_cases hid : id ∈ ids
    · simp only [hid, if_true]
      cases s.tree.node? id with
      | none => rfl
      | some node => exact (hf node).1
    · simp only [hid, if_false]
  entryAt? ref := by
    have htally : s'.tree.tally ref ids = s.tree.tally ref ids := by
      apply Tree.tally_congr_of_countedBy?
      intro id hid
      rw [hnode, if_pos hid]
      cases s.tree.node? id with
      | none => rfl
      | some node => exact (hf node).2
    rw [h.entryAt?, hr.catalogue]
    unfold discount
    rw [htally]
  slots := h.slots.trans hr.slots
  lasting := hr.lasting.trans h.lasting

/-- To drop the links of a block changes its index and its parent and nothing else. -/
theorem node?_dropLinks (s : Site β) (block id : BlockId) :
    (s.dropLinks block).tree.node? id =
      if id ∈ [block] then
        (s.tree.node? id).map fun node => { node with index := none, parent := none }
      else s.tree.node? id := by
  unfold dropLinks
  rw [node?_setParent, node?_setIndex, tree_notify, Option.map_map]
  by_cases hid : id = block
  · simp [hid, Function.comp_def]
  · simp [hid, Function.comp_def]

/-- A block that is marked and has no children leaves a library that is being deleted, or none,
and goes back to its owner. -/
theorem razed_depart {id : BlockId} {node : Node β} (hn : s.tree.node? id = some node)
    (hhollow : node.hollowed = node)
    (hloose : node.parent = none ∧ node.index = none ∨
      ∃ library, node.parent = some library ∧ s.tree.isBeingDeleted library) :
    Razed s (s.depart id).2 [id] ∧
      (s.depart id).1 =
        if node.ownership = .unowned then .error (.notDestructible id) else .ok () := by
  have hparent := Tree.parent?_of_node? hn
  unfold depart
  rcases hloose with ⟨hp, hi⟩ | ⟨library, hp, hm⟩
  · have hleave : s.leave id = (.ok (), s) := by
      simp [leave, hparent, hp]
    rw [hleave]
    apply razed_surrender hn
    rw [Node.bare, hhollow, ← hp, ← hi]
  · have hleave : s.leave id = (.ok (), s.dropLinks id) := by
      simp [leave, hparent, hp, hm]
    rw [hleave]
    have hdrop : (s.dropLinks id).tree.node? id =
        some { node with index := none, parent := none } := by
      rw [node?_dropLinks, if_pos (List.mem_singleton_self id), hn]
      rfl
    obtain ⟨hrazed, hout⟩ := razed_surrender hdrop (by
      rw [← hhollow]
      exact Node.bare_hollowed node)
    refine ⟨Razed.after (reworked_dropLinks s id).toReworked (node?_dropLinks s id) ?_ hrazed, hout⟩
    intro other
    exact ⟨rfl, rfl⟩

/-! ### A block loses its children -/

/-- To condemn a block puts the mark on it, and tells of it. -/
theorem node?_condemn (s : Site β) (block id : BlockId) :
    (s.condemn block).tree.node? id =
      if id = block then
        (s.tree.node? block).map fun node =>
          { node with flags := node.flags.union Flags.beingDeleted }
      else s.tree.node? id := by
  unfold condemn
  rw [tree_notify, node?_modify]

/-- A condemned block still has its children. -/
@[simp] theorem children_condemn (s : Site β) (block id : BlockId) :
    (s.condemn block).tree.children id = s.tree.children id := by
  unfold Tree.children
  rw [node?_condemn]
  by_cases hid : id = block
  · rw [if_pos hid, hid]
    cases s.tree.node? block <;> rfl
  · rw [if_neg hid]

/-- A condemned block is a library if it was one. -/
@[simp] theorem isLibrary_condemn (s : Site β) (block id : BlockId) :
    (s.condemn block).tree.isLibrary id = s.tree.isLibrary id := by
  unfold Tree.isLibrary
  rw [node?_condemn]
  by_cases hid : id = block
  · rw [if_pos hid, hid]
    cases s.tree.node? block <;> rfl
  · rw [if_neg hid]

/-- A live block that is condemned carries the mark. -/
theorem isBeingDeleted_condemn {id : BlockId} (hid : s.tree.contains id) :
    (s.condemn id).tree.isBeingDeleted id := by
  obtain ⟨node, hn⟩ := Option.isSome_iff_exists.mp hid
  have hn' : (s.condemn id).tree.node? id =
      some { node with flags := node.flags.union Flags.beingDeleted } := by
    rw [node?_condemn, if_pos rfl, hn]
    rfl
  rw [Tree.isBeingDeleted_of_node? hn']
  exact Flags.contains_beingDeleted_union.mpr (Or.inr rfl)

/-- A block without children has nothing to lose. -/
theorem hollowed_condemn {id : BlockId} (hc : s.tree.children id = []) :
    Hollowed s (s.condemn id) id [] where
  node? other := by
    rw [node?_condemn]
    by_cases ho : other = id
    · rw [if_pos ho, if_pos ho, ho]
      cases hn : s.tree.node? id with
      | none => rfl
      | some node =>
        rw [Tree.children_of_node? hn] at hc
        cases hcs : node.children with
        | none => simp [Node.hollowed, hcs]
        | some cs =>
          have hnil : cs = [] := by simpa [hcs] using hc
          simp [Node.hollowed, hcs, hnil]
    · simp [ho]
  entryAt? ref := by
    rw [discount_nil, Option.map_id_fun, id_eq, (reworked_condemn s id).catalogue]
  slots := (reworked_condemn s id).slots
  lasting := (reworked_condemn s id).lasting

/-- A notice does not disturb what holds in the course of a destruction. -/
theorem Hollowed.notify {root : BlockId} {ids : List BlockId} (h : Hollowed s s' root ids)
    (event : TreeEvent) : Hollowed s (s'.notify event) root ids where
  node? id := by
    rw [tree_notify]
    exact h.node? id
  entryAt? ref := by
    rw [catalogue_notify]
    exact h.entryAt? ref
  slots := by
    rw [tree_notify]
    exact h.slots
  lasting := h.lasting.trans (reworked_notify s' event).lasting

/-- When all children of a marked block are gone, its list is emptied. -/
theorem hollowed_of_razed {id : BlockId} {ids : List BlockId} (hid : id ∉ ids)
    (h : Razed (s.condemn id) s' ids) : Hollowed s (s'.modifyChildren id fun _ => []) id ids where
  node? other := by
    rw [node?_modifyChildren, h.node?, node?_condemn]
    by_cases ho : other = id
    · subst ho
      simp only [hid, if_false, if_true, Option.map_map]
      rfl
    · simp only [ho, if_false]
      cases hn : s.tree.node? other with
      | none => simp
      | some node => simp
  entryAt? ref := by
    have htally : (s.condemn id).tree.tally ref ids = s.tree.tally ref ids := by
      refine Tree.tally_congr (fun other ho => ?_) ref
      rw [node?_condemn, if_neg]
      rintro rfl
      exact hid ho
    show s'.catalogue.entryAt? ref = _
    rw [h.entryAt?, (reworked_condemn s id).catalogue]
    unfold discount
    rw [htally]
  slots := by
    have hemptied : ReworkedInPlace s' (s'.modifyChildren id fun _ => []) := reworked_modify s' id _
    rw [hemptied.slots, h.slots, (reworked_condemn s id).slots]
  lasting := by
    refine (reworked_condemn s id).lasting.trans (h.lasting.trans ?_)
    exact (reworked_modify s' id _).lasting

/-! ### The walk -/

/-- A block that can be taken off its library at once: it has none, or one that is being deleted
and does not stand below it. -/
def Loose (t : Tree β) (levels : Nat) (id : BlockId) : Prop :=
  t.parent? id = none ∧ t.index? id = none ∨
    ∃ library, t.parent? id = some library ∧ t.isBeingDeleted library ∧
      library ∉ t.listing levels id

/-- What destroying does to the blocks of so many levels. -/
def Razes (β : Type) (levels : Nat) : Prop :=
  ∀ (s : Site β) (id : BlockId), s.tree.Upright levels id → Loose s.tree levels id →
    Razed s (destroyTo (levels + 1) s id).2 (s.tree.listing levels id)

/-- Children of a library that is being deleted, whose subtrees have no block in common and do not
contain the library. -/
structure Doomed (t : Tree β) (levels : Nat) (library : BlockId) (kids : List BlockId) : Prop where
  upright : ∀ kid ∈ kids, t.Upright levels kid
  nodup : (kids.flatMap (t.listing levels)).Nodup
  parent? : ∀ kid ∈ kids, t.parent? kid = some library
  marked : t.isBeingDeleted library
  apart : library ∉ kids.flatMap (t.listing levels)

namespace Doomed

variable {levels : Nat} {library kid : BlockId} {rest : List BlockId}

/-- The first of the doomed children can be taken off at once. -/
theorem loose (h : Doomed s.tree levels library (kid :: rest)) : Loose s.tree levels kid := by
  have hkid := List.mem_cons_self (a := kid) (l := rest)
  refine Or.inr ⟨library, h.parent? kid hkid, h.marked, fun hin => h.apart ?_⟩
  exact List.mem_flatMap.mpr ⟨kid, hkid, hin⟩

/-- The other subtrees are not touched when the first one goes. -/
theorem node?_eq (h : Doomed s.tree levels library (kid :: rest))
    (hfirst : Razed s s' (s.tree.listing levels kid)) {other : BlockId} (ho : other ∈ rest)
    {id : BlockId} (hid : id ∈ s.tree.listing levels other) :
    s'.tree.node? id = s.tree.node? id := by
  have hnd := h.nodup
  rw [List.flatMap_cons] at hnd
  apply hfirst.node?_of_not_mem
  intro hmem
  exact (List.nodup_append.mp hnd).2.2 id hmem id (List.mem_flatMap.mpr ⟨other, ho, hid⟩) rfl

/-- When the first child is razed, the others are still doomed, since no subtree shares a block with
another one. -/
theorem tail (h : Doomed s.tree levels library (kid :: rest))
    (hfirst : Razed s s' (s.tree.listing levels kid)) : Doomed s'.tree levels library rest := by
  have hnd := h.nodup
  have hlib := h.apart
  rw [List.flatMap_cons] at hnd hlib
  rw [List.mem_append, not_or] at hlib
  have hlist : rest.flatMap (s'.tree.listing levels) = rest.flatMap (s.tree.listing levels) :=
    List.flatMap_congr fun other ho => Tree.listing_eq_of_node?_eq fun _ => h.node?_eq hfirst ho
  refine ⟨fun other ho => ?_, ?_, fun other ho => ?_, ?_, ?_⟩
  · exact (h.upright other (List.mem_cons_of_mem _ ho)).of_node?_eq fun _ => h.node?_eq hfirst ho
  · rw [hlist]
    exact (List.nodup_append.mp hnd).2.1
  · unfold Tree.parent?
    rw [h.node?_eq hfirst ho (Tree.mem_listing_self _ _)]
    exact h.parent? other (List.mem_cons_of_mem _ ho)
  · rw [Tree.isBeingDeleted_eq_of_node?_eq (hfirst.node?_of_not_mem hlib.1)]
    exact h.marked
  · rw [hlist]
    exact hlib.2

end Doomed

/-- Subtrees that have no block in common are destroyed one after the other. -/
theorem razed_foldl {levels : Nat} (hdown : Razes β levels) {library : BlockId}
    {kids : List BlockId} {s : Site β} (h : Doomed s.tree levels library kids) :
    Razed s (kids.foldl (fun s kid => (destroyTo (levels + 1) s kid).2) s)
      (kids.flatMap (s.tree.listing levels)) := by
  induction kids generalizing s with
  | nil => exact Razed.nil s
  | cons kid rest ih =>
    have hfirst := hdown s kid (h.upright kid List.mem_cons_self) h.loose
    rw [List.foldl_cons, List.flatMap_cons]
    generalize (destroyTo (levels + 1) s kid).2 = s₁ at hfirst ⊢
    have hrest := ih (h.tail hfirst)
    have hlist : rest.flatMap (s₁.tree.listing levels) = rest.flatMap (s.tree.listing levels) :=
      List.flatMap_congr fun other ho => Tree.listing_eq_of_node?_eq fun _ => h.node?_eq hfirst ho
    have hnd := h.nodup
    rw [hlist] at hrest
    rw [List.flatMap_cons] at hnd
    exact hfirst.trans hrest fun id hid hmem => (List.nodup_append.mp hnd).2.2 id hmem id hid rfl

/-- A block without children is only marked. -/
theorem hollow_of_childless {levels : Nat} {id : BlockId} (hc : s.tree.children id = []) :
    hollow levels s id = (.ok (), s.condemn id) := by
  unfold hollow
  split
  · next hlib =>
    have hreq : (s.condemn id).tree.requireLibrary id = .ok [] :=
      requireLibrary_eq_ok_iff.mpr ⟨hlib, by rw [children_condemn, hc]⟩
    simp [clearWith, hreq]
  · rfl

/-- The children of a block that is marked are destroyed one after the other, and its list is
emptied. -/
theorem hollow_of_children {levels : Nat} {id kid : BlockId} {kids : List BlockId}
    (hc : s.tree.children id = kid :: kids) :
    hollow levels s id = (.ok (), (((kid :: kids).foldl
      (fun s kid => (destroyTo levels s kid).2) ((s.condemn id).notify (.clearing id))).modifyChildren
        id fun _ => []).notify (.cleared id)) := by
  have hlib : (s.condemn id).tree.isLibrary id := by
    rw [isLibrary_condemn]
    exact Tree.isLibrary_of_mem_children (hc ▸ List.mem_cons_self)
  have hreq : (s.condemn id).tree.requireLibrary id = .ok (kid :: kids) :=
    requireLibrary_eq_ok_iff.mpr ⟨hlib, by rw [children_condemn, hc]⟩
  unfold hollow
  rw [if_pos hlib]
  simp [clearWith, hreq]

/-- When a block is marked, its children are about to go, and what is below it is as it was. -/
theorem doomed_children {levels : Nat} {id : BlockId} (hu : s.tree.Upright (levels + 1) id) :
    (∀ other ∈ s.tree.below levels id,
        ((s.condemn id).notify (.clearing id)).tree.node? other = s.tree.node? other) ∧
      Doomed ((s.condemn id).notify (.clearing id)).tree levels id (s.tree.children id) := by
  have hout : id ∉ s.tree.below levels id := hu.root_not_mem
  rw [tree_notify]
  have hkeep : ∀ other ∈ s.tree.below levels id,
      (s.condemn id).tree.node? other = s.tree.node? other := by
    intro other ho
    rw [node?_condemn, if_neg]
    rintro rfl
    exact hout ho
  have hkid : ∀ kid ∈ s.tree.children id, ∀ other ∈ s.tree.listing levels kid,
      (s.condemn id).tree.node? other = s.tree.node? other := fun kid hkid other ho =>
    hkeep other (List.mem_flatMap.mpr ⟨kid, hkid, ho⟩)
  have hbelow : (s.tree.children id).flatMap ((s.condemn id).tree.listing levels) =
      s.tree.below levels id :=
    List.flatMap_congr fun kid hk => Tree.listing_eq_of_node?_eq (hkid kid hk)
  refine ⟨hkeep, fun kid hk => (hu.child hk).of_node?_eq (hkid kid hk), ?_, fun kid hk => ?_,
    isBeingDeleted_condemn (hu.alive id (Tree.mem_listing_self _ _)), ?_⟩
  · rw [hbelow]
    exact (List.nodup_cons.mp (Tree.listing_succ (t := s.tree) levels id ▸ hu.nodup)).2
  · unfold Tree.parent?
    rw [hkid kid hk kid (Tree.mem_listing_self _ _)]
    exact hu.linked id (Tree.mem_listing_self _ _) kid hk
  · rwa [hbelow]

/-- A block is marked and its subtree is destroyed, one level after the other. -/
theorem hollow_spec {levels : Nat} (hdown : ∀ k, levels = k + 1 → Razes β k) {id : BlockId}
    (hu : s.tree.Upright levels id) :
    (hollow levels s id).1 = .ok () ∧
      Hollowed s (hollow levels s id).2 id (s.tree.under levels id) := by
  cases hc : s.tree.children id with
  | nil =>
    have hunder : s.tree.under levels id = [] := by
      cases levels with
      | zero => rfl
      | succ k =>
        show s.tree.below k id = []
        rw [Tree.below, hc]
        rfl
    rw [hollow_of_childless hc, hunder]
    exact ⟨rfl, hollowed_condemn hc⟩
  | cons kid kids =>
    obtain ⟨k, rfl⟩ : ∃ k, levels = k + 1 := by
      cases levels with
      | zero =>
        have hnil : s.tree.children id = [] := hu.within
        rw [hnil] at hc
        cases hc
      | succ k => exact ⟨k, rfl⟩
    have hout : id ∉ s.tree.below k id := hu.root_not_mem
    obtain ⟨hkeep, hdoomed⟩ := doomed_children hu
    rw [hc] at hdoomed
    -- The mark on the library changes no list of children, so it still has the same blocks below it.
    have hbelow : (kid :: kids).flatMap (((s.condemn id).notify (.clearing id)).tree.listing k) =
        s.tree.below k id := by
      rw [Tree.below, hc]
      refine List.flatMap_congr fun other ho => Tree.listing_eq_of_node?_eq fun x hx => ?_
      exact hkeep x (List.mem_flatMap.mpr ⟨other, hc ▸ ho, hx⟩)
    have hrazed := razed_foldl (hdown k rfl) hdoomed
    rw [hbelow] at hrazed
    rw [hollow_of_children hc]
    refine ⟨rfl, Hollowed.notify (hollowed_of_razed hout ?_) _⟩
    have hsame : ∀ node : Node β, node.remains = node.remains ∧ node.countedBy? = node.countedBy? :=
      fun _ => ⟨rfl, rfl⟩
    refine Razed.after (reworked_notify _ (.clearing id)).toReworked ?_ hsame hrazed
    intro x
    rw [tree_notify, Option.map_id_fun', id_eq, ite_self]

/-- The end of a block that has lost its children. -/
theorem Hollowed.razed {id : BlockId} {ids : List BlockId} (h : Hollowed s s' id ids)
    (hid : id ∉ ids) (h' : Razed s' s'' [id]) : Razed s s'' (id :: ids) where
  node? other := by
    rw [h'.node?, h.node?]
    by_cases ho : other = id
    · subst ho
      simp only [List.mem_cons, true_or, if_true]
      cases s.tree.node? other with
      | none => rfl
      | some node => exact Node.remains_hollowed node
    · simp [ho]
  entryAt? ref := by
    have hsame : s'.tree.tally ref [id] = s.tree.tally ref [id] := by
      unfold Tree.tally
      apply List.countP_congr
      intro other ho
      rw [List.mem_singleton] at ho
      subst ho
      rw [h.node?, if_pos rfl]
      cases s.tree.node? other <;> rfl
    rw [h'.entryAt?, h.entryAt?, Option.map_map]
    congr 1
    funext e
    simp only [Function.comp_apply, discount, hsame, Tree.tally_cons ref id ids, Nat.sub_sub,
      Nat.add_comm]
  slots := h'.slots.trans h.slots
  lasting := h.lasting.trans h'.lasting

/-- When its subtree is gone, a block that is destroyed departs itself. -/
theorem destroyTo_eq_depart {levels : Nat} {id : BlockId} (hid : s.tree.contains id)
    (hok : (hollow levels s id).1 = .ok ()) :
    destroyTo (levels + 1) s id = (hollow levels s id).2.depart id := by
  rw [destroyTo_succ, hid]
  generalize hollow levels s id = r at hok
  obtain ⟨_, s'⟩ := r
  cases hok
  rfl

/-- A block that can be taken off at once is destroyed with all that is below it; the operation
ends with a remark if the block is managed elsewhere. -/
theorem destroyTo_spec {levels : Nat} {id : BlockId} {node : Node β}
    (hn : s.tree.node? id = some node) (hu : s.tree.Upright levels id)
    (hl : Loose s.tree levels id) :
    Razed s (destroyTo (levels + 1) s id).2 (s.tree.listing levels id) ∧
      (destroyTo (levels + 1) s id).1 =
        if node.ownership = .unowned then .error (.notDestructible id) else .ok () := by
  induction levels using Nat.strong_induction_on generalizing s id node with
  | _ levels ih =>
    have hdown : ∀ k, levels = k + 1 → Razes β k := by
      rintro k rfl s id hu hl
      obtain ⟨node, hn⟩ :=
        Option.isSome_iff_exists.mp (hu.alive id (Tree.mem_listing_self _ _))
      exact (ih k (Nat.lt_succ_self k) hn hu hl).1
    obtain ⟨hok, hhollow⟩ := hollow_spec hdown hu
    rw [destroyTo_eq_depart (Tree.contains_of_node? hn) hok]
    generalize (hollow levels s id).2 = s' at hhollow ⊢
    have hn' := hhollow.node?_root hn
    have htwice : node.hollowed.hollowed = node.hollowed := by
      unfold Node.hollowed
      simp only [Flags.union_beingDeleted_twice, Option.map_map]
      rfl
    have hloose : node.hollowed.parent = none ∧ node.hollowed.index = none ∨
        ∃ library, node.hollowed.parent = some library ∧ s'.tree.isBeingDeleted library := by
      rw [Loose, Tree.parent?_of_node? hn, Tree.index?_of_node? hn] at hl
      rcases hl with hfree | ⟨library, hp, hm, hlib⟩
      · exact Or.inl hfree
      · refine Or.inr ⟨library, hp, ?_⟩
        rwa [Tree.isBeingDeleted_eq_of_node?_eq (hhollow.node?_of_not_mem hlib)]
    obtain ⟨hrazed, hout⟩ := razed_depart hn' htwice hloose
    rw [Tree.listing_eq_cons]
    exact ⟨hhollow.razed hu.not_mem_under hrazed, hout⟩

/-- By induction on the levels, a subtree that is upright is razed when its root is destroyed. -/
theorem razes (levels : Nat) : Razes β levels := by
  intro s id hu hl
  obtain ⟨node, hn⟩ := Option.isSome_iff_exists.mp (hu.alive id (Tree.mem_listing_self _ _))
  exact (destroyTo_spec hn hu hl).1

/-- The same without a bound on the levels, for a block that belongs to no library. -/
theorem razed_destroy {levels : Nat} {id : BlockId} (hu : s.tree.Upright levels id)
    (hp : s.tree.parent? id = none) (hi : s.tree.index? id = none) :
    Razed s (s.destroy id).2 (s.tree.listing levels id) := by
  obtain ⟨hfull, hlist⟩ := hu.full
  rw [← hlist]
  exact razes _ s id hfull (Or.inl ⟨hp, hi⟩)

end Site

end BlockForest
