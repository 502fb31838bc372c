import Mathlib
import BlockForest.Proofs.DestroySubtree

/-!
# What the operations do to a forest

The operations come in three kinds. Those on attributes touch no link, which is `Retouched`.
Those on places give a library another order of a part of its children, or a block more;
`Relists` collects what is kept by these two changes, and so by all operations that are made of
them. And a block that is destroyed takes its subtree with it and leaves its library.

A forest that is pruned of all blocks below one is a forest again. So the walk of `destroy` is
taken up where only the block itself is left in its place, and the block is followed out of it.
`Plucked` is where this ends, as long as the library of the block carries no mark. Nothing else
is asked of the marks.
-/

set_option autoImplicit false

namespace BlockForest

variable {β : Type}

namespace Site

variable {s s' : Site β} {library block : BlockId}

/-! ### Attributes -/

/-- An attribute of a block that is no link can be changed, and all links stay. -/
theorem sameLinks_update (s : Site β) (id : BlockId) {f : Node β → Node β}
    (hi : ∀ node, (f node).index = node.index) (hp : ∀ node, (f node).parent = node.parent)
    (hc : ∀ node, (f node).children = node.children) :
    Tree.SameLinks s.tree (s.update id f).2.tree := by
  unfold update
  split
  · exact Tree.sameLinks_modify s.tree id hi hp hc
  · exact (Tree.Retouched.refl s.tree).links

/-- Setting a flag touches no link. -/
theorem sameLinks_addFlag (s : Site β) (id : BlockId) (flag : Flags) :
    Tree.SameLinks s.tree (s.addFlag id flag).2.tree :=
  sameLinks_update s id (fun _ => rfl) (fun _ => rfl) fun _ => rfl

/-- Taking a flag away touches no link. -/
theorem sameLinks_removeFlag (s : Site β) (id : BlockId) (flag : Flags) :
    Tree.SameLinks s.tree (s.removeFlag id flag).2.tree :=
  sameLinks_update s id (fun _ => rfl) (fun _ => rfl) fun _ => rfl

/-- Whether a block takes part in serialization is a flag as well. -/
theorem sameLinks_setSerializable (s : Site β) (id : BlockId) (on : Bool) :
    Tree.SameLinks s.tree (s.setSerializable id on).2.tree := by
  unfold setSerializable
  split
  · exact sameLinks_addFlag s id _
  · exact sameLinks_removeFlag s id _

/-- A new name touches neither links nor marks. -/
theorem retouched_rename (s : Site β) (id : BlockId) (name : String) :
    Tree.Retouched s.tree (s.rename id name).2.tree := by
  unfold rename
  split
  · exact .refl s.tree
  · split
    · exact .refl s.tree
    · rw [tree_notify, tree_notify]
      exact Tree.retouched_modify s.tree id (fun _ => rfl) (fun _ => rfl) (fun _ => rfl)
        fun _ => rfl

/-- A new payload touches neither links nor marks. -/
theorem retouched_setPayload (s : Site β) (id : BlockId) (payload : β) :
    Tree.Retouched s.tree (s.setPayload id payload).tree :=
  Tree.retouched_modify s.tree id (fun _ => rfl) (fun _ => rfl) (fun _ => rfl) fun _ => rfl

/-- Freezing down so many levels touches neither links nor marks, wherever it turns back. By
induction on the levels. -/
theorem retouched_freezeTo (frozen : Bool) (levels : Nat) (s : Site β) (id : BlockId) :
    Tree.Retouched s.tree (freezeTo frozen levels s id).2.tree := by
  induction levels generalizing s id with
  | zero => exact .refl s.tree
  | succ levels ih =>
    unfold freezeTo
    split
    · exact .refl s.tree
    · split
      · exact .refl s.tree
      · apply forEach_preserves (P := fun s' : Site β => Tree.Retouched s.tree s'.tree)
          fun s' id' hs' => hs'.trans (ih s' id')
        rw [tree_notify]
        exact Tree.retouched_modify s.tree id (fun _ => rfl) (fun _ => rfl) (fun _ => rfl)
          fun _ => rfl

/-- What optimizing does to payloads touches neither links nor marks. -/
theorem retouched_optimize [Payload β] (s : Site β) (root : BlockId) :
    Tree.Retouched s.tree (s.optimize root).tree := by
  unfold optimize
  apply foldl_preserves (P := fun s' : Site β => Tree.Retouched s.tree s'.tree) ?_ (.refl s.tree)
  intro s' id hs'
  refine hs'.trans (Tree.retouched_modify s'.tree id ?_ ?_ ?_ ?_) <;> exact fun _ => rfl

/-- Emptying an empty list changes nothing. -/
theorem retouched_emptied (hc : s.tree.children library = []) :
    Tree.Retouched s.tree (s.modifyChildren library fun _ => []).tree := by
  apply Tree.Retouched.of_node?_eq
  intro id
  rw [node?_modifyChildren]
  by_cases hid : id = library
  · subst hid
    cases hn : s.tree.node? id with
    | none => rfl
    | some node =>
      rw [Tree.children_of_node? hn] at hc
      have hsame : (node.children.map fun _ => []) = node.children := by
        cases hcs : node.children with
        | none => rfl
        | some children =>
          rw [hcs, Option.getD_some] at hc
          rw [hc, Option.map_some]
      simp only [Option.map_some, if_true, hsame]
  · simp [hid]

/-! ### New blocks -/

/-- A new block has no links, so all links are as they were. -/
theorem sameLinks_place [Payload β] (ho : s.tree.Orderly) (payload : β)
    (entry : Option EntryRef) (ownership : Ownership) (flags : Flags) :
    Tree.SameLinks s.tree (s.place payload entry ownership flags).2.tree := by
  apply Tree.sameLinks_alloc ho rfl rfl
  split <;> rfl

/-- To create a block by the name of its type adds a block without links, or nothing if the name is
not known. -/
theorem sameLinks_createByName [Payload β] (ho : s.tree.Orderly) (name : String) :
    Tree.SameLinks s.tree (s.createByName name).2.tree := by
  unfold createByName
  split
  · exact sameLinks_place ho _ _ _ _
  · exact (Tree.Retouched.refl s.tree).links

/-- The same holds where the name of an unknown type is an error. -/
theorem sameLinks_create [Payload β] (ho : s.tree.Orderly) (name : String) :
    Tree.SameLinks s.tree (s.create name).2.tree := by
  have hmake := sameLinks_createByName ho name
  unfold create
  split
  · next heq =>
    rw [heq] at hmake
    exact hmake
  · next heq =>
    rw [heq] at hmake
    exact hmake

/-- A block that may be reclaimed is managed elsewhere and stands alone. -/
theorem node?_of_checkReclaim {t : Tree β} {id : BlockId} {payload : β}
    (h : checkReclaim t id = .ok payload) :
    ∃ node, t.node? id = some node ∧ node.ownership = .unowned ∧ node.parent = none ∧
      node.children.getD [] = [] := by
  unfold checkReclaim at h
  split at h
  · cases h
  · next node hn =>
    split_ifs at h with hown hp hc
    exact ⟨node, require_eq_ok_iff.mp hn, not_not.mp hown, by simpa using hp, by simpa using hc⟩

/-- A block may be reclaimed only if it stands alone, so taking it out breaks no link. -/
theorem alone_of_checkReclaim {t : Tree β} {id : BlockId} {payload : β}
    (h : checkReclaim t id = .ok payload) :
    t.contains id ∧ t.parent? id = none ∧ t.children id = [] := by
  obtain ⟨node, hn, -, hp, hc⟩ := node?_of_checkReclaim h
  rw [Tree.parent?_of_node? hn, Tree.children_of_node? hn]
  exact ⟨Tree.contains_of_node? hn, hp, hc⟩

/-- To reclaim a block leaves all links as they were, since it had none. -/
theorem sameLinks_reclaim (h : s.tree.Forest) (id : BlockId) :
    Tree.SameLinks s.tree (s.reclaim id).2.tree := by
  unfold reclaim
  split
  · next heq =>
    obtain ⟨hid, hp, hc⟩ := alone_of_checkReclaim heq
    exact h.sameLinks_vacate hid hp hc
  · exact (Tree.Retouched.refl s.tree).links

/-! ### Places -/

section

variable [Payload β]

/-- What is kept when a library gets a part of its children in some order, or a block that is
attachable. -/
structure Relists (P : Site β → Prop) : Prop where
  forest : ∀ {s}, P s → s.tree.Forest
  shuffle : ∀ {s s'} {library block : BlockId} {new : List BlockId}, P s →
    block ∈ s.tree.children library → Reworked s s' →
    Tree.Relisted s.tree s'.tree library new → new.Nodup →
    (∀ id ∈ new, id ∈ s.tree.children library) → P s'
  attach : ∀ {s} {library block : BlockId} {index : Nat}, P s →
    Attachable s.tree library block → index ≤ (s.tree.children library).length →
    P (s.attach library block index)

namespace Relists

variable {P : Site β → Prop} (hk : Relists P) (h : P s)

include hk h

/-- A library loses a child, and what is kept under rearrangement is kept. -/
theorem unlink {index : Nat} (hi : (s.tree.children library)[index]? = some block) :
    P (s.unlink library block index) := by
  have hf := hk.forest h
  apply hk.shuffle h (List.mem_of_getElem? hi) (reworked_unlink s library block index).toReworked
    (relisted_unlink hf hi)
  · exact (hf.nodup_children library).sublist (List.eraseIdx_sublist _ _)
  · intro id hid
    exact List.mem_of_mem_eraseIdx hid

/-- What is kept under rearrangement is kept by a removal, also by one that is refused. -/
theorem remove (library block : BlockId) : P (s.remove library block).2 := by
  unfold Site.remove
  split
  · next hpos => exact hk.unlink h (getElem?_of_positionOf hpos)
  · exact h

/-- It is kept when a block leaves its library, if it has one. -/
theorem detach (block : BlockId) : P (s.detach block).2 := by
  unfold Site.detach
  split
  · exact h
  · split
    · exact hk.remove h _ block
    · exact h

/-- It is kept by an exchange, which gives the library a permuted list. -/
theorem swap (library a b : BlockId) : P (s.swap library a b).2 := by
  have hf := hk.forest h
  unfold Site.swap
  split
  · exact h
  · exact h
  · next first second ha hb =>
    have hfirst := getElem?_of_positionOf ha
    have hsecond := getElem?_of_positionOf hb
    have hperm := perm_exchanged hfirst hsecond
    apply hk.shuffle h (List.mem_of_getElem? hfirst)
      (reworked_exchange s library a b first second).toReworked (relisted_exchange hf hfirst hsecond)
    · exact hperm.nodup_iff.mpr (hf.nodup_children library)
    · exact fun id => hperm.mem_iff.mp

/-- It is kept by a move inside a library, which permutes its list as well. -/
theorem moveTo (library block : BlockId) (target : Nat) :
    P (s.moveTo library block target).2 := by
  have hf := hk.forest h
  unfold Site.moveTo
  split
  · exact h
  · next source hpos =>
    simp only
    split
    · exact h
    · next hlt =>
      split
      · exact h
      · have hsource := getElem?_of_positionOf hpos
        have ht : target < (s.tree.children library).length := Nat.not_le.mp hlt
        have hperm := perm_moved hsource ht
        apply hk.shuffle h (List.mem_of_getElem? hsource)
          (reworked_shift s library block source target).toReworked (relisted_shift hf hsource ht)
        · exact hperm.nodup_iff.mpr (hf.nodup_children library)
        · exact fun id => hperm.mem_iff.mp

/-- It is kept by an insertion, which only attaches what may be attached. -/
theorem insert (library block : BlockId) (index : Nat) :
    P (s.insert library block index).2 := by
  unfold Site.insert
  split
  · next hcheck =>
    obtain ⟨ha, hi⟩ := checkInsertion_eq_ok_iff.mp hcheck
    exact hk.attach h ha hi
  · exact h

/-- It is kept when a block is added behind the last child. -/
theorem add (library block : BlockId) : P (s.add library block).2 := by
  unfold Site.add
  split
  · exact hk.insert h library block _
  · exact h

/-- It is kept when a block goes from one library into another one at a position, step by step. -/
theorem reparentAt (block library : BlockId) (index : Nat) :
    P (s.reparentAt block library index).2 := by
  unfold Site.reparentAt
  split
  · exact h
  · exact hk.insert h library block index
  · next old _ =>
    have hremove := hk.remove h old block
    split
    · next heq =>
      rw [heq] at hremove
      exact hk.insert hremove library block index
    · next heq =>
      rw [heq] at hremove
      exact hremove

/-- It is kept when a block goes to the end of another library. -/
theorem reparent (block library : BlockId) : P (s.reparent block library).2 := by
  unfold Site.reparent
  split
  · exact h
  · exact hk.reparentAt h block library _

end Relists

/-- The check keeps out whoever is attached or above the library. -/
theorem admissible_attach {index : Nat} (h : s.tree.Forest) (ha : Attachable s.tree library block)
    (hi : index ≤ (s.tree.children library).length) :
    Tree.Admissible s.tree library ((s.tree.children library).insertIdx index block) ∧
      Tree.Relisted s.tree (s.attach library block index).tree library
        ((s.tree.children library).insertIdx index block) := by
  have hnot : ¬ s.tree.Above block library := by
    rw [← h.mem_ancestors (Tree.contains_of_isLibrary ha.isLibrary)]
    exact ha.apart
  have hne : block ≠ library := by
    rintro rfl
    exact hnot (.refl block)
  have hout : block ∉ s.tree.children library := by
    intro hin
    rw [h.mem_children_iff, ha.detached] at hin
    cases hin
  refine ⟨⟨ha.isLibrary, ?_, ?_⟩,
    relisted_attach h ha.isLibrary ha.contains ha.detached hne hi⟩
  · refine (List.perm_insertIdx block _ hi).nodup_iff.mpr ?_
    exact List.nodup_cons.mpr ⟨hout, h.nodup_children library⟩
  · intro id hid hold
    rw [List.mem_insertIdx hi, or_iff_left hold] at hid
    subst hid
    exact ⟨ha.contains, ha.detached, hnot⟩

/-- To be a forest is kept in this way. This is the instance from which all structural calls
follow. -/
theorem relists_forest : Relists fun s : Site β => s.tree.Forest where
  forest h := h
  shuffle h hmem _ hr hnd hsub :=
    h.relist ⟨Tree.isLibrary_of_mem_children hmem, hnd, fun id hid hnot =>
      absurd (hsub id hid) hnot⟩ hr
  attach h ha hi :=
    have hadm := admissible_attach h ha hi
    h.relist hadm.1 hadm.2

end

end Site

/-! ### A forest that loses a subtree -/

namespace Tree

variable {t t' : Tree β}

/-- Who is met below the root is a child of somebody who is met. -/
theorem mem_children_of_mem_under {levels : Nat} {root id : BlockId}
    (h : id ∈ t.under levels root) :
    ∃ library ∈ t.listing levels root, id ∈ t.children library := by
  induction levels generalizing root with
  | zero => cases h
  | succ levels ih =>
    obtain ⟨child, hc, hid⟩ := List.mem_flatMap.mp h
    rw [mem_listing_iff] at hid
    rcases hid with rfl | hid
    · exact ⟨root, mem_listing_self _ _, hc⟩
    · obtain ⟨library, hlib, hid⟩ := ih hid
      exact ⟨library, mem_listing_child hc hlib, hid⟩

/-- The blocks of a list lose all their links, and one more block loses its children. -/
def Pruned (t t' : Tree β) (root : BlockId) (gone : List BlockId) : Prop :=
  ∀ id, t'.links id =
    if id ∈ gone then (none, none, [])
    else if id = root then (t.index? id, t.parent? id, [])
    else t.links id

section

variable {root : BlockId} {gone : List BlockId} (hl : Pruned t t' root gone)

include hl

/-- After the pruning only blocks of the list have lost their index. -/
theorem Pruned.index?_eq (id : BlockId) :
    t'.index? id = if id ∈ gone then none else t.index? id := by
  have h := congrArg Prod.fst (hl id)
  simp only [links] at h
  rw [h]
  split_ifs <;> rfl

/-- After the pruning only blocks of the list have lost their parent. -/
theorem Pruned.parent?_eq (id : BlockId) :
    t'.parent? id = if id ∈ gone then none else t.parent? id := by
  have h := congrArg (fun l => l.2.1) (hl id)
  simp only [links] at h
  rw [h]
  split_ifs <;> rfl

/-- After the pruning the blocks of the list and the root have no children. -/
theorem Pruned.children_eq (id : BlockId) :
    t'.children id = if id = root ∨ id ∈ gone then [] else t.children id := by
  have h := congrArg (fun l => l.2.2) (hl id)
  simp only [links] at h
  rw [h]
  split_ifs <;> simp_all

end

/-- A forest that is pruned of all blocks below one is still a forest. -/
theorem Forest.prune (h : t.Forest) {root : BlockId} {gone : List BlockId}
    (hdown : ∀ id, id = root ∨ id ∈ gone → ∀ child ∈ t.children id, child ∈ gone)
    (hup : ∀ id ∈ gone, ∃ library, (library = root ∨ library ∈ gone) ∧ id ∈ t.children library)
    (hlinks : t.Pruned t' root gone) : t'.Forest where
  child library index id hid := by
    have hparent := hlinks.parent?_eq
    have hindex := hlinks.index?_eq
    have hchildren := hlinks.children_eq
    rw [hchildren] at hid
    split_ifs at hid with hlib
    · simp at hid
    · have hnot : id ∉ gone := by
        intro hgone
        obtain ⟨other, ho, hmem⟩ := hup id hgone
        rw [h.mem_children_iff, (h.child library index id hid).1] at hmem
        cases hmem
        exact hlib ho
      rw [hparent, hindex, if_neg hnot, if_neg hnot]
      exact h.child library index id hid
  listed id library hp := by
    rw [hlinks.parent?_eq] at hp
    split_ifs at hp with hgone
    have hmem := h.listed id library hp
    rw [hlinks.children_eq, if_neg]
    · exact hmem
    · exact fun hlib => hgone (hdown library hlib id hmem)
  indexed id := by
    rw [hlinks.parent?_eq, hlinks.index?_eq]
    split_ifs
    · simp
    · exact h.indexed id
  grounded id := by
    have hparent := hlinks.parent?_eq
    obtain ⟨d, hd⟩ := h.grounded id
    -- The way to the top is followed upwards. It ends earlier where it meets a block that was cut off.
    induction hd with
    | @top b hp =>
      refine ⟨0, Rises.top ?_⟩
      rw [hparent, hp, ite_self]
    | @up b p d hp _ ih =>
      by_cases hgone : b ∈ gone
      · refine ⟨0, Rises.top ?_⟩
        rw [hparent, if_pos hgone]
      · obtain ⟨e, he⟩ := ih
        refine ⟨e + 1, Rises.up ?_ he⟩
        rw [hparent, if_neg hgone, hp]

end Tree

namespace Site

variable {s s' : Site β}

/-! ### Destroying -/

/-- Hollowing a block prunes the tree below it. -/
theorem Hollowed.pruned {id : BlockId} {ids : List BlockId} (hh : Hollowed s s' id ids)
    (hid : id ∉ ids) : s.tree.Pruned s'.tree id ids := by
  have hempty : ∀ cs : Option (List BlockId),
      (cs.map fun _ => ([] : List BlockId)).getD [] = [] := by
    intro cs
    cases cs <;> rfl
  intro other
  have hnode := hh.node? other
  cases hn : s.tree.node? other with
  | none =>
    have hstale : s'.tree.node? other = none := by
      rw [hnode, hn]
      simp
    rw [Tree.links_of_stale hstale, Tree.links_of_stale hn]
    simp [Tree.index?, Tree.parent?, hn]
  | some node =>
    rw [hn] at hnode
    by_cases ho : other = id
    · subst ho
      rw [if_pos rfl] at hnode
      rw [Tree.links_of_node? hnode, if_neg hid, if_pos rfl, Tree.index?_of_node? hn,
        Tree.parent?_of_node? hn]
      simp only [Node.hollowed, hempty]
    · rw [if_neg ho] at hnode
      by_cases hin : other ∈ ids
      · rw [if_pos hin] at hnode
        rw [if_pos hin]
        by_cases hown : node.ownership = .unowned
        · rw [Option.bind_some, Node.remains, if_pos hown] at hnode
          rw [Tree.links_of_node? hnode]
          simp only [Node.bare, Node.hollowed, hempty]
        · rw [Option.bind_some, Node.remains, if_neg hown] at hnode
          rw [Tree.links_of_stale hnode]
      · rw [if_neg hin] at hnode
        rw [if_neg hin, if_neg ho, Tree.links_eq_of_node?_eq (hnode.trans hn.symm)]

/-- A forest is one again when all blocks below one of them are gone. -/
theorem Hollowed.forest {levels : Nat} {id : BlockId} (h : s.tree.Forest)
    (hu : s.tree.Upright levels id) (hh : Hollowed s s' id (s.tree.under levels id)) :
    s'.tree.Forest := by
  refine h.prune ?_ ?_ (hh.pruned hu.not_mem_under)
  · intro other ho child hc
    exact hu.within.mem_under (Tree.mem_listing_iff.mpr ho) hc
  · intro other ho
    obtain ⟨library, hlib, hmem⟩ := Tree.mem_children_of_mem_under ho
    exact ⟨library, Tree.mem_listing_iff.mp hlib, hmem⟩

/-- A block left its library, if it had one, and the blocks of a list stand alone or are gone. -/
structure Plucked (t t' : Tree β) (id : BlockId) (gone : List BlockId) : Prop where
  forest : t'.Forest
  slots : t'.slots.size = t.slots.size
  free : ∀ other, other = id ∨ other ∈ gone → t'.parent? other = none
  bare : ∀ other ∈ gone, t'.children other = []
  parent? : ∀ other, other ≠ id → other ∉ gone → t'.parent? other = t.parent? other
  children : ∀ other, other ∉ gone → t'.children other = (t.children other).erase id
  isBeingDeleted : ∀ other, other ∉ gone → t'.isBeingDeleted other = t.isBeingDeleted other

/-- A block that left its library and then took its subtree along was plucked from the tree. -/
theorem Plucked.trans {t t' t'' : Tree β} {id : BlockId} {gone : List BlockId}
    (h : Plucked t t' id []) (h' : Plucked t' t'' id gone) : Plucked t t'' id gone where
  forest := h'.forest
  slots := h'.slots.trans h.slots
  free := h'.free
  bare := h'.bare
  parent? other hne ho := (h'.parent? other hne ho).trans (h.parent? other hne List.not_mem_nil)
  children other ho := by
    -- Where the block has been taken out already, there is nothing to take out.
    rw [h'.children other ho, List.erase_of_not_mem, h.children other List.not_mem_nil]
    intro hmem
    rw [h.forest.mem_children_iff, h.free id (Or.inl rfl)] at hmem
    cases hmem
  isBeingDeleted other ho :=
    (h'.isBeingDeleted other ho).trans (h.isBeingDeleted other List.not_mem_nil)

/-- The subtrees of the children of a library are apart from each other and from the library. -/
theorem children_apart {t : Tree β} (h : t.Forest) {library kid : BlockId} {rest : List BlockId}
    (hkids : t.children library = kid :: rest) {levels : Nat} (hlevels : t.slots.size = levels) :
    library ∉ t.listing levels kid ∧ library ∉ rest.flatMap (t.listing levels) ∧
      ∀ x ∈ t.listing levels kid, x ∉ rest.flatMap (t.listing levels) := by
  have hmem : kid ∈ t.children library := hkids ▸ List.mem_cons_self
  have hup : t.Upright (levels + 1) library :=
    h.upright_of_le (Tree.contains_of_isLibrary (Tree.isLibrary_of_mem_children hmem)) (by omega)
  have hout : library ∉ t.below levels library := hup.root_not_mem
  have hnd : (t.below levels library).Nodup :=
    (List.nodup_cons.mp (Tree.listing_succ (t := t) levels library ▸ hup.nodup)).2
  rw [Tree.below, hkids, List.flatMap_cons] at hout hnd
  rw [List.mem_append, not_or] at hout
  obtain ⟨-, -, hdis⟩ := List.nodup_append.mp hnd
  exact ⟨hout.1, hout.2, fun x hx hx' => hdis x hx x hx' rfl⟩

/-- When the first child is gone, the list of the library begins with the next one, and the
subtrees of the others are as they were. -/
theorem Plucked.rest {t t' : Tree β} (h : t.Forest) {library kid : BlockId} {rest : List BlockId}
    (hkids : t.children library = kid :: rest) {levels : Nat} (hlevels : t.slots.size = levels)
    (hplucked : Plucked t t' kid (t.listing levels kid)) :
    t'.children library = rest ∧
      ∀ other ∈ rest, t'.listing levels other = t.listing levels other := by
  have hp : t.parent? kid = some library :=
    h.mem_children_iff.mp (hkids ▸ List.mem_cons_self)
  obtain ⟨hout, hout', hdis⟩ := children_apart h hkids hlevels
  refine ⟨?_, fun other ho => Tree.listing_congr fun x hx => ?_⟩
  · rw [hplucked.children library hout, hkids, List.erase_cons_head]
  · have hin : x ∈ rest.flatMap (t.listing levels) := List.mem_flatMap.mpr ⟨other, ho, hx⟩
    rw [hplucked.children x fun hmem => hdis x hmem hin, List.erase_of_not_mem]
    intro hmem
    rw [h.mem_children_iff, hp, Option.some.injEq] at hmem
    exact hout' (hmem ▸ hin)

/-- A block that belongs to no library is in no list. -/
theorem erase_children {t : Tree β} (h : t.Forest) {id : BlockId} (hp : t.parent? id = none)
    (other : BlockId) : (t.children other).erase id = t.children other := by
  apply List.erase_of_not_mem
  intro hmem
  rw [h.mem_children_iff, hp] at hmem
  cases hmem

/-- A block that stands alone goes back to its owner. -/
theorem plucked_surrender {id : BlockId} (h : s.tree.Forest) (hp : s.tree.parent? id = none)
    (hc : s.tree.children id = []) : Plucked s.tree (s.surrender id).2.tree id [id] := by
  have hcases : (s.surrender id).2.tree = s.tree ∨
      s.tree.contains id ∧ (s.surrender id).2.tree = s.tree.vacate id := by
    rcases surrender_cases s id with heq | ⟨node, hn, heq⟩
    · exact Or.inl (congrArg Site.tree heq)
    · exact Or.inr ⟨Tree.contains_of_node? hn, congrArg Site.tree heq⟩
  obtain ⟨hlinks, hslots, hmark⟩ : Tree.SameLinks s.tree (s.surrender id).2.tree ∧
      (s.surrender id).2.tree.slots.size = s.tree.slots.size ∧ ∀ other, other ∉ [id] →
        (s.surrender id).2.tree.isBeingDeleted other = s.tree.isBeingDeleted other := by
    rcases hcases with heq | ⟨hid, heq⟩
    · rw [heq]
      exact ⟨(Tree.Retouched.refl s.tree).links, rfl, fun _ _ => rfl⟩
    · rw [heq]
      refine ⟨h.sameLinks_vacate hid hp hc, size_slots_vacate _ _, fun other ho => ?_⟩
      apply Tree.isBeingDeleted_eq_of_node?_eq
      rw [Tree.node?_vacate hid, if_neg (fun heq => ho (List.mem_singleton.mpr heq))]
  refine ⟨hlinks.forest h, hslots, ?_, ?_, fun other _ _ => hlinks.parent? other, ?_, hmark⟩
  · intro other ho
    rw [List.mem_singleton, or_self] at ho
    rw [hlinks.parent?, ho, hp]
  · intro other ho
    rw [List.mem_singleton] at ho
    rw [hlinks.children, ho, hc]
  · intro other _
    rw [hlinks.children, erase_children h hp]

/-- A child of a library has a position in it. -/
theorem positionOf_of_mem {t : Tree β} {library block : BlockId}
    (h : block ∈ t.children library) : ∃ index, positionOf t library block = .ok index := by
  have hreq := requireLibrary_eq_ok_iff.mpr ⟨Tree.isLibrary_of_mem_children h, rfl⟩
  have hsome : ((t.children library).idxOf? block).isSome := List.isSome_idxOf?.mpr h
  obtain ⟨index, hindex⟩ := Option.isSome_iff_exists.mp hsome
  exact ⟨index, by simp [positionOf, hreq, hindex]⟩

/-- A block is taken off a library that does not carry the mark, and its other children stay. -/
theorem relisted_leave {id library : BlockId} (h : s.tree.Forest)
    (hp : s.tree.parent? id = some library) (hm : ¬ s.tree.isBeingDeleted library) :
    (s.leave id).1 = .ok () ∧
      s.tree.Relisted (s.leave id).2.tree library ((s.tree.children library).erase id) := by
  obtain ⟨index, hpos⟩ := positionOf_of_mem (h.mem_children_iff.mpr hp)
  have hindex := getElem?_of_positionOf hpos
  have hleave : s.leave id = (.ok (), s.unlink library id index) := by
    simp [leave, hp, hm, remove, hpos]
  rw [hleave, List.erase_eq_eraseIdx_of_idxOf
    (idxOf_eq_of_getElem? (h.nodup_children library) hindex)]
  exact ⟨rfl, relisted_unlink h hindex⟩

/-- A block leaves its library, unless the library carries the mark. -/
theorem plucked_leave {id : BlockId} (h : s.tree.Forest)
    (hlib : ∀ library, s.tree.parent? id = some library → ¬ s.tree.isBeingDeleted library) :
    (s.leave id).1 = .ok () ∧ Plucked s.tree (s.leave id).2.tree id [] := by
  cases hp : s.tree.parent? id with
  | none =>
    have hleave : s.leave id = (.ok (), s) := by simp [leave, hp]
    rw [hleave]
    refine ⟨rfl, h, rfl, ?_, by simp, fun _ _ _ => rfl, ?_, fun _ _ => rfl⟩
    · rintro other (rfl | ho)
      · exact hp
      · cases ho
    · intro other _
      rw [erase_children h hp]
  | some library =>
    have hmem := h.mem_children_iff.mpr hp
    have hnd := h.nodup_children library
    have hlibrary := Tree.isLibrary_of_mem_children hmem
    have hslots := (reworked_leave s id).slots
    obtain ⟨hok, hrel⟩ := relisted_leave h hp (hlib library hp)
    have hold : ∀ other, other ∈ (s.tree.children library).erase id ↔
        other ∈ s.tree.children library ∧ other ≠ id := fun other => by
      rw [hnd.mem_erase_iff, and_comm]
    have hadm : Tree.Admissible s.tree library ((s.tree.children library).erase id) :=
      ⟨hlibrary, hnd.erase id, fun other hin hout => absurd ((hold other).mp hin).1 hout⟩
    refine ⟨hok, h.relist hadm hrel, hslots, ?_, by simp, ?_, ?_,
      fun other _ => hrel.isBeingDeleted_eq other⟩
    · rintro other (rfl | ho)
      · rw [hadm.parent?_eq h hrel, if_neg fun hin => ((hold other).mp hin).2 rfl, if_pos hmem]
      · cases ho
    · intro other hne _
      rw [hadm.parent?_eq h hrel]
      by_cases hin : other ∈ s.tree.children library
      · rw [if_pos ((hold other).mpr ⟨hin, hne⟩), h.mem_children_iff.mp hin]
      · rw [if_neg fun hin' => hin ((hold other).mp hin').1, if_neg hin]
    · intro other _
      rw [hrel.children_eq hlibrary]
      by_cases hother : other = library
      · rw [if_pos hother, hother]
      · rw [if_neg hother, List.erase_of_not_mem]
        intro hin
        rw [h.mem_children_iff, hp] at hin
        cases hin
        exact hother rfl

/-- A block that could leave its library departs by giving up its slot after that. -/
theorem depart_eq_surrender {id : BlockId} (hleft : (s.leave id).1 = .ok ()) :
    s.depart id = (s.leave id).2.surrender id := by
  unfold depart
  generalize s.leave id = r at hleft
  obtain ⟨_, s'⟩ := r
  cases hleft
  rfl

/-- A block of a forest that is destroyed leaves its library, unless the library carries the
mark, and what stood below it stands alone or is gone. -/
theorem plucked_destroyTo {levels : Nat} {id : BlockId} (h : s.tree.Forest)
    (hid : s.tree.contains id) (hlevels : s.tree.slots.size = levels)
    (hlib : ∀ library, s.tree.parent? id = some library → ¬ s.tree.isBeingDeleted library) :
    Plucked s.tree (destroyTo (levels + 1) s id).2.tree id (s.tree.listing levels id) := by
  have hu : s.tree.Upright levels id := hlevels ▸ h.upright hid
  have hout := hu.not_mem_under
  obtain ⟨hok, hhollow⟩ := hollow_spec (fun k _ => razes k) hu
  rw [destroyTo_eq_depart hid hok]
  generalize (hollow levels s id).2 = s₁ at hhollow ⊢
  have hpruned := hhollow.pruned hout
  have hsame : ∀ other, other ∉ s.tree.listing levels id →
      s₁.tree.node? other = s.tree.node? other := fun _ => hhollow.node?_of_not_mem
  -- The library of the block is not below it, so it is what it was and still goes on.
  have hlib₁ : ∀ library, s₁.tree.parent? id = some library →
      ¬ s₁.tree.isBeingDeleted library := by
    intro library hp
    rw [hpruned.parent?_eq, if_neg hout] at hp
    have hnot : library ∉ s.tree.listing levels id := fun hin =>
      h.root_not_mem_children hin (h.mem_children_iff.mpr hp)
    rw [Tree.isBeingDeleted_eq_of_node?_eq (hsame library hnot)]
    exact hlib library hp
  obtain ⟨hleft, hup⟩ := plucked_leave (hhollow.forest h hu) hlib₁
  have hc₂ : (s₁.leave id).2.tree.children id = [] := by
    rw [hup.children id List.not_mem_nil, hpruned.children_eq, if_pos (Or.inl rfl)]
    rfl
  have hgone := hup.trans (plucked_surrender hup.forest (hup.free id (Or.inl rfl)) hc₂)
  rw [depart_eq_surrender hleft]
  have hne : ∀ other, other ∉ s.tree.listing levels id → other ∉ [id] := by
    rintro other ho hin
    rw [List.mem_singleton.mp hin] at ho
    exact ho (Tree.mem_listing_self _ _)
  refine ⟨hgone.forest, hgone.slots.trans hhollow.slots, ?_, ?_, ?_, ?_, ?_⟩
  · intro other ho
    by_cases hother : other = id
    · exact hgone.free other (Or.inl hother)
    · have hbelow := (Tree.mem_listing_iff.mp (ho.resolve_left hother)).resolve_left hother
      rw [hgone.parent? other hother (by simpa using hother), hpruned.parent?_eq, if_pos hbelow]
  · intro other ho
    by_cases hother : other = id
    · exact hgone.bare other (List.mem_singleton.mpr hother)
    · have hbelow := (Tree.mem_listing_iff.mp ho).resolve_left hother
      rw [hgone.children other (by simpa using hother), hpruned.children_eq,
        if_pos (Or.inr hbelow)]
      rfl
  · intro other hother ho
    rw [hgone.parent? other hother (hne other ho)]
    unfold Tree.parent?
    rw [hsame other ho]
  · intro other ho
    rw [hgone.children other (hne other ho)]
    unfold Tree.children
    rw [hsame other ho]
  · intro other ho
    rw [hgone.isBeingDeleted other (hne other ho),
      Tree.isBeingDeleted_eq_of_node?_eq (hsame other ho)]

/-- A name that is stale is refused, and nothing happens. -/
theorem destroy_of_stale {id : BlockId} (hid : ¬ s.tree.contains id) :
    s.destroy id = (.error (.staleBlock id), s) := by
  rw [destroy, destroyTo_succ]
  simp [hid]

/-- The children of a library are destroyed one after the other, and each leaves the list. -/
theorem destroy_children {P : Site β → Prop} {library : BlockId} {levels : Nat}
    (hforest : ∀ s, P s → s.tree.Forest)
    (hstep : ∀ s kid, P s → kid ∈ s.tree.children library → s.tree.slots.size = levels →
      P (destroyTo (levels + 1) s kid).2 ∧
        Plucked s.tree (destroyTo (levels + 1) s kid).2.tree kid (s.tree.listing levels kid))
    (kids : List BlockId) (h : P s) (hlevels : s.tree.slots.size = levels)
    (hkids : s.tree.children library = kids) :
    P (kids.foldl (fun s kid => (destroyTo (levels + 1) s kid).2) s) ∧
      (kids.foldl (fun s kid => (destroyTo (levels + 1) s kid).2) s).tree.children library =
        [] := by
  induction kids generalizing s with
  | nil => exact ⟨h, hkids⟩
  | cons kid rest ih =>
    have hmem : kid ∈ s.tree.children library := by
      rw [hkids]
      exact List.mem_cons_self
    obtain ⟨hkept, hup⟩ := hstep s kid h hmem hlevels
    have hout : library ∉ s.tree.listing levels kid := fun hin =>
      (hforest s h).root_not_mem_children hin hmem
    rw [List.foldl_cons]
    apply ih hkept (hup.slots.trans hlevels)
    rw [hup.children library hout, hkids, List.erase_cons_head]

end Site

end BlockForest
