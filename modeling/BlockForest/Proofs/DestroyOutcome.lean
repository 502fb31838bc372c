import Mathlib
import BlockForest.Proofs.ReachedSites

/-!
# What is left of a tree when a block is destroyed

Destroying a block or clearing a library ends the blocks of whole subtrees, and what becomes of
a block depends on its owner alone, however deep it stands and whoever owns the blocks around it.
Those that have an owner are gone, and those managed elsewhere stand alone: this is `Felled`.

* A block that is destroyed takes the way out of a subtree that is torn down only up to itself;
  then it leaves a library that goes on. So `node?_destroyTo` joins what `hollow_spec` says of
  the subtree with what `relisted_leave` says of the library: its other children move up.
* A library that is cleared loses its children one by one. The other subtrees do not see it, and
  of the list that shrinks nothing is left in the end.

The number of blocks is read off what is alive before and after.
-/

set_option autoImplicit false

namespace BlockForest

variable {β : Type}

/-- To strip a block twice is to strip it once. -/
theorem Node.bare_bare (node : Node β) : node.bare.bare = node.bare := node.bare_hollowed

/-- What is left of a block does not depend on whether it was stripped before. -/
theorem Node.remains_bare (node : Node β) : node.bare.remains = node.remains := by
  unfold remains
  rw [bare_bare]
  rfl

namespace Tree

variable {t t' : Tree β}

/-- A block after another one has left its library. -/
def parted (t : Tree β) (gone id : BlockId) (node : Node β) : Node β :=
  match t.parent? gone with
  | none => node
  | some library => node.relist library (t.children library) ((t.children library).erase gone) id

/-- When a child leaves, its library has one child less, the children behind it move up, and the
child has no links. -/
theorem parted_of_parent? {gone library : BlockId} (hp : t.parent? gone = some library)
    (id : BlockId) : t.parted gone id =
      Node.relist library (t.children library) ((t.children library).erase gone) id := by
  funext node
  rw [parted, hp]

/-- Only the library and its children see that a block has left. -/
theorem parted_eq_self {gone id : BlockId} {node : Node β}
    (hid : ∀ library, t.parent? gone = some library →
      id ≠ library ∧ id ∉ t.children library) : t.parted gone id node = node := by
  unfold parted
  split
  · rfl
  · next library hp =>
    obtain ⟨hne, hnot⟩ := hid library hp
    have hnot' : id ∉ (t.children library).erase gone := fun hmem =>
      hnot (List.mem_of_mem_erase hmem)
    rw [Node.relist, if_neg hnot', if_neg hnot, if_neg hnot', if_neg hnot, if_neg hne]

/-- What parting does to other blocks depends only on the library of the block and on its list. -/
theorem parted_congr {gone : BlockId} (hp : t'.parent? gone = t.parent? gone)
    (hc : ∀ library, t.parent? gone = some library → t'.children library = t.children library)
    (id : BlockId) (node : Node β) : t'.parted gone id node = t.parted gone id node := by
  unfold parted
  rw [hp]
  cases hlib : t.parent? gone with
  | none => rfl
  | some library => simp only [hc library hlib]

/-- Whoever stands below a block has another library than the block, so it does not see the block
leave. -/
theorem parted_of_under (h : t.Forest) {levels : Nat} {id other : BlockId}
    (hout : ∀ library, t.parent? id = some library → library ∉ t.listing levels id)
    (hunder : other ∈ t.under levels id) (node : Node β) : t.parted id other node = node := by
  apply parted_eq_self
  intro library hp
  have hnot := hout library hp
  refine ⟨fun heq => hnot (heq ▸ mem_listing_of_under hunder), fun hmem => ?_⟩
  obtain ⟨library', hin', hmem'⟩ := mem_children_of_mem_under hunder
  rw [h.mem_children_iff] at hmem hmem'
  rw [hmem, Option.some.injEq] at hmem'
  exact hnot (hmem' ▸ hin')

/-- A block that left its library has neither library nor index. -/
theorem parted_self (h : t.Forest) {id : BlockId} {node : Node β} (hn : t.node? id = some node) :
    t.parted id id node = { node with index := none, parent := none } := by
  have hparent := parent?_of_node? hn
  have hindex := index?_of_node? hn
  unfold parted
  cases hp : t.parent? id with
  | none =>
    have hi := h.indexed id
    rw [hp] at hi hparent
    have hnone : t.index? id = none := by simpa using hi
    rw [hnone] at hindex
    simp only [hindex, hparent]
  | some library =>
    have hmem := h.mem_children_iff.mpr hp
    have hne : id ≠ library := by
      rintro rfl
      exact h.not_mem_children_self id hmem
    have hnot : id ∉ (t.children library).erase id := (h.nodup_children library).not_mem_erase
    simp only [Node.relist, if_neg hnot, if_pos hmem, if_neg hne]

/-- The blocks of a list were destroyed: those that have an owner are gone, and the others are
marked and stand alone. -/
structure Felled (t t' : Tree β) (blocks : List BlockId) : Prop where
  nodup : blocks.Nodup
  owned : ∀ id ∈ blocks, t.ownership? id ≠ some .unowned → t'.node? id = none
  unowned : ∀ id ∈ blocks, ∀ node, t.node? id = some node → node.ownership = .unowned →
    t'.node? id = some { node with
      flags := node.flags.union Flags.beingDeleted
      index := none
      parent := none
      children := node.children.map fun _ => [] }
  size : t'.size + (blocks.filter fun id => t.ownership? id ≠ some .unowned).length = t.size

/-- If the blocks of a list became what destruction leaves of them and no other block came or went,
the free list and the size follow from the order of the slots. -/
theorem felled_of_node? {blocks : List BlockId} (ho : t.Orderly) (ho' : t'.Orderly)
    (hnd : blocks.Nodup) (halive : ∀ id ∈ blocks, t.contains id)
    (hin : ∀ id ∈ blocks, t'.node? id = (t.node? id).bind Node.remains)
    (hout : ∀ id, id ∉ blocks → t'.contains id = t.contains id) : Felled t t' blocks := by
  have howned : ∀ id ∈ blocks, t.ownership? id ≠ some .unowned → t'.node? id = none := by
    intro id hid hown
    obtain ⟨node, hn⟩ := Option.isSome_iff_exists.mp (halive id hid)
    have hnot : node.ownership ≠ .unowned := by simpa [ownership?, hn] using hown
    rw [hin id hid, hn, Option.bind_some, Node.remains, if_neg hnot]
  have hunowned : ∀ id ∈ blocks, ∀ node, t.node? id = some node → node.ownership = .unowned →
      t'.node? id = some node.bare := by
    intro id hid node hn hown
    rw [hin id hid, hn, Option.bind_some, Node.remains, if_pos hown]
  refine ⟨hnd, howned, hunowned, ho.size_add_of_gone ho' (hnd.filter _) ?_ ?_⟩
  · intro id hid
    exact halive id (List.mem_of_mem_filter hid)
  · intro id
    rw [List.mem_filter, decide_eq_true_iff, not_and_not_right]
    by_cases hid : id ∈ blocks
    · obtain ⟨node, hn⟩ := Option.isSome_iff_exists.mp (halive id hid)
      have hown : t.ownership? id = some .unowned ↔ node.ownership = .unowned := by
        rw [ownership?, hn, Option.map_some, Option.some.injEq]
      rw [hown]
      constructor
      · intro hc
        refine ⟨halive id hid, fun _ => ?_⟩
        by_contra hnot
        rw [contains, howned id hid (mt hown.mp hnot)] at hc
        cases hc
      · rintro ⟨-, hstays⟩
        rw [contains, hunowned id hid node hn (hstays hid)]
        rfl
    · rw [hout id hid]
      exact ⟨fun hc => ⟨hc, fun hin => absurd hin hid⟩, And.left⟩

end Tree

namespace Site

variable {s s' : Site β} {library : BlockId} {levels : Nat}

/-! ### A block is destroyed -/

/-- A block leaves its library, unless the library carries the mark, and its siblings move up. -/
theorem node?_leave {id : BlockId} (h : s.tree.Forest)
    (hlib : ∀ library, s.tree.parent? id = some library → ¬ s.tree.isBeingDeleted library) :
    (s.leave id).1 = .ok () ∧ ∀ other, (s.leave id).2.tree.node? other =
      (s.tree.node? other).map (s.tree.parted id other) := by
  cases hp : s.tree.parent? id with
  | none =>
    have hleave : s.leave id = (.ok (), s) := by simp [leave, hp]
    have hparted : ∀ other, s.tree.parted id other = fun node => node := by
      intro other
      funext node
      rw [Tree.parted, hp]
    refine ⟨by rw [hleave], fun other => ?_⟩
    rw [hleave, hparted, Option.map_id']
  | some library =>
    obtain ⟨hok, hrel⟩ := relisted_leave h hp (hlib library hp)
    refine ⟨hok, fun other => (hrel other).trans ?_⟩
    congr 1
    funext node
    rw [Tree.parted, hp]

/-- What becomes of each block when one is destroyed: the blocks of its subtree go back to their
owners, and its library goes on without it. -/
theorem node?_destroyTo {id : BlockId} (h : s.tree.Forest) (hid : s.tree.contains id)
    (hlevels : s.tree.slots.size = levels)
    (hlib : ∀ library, s.tree.parent? id = some library → ¬ s.tree.isBeingDeleted library) :
    (destroyTo (levels + 1) s id).1 =
        (if s.tree.ownership? id = some .unowned then .error (.notDestructible id) else .ok ()) ∧
      ∀ other, (destroyTo (levels + 1) s id).2.tree.node? other =
        if other ∈ s.tree.listing levels id then (s.tree.node? other).bind Node.remains
        else (s.tree.node? other).map (s.tree.parted id other) := by
  have hu : s.tree.Upright levels id := hlevels ▸ h.upright hid
  have hout := hu.not_mem_under
  obtain ⟨node, hn⟩ := Option.isSome_iff_exists.mp hid
  obtain ⟨hok, hhollow⟩ := hollow_spec (fun k _ => razes k) hu
  rw [destroyTo_eq_depart hid hok]
  have hforest := hhollow.forest h hu
  generalize (hollow levels s id).2 = s₁ at hhollow hforest ⊢
  have hn₁ := hhollow.node?_root hn
  -- The library of the block is not in the subtree, so it is as it was.
  have hparent := hhollow.parent?_root
  have houtside : ∀ other, other ∉ s.tree.listing levels id →
      s₁.tree.node? other = s.tree.node? other := fun _ => hhollow.node?_of_not_mem
  have habove : ∀ library, s.tree.parent? id = some library →
      library ∉ s.tree.listing levels id := fun library hp hin =>
    h.root_not_mem_children hin (h.mem_children_iff.mpr hp)
  have hparted : ∀ other, s₁.tree.parted id other = s.tree.parted id other := by
    intro other
    funext node
    apply Tree.parted_congr hparent
    intro library hp
    unfold Tree.children
    rw [houtside library (habove library hp)]
  have hlib₁ : ∀ library, s₁.tree.parent? id = some library →
      ¬ s₁.tree.isBeingDeleted library := by
    intro library hp
    rw [hparent] at hp
    rw [Tree.isBeingDeleted_eq_of_node?_eq (houtside library (habove library hp))]
    exact hlib library hp
  obtain ⟨hleft, hnode⟩ := node?_leave hforest hlib₁
  rw [depart_eq_surrender hleft]
  have hn₂ : (s₁.leave id).2.tree.node? id = some node.bare := by
    rw [hnode, hn₁, Option.map_some, Tree.parted_self hforest hn₁]
    rfl
  obtain ⟨hrazed, hanswer⟩ := razed_surrender hn₂ node.bare_bare
  have howner : node.bare.ownership = .unowned ↔ s.tree.ownership? id = some .unowned := by
    rw [Tree.ownership?, hn, Option.map_some, Option.some.injEq]
    rfl
  refine ⟨hanswer.trans (if_congr howner rfl rfl), fun other => ?_⟩
  by_cases hin : other ∈ s.tree.listing levels id
  · rw [if_pos hin]
    rcases Tree.mem_listing_iff.mp hin with heq | hunder
    · rw [heq, hrazed.node?, if_pos (List.mem_singleton_self id), hn₂, hn]
      exact node.remains_bare
    · have hself : s.tree.parted id other = fun node => node :=
        funext fun node => Tree.parted_of_under h habove hunder node
      have hne : other ≠ id := fun heq => hout (heq ▸ hunder)
      rw [hrazed.node?_of_not_mem (mt List.mem_singleton.mp hne), hnode, hhollow.node?,
        if_neg hne, if_pos hunder, hparted, hself, Option.map_id']
  · have hne : other ≠ id := by
      rintro rfl
      exact hin (Tree.mem_listing_self levels other)
    rw [if_neg hin, hrazed.node?_of_not_mem (mt List.mem_singleton.mp hne), hnode,
      houtside other hin, hparted]

/-! ### A library is cleared -/

/-- What is left of a block that was destroyed does not depend on its place. -/
theorem remains_parted {t : Tree β} {id kid : BlockId} {node : Node β}
    (hid : t.parent? kid ≠ some id) : (t.parted kid id node).remains = node.remains := by
  unfold Tree.parted
  split
  · rfl
  · next library hp =>
    have hne : id ≠ library := by
      rintro rfl
      exact hid hp
    simp only [Node.remains, Node.bare, Node.hollowed, Node.relist, if_neg hne]

/-- The children of a library are destroyed one after the other with all that is below them. Then
the list is empty, and nobody else has noticed. -/
theorem node?_destroy_children (kids : List BlockId) (h : s.tree.Sound)
    (hlevels : s.tree.slots.size = levels)
    (hkids : s.tree.children library = kids) (id : BlockId) :
    ((kids.foldl (fun s kid => (destroyTo (levels + 1) s kid).2) s).modifyChildren library
        fun _ => []).tree.node? id =
      if id ∈ kids.flatMap (s.tree.listing levels) then (s.tree.node? id).bind Node.remains
      else if id = library then
        (s.tree.node? id).map fun node => { node with children := node.children.map fun _ => [] }
      else s.tree.node? id := by
  induction kids generalizing s with
  | nil =>
    rw [List.foldl_nil, node?_modifyChildren, List.flatMap_nil, if_neg List.not_mem_nil]
    by_cases hid : id = library
    · simp only [hid, if_true]
    · simp only [if_neg hid, Option.map_id']
  | cons kid rest ih =>
    have hf := h.forest
    have hmem : kid ∈ s.tree.children library := hkids ▸ List.mem_cons_self
    have hp := hf.mem_children_iff.mp hmem
    have hkid := Tree.contains_of_parent? hp
    obtain ⟨hout, hout', hdis⟩ := children_apart hf hkids hlevels
    have hplucked := plucked_of_sound h hkid hlevels
    have hsound := sound_destroyTo h hkid hlevels
    obtain ⟨-, hnode⟩ := node?_destroyTo hf hkid hlevels fun other ho => by
      rw [hp, Option.some.injEq] at ho
      exact ho ▸ (h.not_marked_of_mem hmem).1
    obtain ⟨hlist, hlistings⟩ := hplucked.rest hf hkids hlevels
    rw [List.foldl_cons, List.flatMap_cons]
    generalize (destroyTo (levels + 1) s kid).2 = s₁ at hplucked hsound hnode hlist hlistings ⊢
    have hrest := List.flatMap_congr hlistings
    -- The other children stand where they stood, with their subtrees, so the induction goes on there.
    rw [ih hsound (hplucked.slots.trans hlevels) hlist, hrest]
    by_cases hin : id ∈ rest.flatMap (s.tree.listing levels)
    · have hnot : id ∉ s.tree.listing levels kid := fun hin' => hdis id hin' hin
      have hparent : s.tree.parent? kid ≠ some id := by
        rw [hp]
        rintro ⟨⟩
        exact hout' hin
      rw [if_pos hin, if_pos (List.mem_append_right _ hin), hnode, if_neg hnot]
      cases s.tree.node? id with
      | none => rfl
      | some node => exact remains_parted hparent
    · rw [if_neg hin]
      by_cases hin' : id ∈ s.tree.listing levels kid
      · have hne : id ≠ library := fun heq => hout (heq ▸ hin')
        rw [if_neg hne, if_pos (List.mem_append_left _ hin'), hnode, if_pos hin']
      · have hne : id ≠ kid := by
          rintro rfl
          exact hin' (Tree.mem_listing_self levels id)
        have hold : id ∉ s.tree.children library := by
          rw [hkids, List.mem_cons, not_or]
          exact ⟨hne, fun hr =>
            hin (List.mem_flatMap.mpr ⟨id, hr, Tree.mem_listing_self levels id⟩)⟩
        rw [if_neg (mt List.mem_append.mp (not_or.mpr ⟨hin', hin⟩)), hnode, if_neg hin']
        by_cases heq : id = library
        · subst heq
          have hold' : id ∉ (s.tree.children id).erase kid := fun hmem' =>
            hold (List.mem_of_mem_erase hmem')
          rw [if_pos rfl, if_pos rfl, Option.map_map]
          congr 1
          funext node
          simp only [Function.comp_apply, Tree.parted, hp, Node.relist, if_neg hold', if_neg hold,
            if_pos, Option.map_map]
          rfl
        -- A block that is neither library nor sibling does not notice that the child has left.
        · have hself : s.tree.parted kid id = fun node => node := by
            funext node
            apply Tree.parted_eq_self
            intro other ho
            rw [hp, Option.some.injEq] at ho
            exact ⟨ho ▸ heq, ho ▸ hold⟩
          rw [if_neg heq, if_neg heq, hself, Option.map_id']

/-- A library that is cleared goes on without its children, and nobody outside their subtrees
changes. -/
theorem node?_clear (h : s.tree.Sound) (hlib : s.tree.isLibrary library) :
    (s.clear library).1 = .ok () ∧ ∀ id, (s.clear library).2.tree.node? id =
      if id ∈ s.tree.below s.tree.slots.size library then (s.tree.node? id).bind Node.remains
      else if id = library then (s.tree.node? id).map fun node => { node with children := some [] }
      else s.tree.node? id := by
  obtain ⟨node, hn, hc⟩ := Tree.exists_node_of_isLibrary hlib
  have hreq := requireLibrary_eq_ok_iff.mpr ⟨hlib, rfl⟩
  unfold clear clearWith Tree.below
  cases hkids : s.tree.children library with
  | nil =>
    rw [hkids] at hreq hc
    simp only [hreq]
    refine ⟨trivial, fun id => ?_⟩
    rw [List.flatMap_nil, if_neg List.not_mem_nil]
    by_cases hid : id = library
    · rw [if_pos hid, hid, hn, Option.map_some, ← hc]
    · rw [if_neg hid]
  | cons kid rest =>
    rw [hkids] at hreq
    simp only [hreq]
    refine ⟨trivial, fun id => ?_⟩
    have htree := tree_notify s (.clearing library)
    have hnode := node?_destroy_children (s := s.notify (.clearing library)) (kid :: rest)
      (htree ▸ h) (by rw [htree]) (htree ▸ hkids) id
    rw [htree] at hnode
    rw [tree_notify, hnode]
    by_cases hid : id = library
    · simp only [hid, hn, Option.map_some, hc]
    · simp only [if_neg hid]

/-! ### The blocks that are felled -/

/-- The subtrees of the children are what stands below their library. -/
theorem flatMap_descendants {t : Tree β} (h : t.Forest) (library : BlockId) :
    (t.children library).flatMap t.descendants = t.below t.slots.size library :=
  List.flatMap_congr fun _ hkid => if_pos (Tree.contains_of_parent? (h.mem_children_iff.mp hkid))

/-- In a forest the subtrees of the children of a library are all that is below the library. -/
theorem mem_flatMap_descendants {t : Tree β} (h : t.Forest) (hlib : t.isLibrary library)
    (x : BlockId) :
    x ∈ (t.children library).flatMap t.descendants ↔ x ≠ library ∧ t.Above library x := by
  have hroot := Tree.contains_of_isLibrary hlib
  have hout := (h.upright_of_le hroot (Nat.le_succ t.slots.size)).root_not_mem
  rw [flatMap_descendants h, ← h.mem_listing hroot (Nat.le_succ t.slots.size), Tree.listing_succ,
    List.mem_cons]
  constructor
  · exact fun hx => ⟨fun heq => hout (heq ▸ hx), Or.inr hx⟩
  · exact fun hx => hx.2.resolve_left hx.1

/-- What a destruction answers, and what becomes of every block: those of the subtree are reduced to
their remains, and for the others the block has left its library. -/
theorem node?_destroy (h : s.tree.Sound) {id : BlockId} (hid : s.tree.contains id) :
    (s.destroy id).1 =
        (if s.tree.ownership? id = some .unowned then .error (.notDestructible id) else .ok ()) ∧
      ∀ other, (s.destroy id).2.tree.node? other =
        if other ∈ s.tree.descendants id then (s.tree.node? other).bind Node.remains
        else (s.tree.node? other).map (s.tree.parted id other) := by
  rw [Tree.descendants, if_pos hid]
  exact node?_destroyTo h.forest hid rfl fun library hp =>
    (h.not_marked_of_mem (h.forest.mem_children_iff.mpr hp)).1

/-- To destroy a block fells its subtree. -/
theorem felled_destroy (h : s.tree.Sound) {id : BlockId} (hid : s.tree.contains id) :
    s.tree.Felled (s.destroy id).2.tree (s.tree.descendants id) := by
  have hu := h.forest.upright hid
  obtain ⟨-, hnode⟩ := node?_destroy h hid
  apply Tree.felled_of_node? h.orderly ((lasting_destroy s id).orderly h.orderly)
  · exact h.forest.nodup_descendants id
  · rw [Tree.descendants, if_pos hid]
    exact hu.alive
  · intro x hx
    rw [hnode x, if_pos hx]
  · intro x hx
    rw [Tree.contains, hnode x, if_neg hx, Option.isSome_map]
    rfl

/-- Who is outside the subtree of a block and neither its library nor a sibling is not touched. -/
theorem node?_destroy_of_apart (h : s.tree.Sound) {id x : BlockId} (hid : s.tree.contains id)
    (hx : x ∉ s.tree.descendants id)
    (hapart : ∀ library, s.tree.parent? id = some library →
      x ≠ library ∧ x ∉ s.tree.children library) :
    (s.destroy id).2.tree.node? x = s.tree.node? x := by
  have hself : s.tree.parted id x = fun node => node :=
    funext fun node => Tree.parted_eq_self hapart
  rw [(node?_destroy h hid).2 x, if_neg hx, hself, Option.map_id']

/-- The library of a block that was destroyed keeps its other children, and they move up. -/
theorem node?_destroy_of_library (h : s.tree.Sound) {id : BlockId} (hid : s.tree.contains id)
    (hp : s.tree.parent? id = some library) :
    (s.destroy id).2.tree.node? library = (s.tree.node? library).map (fun node =>
        { node with children := some ((s.tree.children library).erase id) }) ∧
      ∀ index x, ((s.tree.children library).erase id)[index]? = some x →
        (s.destroy id).2.tree.node? x =
          (s.tree.node? x).map fun node => { node with index := some index } := by
  have hf := h.forest
  have hmem := hf.mem_children_iff.mpr hp
  have hnd := hf.nodup_children library
  have hnode := (node?_destroy h hid).2
  have hout : library ∉ s.tree.descendants id := by
    rw [Tree.descendants, if_pos hid]
    exact fun hin => hf.root_not_mem_children hin hmem
  have hnot := hf.not_mem_children_self library
  constructor
  · obtain ⟨node, hn, hc⟩ := Tree.exists_node_of_isLibrary (Tree.isLibrary_of_mem_children hmem)
    have hnot' : library ∉ (s.tree.children library).erase id := fun hin =>
      hnot (List.mem_of_mem_erase hin)
    rw [hnode library, if_neg hout, hn]
    rw [Option.map_some, Tree.parted_of_parent? hp]
    simp only [Node.relist, if_neg hnot', if_neg hnot, if_pos, hc, Option.map_some]
  · intro index x hx
    have hin := List.mem_of_getElem? hx
    have hold := List.mem_of_mem_erase hin
    have hplace := idxOf_eq_of_getElem? (hnd.erase id) hx
    have hne : x ≠ library := fun heq => hnot (heq ▸ hold)
    have hparent := hf.mem_children_iff.mp hold
    -- A sibling stands below the block only if their library does.
    have hapart : x ∉ s.tree.descendants id := by
      rw [hf.mem_descendants hid] at hout ⊢
      intro habove
      cases habove with
      | refl => exact hnd.not_mem_erase hin
      | up hp' habove' =>
        rw [hparent, Option.some.injEq] at hp'
        exact hout (hp' ▸ habove')
    rw [hnode x, if_neg hapart]
    cases hn : s.tree.node? x with
    | none => rfl
    | some node =>
      have hlink := hf.parent_eq_of_mem hn hold
      rw [Option.map_some, Option.map_some, Tree.parted_of_parent? hp]
      simp only [Node.relist, if_pos hin, if_neg hne, hplace, hlink]

/-- To clear a library fells the subtrees of its children, and spares the library. -/
theorem felled_clear (h : s.tree.Sound) (hlib : s.tree.isLibrary library) :
    s.tree.Felled (s.clear library).2.tree
      ((s.tree.children library).flatMap s.tree.descendants) := by
  have hup := h.forest.upright_of_le (Tree.contains_of_isLibrary hlib)
    (Nat.le_succ s.tree.slots.size)
  obtain ⟨-, hnode⟩ := node?_clear h hlib
  rw [flatMap_descendants h.forest]
  apply Tree.felled_of_node? h.orderly ((lasting_clear s library).orderly h.orderly)
  · exact (List.nodup_cons.mp (Tree.listing_succ (t := s.tree) _ library ▸ hup.nodup)).2
  · exact fun x hx => hup.alive x (List.mem_cons_of_mem _ hx)
  · intro x hx
    rw [hnode x, if_pos hx]
  · intro x hx
    rw [Tree.contains, hnode x, if_neg hx]
    split
    · rw [Option.isSome_map]
      rfl
    · rfl

/-- After a block is destroyed, the blocks of its subtree that have an owner are gone and the others
stand alone; the library that it belonged to keeps its other children in order, at indexes that
are their places; nothing else changes, and the answer tells whether the block itself had an
owner. Clearing a library does the same to all its children and leaves it empty. -/
theorem felled_of_reached [Payload β] (h : Reached Guarded s) :
    (∀ id, s.tree.contains id →
      let t := s.tree
      let t' := (s.destroy id).2.tree
      let subtree := t.descendants id
      (∀ x, x ∈ subtree ↔ t.Above id x) ∧ t.Felled t' subtree ∧
        (∀ library, t.parent? id = some library →
          t'.node? library = (t.node? library).map (fun node =>
            { node with children := some ((t.children library).erase id) }) ∧
          ∀ index x, ((t.children library).erase id)[index]? = some x →
            t'.node? x = (t.node? x).map fun node => { node with index := some index }) ∧
        (∀ x, x ∉ subtree →
          (∀ library, t.parent? id = some library → x ≠ library ∧ x ∉ t.children library) →
            t'.node? x = t.node? x) ∧
        (s.destroy id).1 =
          if t.ownership? id = some .unowned then .error (.notDestructible id) else .ok ()) ∧
    ∀ library, s.tree.isLibrary library →
      let t := s.tree
      let t' := (s.clear library).2.tree
      let subtrees := (t.children library).flatMap t.descendants
      (∀ x, x ∈ subtrees ↔ x ≠ library ∧ t.Above library x) ∧ t.Felled t' subtrees ∧
        t'.node? library = (t.node? library).map (fun node => { node with children := some [] }) ∧
        (∀ x, x ∉ subtrees → x ≠ library → t'.node? x = t.node? x) ∧
        (s.clear library).1 = .ok () := by
  have hs := h.sound
  constructor
  · intro id hid t t' subtree
    exact ⟨fun x => hs.forest.mem_descendants hid, felled_destroy hs hid,
      fun library hp => node?_destroy_of_library hs hid hp,
      fun x hx hapart => node?_destroy_of_apart hs hid hx hapart, (node?_destroy hs hid).1⟩
  · intro library hlib t t' subtrees
    obtain ⟨hanswer, hnode⟩ := node?_clear hs hlib
    have hmem := mem_flatMap_descendants hs.forest hlib
    have hsubtrees : subtrees = t.below t.slots.size library := flatMap_descendants hs.forest library
    refine ⟨hmem, felled_clear hs hlib, ?_, ?_, hanswer⟩
    · have hout : library ∉ subtrees := fun hin => ((hmem library).mp hin).1 rfl
      rw [hsubtrees] at hout
      rw [hnode library, if_neg hout, if_pos rfl]
    · intro x hx hne
      rw [hsubtrees] at hx
      rw [hnode x, if_neg hx, if_neg hne]

/-- A library has two folders, and the first of them holds another one, which is managed elsewhere.
The first folder is destroyed, or the library is cleared. -/
theorem felled_of_reached_folders :
    let folder : Stock := .folder ⟨"", false⟩
    let s : Site Stock := ((((((start 0).perform (.adopt .library)).perform
      (.insertSystem folder)).perform (.adopt folder)).perform (.insertSystem folder)).perform
        (.add ⟨0, 0⟩ ⟨1, 0⟩)).perform (.add ⟨1, 0⟩ ⟨2, 0⟩) |>.perform (.add ⟨0, 0⟩ ⟨3, 0⟩)
    s.tree.descendants ⟨1, 0⟩ = [⟨1, 0⟩, ⟨2, 0⟩] ∧ (s.destroy ⟨1, 0⟩).1 = .ok () ∧
      (s.destroy ⟨1, 0⟩).2.tree.node? ⟨1, 0⟩ = none ∧
      (s.destroy ⟨1, 0⟩).2.tree.index? ⟨3, 0⟩ = some 0 ∧
      (s.destroy ⟨1, 0⟩).2.tree.size + 1 = s.tree.size ∧
      (s.clear ⟨0, 0⟩).1 = .ok () ∧ (s.clear ⟨0, 0⟩).2.tree.size + 2 = s.tree.size := by
  intro folder s
  have hreached : Reached Guarded s :=
    .perform (.perform (.perform (.perform (.perform (.perform (.perform (.start 0) trivial)
      trivial) trivial) trivial) trivial) trivial) trivial
  obtain ⟨hdestroy, hclear⟩ := felled_of_reached hreached
  have hid : s.tree.contains ⟨1, 0⟩ := by decide
  have hlib : s.tree.isLibrary ⟨0, 0⟩ := by decide
  have hparent : s.tree.parent? ⟨1, 0⟩ = some ⟨0, 0⟩ := by decide
  have hkids : s.tree.children ⟨0, 0⟩ = [⟨1, 0⟩, ⟨3, 0⟩] := by decide
  have hsubtree : s.tree.descendants ⟨1, 0⟩ = [⟨1, 0⟩, ⟨2, 0⟩] := by decide
  have hother : s.tree.descendants ⟨3, 0⟩ = [⟨3, 0⟩] := by decide
  have howner : s.tree.ownership? ⟨1, 0⟩ ≠ some .unowned := by decide
  obtain ⟨-, hfelled, hlibrary, -, hanswer⟩ := hdestroy ⟨1, 0⟩ hid
  obtain ⟨-, hfelled', -, -, hanswer'⟩ := hclear ⟨0, 0⟩ hlib
  have hmoved := (hlibrary ⟨0, 0⟩ hparent).2 0 ⟨3, 0⟩ (by rw [hkids]; rfl)
  have hsize := hfelled.size
  have hsize' := hfelled'.size
  have hcount : ([⟨1, 0⟩, ⟨2, 0⟩].filter fun id =>
      s.tree.ownership? id ≠ some .unowned).length = 1 := by decide
  have hcount' : ([⟨1, 0⟩, ⟨2, 0⟩, ⟨3, 0⟩].filter fun id =>
      s.tree.ownership? id ≠ some .unowned).length = 2 := by decide
  rw [if_neg howner] at hanswer
  rw [hsubtree, hcount] at hsize
  rw [hkids, List.flatMap_cons, List.flatMap_cons, hsubtree, hother, List.flatMap_nil] at hsize'
  refine ⟨hsubtree, hanswer, hfelled.owned _ ?_ howner, ?_, hsize, hanswer', hcount' ▸ hsize'⟩
  · rw [hsubtree]
    exact List.mem_cons_self
  · rw [Tree.index?, hmoved]
    decide

end Site

end BlockForest
