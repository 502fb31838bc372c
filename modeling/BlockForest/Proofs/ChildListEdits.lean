import Mathlib
import BlockForest.Proofs.SoundTree

/-!
# Insertion, removal, exchange and move

Each of the four changes of a child list gives its library another list of children and does
nothing else: `attach` the list with the block inserted, `unlink` the list without it,
`exchange` and `shift` a rearrangement. The first three steps they share are treated once, in
`reindex_enlists`: whoever stands before the first renumbered position keeps an index that is
right already.

The checks in front of the changes make the new list admissible. `Attachable` is what the check
for an insertion asks for, and `checkInsertion_eq_ok_iff` says that it asks for nothing else.
-/

set_option autoImplicit false

namespace BlockForest

variable {β : Type}

/-- A block after a library took in a list of children, before anyone was detached. -/
def Node.enlist (library : BlockId) (new : List BlockId) (id : BlockId) (node : Node β) :
    Node β :=
  { node with
    index := if id ∈ new then some (new.idxOf id) else node.index
    parent := if id ∈ new then some library else node.parent
    children := if id = library then node.children.map fun _ => new else node.children }

/-- A child of a library knows it. -/
theorem Tree.Forest.parent_eq_of_mem {t : Tree β} (h : t.Forest) {library id : BlockId}
    {node : Node β} (hn : t.node? id = some node) (hid : id ∈ t.children library) :
    node.parent = some library := by
  rw [h.mem_children_iff, parent?_of_node? hn] at hid
  exact hid

namespace Site

variable {s s' : Site β} {library block : BlockId} {new : List BlockId}

/-- Numbering the children from a position on gives all of them their places, since those before
the position did not move. -/
theorem reindex_enlists {start : Nat} (h : s.tree.Forest) (hlib : s.tree.isLibrary library)
    (hnd : new.Nodup) (htake : new.take start = (s.tree.children library).take start)
    (hs : ∀ id, s'.tree.node? id = (s.tree.node? id).map fun node =>
      { node with
        parent := if id ∈ new then some library else node.parent
        children := if id = library then node.children.map fun _ => new else node.children })
    (id : BlockId) :
    (s'.reindex library start).tree.node? id =
      (s.tree.node? id).map (Node.enlist library new id) := by
  have hchildren : s'.tree.children library = new := by
    unfold Tree.children
    rw [hs library]
    unfold Tree.isLibrary at hlib
    cases hn : s.tree.node? library with
    | none => simp [hn] at hlib
    | some node =>
      cases hc : node.children with
      | none => simp [hn, hc] at hlib
      | some cs => simp [hc]
  rw [node?_reindex s' library start (hchildren ▸ hnd), hchildren, hs id, Option.map_map]
  cases hn : s.tree.node? id with
  | none => rfl
  | some node =>
    by_cases hdrop : id ∈ new.drop start
    · simp [Node.enlist, hdrop, List.mem_of_mem_drop hdrop]
    · by_cases hmem : id ∈ new
      · have hfront : id ∈ new.take start := by
          rw [← List.take_append_drop start new] at hmem
          exact (List.mem_append.mp hmem).resolve_right hdrop
        have hidx : new.idxOf id = (s.tree.children library).idxOf id := by
          conv_lhs => rw [← List.take_append_drop start new, List.idxOf_append_of_mem hfront]
          rw [htake] at hfront ⊢
          conv_rhs =>
            rw [← List.take_append_drop start (s.tree.children library),
              List.idxOf_append_of_mem hfront]
        have hindex := h.index_eq (List.mem_of_mem_take (htake ▸ hfront))
        rw [Tree.index?_of_node? hn] at hindex
        simp [Node.enlist, hdrop, hmem, hindex, hidx]
      · simp [Node.enlist, hdrop, hmem]

/-- The list that a change makes of the children of a library. -/
theorem map_children_eq {f : List BlockId → List BlockId} {node : Node β}
    (hn : s.tree.node? library = some node) (hf : f (s.tree.children library) = new) :
    node.children.map f = node.children.map fun _ => new := by
  rw [Tree.children_of_node? hn] at hf
  cases hc : node.children with
  | none => rfl
  | some cs => simpa [hc] using hf

/-! ### Insertion -/

/-- An insertion gives the library its children with the block at the index, and changes links
accordingly. Nothing else in the tree changes. -/
theorem relisted_attach {index : Nat} (h : s.tree.Forest)
    (hlib : s.tree.isLibrary library) (hc : s.tree.contains block)
    (hp : s.tree.parent? block = none) (hne : block ≠ library)
    (hi : index ≤ (s.tree.children library).length) :
    s.tree.Relisted (s.attach library block index).tree library
      ((s.tree.children library).insertIdx index block) := by
  have hnot : block ∉ s.tree.children library := by
    intro hmem
    rw [h.mem_children_iff, hp] at hmem
    cases hmem
  have hmem : ∀ id, id ∈ (s.tree.children library).insertIdx index block ↔
      id = block ∨ id ∈ s.tree.children library := fun id => List.mem_insertIdx hi
  have hnd : ((s.tree.children library).insertIdx index block).Nodup :=
    (List.perm_insertIdx block _ hi).nodup_iff.mpr
      (List.nodup_cons.mpr ⟨hnot, h.nodup_children library⟩)
  have htake : ((s.tree.children library).insertIdx index block).take index =
      (s.tree.children library).take index := List.take_insertIdx_eq_take_of_le _ _ _ _ le_rfl
  intro id
  unfold attach
  simp only [tree_notify, tree_notifySubtree]
  rw [reindex_enlists h hlib hnd htake]
  · cases hn : s.tree.node? id with
    | none => rfl
    | some node =>
      by_cases hold : id ∈ s.tree.children library
      · simp [Node.enlist, Node.relist, (hmem id).mpr (Or.inr hold)]
      · simp [Node.enlist, Node.relist, hold]
  · -- The newcomer, the library and the other blocks are changed in different places.
    intro id
    rw [node?_setParent, node?_modifyChildren, tree_notify]
    cases hn : s.tree.node? id with
    | none => rfl
    | some node =>
      have hparent : id ∈ s.tree.children library → node.parent = some library :=
        h.parent_eq_of_mem hn
      by_cases hb : id = block
      · subst hb
        simp [hne, (hmem id).mpr (Or.inl rfl)]
      · by_cases hl : id = library
        · subst hl
          have hmap := map_children_eq (f := fun children => children.insertIdx index block) hn rfl
          by_cases hold : id ∈ s.tree.children id
          · simp [hb, hmap, (hmem id).mpr (Or.inr hold), hparent hold]
          · simp [hb, hmap, hmem id, hold]
        · by_cases hold : id ∈ s.tree.children library
          · simp [hb, hl, (hmem id).mpr (Or.inr hold), hparent hold]
          · simp [hb, hl, hmem id, hold]

/-! ### Rearrangement -/

/-- While a child list is changed to one that names no others, all parent links stay right. -/
theorem enlisted_modifyChildren (h : s.tree.Forest) (event : TreeEvent)
    {f : List BlockId → List BlockId} (hf : f (s.tree.children library) = new)
    (hsub : ∀ id ∈ new, id ∈ s.tree.children library) (id : BlockId) :
    ((s.notify event).modifyChildren library f).tree.node? id =
      (s.tree.node? id).map fun node =>
        { node with
          parent := if id ∈ new then some library else node.parent
          children := if id = library then node.children.map fun _ => new else node.children } := by
  rw [node?_modifyChildren, tree_notify]
  cases hn : s.tree.node? id with
  | none => rfl
  | some node =>
    have hparent : id ∈ new → node.parent = some library := fun hmem =>
      h.parent_eq_of_mem hn (hsub id hmem)
    have hlist : (if id = library then node.children.map f else node.children) =
        if id = library then node.children.map fun _ => new else node.children := by
      by_cases hl : id = library
      · subst hl
        rw [if_pos rfl, if_pos rfl, map_children_eq hn hf]
      · rw [if_neg hl, if_neg hl]
    by_cases hmem : id ∈ new
    · simp [hlist, hmem, hparent hmem]
    · simp [hlist, hmem]

/-- A list of the same children leaves nobody detached. -/
theorem relist_eq_enlist {id : BlockId} {node : Node β} {old : List BlockId}
    (hsub : id ∈ old → id ∈ new) :
    node.relist library old new id = node.enlist library new id := by
  by_cases hmem : id ∈ new
  · simp [Node.relist, Node.enlist, hmem]
  · have hold : id ∉ old := fun hold => hmem (hsub hold)
    simp [Node.relist, Node.enlist, hmem, hold]

/-- The list with the child at one position taken out and put back at another. -/
def moved (children : List BlockId) (block : BlockId) (source target : Nat) : List BlockId :=
  (children.eraseIdx source).insertIdx target block

/-- A move takes a child out and puts it back, so the list has the same members. -/
theorem perm_moved {children : List BlockId} {source target : Nat}
    (hs : children[source]? = some block) (ht : target < children.length) :
    (moved children block source target).Perm children := by
  obtain ⟨hlt, rfl⟩ := List.getElem?_eq_some_iff.mp hs
  have hlen : (children.eraseIdx source).length = children.length - 1 :=
    List.length_eraseIdx_of_lt hlt
  exact (List.perm_insertIdx _ _ (by omega)).trans (List.getElem_cons_eraseIdx_perm hlt)

/-- A move inside a library gives it the rearranged list, and the indexes of the shifted children
follow. -/
theorem relisted_shift {source target : Nat} (h : s.tree.Forest)
    (hs : (s.tree.children library)[source]? = some block)
    (ht : target < (s.tree.children library).length) :
    s.tree.Relisted (s.shift library block source target).tree library
      (moved (s.tree.children library) block source target) := by
  have hperm := perm_moved hs ht
  have hlib := Tree.isLibrary_of_mem_children (List.mem_of_getElem? hs)
  have htake : (moved (s.tree.children library) block source target).take (min source target) =
      (s.tree.children library).take (min source target) := by
    unfold moved
    rw [List.take_insertIdx_eq_take_of_le _ _ _ _ (Nat.min_le_right _ _),
      List.take_eraseIdx_eq_take_of_le _ _ _ (Nat.min_le_left _ _)]
  intro id
  unfold shift
  simp only [tree_notify]
  rw [reindex_enlists h hlib (hperm.nodup_iff.mpr (h.nodup_children library)) htake
    (enlisted_modifyChildren h _ rfl fun id => hperm.mem_iff.mp)]
  cases s.tree.node? id with
  | none => rfl
  | some node => rw [Option.map_some, Option.map_some, relist_eq_enlist hperm.mem_iff.mpr]

/-- The list with the children at two positions exchanged. -/
def exchanged (children : List BlockId) (a b : BlockId) (first second : Nat) : List BlockId :=
  (children.set first b).set second a

/-- An exchange is two writes into the list, so it has the same members. -/
theorem perm_exchanged {children : List BlockId} {a b : BlockId} {first second : Nat}
    (ha : children[first]? = some a) (hb : children[second]? = some b) :
    (exchanged children a b first second).Perm children := by
  obtain ⟨hfirst, rfl⟩ := List.getElem?_eq_some_iff.mp ha
  obtain ⟨hsecond, rfl⟩ := List.getElem?_eq_some_iff.mp hb
  exact List.set_set_perm hfirst hsecond

/-- In a list without repetitions the position of a child is the index where it is found. -/
theorem idxOf_eq_of_getElem? {children : List BlockId} (hnd : children.Nodup) {id : BlockId}
    {index : Nat} (h : children[index]? = some id) : children.idxOf id = index := by
  obtain ⟨hlt, rfl⟩ := List.getElem?_eq_some_iff.mp h
  exact hnd.idxOf_getElem index hlt

/-- The two children trade places and all others keep theirs. -/
theorem idxOf_exchanged {children : List BlockId} (hnd : children.Nodup) {a b id : BlockId}
    {first second : Nat} (ha : children[first]? = some a) (hb : children[second]? = some b)
    (hid : id ∈ children) :
    (exchanged children a b first second).idxOf id =
      if id = b then first else if id = a then second else children.idxOf id := by
  have hnd' := (perm_exchanged ha hb).nodup_iff.mpr hnd
  obtain ⟨hfirst, hgetA⟩ := List.getElem?_eq_some_iff.mp ha
  obtain ⟨hsecond, hgetB⟩ := List.getElem?_eq_some_iff.mp hb
  apply idxOf_eq_of_getElem? hnd'
  unfold exchanged
  by_cases hidB : id = b
  · rw [if_pos hidB, hidB]
    by_cases hpos : second = first
    · subst hpos
      rw [ha] at hb
      cases hb
      simp [hfirst]
    · rw [List.getElem?_set_ne hpos]
      simp [hfirst]
  · rw [if_neg hidB]
    by_cases hidA : id = a
    · rw [if_pos hidA, hidA]
      simp [hsecond]
    · rw [if_neg hidA]
      have hget : children[children.idxOf id]? = some id := by
        rw [List.getElem?_eq_getElem (List.idxOf_lt_length_of_mem hid)]
        simp
      have hneA : first ≠ children.idxOf id := by
        intro heq
        rw [← heq, ha] at hget
        cases hget
        exact hidA rfl
      have hneB : second ≠ children.idxOf id := by
        intro heq
        rw [← heq, hb] at hget
        cases hget
        exact hidB rfl
      rw [List.getElem?_set_ne hneB, List.getElem?_set_ne hneA, hget]

/-- An exchange gives the library the list with both children exchanged, and the two indexes
follow. -/
theorem relisted_exchange {a b : BlockId} {first second : Nat} (h : s.tree.Forest)
    (ha : (s.tree.children library)[first]? = some a)
    (hb : (s.tree.children library)[second]? = some b) :
    s.tree.Relisted (s.exchange library a b first second).tree library
      (exchanged (s.tree.children library) a b first second) := by
  have hperm := perm_exchanged ha hb
  have hlist : (fun children : List BlockId => (children.set first b).set second a)
      (s.tree.children library) = exchanged (s.tree.children library) a b first second := rfl
  intro id
  unfold exchange
  simp only [tree_notify]
  rw [node?_setIndex, node?_setIndex,
    enlisted_modifyChildren h _ hlist fun id => hperm.mem_iff.mp, Option.map_map, Option.map_map]
  cases hn : s.tree.node? id with
  | none => rfl
  | some node =>
    rw [Option.map_some, Option.map_some, relist_eq_enlist hperm.mem_iff.mpr]
    by_cases hmem : id ∈ s.tree.children library
    · have hnew := hperm.mem_iff.mpr hmem
      have hidx := idxOf_exchanged (h.nodup_children library) ha hb hmem
      have hindex := h.index_eq hmem
      rw [Tree.index?_of_node? hn] at hindex
      by_cases hidB : id = b
      · rw [if_pos hidB] at hidx
        subst hidB
        simp [Node.enlist, hnew, hidx]
      · rw [if_neg hidB] at hidx
        by_cases hidA : id = a
        · rw [if_pos hidA] at hidx
          subst hidA
          simp [Node.enlist, hnew, hidx, hidB]
        · rw [if_neg hidA] at hidx
          simp [Node.enlist, hnew, hidx, hidA, hidB, hindex]
    · have hnew : id ∉ exchanged (s.tree.children library) a b first second :=
        fun hnew => hmem (hperm.mem_iff.mp hnew)
      have hidA : id ≠ a := by
        rintro rfl
        exact hmem (List.mem_of_getElem? ha)
      have hidB : id ≠ b := by
        rintro rfl
        exact hmem (List.mem_of_getElem? hb)
      simp [Node.enlist, hnew, hidA, hidB]

/-! ### Removal -/

/-- In a list without repetitions, taking out the entry at an index takes out this child alone. -/
theorem mem_eraseIdx_iff {children : List BlockId} (hnd : children.Nodup) {index : Nat}
    (hi : children[index]? = some block) {id : BlockId} :
    id ∈ children.eraseIdx index ↔ id ∈ children ∧ id ≠ block := by
  have hpos := idxOf_eq_of_getElem? hnd hi
  rw [← List.erase_eq_eraseIdx_of_idxOf hpos, hnd.mem_erase_iff]
  exact and_comm

/-- A removal gives the library its list without the child, which has no links then. -/
theorem relisted_unlink {index : Nat} (h : s.tree.Forest)
    (hi : (s.tree.children library)[index]? = some block) :
    s.tree.Relisted (s.unlink library block index).tree library
      ((s.tree.children library).eraseIdx index) := by
  have hnd := h.nodup_children library
  have hmem : ∀ id, id ∈ (s.tree.children library).eraseIdx index ↔
      id ∈ s.tree.children library ∧ id ≠ block := fun id => mem_eraseIdx_iff hnd hi
  have hblock := List.mem_of_getElem? hi
  have htake : ((s.tree.children library).eraseIdx index).take index =
      (s.tree.children library).take index := List.take_eraseIdx_eq_take_of_le _ _ _ le_rfl
  intro id
  unfold unlink
  simp only [tree_notify, tree_notifySubtree]
  rw [node?_setParent, node?_setIndex, reindex_enlists h (Tree.isLibrary_of_mem_children hblock)
    (hnd.sublist (List.eraseIdx_sublist _ _)) htake
    (enlisted_modifyChildren h _ rfl fun id hid => ((hmem id).mp hid).1),
    Option.map_map, Option.map_map]
  cases s.tree.node? id with
  | none => rfl
  | some node =>
    by_cases hb : id = block
    · subst hb
      simp [Node.enlist, Node.relist, hmem id, hblock]
    · by_cases hold : id ∈ s.tree.children library
      · simp [Node.enlist, Node.relist, (hmem id).mpr ⟨hold, hb⟩, hb]
      · simp [Node.enlist, Node.relist, hmem id, hold, hb]

/-! ### What a change of a child list leaves alone -/

/-- An insertion is made of changes to single blocks and notices, so no block comes or goes. -/
theorem reworked_attach (s : Site β) (library block : BlockId) (index : Nat) :
    ReworkedInPlace s (s.attach library block index) := by
  unfold attach
  refine .trans ?_ (reworked_notify _ _)
  refine .trans ?_ (reworked_notifySubtree _ block _)
  refine .trans ?_ (reworked_reindex _ library index)
  refine .trans ?_ (reworked_modify _ block _)
  exact (reworked_notify s _).trans (reworked_modify _ library _)

/-- A removal is made of changes to single blocks and notices as well. -/
theorem reworked_unlink (s : Site β) (library block : BlockId) (index : Nat) :
    ReworkedInPlace s (s.unlink library block index) := by
  unfold unlink
  refine .trans ?_ (reworked_notify _ _)
  refine .trans ?_ (reworked_notifySubtree _ block _)
  refine .trans ?_ (reworked_modify _ block _)
  refine .trans ?_ (reworked_setIndex _ block none)
  refine .trans ?_ (reworked_reindex _ library index)
  exact (reworked_notify s _).trans (reworked_modify _ library _)

/-- So is an exchange. -/
theorem reworked_exchange (s : Site β) (library a b : BlockId) (first second : Nat) :
    ReworkedInPlace s (s.exchange library a b first second) := by
  unfold exchange
  refine .trans ?_ (reworked_notify _ _)
  refine .trans ?_ (reworked_setIndex _ b _)
  refine .trans ?_ (reworked_setIndex _ a _)
  exact (reworked_notify s _).trans (reworked_modify _ library _)

/-- And so is a move inside a library. -/
theorem reworked_shift (s : Site β) (library block : BlockId) (source target : Nat) :
    ReworkedInPlace s (s.shift library block source target) := by
  unfold shift
  refine .trans ?_ (reworked_notify _ _)
  refine .trans ?_ (reworked_reindex _ library _)
  exact (reworked_notify s _).trans (reworked_modify _ library _)

/-! ### The checks -/

variable {t : Tree β}

/-- The library that an operation asks for is there exactly if the name is that of a live library,
and then its children are given. -/
theorem requireLibrary_eq_ok_iff {children : List BlockId} :
    t.requireLibrary library = .ok children ↔
      t.isLibrary library ∧ t.children library = children := by
  unfold Tree.requireLibrary Tree.isLibrary Tree.children
  cases t.node? library with
  | none => simp
  | some node => cases hc : node.children <;> simp [hc]

/-- The block that an operation asks for is there exactly if the name finds one. -/
theorem require_eq_ok_iff {node : Node β} :
    t.require block = .ok node ↔ t.node? block = some node := by
  unfold Tree.require
  cases t.node? block <;> simp

/-- The position of a child is that of its place in the list. -/
theorem getElem?_of_positionOf {index : Nat} (h : positionOf t library block = .ok index) :
    (t.children library)[index]? = some block := by
  unfold positionOf at h
  cases hr : t.requireLibrary library with
  | error e => simp [hr] at h
  | ok children =>
    obtain ⟨-, rfl⟩ := requireLibrary_eq_ok_iff.mp hr
    cases hi : (t.children library).idxOf? block with
    | none => simp [hr, hi] at h
    | some i =>
      simp only [hr, hi, Except.ok.injEq] at h
      subst h
      obtain ⟨hlt, heq, -⟩ := List.findIdx?_eq_some_iff_getElem.mp hi
      rw [List.getElem?_eq_getElem hlt]
      simpa using heq

variable [Payload β]

/-- What the check for an insertion asks for, apart from the position. -/
structure Attachable (t : Tree β) (library block : BlockId) : Prop where
  isLibrary : t.isLibrary library
  contains : t.contains block
  detached : t.parent? block = none
  unmarked : ¬ t.isBeingDeleted library ∧ ¬ t.isBeingDeleted block
  apart : block ∉ t.ancestors library
  accepted : ∃ p q, t.payload? library = some p ∧ t.payload? block = some q ∧
    Payload.accepts p q

/-- The check in front of an insertion lets through exactly what may be attached, at an index that
is not behind the end. -/
theorem checkInsertion_eq_ok_iff {index : Nat} :
    checkInsertion t library block index = .ok () ↔
      Attachable t library block ∧ index ≤ (t.children library).length := by
  unfold checkInsertion
  cases hr : t.requireLibrary library with
  | error e =>
    have hnot : ¬ t.isLibrary library := by
      intro hlib
      rw [requireLibrary_eq_ok_iff.mpr ⟨hlib, rfl⟩] at hr
      cases hr
    simp only [reduceCtorEq, false_iff]
    exact fun h => hnot h.1.isLibrary
  | ok children =>
    obtain ⟨hlib, rfl⟩ := requireLibrary_eq_ok_iff.mp hr
    obtain ⟨libraryNode, hl⟩ :=
      Option.isSome_iff_exists.mp (Tree.contains_of_isLibrary hlib)
    have hlreq := require_eq_ok_iff.mpr hl
    cases hn : t.node? block with
    | none =>
      have hreq : t.require block = .error (.staleBlock block) := by
        simp [Tree.require, hn]
      simp only [hreq, reduceCtorEq, false_iff]
      intro h
      have := h.1.contains
      simp [Tree.contains, hn] at this
    | some node =>
      have hreq := require_eq_ok_iff.mpr hn
      have hsplit : Attachable t library block ↔
          node.parent = none ∧ ¬ libraryNode.flags.contains Flags.beingDeleted ∧
            ¬ node.flags.contains Flags.beingDeleted ∧ block ∉ t.ancestors library ∧
              Payload.accepts libraryNode.payload node.payload := by
        constructor
        · rintro ⟨-, -, hdet, ⟨hm₁, hm₂⟩, hap, p, q, hp, hq, hacc⟩
          rw [Tree.parent?_of_node? hn] at hdet
          rw [Tree.isBeingDeleted_of_node? hl] at hm₁
          rw [Tree.isBeingDeleted_of_node? hn] at hm₂
          simp only [Tree.payload?, hl, hn, Option.map_some, Option.some.injEq] at hp hq
          exact ⟨hdet, hm₁, hm₂, hap, by rw [hp, hq]; exact hacc⟩
        · rintro ⟨hdet, hm₁, hm₂, hap, hacc⟩
          refine ⟨hlib, Tree.contains_of_node? hn, ?_, ⟨?_, ?_⟩, hap, libraryNode.payload,
            node.payload, by simp [Tree.payload?, hl], by simp [Tree.payload?, hn], hacc⟩
          · rw [Tree.parent?_of_node? hn, hdet]
          · rwa [Tree.isBeingDeleted_of_node? hl]
          · rwa [Tree.isBeingDeleted_of_node? hn]
      rw [hsplit]
      simp only [hreq, checkCompatible, hlreq]
      by_cases hdet : node.parent = none
      · by_cases hi : index ≤ (t.children library).length
        · simp only [hdet, hi, Nat.not_lt.mpr hi, if_false, Option.isSome_none, true_and,
            Bool.false_eq_true, List.contains_iff_mem, and_true]
          split_ifs with h₁ h₂ h₃ h₄ <;> simp_all
        · simp [hdet, hi, Nat.not_le.mp hi]
      · have hsome : node.parent.isSome := Option.isSome_iff_ne_none.mpr hdet
        simp [hdet, hsome]

/-- A block is added exactly if it is attachable: the position behind the others always fits. -/
theorem add_of_attachable {s : Site β} (h : Attachable s.tree library block) :
    s.add library block =
      (.ok (), s.attach library block (s.tree.children library).length) := by
  have hcheck := checkInsertion_eq_ok_iff.mpr ⟨h, le_refl (s.tree.children library).length⟩
  have hreq := requireLibrary_eq_ok_iff.mpr ⟨h.isLibrary, rfl⟩
  unfold add insert
  simp only [hreq, hcheck]

/-- What may not be attached is refused, and the site is as it was. -/
theorem add_of_not_attachable {s : Site β} (h : ¬ Attachable s.tree library block) :
    ∃ e, s.add library block = (.error e, s) := by
  unfold add insert
  cases hreq : s.tree.requireLibrary library with
  | error e => exact ⟨e, rfl⟩
  | ok children =>
    cases hcheck : checkInsertion s.tree library block children.length with
    | error e => exact ⟨e, by simp only [hcheck]⟩
    | ok =>
      obtain ⟨-, rfl⟩ := requireLibrary_eq_ok_iff.mp hreq
      exact absurd (checkInsertion_eq_ok_iff.mp hcheck).1 h

end Site

end BlockForest
