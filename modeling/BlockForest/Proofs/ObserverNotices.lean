import Mathlib
import BlockForest.Proofs.PayloadKinds
import BlockForest.Proofs.ChildListRearrangement

/-!
# What observers are told

Around a change of a child list the observers are told of it twice, and more is sent in between.
All of it is followed step by step with `Sends`, which composes as the steps do.

* Indexes change one block at a time. `Renumbers` says that some notices announce exactly the
  blocks whose index is another one in the end, with the index they had and the index they get.
  Two stretches of steps that change different blocks may be taken together, so it is enough that
  no step of a call gives a block an index that a later one changes.
* The subtree of a block that enters or leaves is told of when all changes are made, and what is
  shown then is the tree after the call.
* While a library is cleared, other libraries below it are cleared as well. Which ones is read
  off the walk: `ClearsWithin` says that none is announced but those met on the walk down, and
  while blocks are destroyed nobody comes to be met who was not met before.
-/

set_option autoImplicit false

namespace BlockForest

variable {β : Type}

/-- The library that is announced as cleared, or about to be. -/
def TreeEvent.clears? : TreeEvent → Option BlockId
  | .clearing library => some library
  | .cleared library => some library
  | _ => none

/-- The notices announce exactly the blocks whose index differs, once each. -/
structure Renumbers (before after : BlockId → Option Nat) (notices : List (Notice β)) : Prop where
  nodup : (notices.map Notice.event).Nodup
  announced : ∀ event, event ∈ notices.map Notice.event ↔
    ∃ block, before block ≠ after block ∧
      event = .indexChanged block (before block) (after block)

namespace Renumbers

variable {before between after : BlockId → Option Nat} {first second : List (Notice β)}

/-- Where no index differs there is nothing to announce. -/
theorem nil (h : ∀ block, before block = after block) :
    Renumbers before after ([] : List (Notice β)) where
  nodup := List.nodup_nil
  announced event := by
    simp only [List.map_nil, List.not_mem_nil, false_iff]
    rintro ⟨block, hne, -⟩
    exact hne (h block)

/-- One block gets another index. -/
theorem single {block : BlockId} {shown : Tree β} (hne : before block ≠ after block)
    (hother : ∀ other, other ≠ block → before other = after other) :
    Renumbers before after [⟨.indexChanged block (before block) (after block), shown⟩] where
  nodup := List.nodup_singleton _
  announced event := by
    rw [List.map_singleton, List.mem_singleton]
    constructor
    · rintro rfl
      exact ⟨block, hne, rfl⟩
    · rintro ⟨other, ho, rfl⟩
      have heq : other = block := by
        by_contra hdiff
        exact ho (hother other hdiff)
      rw [heq]

/-- Two stretches of changes that have no block in common. -/
theorem append (h : Renumbers before between first) (h' : Renumbers between after second)
    (hone : ∀ block, before block = between block ∨ between block = after block) :
    Renumbers before after (first ++ second) where
  nodup := by
    rw [List.map_append, List.nodup_append]
    refine ⟨h.nodup, h'.nodup, ?_⟩
    rintro a ha _ hb rfl
    obtain ⟨block, hne, rfl⟩ := (h.announced a).mp ha
    obtain ⟨block', hne', heq⟩ := (h'.announced _).mp hb
    rw [TreeEvent.indexChanged.injEq] at heq
    rw [← heq.1] at hne'
    exact (hone block).elim hne hne'
  announced event := by
    rw [List.map_append, List.mem_append, h.announced, h'.announced]
    constructor
    · rintro (⟨block, hne, rfl⟩ | ⟨block, hne, rfl⟩)
      · have hkept := (hone block).resolve_left hne
        exact ⟨block, hkept ▸ hne, by rw [hkept]⟩
      · have hkept := (hone block).resolve_right hne
        exact ⟨block, hkept ▸ hne, by rw [hkept]⟩
    · rintro ⟨block, hne, rfl⟩
      rcases hone block with hkept | hkept
      · exact Or.inr ⟨block, hkept ▸ hne, by rw [hkept]⟩
      · exact Or.inl ⟨block, hkept ▸ hne, by rw [hkept]⟩

/-- Nothing but changes of indexes is announced. -/
theorem event_eq (h : Renumbers before after first) {notice : Notice β} (hmem : notice ∈ first) :
    ∃ block old new, notice.event = .indexChanged block old new := by
  obtain ⟨block, -, heq⟩ := (h.announced notice.event).mp (List.mem_map_of_mem hmem)
  exact ⟨block, _, _, heq⟩

end Renumbers

namespace Site

variable {s s' s'' : Site β} {library block : BlockId}

/-- Between the two sites these notices were sent. -/
def Sends (s s' : Site β) (notices : List (Notice β)) : Prop :=
  s'.notices.toList = s.notices.toList ++ notices

/-- Where nothing is done nothing is sent. -/
theorem Sends.refl (s : Site β) : Sends s s [] := (List.append_nil _).symm

/-- What two steps send comes one after the other. -/
theorem Sends.trans {first second : List (Notice β)} (h : Sends s s' first)
    (h' : Sends s' s'' second) : Sends s s'' (first ++ second) := by
  unfold Sends at h h' ⊢
  rw [h', h, List.append_assoc]

/-- One notice is sent if somebody observes the tree, and it shows the tree as it is. -/
theorem sends_notify (ho : s.tree.observers ≠ []) (event : TreeEvent) :
    Sends s (s.notify event) [⟨event, s.tree⟩] := by
  unfold Sends notify
  rw [if_neg (by simpa using ho), Array.toList_push]

/-- To change a block sends nothing by itself. -/
theorem sends_modify (s : Site β) (id : BlockId) (f : Node β → Node β) :
    Sends s (s.modify id f) [] := Sends.refl s

/-- An event for each block of a list is sent for them in order, and each notice shows the same
tree. -/
theorem sends_notifyAll (ho : s.tree.observers ≠ []) (event : BlockId → TreeEvent)
    (blocks : List BlockId) :
    Sends s (notifyAll event s blocks) (blocks.map fun id => ⟨event id, s.tree⟩) := by
  induction blocks generalizing s with
  | nil => exact Sends.refl s
  | cons block rest ih =>
    have htree := tree_notify s (event block)
    have hrest := ih (s := s.notify (event block)) (htree ▸ ho)
    rw [htree] at hrest
    exact (sends_notify ho (event block)).trans hrest

/-- An event throughout a subtree is sent for its blocks in the order of a walk down. -/
theorem sends_notifySubtree (ho : s.tree.observers ≠ []) (root : BlockId)
    (event : BlockId → TreeEvent) :
    Sends s (s.notifySubtree root event)
      ((s.tree.descendants root).map fun id => ⟨event id, s.tree⟩) := by
  unfold notifySubtree
  rw [if_neg (by simpa using ho)]
  exact sends_notifyAll ho event _

/-! ### Indexes -/

/-- To set the index of a block leaves the other indexes alone. -/
theorem index?_setIndex_of_ne (s : Site β) {block other : BlockId} (h : other ≠ block)
    (index : Option Nat) : (s.setIndex block index).tree.index? other = s.tree.index? other := by
  unfold Tree.index?
  rw [node?_setIndex]
  cases s.tree.node? other with
  | none => rfl
  | some node => simp [h]

/-- A live block has the index that was set. -/
theorem index?_setIndex_self {block : BlockId} (hid : s.tree.contains block)
    (index : Option Nat) : (s.setIndex block index).tree.index? block = index := by
  obtain ⟨node, hn⟩ := Option.isSome_iff_exists.mp hid
  unfold Tree.index?
  rw [node?_setIndex, hn]
  simp

/-- To set an index changes no list of children. -/
theorem children_setIndex (s : Site β) (block : BlockId) (index : Option Nat) (id : BlockId) :
    (s.setIndex block index).tree.children id = s.tree.children id := by
  unfold Tree.children
  rw [node?_setIndex]
  cases s.tree.node? id <;> rfl

/-- A block that has the index already is left alone, and so is one that is not there. -/
theorem setIndex_cases (s : Site β) (block : BlockId) (index : Option Nat) :
    s.setIndex block index = s ∨
      s.tree.contains block ∧ s.tree.index? block ≠ index ∧
        s.setIndex block index = (s.modify block fun node => { node with index := index }).notify
          (.indexChanged block (s.tree.index? block) index) := by
  unfold setIndex Tree.index? Tree.contains
  cases hn : s.tree.node? block with
  | none => exact Or.inl rfl
  | some node =>
    by_cases hi : node.index = index
    · exact Or.inl (by simp only [hi, if_true])
    · exact Or.inr ⟨rfl, hi, by simp only [hi, if_false, Option.bind_some]⟩

/-- A block that gets another index is announced. -/
theorem sends_setIndex (ho : s.tree.observers ≠ []) (block : BlockId) (index : Option Nat) :
    ∃ notices, Sends s (s.setIndex block index) notices ∧
      Renumbers s.tree.index? (s.setIndex block index).tree.index? notices := by
  rcases setIndex_cases s block index with heq | ⟨hid, hne, heq⟩
  · rw [heq]
    exact ⟨[], Sends.refl s, Renumbers.nil fun _ => rfl⟩
  · have hnew := index?_setIndex_self hid index
    have hwork : ReworkedInPlace s (s.modify block fun node => { node with index := index }) :=
      reworked_modify s block _
    have hsend : Sends s (s.setIndex block index) [⟨.indexChanged block (s.tree.index? block)
        ((s.setIndex block index).tree.index? block),
        (s.modify block fun node => { node with index := index }).tree⟩] := by
      rw [hnew, heq]
      exact (sends_modify s block _).trans (sends_notify (hwork.observers ▸ ho) _)
    refine ⟨_, hsend, Renumbers.single (by rwa [hnew]) fun other h => ?_⟩
    exact (index?_setIndex_of_ne s h index).symm

/-- Blocks that are not in the list keep their indexes when it is numbered. -/
theorem index?_number_of_not_mem (s : Site β) (start : Nat) {blocks : List BlockId} {id : BlockId}
    (hid : id ∉ blocks) : (number s start blocks).tree.index? id = s.tree.index? id := by
  induction blocks generalizing s start with
  | nil => rfl
  | cons block rest ih =>
    rw [List.mem_cons, not_or] at hid
    rw [number, ih _ _ hid.2, index?_setIndex_of_ne s hid.1]

/-- To number blocks changes no list of children. -/
theorem children_number (s : Site β) (start : Nat) (blocks : List BlockId) (id : BlockId) :
    (number s start blocks).tree.children id = s.tree.children id := by
  induction blocks generalizing s start with
  | nil => rfl
  | cons block rest ih => rw [number, ih, children_setIndex]

/-- Blocks that are numbered are announced where the number is a new one. -/
theorem sends_number (ho : s.tree.observers ≠ []) (start : Nat) {blocks : List BlockId}
    (hnd : blocks.Nodup) :
    ∃ notices, Sends s (number s start blocks) notices ∧
      Renumbers s.tree.index? (number s start blocks).tree.index? notices := by
  induction blocks generalizing s start with
  | nil => exact ⟨[], Sends.refl s, Renumbers.nil fun _ => rfl⟩
  | cons block rest ih =>
    obtain ⟨hnot, hnd⟩ := List.nodup_cons.mp hnd
    obtain ⟨first, hfirst, hchanged⟩ := sends_setIndex ho block (some start)
    have ho' : (s.setIndex block (some start)).tree.observers ≠ [] :=
      (reworked_setIndex s block (some start)).observers ▸ ho
    obtain ⟨second, hsecond, hrest⟩ := ih ho' (start + 1) hnd
    refine ⟨first ++ second, hfirst.trans hsecond, hchanged.append hrest fun other => ?_⟩
    by_cases hother : other = block
    · subst hother
      exact Or.inr (index?_number_of_not_mem _ _ hnot).symm
    · exact Or.inl (index?_setIndex_of_ne s hother _).symm

/-- Renumbering children announces exactly those whose index changes, once each. -/
theorem sends_reindex (ho : s.tree.observers ≠ []) {library : BlockId}
    (hnd : (s.tree.children library).Nodup) (start : Nat) :
    ∃ notices, Sends s (s.reindex library start) notices ∧
      Renumbers s.tree.index? (s.reindex library start).tree.index? notices :=
  sends_number ho start (hnd.sublist (List.drop_sublist _ _))

/-- Renumbering children changes no list. -/
theorem children_reindex (s : Site β) (library : BlockId) (start : Nat) (id : BlockId) :
    (s.reindex library start).tree.children id = s.tree.children id := children_number _ _ _ _

/-- Blocks that are not children of the library keep their indexes. -/
theorem index?_reindex_of_not_mem (s : Site β) (start : Nat) {library id : BlockId}
    (hid : id ∉ s.tree.children library) :
    (s.reindex library start).tree.index? id = s.tree.index? id :=
  index?_number_of_not_mem s start fun hmem => hid (List.mem_of_mem_drop hmem)

/-- Only a library gets another list of children. -/
theorem children_modifyChildren (s : Site β) (library id : BlockId)
    (f : List BlockId → List BlockId) :
    (s.modifyChildren library f).tree.children id =
      if id = library ∧ s.tree.isLibrary library then f (s.tree.children library)
      else s.tree.children id := by
  unfold Tree.children Tree.isLibrary
  rw [node?_modifyChildren]
  by_cases hid : id = library
  · subst hid
    cases s.tree.node? id with
    | none => simp
    | some node => cases hc : node.children <;> simp [hc]
  · cases s.tree.node? id <;> simp [hid]

/-- To change a list of children changes no index yet. -/
theorem index?_modifyChildren (s : Site β) (library : BlockId)
    (f : List BlockId → List BlockId) :
    (s.modifyChildren library f).tree.index? = s.tree.index? := by
  funext id
  unfold Tree.index?
  rw [node?_modifyChildren]
  cases s.tree.node? id <;> rfl

/-- To set a parent changes no index. -/
theorem index?_setParent (s : Site β) (block : BlockId) (parent : Option BlockId) :
    (s.setParent block parent).tree.index? = s.tree.index? := by
  funext id
  unfold Tree.index?
  rw [node?_setParent]
  cases s.tree.node? id <;> rfl

/-- To set a parent changes no list of children. -/
theorem children_setParent (s : Site β) (block : BlockId) (parent : Option BlockId)
    (id : BlockId) : (s.setParent block parent).tree.children id = s.tree.children id := by
  unfold Tree.children
  rw [node?_setParent]
  cases s.tree.node? id <;> rfl

/-! ### Changes of one child list -/

/-- So many notices were sent between two that show the tree before and the tree after. -/
def Brackets (s s' : Site β) (opening closing : TreeEvent) (middle : List (Notice β)) : Prop :=
  Sends s s' (⟨opening, s.tree⟩ :: (middle ++ [⟨closing, s'.tree⟩]))

/-- If the notices in between are known, a call that opens with one notice and closes with another
brackets them. -/
theorem brackets_notify {opening closing : TreeEvent} {middle : List (Notice β)}
    (ho : s.tree.observers ≠ []) (ho' : s'.tree.observers ≠ [])
    (h : Sends (s.notify opening) s' middle) :
    Brackets s (s'.notify closing) opening closing middle := by
  unfold Brackets
  rw [tree_notify]
  exact (sends_notify ho opening).trans (h.trans (sends_notify ho' closing))

/-- Nothing was sent since the opening notice, and no block has another index yet. -/
structure Opened (s s' : Site β) (opening : TreeEvent) : Prop where
  sends : Sends (s.notify opening) s' []
  index? : s'.tree.index? = s.tree.index?
  observers : s'.tree.observers = s.tree.observers

/-- Between the opening notice and the renumbering only the list changes. -/
theorem opened_modifyChildren (s : Site β) (opening : TreeEvent) (library : BlockId)
    (f : List BlockId → List BlockId) :
    Opened s ((s.notify opening).modifyChildren library f) opening where
  sends := sends_modify _ library _
  index? := by rw [index?_modifyChildren, tree_notify]
  observers :=
    ((reworked_notify s opening).trans (reworked_modify _ library _)).observers

/-- The parent may be set before the renumbering as well. -/
theorem Opened.setParent {opening : TreeEvent} (h : Opened s s' opening) (block : BlockId)
    (parent : Option BlockId) : Opened s (s'.setParent block parent) opening where
  sends := h.sends.trans (sends_modify s' block _)
  index? := (index?_setParent s' block parent).trans h.index?
  observers := (reworked_modify s' block _).observers.trans h.observers

/-- An insertion sends its opening, the indexes that change, the inserted subtree and its
closing. -/
theorem sends_attach (ho : s.tree.observers ≠ []) {index : Nat}
    (hf : (s.attach library block index).tree.Forest) :
    ∃ changes, Renumbers s.tree.index? (s.attach library block index).tree.index? changes ∧
      Brackets s (s.attach library block index) (.addingBlock library index)
        (.blockAdded library index)
        (changes ++ ((s.attach library block index).tree.descendants block).map fun id =>
          ⟨.inserted id, (s.attach library block index).tree⟩) := by
  have hnd := hf.nodup_children library
  obtain ⟨s₁, hs₁⟩ : ∃ s₁, s₁ = ((s.notify (.addingBlock library index)).modifyChildren library
    fun children => children.insertIdx index block).setParent block (some library) := ⟨_, rfl⟩
  have hattach : s.attach library block index = ((s₁.reindex library index).notifySubtree block
      .inserted).notify (.blockAdded library index) := by
    rw [hs₁]
    rfl
  have hopened : Opened s s₁ (.addingBlock library index) :=
    hs₁ ▸ (opened_modifyChildren s _ library _).setParent block _
  have ho₁ := hopened.observers ▸ ho
  rw [hattach] at hnd ⊢
  simp only [tree_notify, tree_notifySubtree, children_reindex] at hnd ⊢
  obtain ⟨changes, hchanges, hrenumbers⟩ := sends_reindex ho₁ hnd index
  have ho₂ := (reworked_reindex s₁ library index).observers ▸ ho₁
  rw [hopened.index?] at hrenumbers
  refine ⟨changes, hrenumbers, brackets_notify ho ?_ ?_⟩
  · rwa [tree_notifySubtree]
  · exact hopened.sends.trans (hchanges.trans (sends_notifySubtree ho₂ block _))

/-- A removal sends its opening, the indexes that change, the removed subtree and its closing. -/
theorem sends_unlink (ho : s.tree.observers ≠ []) {index : Nat} (h : s.tree.Forest)
    (hi : (s.tree.children library)[index]? = some block)
    (hf : (s.unlink library block index).tree.Forest) :
    ∃ changes, Renumbers s.tree.index? (s.unlink library block index).tree.index? changes ∧
      Brackets s (s.unlink library block index) (.removingBlock library index)
        (.blockRemoved library index)
        (changes ++ ((s.unlink library block index).tree.descendants block).map fun id =>
          ⟨.removed id, (s.unlink library block index).tree⟩) := by
  have hnd := hf.nodup_children library
  have hlist := (relisted_unlink h hi).children_eq
    (Tree.isLibrary_of_mem_children (List.mem_of_getElem? hi)) library
  rw [if_pos rfl] at hlist
  obtain ⟨s₁, hs₁⟩ : ∃ s₁, s₁ = (s.notify (.removingBlock library index)).modifyChildren library
    fun children => children.eraseIdx index := ⟨_, rfl⟩
  have hunlink : s.unlink library block index =
      ((((s₁.reindex library index).setIndex block none).setParent block none).notifySubtree block
        .removed).notify (.blockRemoved library index) := by
    rw [hs₁]
    rfl
  have hopened : Opened s s₁ (.removingBlock library index) :=
    hs₁ ▸ opened_modifyChildren s _ library _
  have ho₁ := hopened.observers ▸ ho
  rw [hunlink] at hnd hlist ⊢
  simp only [tree_notify, tree_notifySubtree, children_setParent, children_setIndex,
    children_reindex, index?_setParent] at hnd hlist ⊢
  -- The siblings are numbered first; the block is no longer one of them.
  have hnot : block ∉ s₁.tree.children library := by
    rw [hlist, mem_eraseIdx_iff (h.nodup_children library) hi]
    exact fun hmem => hmem.2 rfl
  obtain ⟨first, hfirst, hsiblings⟩ := sends_reindex ho₁ hnd index
  have ho₂ := (reworked_reindex s₁ library index).observers ▸ ho₁
  obtain ⟨second, hsecond, hblock⟩ := sends_setIndex ho₂ block none
  have ho₃ := (reworked_setIndex (s₁.reindex library index) block none).observers ▸ ho₂
  rw [hopened.index?] at hsiblings
  have hrenumbers := hsiblings.append hblock fun other => by
    by_cases hother : other = block
    · subst hother
      rw [← hopened.index?]
      exact Or.inl (index?_reindex_of_not_mem s₁ index hnot).symm
    · exact Or.inr (index?_setIndex_of_ne _ hother none).symm
  generalize (s₁.reindex library index).setIndex block none = s₂ at *
  have hparent : ReworkedInPlace s₂ (s₂.setParent block none) := reworked_modify s₂ block _
  have ho₄ := hparent.observers ▸ ho₃
  have hchanges : Sends s₁ (s₂.setParent block none) (first ++ second) := hfirst.trans hsecond
  refine ⟨first ++ second, hrenumbers, brackets_notify ho ?_ ?_⟩
  · rwa [tree_notifySubtree]
  · exact hopened.sends.trans (hchanges.trans (sends_notifySubtree ho₄ block _))

/-- An exchange sends its opening, the two index changes and its closing. -/
theorem sends_exchange (ho : s.tree.observers ≠ []) {a b : BlockId} {first second : Nat}
    (h : s.tree.Forest) (ha : (s.tree.children library)[first]? = some a)
    (hb : (s.tree.children library)[second]? = some b) :
    ∃ changes, Renumbers s.tree.index? (s.exchange library a b first second).tree.index? changes ∧
      Brackets s (s.exchange library a b first second) (.swappingBlocks library first second)
        (.blocksSwapped library first second) changes := by
  obtain ⟨s₁, hs₁⟩ : ∃ s₁, s₁ = (s.notify (.swappingBlocks library first second)).modifyChildren
    library fun children => (children.set first b).set second a := ⟨_, rfl⟩
  have hexchange : s.exchange library a b first second =
      ((s₁.setIndex a (some second)).setIndex b (some first)).notify
        (.blocksSwapped library first second) := by
    rw [hs₁]
    rfl
  have hopened : Opened s s₁ (.swappingBlocks library first second) :=
    hs₁ ▸ opened_modifyChildren s _ library _
  have ho₁ := hopened.observers ▸ ho
  obtain ⟨hparent, hplace⟩ := h.child library first a ha
  obtain ⟨one, hone, hfirst⟩ := sends_setIndex ho₁ a (some second)
  have ho₂ := (reworked_setIndex s₁ a (some second)).observers ▸ ho₁
  obtain ⟨two, htwo, hsecond⟩ := sends_setIndex ho₂ b (some first)
  have ho₃ := (reworked_setIndex (s₁.setIndex a (some second)) b (some first)).observers ▸ ho₂
  have hrenumbers := hfirst.append hsecond fun other => by
    by_cases hother : other = a
    · subst hother
      by_cases hab : other = b
      · -- A block that changes places with itself keeps its index.
        subst hab
        have hsame : second = first := by
          have hplace' := (h.child library second other hb).2
          rw [hplace, Option.some.injEq] at hplace'
          exact hplace'.symm
        have hid : s₁.tree.contains other := by
          rw [hs₁]
          exact (((reworked_notify s _).trans (reworked_modify _ library _)).contains other).trans
            (Tree.contains_of_parent? hparent)
        left
        rw [index?_setIndex_self hid, hopened.index?, hplace, hsame]
      · exact Or.inr (index?_setIndex_of_ne _ hab _).symm
    · exact Or.inl (index?_setIndex_of_ne _ hother _).symm
  rw [hexchange, tree_notify, ← hopened.index?]
  exact ⟨one ++ two, hrenumbers, brackets_notify ho ho₃ (hopened.sends.trans (hone.trans htwo))⟩

/-- A move sends its opening, the indexes that change and its closing. -/
theorem sends_shift (ho : s.tree.observers ≠ []) {source target : Nat}
    (hf : (s.shift library block source target).tree.Forest) :
    ∃ changes, Renumbers s.tree.index? (s.shift library block source target).tree.index? changes ∧
      Brackets s (s.shift library block source target) (.movingBlock library source target)
        (.blockMoved library source target) changes := by
  have hnd := hf.nodup_children library
  obtain ⟨s₁, hs₁⟩ : ∃ s₁, s₁ = (s.notify (.movingBlock library source target)).modifyChildren
    library fun children => (children.eraseIdx source).insertIdx target block := ⟨_, rfl⟩
  have hshift : s.shift library block source target =
      (s₁.reindex library (min source target)).notify (.blockMoved library source target) := by
    rw [hs₁]
    rfl
  have hopened : Opened s s₁ (.movingBlock library source target) :=
    hs₁ ▸ opened_modifyChildren s _ library _
  have ho₁ := hopened.observers ▸ ho
  rw [hshift] at hnd ⊢
  simp only [tree_notify, children_reindex] at hnd ⊢
  obtain ⟨changes, hchanges, hrenumbers⟩ := sends_reindex ho₁ hnd (min source target)
  have ho₂ := (reworked_reindex s₁ library (min source target)).observers ▸ ho₁
  rw [hopened.index?] at hrenumbers
  exact ⟨changes, hrenumbers, brackets_notify ho ho₂ (hopened.sends.trans hchanges)⟩

/-! ### What every notice satisfies -/

/-- Between the two sites every notice was as it should be. -/
def Tells (Q : Notice β → Prop) (s s' : Site β) : Prop :=
  ∃ notices, Sends s s' notices ∧ ∀ notice ∈ notices, Q notice

namespace Tells

variable {Q Q' : Notice β → Prop}

/-- Where nothing is sent every notice is as it should be. -/
theorem refl (Q : Notice β → Prop) (s : Site β) : Tells Q s s :=
  ⟨[], Sends.refl s, fun _ hmem => nomatch hmem⟩

/-- What holds of the notices of two steps holds of both together. -/
theorem trans (h : Tells Q s s') (h' : Tells Q s' s'') : Tells Q s s'' := by
  obtain ⟨first, hfirst, hq⟩ := h
  obtain ⟨second, hsecond, hq'⟩ := h'
  refine ⟨first ++ second, hfirst.trans hsecond, fun notice hmem => ?_⟩
  exact (List.mem_append.mp hmem).elim (hq notice) (hq' notice)

/-- A requirement on notices may be replaced by a weaker one. -/
theorem mono (h : Tells Q s s') (hq : ∀ notice, Q notice → Q' notice) : Tells Q' s s' := by
  obtain ⟨notices, hsend, hall⟩ := h
  exact ⟨notices, hsend, fun notice hmem => hq notice (hall notice hmem)⟩

/-- A step that tells nobody. -/
theorem of_silent (Q : Notice β → Prop) (h : s'.notices = s.notices) : Tells Q s s' :=
  ⟨[], by rw [Sends, h, List.append_nil], fun _ hmem => nomatch hmem⟩

/-- One notice is sent, which shows the tree as it is, or none if nobody observes. -/
theorem notify (s : Site β) {event : TreeEvent} (h : Q ⟨event, s.tree⟩) :
    Tells Q s (s.notify event) := by
  by_cases ho : s.tree.observers = []
  · apply of_silent
    unfold Site.notify
    rw [if_pos (by simpa using ho)]
  · refine ⟨_, sends_notify ho event, fun notice hmem => ?_⟩
    rwa [List.mem_singleton.mp hmem]

/-- The notices of a subtree are as they should be if each of them is, with the tree as it is. -/
theorem notifySubtree (s : Site β) (root : BlockId) {event : BlockId → TreeEvent}
    (h : ∀ id ∈ s.tree.descendants root, Q ⟨event id, s.tree⟩) :
    Tells Q s (s.notifySubtree root event) := by
  by_cases ho : s.tree.observers = []
  · apply of_silent
    unfold Site.notifySubtree
    rw [if_pos (by simpa using ho)]
  · refine ⟨_, sends_notifySubtree ho root event, fun notice hmem => ?_⟩
    obtain ⟨id, hid, rfl⟩ := List.mem_map.mp hmem
    exact h id hid

variable (hq : ∀ block old new shown, Q ⟨.indexChanged block old new, shown⟩)

include hq

/-- To set an index announces the change of an index and nothing else. -/
theorem setIndex (s : Site β) (block : BlockId) (index : Option Nat) :
    Tells Q s (s.setIndex block index) := by
  rcases setIndex_cases s block index with heq | ⟨-, -, heq⟩
  · rw [heq]
    exact refl Q s
  · rw [heq]
    exact (of_silent Q rfl).trans (notify _ (hq _ _ _ _))

/-- To number blocks announces changes of indexes and nothing else. -/
theorem number (s : Site β) (start : Nat) (blocks : List BlockId) :
    Tells Q s (number s start blocks) := by
  induction blocks generalizing s start with
  | nil => exact refl Q s
  | cons block rest ih => exact (setIndex hq s block _).trans (ih _ _)

end Tells

/-! ### Libraries that are cleared -/

/-- Between the two sites no library was announced as cleared but those of a list. -/
def ClearsWithin (s s' : Site β) (libraries : List BlockId) : Prop :=
  Tells (fun notice => ∀ id, notice.event.clears? = some id → id ∈ libraries) s s'

namespace ClearsWithin

variable {libraries libraries' : List BlockId}

/-- Where nothing is sent no library is announced as cleared. -/
theorem refl (s : Site β) (libraries : List BlockId) : ClearsWithin s s libraries := Tells.refl _ s

/-- Libraries that are cleared in two steps lie in the list if those of each step do. -/
theorem trans (h : ClearsWithin s s' libraries) (h' : ClearsWithin s' s'' libraries) :
    ClearsWithin s s'' libraries := Tells.trans h h'

/-- The list may be longer. -/
theorem mono (h : ClearsWithin s s' libraries) (hsub : ∀ id ∈ libraries, id ∈ libraries') :
    ClearsWithin s s' libraries' :=
  Tells.mono h fun _ hin id he => hsub id (hin id he)

/-- A step that tells nobody. -/
theorem of_silent (libraries : List BlockId) (h : s'.notices = s.notices) :
    ClearsWithin s s' libraries := Tells.of_silent _ h

end ClearsWithin

/-- A notice that clears nothing, or a library of the list, is allowed. -/
theorem clearsWithin_notify (s : Site β) {event : TreeEvent} {libraries : List BlockId}
    (h : ∀ id, event.clears? = some id → id ∈ libraries) :
    ClearsWithin s (s.notify event) libraries := Tells.notify s h

/-- An event that is not about clearing may be sent throughout a subtree. -/
theorem clearsWithin_notifySubtree (s : Site β) (root : BlockId) {event : BlockId → TreeEvent}
    (libraries : List BlockId) (h : ∀ block, (event block).clears? = none) :
    ClearsWithin s (s.notifySubtree root event) libraries := by
  refine Tells.notifySubtree s root fun block _ id he => ?_
  rw [h block] at he
  cases he

/-- Setting an index clears nothing. -/
theorem clearsWithin_setIndex (s : Site β) (block : BlockId) (index : Option Nat)
    (libraries : List BlockId) : ClearsWithin s (s.setIndex block index) libraries :=
  Tells.setIndex (fun _ _ _ _ => nofun) s block index

/-- Numbering blocks clears nothing. -/
theorem clearsWithin_number (s : Site β) (start : Nat) (blocks libraries : List BlockId) :
    ClearsWithin s (number s start blocks) libraries :=
  Tells.number (fun _ _ _ _ => nofun) s start blocks

/-- Removing a child clears nothing. -/
theorem clearsWithin_unlink (s : Site β) (library block : BlockId) (index : Nat)
    (libraries : List BlockId) : ClearsWithin s (s.unlink library block index) libraries := by
  unfold unlink
  refine .trans ?_ (clearsWithin_notify _ nofun)
  refine .trans ?_ (clearsWithin_notifySubtree _ block libraries fun _ => rfl)
  refine .trans ?_ (.of_silent libraries rfl)
  refine .trans ?_ (clearsWithin_setIndex _ block none libraries)
  refine .trans ?_ (clearsWithin_number _ _ _ libraries)
  refine .trans ?_ (.of_silent libraries rfl)
  exact clearsWithin_notify s nofun

/-- Leaving a library clears nothing, whichever way it goes. -/
theorem clearsWithin_leave (s : Site β) (id : BlockId) (libraries : List BlockId) :
    ClearsWithin s (s.leave id).2 libraries := by
  unfold leave
  split
  · exact .refl s libraries
  · split
    · unfold dropLinks
      refine .trans ?_ (.of_silent libraries rfl)
      refine .trans ?_ (clearsWithin_setIndex _ id none libraries)
      exact clearsWithin_notify s nofun
    · unfold remove
      split
      · exact clearsWithin_unlink s _ id _ libraries
      · exact .refl s libraries

/-- Giving up a slot sends nothing. -/
theorem notices_surrender (s : Site β) (id : BlockId) : (s.surrender id).2.notices = s.notices := by
  rcases surrender_cases s id with heq | ⟨node, -, heq⟩ <;> rw [heq]
  rfl

/-- So the second half of a destruction clears nothing. -/
theorem clearsWithin_depart (s : Site β) (id : BlockId) (libraries : List BlockId) :
    ClearsWithin s (s.depart id).2 libraries := by
  have hleft := clearsWithin_leave s id libraries
  unfold depart
  split
  · next heq =>
    rw [heq] at hleft
    exact hleft
  · next heq =>
    rw [heq] at hleft
    exact hleft.trans (.of_silent libraries (notices_surrender _ id))

/-- While blocks are destroyed no library gets another child. -/
theorem mem_children_of_pared {κ : Type} {kind : β → κ} (h : Pared kind s s')
    (hid : block ∈ s'.tree.children library) : block ∈ s.tree.children library := by
  obtain ⟨node', hn'⟩ := Option.isSome_iff_exists.mp
    (Tree.contains_of_isLibrary (Tree.isLibrary_of_mem_children hid))
  obtain ⟨node, hn, hpared⟩ := h library node' hn'
  rw [Tree.children_of_node? hn'] at hid
  rw [Tree.children_of_node? hn]
  exact hpared.sub block hid

/-- So nobody comes to be met on a walk down who was not met before. -/
theorem mem_listing_of_pared {κ : Type} {kind : β → κ} (h : Pared kind s s') {levels : Nat}
    {root id : BlockId} (hid : id ∈ s'.tree.listing levels root) :
    id ∈ s.tree.listing levels root := by
  induction levels generalizing root with
  | zero => exact hid
  | succ levels ih =>
    rw [Tree.listing_succ, List.mem_cons] at hid ⊢
    refine hid.imp_right fun hbelow => ?_
    obtain ⟨kid, hkid, hid⟩ := List.mem_flatMap.mp hbelow
    exact List.mem_flatMap.mpr ⟨kid, mem_children_of_pared h hkid, ih hid⟩

/-- Destroying the blocks of so many levels clears no library that is not met on the way. -/
def ClearsBelow (β : Type) (levels : Nat) : Prop :=
  ∀ (s : Site β) (id : BlockId),
    ClearsWithin s (destroyTo levels s id).2 (s.tree.listing levels id)

/-- Blocks are destroyed one after the other. -/
theorem clearsWithin_foldl {levels : Nat} (hdown : ClearsBelow β levels)
    (kids : List BlockId) (s : Site β) :
    ClearsWithin s (kids.foldl (fun s kid => (destroyTo levels s kid).2) s)
      (kids.flatMap (s.tree.listing levels)) := by
  induction kids generalizing s with
  | nil => exact .refl s _
  | cons kid rest ih =>
    rw [List.flatMap_cons]
    refine ((hdown s kid).mono fun id hid => List.mem_append_left _ hid).trans ?_
    refine (ih _).mono fun id hid => List.mem_append_right _ ?_
    obtain ⟨other, ho, hmet⟩ := List.mem_flatMap.mp hid
    have hpared : Pared (fun _ => ()) s (destroyTo levels s kid).2 := pared_destroyTo _ s kid
    exact List.mem_flatMap.mpr ⟨other, ho, mem_listing_of_pared hpared hmet⟩

/-- Clearing a library clears it and what the destruction of its children clears, all of which is
listed below it. -/
theorem clearsWithin_clearWith {levels : Nat} (hdown : ClearsBelow β levels) (s : Site β)
    (library : BlockId) :
    ClearsWithin s (clearWith (destroyTo levels) s library).2
      (s.tree.listing (levels + 1) library) := by
  have hself := Tree.mem_listing_self (t := s.tree) (levels + 1) library
  have hopening : ∀ event : TreeEvent, event.clears? = some library →
      ∀ id, event.clears? = some id → id ∈ s.tree.listing (levels + 1) library := by
    intro event he id hid
    rw [he, Option.some.injEq] at hid
    exact hid ▸ hself
  unfold clearWith
  split
  · exact .refl s _
  · exact .refl s _
  · next child children hreq =>
    obtain ⟨-, hlist⟩ := requireLibrary_eq_ok_iff.mp hreq
    refine .trans ?_ (clearsWithin_notify _ (hopening _ rfl))
    refine .trans ?_ (.of_silent _ rfl)
    refine (clearsWithin_notify s (hopening (.clearing library) rfl)).trans ?_
    refine (clearsWithin_foldl hdown (child :: children) _).mono fun id hid => ?_
    rw [tree_notify, ← hlist] at hid
    exact List.mem_cons_of_mem _ hid

/-- By induction on the levels, a destruction clears only libraries of its subtree. -/
theorem clearsBelow (levels : Nat) : ClearsBelow β levels := by
  induction levels with
  | zero => exact fun s _ => .refl s _
  | succ levels ih =>
    intro s id
    have hhollow : ClearsWithin s (hollow levels s id).2 (s.tree.listing (levels + 1) id) := by
      have hcondemn : ClearsWithin s (s.condemn id) (s.tree.listing (levels + 1) id) :=
        (ClearsWithin.of_silent _ rfl).trans (clearsWithin_notify _ nofun)
      unfold hollow
      split
      · refine hcondemn.trans ((clearsWithin_clearWith ih _ id).mono fun other ho => ?_)
        rwa [Tree.listing_congr fun x _ => children_condemn s id x] at ho
      · exact hcondemn
    rw [destroyTo_succ]
    split
    · exact .refl s _
    · split
      · next heq =>
        rw [heq] at hhollow
        exact hhollow
      · next heq =>
        rw [heq] at hhollow
        exact hhollow.trans (clearsWithin_depart _ id _)

/-- Who observes the tree does not change while blocks are destroyed. -/
theorem upkept_observers (observers : List Nat) :
    Upkept fun s : Site β => s.tree.observers = observers where
  work h hr := hr.observers.trans h
  surrender {s} id h := by
    rcases surrender_cases s id with heq | ⟨node, -, heq⟩ <;> rw [heq] <;> exact h

/-- No library of that name is cleared while its children are destroyed. -/
theorem sends_clear (ho : s.tree.observers ≠ []) (h : s.tree.Forest)
    (hc : s.tree.children library ≠ []) :
    ∃ middle, Brackets s (s.clear library).2 (.clearing library) (.cleared library) middle ∧
      ∀ notice ∈ middle, notice.event.clears? ≠ some library := by
  obtain ⟨child, children, hlist⟩ := List.exists_cons_of_ne_nil hc
  have hlib : s.tree.isLibrary library := Tree.isLibrary_of_mem_children (by
    rw [hlist]
    exact List.mem_cons_self)
  have hreq := requireLibrary_eq_ok_iff.mpr ⟨hlib, hlist⟩
  -- As many levels as the tree has slots before the first child goes.
  generalize hlevels : s.tree.slots.size + 1 = levels
  obtain ⟨s₁, hs₁⟩ : ∃ s₁, s₁ = (child :: children).foldl
    (fun s kid => (destroyTo levels s kid).2) (s.notify (.clearing library)) := ⟨_, rfl⟩
  have hclear : (s.clear library).2 =
      (s₁.modifyChildren library fun _ => []).notify (.cleared library) := by
    rw [clear, hlevels, hs₁]
    simp [clearWith, hreq]
  have hk := upkept_observers (β := β) s.tree.observers
  have ho₁ : s₁.tree.observers = s.tree.observers := by
    rw [hs₁]
    apply foldl_preserves (P := fun s' : Site β => s'.tree.observers = s.tree.observers)
    · exact fun s' id hs' => hk.destroyTo levels hs' id
    · exact hk.work rfl (reworked_notify s _)
  have ho₂ := hk.work ho₁ (reworked_modify s₁ library fun node =>
    { node with children := node.children.map fun _ => [] })
  obtain ⟨middle, hsend, hmet⟩ :=
    clearsWithin_foldl (clearsBelow levels) (child :: children) (s.notify (.clearing library))
  rw [← hs₁] at hsend
  refine ⟨middle, ?_, fun notice hmem hself => ?_⟩
  · rw [hclear]
    exact brackets_notify ho (ho₂ ▸ ho) hsend
  · obtain ⟨kid, hkid, hin⟩ := List.mem_flatMap.mp (hmet notice hmem library hself)
    rw [tree_notify] at hin
    exact h.root_not_mem_children hin (hlist ▸ hkid)

end Site

end BlockForest
