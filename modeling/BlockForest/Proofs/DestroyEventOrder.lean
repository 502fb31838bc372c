import Mathlib
import BlockForest.Proofs.DestroyNotices

/-!
# The course of a destruction

What a destruction sends is what `Tree.teardown` has written down before, and the slots of the
subtree become free in the order of `Tree.upwards`, unless a block is managed elsewhere.

The walk is followed with `Site.Proceeds`, which keeps both accounts at once: what is sent, and
which slots become free. It composes as the steps do. A child of a block that goes leaves by
`dropLinks`, the block that the call is about by `remove`, since its library goes on.
-/

set_option autoImplicit false

namespace BlockForest

variable {β : Type}

namespace Site

variable {s s' s'' : Site β} {id library : BlockId} {Q Q' : Notice β → Prop}

/-- Between the two sites these events were sent and these blocks gave up their slots, one after
the other, and every notice is as it should be. -/
structure Proceeds (Q : Notice β → Prop) (s s' : Site β) (events : List TreeEvent)
    (freed : List BlockId) : Prop where
  told : s.tree.observers ≠ [] → ∃ sent, Sends s s' sent ∧ sent.map Notice.event = events ∧
    ∀ notice ∈ sent, Q notice
  observers : s'.tree.observers = s.tree.observers
  free : s'.tree.free = (freed.map BlockId.index).reverse ++ s.tree.free

namespace Proceeds

variable {events events' : List TreeEvent} {freed freed' : List BlockId}

/-- Where nothing happens, nothing is sent and no slot becomes free. -/
theorem refl (Q : Notice β → Prop) (s : Site β) : Proceeds Q s s [] [] :=
  ⟨fun _ => ⟨[], Sends.refl s, rfl, fun _ hmem => nomatch hmem⟩, rfl, rfl⟩

/-- What is sent and freed by two steps is what the first one sends and frees, and then the second
one. -/
theorem trans (h : Proceeds Q s s' events freed) (h' : Proceeds Q s' s'' events' freed') :
    Proceeds Q s s'' (events ++ events') (freed ++ freed') where
  told ho := by
    obtain ⟨first, hfirst, hevents, hq⟩ := h.told ho
    obtain ⟨second, hsecond, hevents', hq'⟩ := h'.told (h.observers ▸ ho)
    refine ⟨first ++ second, hfirst.trans hsecond, ?_, fun notice hmem => ?_⟩
    · rw [List.map_append, hevents, hevents']
    · exact (List.mem_append.mp hmem).elim (hq notice) (hq' notice)
  observers := h'.observers.trans h.observers
  free := by
    rw [h'.free, h.free, List.map_append, List.reverse_append, List.append_assoc]

/-- A requirement on notices may be replaced by one that follows from it for the events that are
sent. -/
theorem mono (h : Proceeds Q s s' events freed)
    (hq : ∀ notice : Notice β, notice.event ∈ events → Q notice → Q' notice) :
    Proceeds Q' s s' events freed where
  told ho := by
    obtain ⟨sent, hsent, hevents, hsent'⟩ := h.told ho
    refine ⟨sent, hsent, hevents, fun notice hmem => hq notice ?_ (hsent' notice hmem)⟩
    rw [← hevents]
    exact List.mem_map_of_mem hmem
  observers := h.observers
  free := h.free

/-- A step that tells nobody and frees no slot. -/
theorem of_silent (hw : ReworkedInPlace s s') (hn : s'.notices = s.notices) :
    Proceeds Q s s' [] [] where
  told _ := ⟨[], by rw [Sends, hn, List.append_nil], rfl, fun _ hmem => nomatch hmem⟩
  observers := hw.observers
  free := hw.tenancy.free

/-- One notice is sent, and it shows the tree as it is. -/
theorem notify (s : Site β) (event : TreeEvent) (hq : Q ⟨event, s.tree⟩) :
    Proceeds Q s (s.notify event) [event] [] where
  told ho := by
    refine ⟨_, sends_notify ho event, rfl, fun notice hmem => ?_⟩
    rwa [List.mem_singleton.mp hmem]
  observers := (reworked_notify s event).observers
  free := (reworked_notify s event).tenancy.free

/-- An event throughout a subtree is sent for its blocks in order, and each notice shows the same
tree. -/
theorem notifySubtree (s : Site β) (root : BlockId) (event : BlockId → TreeEvent)
    (hq : ∀ id ∈ s.tree.descendants root, Q ⟨event id, s.tree⟩) :
    Proceeds Q s (s.notifySubtree root event) ((s.tree.descendants root).map event) [] where
  told ho := by
    refine ⟨_, sends_notifySubtree ho root event, ?_, fun notice hmem => ?_⟩
    · rw [List.map_map]
      rfl
    · obtain ⟨id, hid, rfl⟩ := List.mem_map.mp hmem
      exact hq id hid
  observers := (reworked_notifySubtree s root event).observers
  free := (reworked_notifySubtree s root event).tenancy.free

/-- A block that is there gets another index. -/
theorem setIndex (hid : s.tree.contains id) {index : Option Nat} (hne : s.tree.index? id ≠ index)
    (hq : Q ⟨.indexChanged id (s.tree.index? id) index, (s.setIndex id index).tree⟩) :
    Proceeds Q s (s.setIndex id index) [.indexChanged id (s.tree.index? id) index] [] := by
  obtain ⟨-, -, heq⟩ := (setIndex_cases s id index).resolve_left fun hsame => by
    have hnew := index?_setIndex_self hid index
    rw [hsame] at hnew
    exact hne hnew
  have hmodify : ReworkedInPlace s (s.modify id fun node => { node with index := index }) :=
    reworked_modify s id _
  rw [heq] at hq ⊢
  rw [tree_notify] at hq
  exact (of_silent hmodify rfl).trans (notify _ _ hq)

/-- A block gives up its slot, unless it is managed elsewhere. -/
theorem surrender {node : Node β} (hn : s.tree.node? id = some node) :
    Proceeds Q s (s.surrender id).2 [] (if node.ownership = .unowned then [] else [id]) := by
  rw [surrender_of_node? hn]
  split
  · exact refl Q s
  · exact ⟨fun _ => ⟨[], Sends.refl s, rfl, fun _ hmem => nomatch hmem⟩, rfl, rfl⟩

end Proceeds

/-- The block that a notice is about is there. -/
def Alive (notice : Notice β) : Prop := notice.shown.contains notice.event.subject

/-- Besides, a block that is announced as one that has left its library has the links it has in
another tree. -/
def Linked (t : Tree β) (notice : Notice β) : Prop :=
  Alive notice ∧ ∀ block, notice.event = .removed block →
    notice.shown.parent? block = t.parent? block ∧ notice.shown.index? block = t.index? block

/-! ### A block that leaves -/

/-- To set an index does not end a block. -/
theorem contains_setIndex (s : Site β) (block other : BlockId) (index : Option Nat) :
    (s.setIndex block index).tree.contains other = s.tree.contains other :=
  (reworked_setIndex s block index).contains other

/-- To set a parent is a change to a single block. -/
theorem reworked_setParent (s : Site β) (block : BlockId) (parent : Option BlockId) :
    ReworkedInPlace s (s.setParent block parent) := reworked_modify s block _

/-- Blocks get their numbers one after the other; here each number is a new one. -/
theorem proceeds_number (start : Nat) {blocks : List BlockId} (hnd : blocks.Nodup)
    (halive : ∀ block ∈ blocks, s.tree.contains block)
    (hne : ∀ position block, blocks[position]? = some block →
      s.tree.index? block ≠ some (start + position)) :
    Proceeds Alive s (number s start blocks)
      ((blocks.zipIdx start).map fun (block, position) =>
        .indexChanged block (s.tree.index? block) (some position)) [] := by
  induction blocks generalizing s start with
  | nil => exact .refl Alive s
  | cons block rest ih =>
    obtain ⟨hnot, hnd⟩ := List.nodup_cons.mp hnd
    have hblock := halive block List.mem_cons_self
    have hother : ∀ other ∈ rest,
        (s.setIndex block (some start)).tree.index? other = s.tree.index? other := by
      intro other ho
      exact index?_setIndex_of_ne s (fun heq : other = block => hnot (heq ▸ ho)) _
    have hfirst : Proceeds Alive s (s.setIndex block (some start))
        [.indexChanged block (s.tree.index? block) (some start)] [] := by
      refine .setIndex hblock (hne 0 block rfl) ?_
      exact (contains_setIndex s block block (some start)).trans hblock
    have hrest := ih (s := s.setIndex block (some start)) (start + 1) hnd
      (fun other ho => by
        rw [contains_setIndex]
        exact halive other (List.mem_cons_of_mem _ ho))
      (fun position other ho => by
        rw [hother other (List.mem_of_getElem? ho), Nat.add_right_comm]
        exact hne (position + 1) other ho)
    have hevents : ((rest.zipIdx (start + 1)).map fun (other, position) =>
          TreeEvent.indexChanged other ((s.setIndex block (some start)).tree.index? other)
            (some position)) =
        (rest.zipIdx (start + 1)).map fun (other, position) =>
          .indexChanged other (s.tree.index? other) (some position) := by
      refine List.map_congr_left fun place hp => ?_
      simp only [hother place.1 (List.fst_mem_of_mem_zipIdx hp)]
    rw [hevents] at hrest
    exact hfirst.trans hrest

/-- Siblings that have a position more than they should move up. -/
theorem proceeds_reindex {index : Nat} {siblings : List BlockId}
    (hlist : (s.tree.children library).drop index = siblings) (hnd : siblings.Nodup)
    (halive : ∀ sibling ∈ siblings, s.tree.contains sibling)
    (hindex : ∀ position sibling, siblings[position]? = some sibling →
      s.tree.index? sibling = some (index + position + 1)) :
    Proceeds Alive s (s.reindex library index)
      ((siblings.zipIdx index).map fun (sibling, position) =>
        .indexChanged sibling (some (position + 1)) (some position)) [] := by
  have hnumber := proceeds_number index hnd halive fun position sibling ho heq => by
    rw [hindex position sibling ho, Option.some.injEq] at heq
    omega
  have hevents : ((siblings.zipIdx index).map fun (sibling, position) =>
        TreeEvent.indexChanged sibling (s.tree.index? sibling) (some position)) =
      (siblings.zipIdx index).map fun (sibling, position) =>
        .indexChanged sibling (some (position + 1)) (some position) := by
    refine List.map_congr_left fun place hp => ?_
    obtain ⟨hle, hplace⟩ := List.mem_zipIdx_iff_le_and_getElem?_sub.mp hp
    simp only [hindex _ place.1 hplace]
    congr 2
    omega
  rw [reindex, hlist, ← hevents]
  exact hnumber

/-- Behind a position that was taken out stands what stood behind it before. -/
theorem drop_eraseIdx (blocks : List BlockId) {index : Nat} (hi : index < blocks.length) :
    (blocks.eraseIdx index).drop index = blocks.drop (index + 1) := by
  rw [List.eraseIdx_eq_take_drop_succ]
  exact List.drop_left' (List.length_take_of_le hi.le)

/-- A block that is no longer named by its library gives up its links, and nobody below it has to
be told. -/
theorem proceeds_release {index : Nat} (hid : s.tree.contains id)
    (hindex : s.tree.index? id = some index) (hc : s.tree.children id = []) :
    Proceeds Alive s (((s.setIndex id none).setParent id none).notifySubtree id .removed)
      [.indexChanged id (some index) none, .removed id] [] := by
  have hset : Proceeds Alive s (s.setIndex id none) [.indexChanged id (some index) none] [] := by
    rw [← hindex]
    refine .setIndex hid (by simp [hindex]) ?_
    exact (contains_setIndex s id id none).trans hid
  have hparent := reworked_setParent (s.setIndex id none) id none
  have hid' : ((s.setIndex id none).setParent id none).tree.contains id := by
    rw [hparent.contains, contains_setIndex, hid]
  have hdesc : ((s.setIndex id none).setParent id none).tree.descendants id = [id] := by
    rw [Tree.descendants, if_pos hid', Tree.listing_of_childless]
    rw [children_setParent, children_setIndex, hc]
  have hremoved := Proceeds.notifySubtree (Q := Alive) _ id .removed (by
    rw [hdesc, List.forall_mem_singleton]
    exact hid')
  rw [hdesc] at hremoved
  exact (hset.trans (.of_silent hparent rfl)).trans hremoved

/-- A block without children leaves its library. -/
theorem proceeds_unlink (h : s.tree.Forest) {index : Nat}
    (hi : (s.tree.children library)[index]? = some id) (hc : s.tree.children id = []) :
    Proceeds Alive s (s.unlink library id index) (s.tree.parting library id) [] := by
  have hnd := h.nodup_children library
  have hmem := List.mem_of_getElem? hi
  have hlib := Tree.isLibrary_of_mem_children hmem
  have hid := Tree.contains_of_parent? (h.mem_children_iff.mp hmem)
  obtain ⟨s₁, hs₁⟩ : ∃ s₁, s₁ = (s.notify (.removingBlock library index)).modifyChildren library
    fun children => children.eraseIdx index := ⟨_, rfl⟩
  have hunlink : s.unlink library id index =
      ((((s₁.reindex library index).setIndex id none).setParent id none).notifySubtree id
        .removed).notify (.blockRemoved library index) := by
    rw [hs₁]
    rfl
  have hwork₁ : ReworkedInPlace s s₁ :=
    hs₁ ▸ (reworked_notify s _).trans (reworked_modify _ library _)
  have hindex₁ : s₁.tree.index? = s.tree.index? := by
    rw [hs₁, index?_modifyChildren, tree_notify]
  have hkids₁ : ∀ other, s₁.tree.children other =
      if other = library then (s.tree.children library).eraseIdx index
      else s.tree.children other := by
    intro other
    have htree := tree_notify s (.removingBlock library index)
    rw [hs₁, children_modifyChildren, htree]
    simp only [hlib, and_true]
  have hopening : Proceeds Alive s s₁ [.removingBlock library index] [] := by
    rw [hs₁]
    exact (Proceeds.notify s _ (Tree.contains_of_isLibrary hlib)).trans
      (.of_silent (reworked_modify _ library _) rfl)
  -- The siblings behind the block move up; the block is no longer one of them.
  have hlist : (s₁.tree.children library).drop index =
      (s.tree.children library).drop (index + 1) := by
    rw [hkids₁, if_pos rfl, drop_eraseIdx _ (List.getElem?_eq_some_iff.mp hi).1]
  have halive : ∀ sibling ∈ (s.tree.children library).drop (index + 1),
      s₁.tree.contains sibling := by
    intro sibling hsibling
    rw [hwork₁.contains]
    exact Tree.contains_of_parent? (h.mem_children_iff.mp (List.mem_of_mem_drop hsibling))
  have hplaces : ∀ position sibling,
      ((s.tree.children library).drop (index + 1))[position]? = some sibling →
        s₁.tree.index? sibling = some (index + position + 1) := by
    intro position sibling hsibling
    rw [List.getElem?_drop] at hsibling
    rw [hindex₁, (h.child library _ sibling hsibling).2, Nat.add_right_comm]
  have hsiblings := proceeds_reindex hlist (hnd.sublist (List.drop_sublist _ _)) halive hplaces
  have hwork₂ := hwork₁.trans (reworked_reindex s₁ library index)
  have hindex₂ : (s₁.reindex library index).tree.index? id = some index := by
    rw [index?_reindex_of_not_mem, hindex₁, (h.child library index id hi).2]
    rw [hkids₁, if_pos rfl, mem_eraseIdx_iff hnd hi]
    exact fun hmem => hmem.2 rfl
  have hkids₂ : (s₁.reindex library index).tree.children id = [] := by
    rw [children_reindex, hkids₁, if_neg, hc]
    rintro rfl
    exact h.not_mem_children_self id hmem
  have hblock := proceeds_release ((hwork₂.contains id).trans hid) hindex₂ hkids₂
  have hclosing : (((((s₁.reindex library index).setIndex id none).setParent id
      none).notifySubtree id .removed).tree.contains library) := by
    rw [tree_notifySubtree, (reworked_setParent _ id none).contains, contains_setIndex,
      hwork₂.contains]
    exact Tree.contains_of_isLibrary hlib
  have hall := hopening.trans (hsiblings.trans (hblock.trans
    (.notify _ (.blockRemoved library index) hclosing)))
  rw [hunlink, Tree.parting, idxOf_eq_of_getElem? hnd hi]
  simpa using hall

/-- A block without children that is removed from its library sends its parting, and all blocks in
it are there. -/
theorem proceeds_remove (h : s.tree.Forest) (hp : s.tree.parent? id = some library)
    (hc : s.tree.children id = []) :
    (s.remove library id).1 = .ok () ∧
      Proceeds Alive s (s.remove library id).2 (s.tree.parting library id) [] := by
  obtain ⟨index, hpos⟩ := positionOf_of_mem (h.mem_children_iff.mpr hp)
  have hremove : s.remove library id = (.ok (), s.unlink library id index) := by
    simp [remove, hpos]
  rw [hremove]
  exact ⟨rfl, proceeds_unlink h (getElem?_of_positionOf hpos) hc⟩

/-! ### The walk -/

/-- Whether a notice is right about links depends on the block that it says has left, so it carries
over to a tree with the same such block. -/
theorem Linked.congr {t t' : Tree β} {notice : Notice β} (h : Linked t' notice)
    (hnode : ∀ block, notice.event = .removed block → t'.node? block = t.node? block) :
    Linked t notice := by
  refine ⟨h.1, fun block he => ?_⟩
  obtain ⟨hp, hi⟩ := h.2 block he
  unfold Tree.parent? at hp ⊢
  unfold Tree.index? at hi ⊢
  rw [← hnode block he]
  exact ⟨hp, hi⟩

/-- A notice about a live block that is not about a removal is right, since links do not matter for
it. -/
theorem linked_of_alive {t : Tree β} {event : TreeEvent} (h : s.tree.contains event.subject)
    (he : event.removes? = none) : Linked t ⟨event, s.tree⟩ := by
  refine ⟨h, fun block heq => ?_⟩
  have heq : event = .removed block := heq
  rw [heq] at he
  cases he

/-- What is sent, and which slots become free, when a child of a library that is being deleted goes
with so many levels below it. -/
def Unwinds (β : Type) (levels : Nat) : Prop :=
  ∀ (s : Site β) (id library : BlockId), s.tree.Upright levels id →
    s.tree.parent? id = some library → s.tree.isBeingDeleted library →
      library ∉ s.tree.listing levels id →
        (∀ block ∈ s.tree.listing levels id, s.tree.index? block ≠ none) →
          Proceeds (Linked s.tree) s (destroyTo (levels + 1) s id).2 (s.tree.dismissal levels id)
            (s.tree.owned (s.tree.upwards levels id))

/-- It can be read off any tree in which the subtree is the same. -/
theorem Unwinds.rebase {levels : Nat} (hdown : Unwinds β levels) {t : Tree β}
    (hu : s.tree.Upright levels id) (hp : s.tree.parent? id = some library)
    (hm : s.tree.isBeingDeleted library) (hapart : library ∉ s.tree.listing levels id)
    (hbase : ∀ block ∈ t.listing levels id, s.tree.node? block = t.node? block)
    (hindex : ∀ block ∈ t.listing levels id, t.index? block ≠ none) :
    Proceeds (Linked t) s (destroyTo (levels + 1) s id).2 (t.dismissal levels id)
      (t.owned (t.upwards levels id)) := by
  have hlist := Tree.listing_eq_of_node?_eq hbase
  have hhere := hdown s id library hu hp hm hapart fun block hb => by
    rw [hlist] at hb
    unfold Tree.index?
    rw [hbase block hb]
    exact hindex block hb
  have howned : s.tree.owned (t.upwards levels id) = t.owned (t.upwards levels id) := by
    refine Tree.owned_congr fun block hb => ?_
    unfold Tree.ownership?
    rw [hbase block (Tree.mem_upwards.mp hb)]
  rw [Tree.dismissal_congr hbase, Tree.upwards_congr hbase, howned] at hhere
  refine hhere.mono fun notice hmem hlinked => hlinked.congr fun block he => ?_
  rw [he] at hmem
  exact hbase block (Tree.mem_listing_of_dismissal hmem)

/-- Children go one after the other, and none of them touches the subtree of another one. -/
theorem proceeds_foldl {levels : Nat} (hdown : Unwinds β levels) {t : Tree β}
    {kids : List BlockId} (h : Doomed s.tree levels library kids)
    (hbase : ∀ kid ∈ kids, ∀ block ∈ t.listing levels kid, s.tree.node? block = t.node? block)
    (hindex : ∀ kid ∈ kids, ∀ block ∈ t.listing levels kid, t.index? block ≠ none) :
    Proceeds (Linked t) s (kids.foldl (fun s kid => (destroyTo (levels + 1) s kid).2) s)
      (kids.flatMap (t.dismissal levels)) (t.owned (kids.flatMap (t.upwards levels))) := by
  induction kids generalizing s with
  | nil => exact .refl _ s
  | cons kid rest ih =>
    have hkid := List.mem_cons_self (a := kid) (l := rest)
    have hapart : library ∉ s.tree.listing levels kid := fun hin =>
      h.apart (List.mem_flatMap.mpr ⟨kid, hkid, hin⟩)
    have hfirst := hdown.rebase (h.upright kid hkid) (h.parent? kid hkid) h.marked hapart
      (hbase kid hkid) (hindex kid hkid)
    have hrazed := razes levels s kid (h.upright kid hkid) h.loose
    rw [List.foldl_cons, List.flatMap_cons, List.flatMap_cons, Tree.owned_append]
    generalize (destroyTo (levels + 1) s kid).2 = s₁ at hfirst hrazed ⊢
    refine hfirst.trans (ih (h.tail hrazed) (fun other ho block hb => ?_) fun other ho =>
      hindex other (List.mem_cons_of_mem _ ho))
    have hsame := hbase other (List.mem_cons_of_mem _ ho)
    rw [h.node?_eq hrazed ho (Tree.listing_eq_of_node?_eq hsame ▸ hb), hsame block hb]

/-- A block is announced, and its children go. -/
theorem proceeds_hollow {levels : Nat} (hdown : ∀ k, levels = k + 1 → Unwinds β k)
    (hu : s.tree.Upright levels id)
    (hindex : ∀ block ∈ s.tree.under levels id, s.tree.index? block ≠ none) :
    Proceeds (Linked s.tree) s (hollow levels s id).2 (s.tree.teardown levels id)
      (s.tree.owned (s.tree.upwards levels id).dropLast) := by
  have hid := hu.alive id (Tree.mem_listing_self _ _)
  have hcondemned : (s.condemn id).tree.contains id := by
    rw [(reworked_condemn s id).contains, hid]
  have hcondemn : Proceeds (Linked s.tree) s (s.condemn id) [.deleted id] [] := by
    have hmark : ReworkedInPlace s (s.modify id fun node =>
        { node with flags := node.flags.union Flags.beingDeleted }) := reworked_modify s id _
    refine (Proceeds.of_silent hmark rfl).trans (.notify _ _ (linked_of_alive ?_ rfl))
    exact (hmark.contains id).trans hid
  cases hc : s.tree.children id with
  | nil =>
    rw [hollow_of_childless hc, Tree.teardown_of_childless hc, Tree.upwards_of_childless hc]
    exact hcondemn
  | cons kid kids =>
    obtain ⟨k, rfl⟩ : ∃ k, levels = k + 1 := by
      cases levels with
      | zero =>
        have hnil : s.tree.children id = [] := hu.within
        rw [hnil] at hc
        cases hc
      | succ k => exact ⟨k, rfl⟩
    obtain ⟨hkeep, hdoomed⟩ := doomed_children hu
    have hclearing : Proceeds (Linked s.tree) (s.condemn id)
        ((s.condemn id).notify (.clearing id)) [.clearing id] [] :=
      .notify _ _ (linked_of_alive hcondemned rfl)
    have hbelow : ∀ kid ∈ s.tree.children id, ∀ block ∈ s.tree.listing k kid,
        block ∈ s.tree.below k id := fun kid hkid block hb =>
      List.mem_flatMap.mpr ⟨kid, hkid, hb⟩
    -- The children are doomed: each goes with its subtree, and the subtrees have no block in common.
    have hfold := proceeds_foldl (t := s.tree) (hdown k rfl) hdoomed
      (fun kid hkid block hb => hkeep block (hbelow kid hkid block hb))
      fun kid hkid block hb => hindex block (hbelow kid hkid block hb)
    have hrazed := razed_foldl (razes k) hdoomed
    have hthere : ((s.condemn id).notify (.clearing id)).tree.contains id := by
      rwa [tree_notify]
    rw [hollow_of_children hc, ← hc, Tree.teardown_of_children (hc ▸ List.cons_ne_nil kid kids),
      Tree.upwards, List.dropLast_concat]
    generalize (s.tree.children id).foldl (fun s kid => (destroyTo (k + 1) s kid).2)
      ((s.condemn id).notify (.clearing id)) = s₁ at hfold hrazed ⊢
    have hemptied : ReworkedInPlace s₁ (s₁.modifyChildren id fun _ => []) := reworked_modify s₁ id _
    have hlast : (s₁.modifyChildren id fun _ => []).tree.contains id := by
      rw [hemptied.contains, Tree.contains, hrazed.node?_of_not_mem hdoomed.apart]
      exact hthere
    have hcleared := (Proceeds.of_silent (Q := Linked s.tree) hemptied rfl).trans
      (.notify _ (.cleared id) (linked_of_alive hlast rfl))
    have hall := hcondemn.trans (hclearing.trans (hfold.trans hcleared))
    simpa using hall

/-- A child of a library that is being deleted is announced as removed while it still has its
links. -/
theorem proceeds_dropLinks {t : Tree β} (hid : s.tree.contains id) (hne : t.index? id ≠ none)
    (hp : s.tree.parent? id = t.parent? id) (hi : s.tree.index? id = t.index? id) :
    Proceeds (Linked t) s (s.dropLinks id) [.removed id, .indexChanged id (t.index? id) none]
      [] := by
  have hremoved : Proceeds (Linked t) s (s.notify (.removed id)) [.removed id] [] := by
    refine .notify _ _ ⟨hid, fun block he => ?_⟩
    cases he
    exact ⟨hp, hi⟩
  have htree := tree_notify s (.removed id)
  have hindex : (s.notify (.removed id)).tree.index? id = t.index? id := htree ▸ hi
  have hset : Proceeds (Linked t) (s.notify (.removed id))
      ((s.notify (.removed id)).setIndex id none) [.indexChanged id (t.index? id) none] [] := by
    rw [← hindex]
    refine .setIndex (htree ▸ hid) (hindex ▸ hne) (linked_of_alive ?_ rfl)
    exact (contains_setIndex _ id id none).trans (htree ▸ hid)
  exact hremoved.trans (hset.trans (.of_silent (reworked_setParent _ id none) rfl))

/-- By induction on the levels, a child of a library that is being deleted sends its dismissal and
frees its subtree upwards. -/
theorem unwinds (levels : Nat) : Unwinds β levels := by
  induction levels using Nat.strong_induction_on with
  | _ levels ih =>
    intro s id library hu hp hm hapart hindex
    have hid := hu.alive id (Tree.mem_listing_self _ _)
    obtain ⟨node, hn⟩ := Option.isSome_iff_exists.mp hid
    obtain ⟨hok, hhollow⟩ := hollow_spec (fun k _ => razes k) hu
    have hcourse := proceeds_hollow (fun k hk => ih k (by omega)) hu fun block hb =>
      hindex block (Tree.mem_listing_of_under hb)
    rw [destroyTo_eq_depart hid hok]
    generalize (hollow levels s id).2 = s₁ at hhollow hcourse ⊢
    have hn₁ := hhollow.node?_root hn
    have hp₁ := hhollow.parent?_root
    have hi₁ := hhollow.index?_root
    have hm₁ : s₁.tree.isBeingDeleted library := by
      rwa [Tree.isBeingDeleted_eq_of_node?_eq (hhollow.node?_of_not_mem hapart)]
    have hleave : s₁.leave id = (.ok (), s₁.dropLinks id) := by
      simp [leave, hp₁, hp, hm₁]
    have hleft := proceeds_dropLinks (Tree.contains_of_node? hn₁)
      (hindex id (Tree.mem_listing_self _ _)) hp₁ hi₁
    have hn₂ : (s₁.dropLinks id).tree.node? id =
        some { node.hollowed with index := none, parent := none } := by
      rw [node?_dropLinks, if_pos (List.mem_singleton_self id), hn₁]
      rfl
    have hgone := Proceeds.surrender (Q := Linked s.tree) hn₂
    rw [depart_eq_surrender (by rw [hleave]), hleave, Tree.dismissal, Tree.upwards_eq_append,
      Tree.owned_append, Tree.owned_singleton hn]
    have hall := hcourse.trans (hleft.trans hgone)
    rw [List.append_nil, List.nil_append] at hall
    exact hall

/-- The course of a whole call: the subtree is torn down, the block leaves its library, which goes
on, and gives up its slot. -/
structure Course (s hollowed s' : Site β) (id : BlockId) : Prop where
  teardown : Proceeds (Linked s.tree) s hollowed (s.tree.teardown s.tree.slots.size id)
    (s.tree.owned (s.tree.upwards s.tree.slots.size id).dropLast)
  children : hollowed.tree.children id = []
  free : s.tree.parent? id = none → Proceeds Alive hollowed s' [] (s.tree.owned [id])
  attached : ∀ library, s.tree.parent? id = some library →
    Proceeds Alive hollowed (hollowed.remove library id).2 (s.tree.parting library id) [] ∧
      Proceeds Alive (hollowed.remove library id).2 s' [] (s.tree.owned [id])

/-- A block whose library is not being deleted sends its teardown, leaves its library, and gives up
its slot in the end. -/
theorem course_destroy (h : s.tree.Forest) (hid : s.tree.contains id)
    (hlib : ∀ library, s.tree.parent? id = some library → ¬ s.tree.isBeingDeleted library) :
    ∃ hollowed, Course s hollowed (s.destroy id).2 id := by
  have hu := h.upright hid
  obtain ⟨node, hn⟩ := Option.isSome_iff_exists.mp hid
  obtain ⟨hok, hhollow⟩ := hollow_spec (fun k _ => razes k) hu
  have hcourse := proceeds_hollow (fun k _ => unwinds k) hu fun block hb => by
    obtain ⟨library, -, hmem⟩ := Tree.mem_children_of_mem_under hb
    simp [h.index_eq hmem]
  have hforest := hhollow.forest h hu
  rw [destroy, destroyTo_eq_depart hid hok]
  generalize (hollow s.tree.slots.size s id).2 = s₁ at hhollow hcourse hforest ⊢
  have hn₁ := hhollow.node?_root hn
  have hp₁ := hhollow.parent?_root
  have hc₁ : s₁.tree.children id = [] := by
    rw [Tree.children_of_node? hn₁]
    cases hc : node.children <;> simp [Node.hollowed, hc]
  refine ⟨s₁, hcourse, hc₁, fun hp => ?_, fun library hp => ?_⟩
  · have hleave : s₁.leave id = (.ok (), s₁) := by simp [leave, hp₁, hp]
    rw [depart_eq_surrender (by rw [hleave]), hleave, Tree.owned_singleton hn]
    have hgone := Proceeds.surrender (Q := Alive) hn₁
    exact hgone
  · -- The library does not stand in the subtree, so it is as it was.
    have hout : library ∉ s.tree.listing s.tree.slots.size id := fun hin =>
      h.root_not_mem_children hin (h.mem_children_iff.mpr hp)
    have hsame := hhollow.node?_of_not_mem hout
    have hm₁ : ¬ s₁.tree.isBeingDeleted library := by
      rw [Tree.isBeingDeleted_eq_of_node?_eq hsame]
      exact hlib library hp
    have hparting : s₁.tree.parting library id = s.tree.parting library id := by
      simp only [Tree.parting, Tree.children, hsame]
    obtain ⟨hremoved, hleft⟩ := proceeds_remove hforest (hp₁.trans hp) hc₁
    have hleave : s₁.leave id = s₁.remove library id := by simp [leave, hp₁, hp, hm₁]
    have hholder := (reworked_remove s₁ library id).holder id
    rw [depart_eq_surrender (by rw [hleave, hremoved]), hleave, Tree.owned_singleton hn]
    refine ⟨hparting ▸ hleft, ?_⟩
    rw [hn₁] at hholder
    obtain ⟨node', hn', hsame'⟩ := Option.map_eq_some_iff.mp hholder
    have hown : node'.ownership = node.ownership := congrArg Prod.fst hsame'
    have hgone := Proceeds.surrender (Q := Alive) hn'
    rwa [hown] at hgone

/-- After a destruction the free list begins with the slots of the subtree, the one that was freed
last in front. -/
theorem Course.free_eq {hollowed : Site β} (h : Course s hollowed s' id) :
    s'.tree.free = ((s.tree.owned (s.tree.upwards s.tree.slots.size id)).map
      BlockId.index).reverse ++ s.tree.free := by
  have hlast : s'.tree.free =
      ((s.tree.owned [id]).map BlockId.index).reverse ++ hollowed.tree.free := by
    cases hp : s.tree.parent? id with
    | none => exact (h.free hp).free
    | some library =>
      obtain ⟨hremoved, hgone⟩ := h.attached library hp
      rw [hgone.free, hremoved.free]
      rfl
  rw [hlast, h.teardown.free, Tree.upwards_eq_append, Tree.owned_append, List.map_append,
    List.reverse_append, List.append_assoc, List.dropLast_concat]

/-- What is sent after the teardown is what the removal of the block sends. -/
theorem Course.last {hollowed : Site β} (h : Course s hollowed s' id)
    (ho : s.tree.observers ≠ []) :
    ∃ last, Sends hollowed s' last ∧ (∀ notice ∈ last, Alive notice) ∧
      (s.tree.parent? id = none → last = []) ∧
      ∀ library, s.tree.parent? id = some library →
        Sends hollowed (hollowed.remove library id).2 last ∧
          last.map Notice.event = s.tree.parting library id := by
  have ho₁ : hollowed.tree.observers ≠ [] := h.teardown.observers ▸ ho
  cases hp : s.tree.parent? id with
  | none =>
    obtain ⟨last, hlast, hevents, halive⟩ := (h.free hp).told ho₁
    exact ⟨last, hlast, halive, fun _ => List.map_eq_nil_iff.mp hevents, nofun⟩
  | some library =>
    obtain ⟨hremoved, hgone⟩ := h.attached library hp
    obtain ⟨last, hlast, hevents, halive⟩ := hremoved.told ho₁
    obtain ⟨none', hnone, hnil, -⟩ := hgone.told (hremoved.observers ▸ ho₁)
    rw [List.map_eq_nil_iff.mp hnil] at hnone
    refine ⟨last, ?_, halive, nofun, ?_⟩
    · have hall := hlast.trans hnone
      rwa [List.append_nil] at hall
    · rintro _ ⟨⟩
      exact ⟨hlast, hevents⟩

variable [Payload β]

/-- Destroying a block tears its subtree down: each block is announced, then, if it has children,
the clearing of its list, then for one child after the other all that its own destruction sends,
its removal and its change of index, and then the end of the clearing. After that the block leaves
its library by what is sent for the removal of a block without children. So every block of the
subtree is announced once in the order of the walk down; every block that has a library is
announced as removed once, after those below it; every event is about a block that is there when
it is sent; and the slots become free in an order in which nobody comes before a block below it. -/
theorem told_of_destroy (h : Reached Guarded s) (hid : s.tree.contains id) :
    let t := s.tree
    let s' := (s.destroy id).2
    let trace := t.teardown t.slots.size
    (∀ block, t.Above id block →
      trace block = .deleted block :: if t.children block = [] then [] else
        .clearing block :: ((t.children block).zipIdx.flatMap fun (kid, index) =>
          trace kid ++ [.removed kid, .indexChanged kid (some index) none]) ++ [.cleared block]) ∧
      ∃ order : List BlockId,
        order.Nodup ∧ (∀ block, block ∈ order ↔ t.Above id block) ∧
        (order.Pairwise fun a b => ¬ t.Above a b) ∧
        s'.tree.free = ((order.filter fun block => t.ownership? block ≠ some .unowned).map
          BlockId.index).reverse ++ t.free ∧
        (t.observers ≠ [] → ∃ (hollowed : Site β) (first last : List (Notice β)),
          Sends s hollowed first ∧ first.map Notice.event = trace id ∧
          Sends hollowed s' last ∧ hollowed.tree.children id = [] ∧
          (t.parent? id = none → last = []) ∧
          (∀ library, t.parent? id = some library →
            Sends hollowed (hollowed.remove library id).2 last ∧
              last.map Notice.event = t.parting library id) ∧
          t.Toured id ((first ++ last).filterMap fun notice => notice.event.deletes?) ∧
          ((first ++ last).filterMap fun notice => notice.event.removes?) =
            (order.filter fun block => (t.parent? block).isSome) ∧
          ∀ notice ∈ first ++ last, notice.shown.contains notice.event.subject) := by
  intro t s' trace
  have hsound := h.sound
  have hforest := hsound.forest
  have hu := hforest.upright hid
  obtain ⟨hollowed, hcourse⟩ := course_destroy hforest hid fun library hp =>
    (hsound.not_marked_of_mem (hforest.mem_children_iff.mpr hp)).1
  have hperm := Tree.perm_upwards (t := t) t.slots.size id
  refine ⟨fun block habove => hforest.teardown_eq ?_, t.upwards t.slots.size id,
    hperm.nodup_iff.mpr hu.nodup, fun block => ?_, hforest.pairwise_upwards _ id, ?_, fun ho => ?_⟩
  · exact hu.alive block ((hforest.mem_listing hid le_rfl).mpr habove)
  · rw [Tree.mem_upwards]
    exact hforest.mem_listing hid le_rfl
  · exact hcourse.free_eq
  · obtain ⟨first, hfirst, hevents, hlinked⟩ := hcourse.teardown.told ho
    obtain ⟨last, hlast, halive, hfree, hattached⟩ := hcourse.last ho
    have hfilter : ∀ (f : TreeEvent → Option BlockId) (sent : List (Notice β)),
        sent.filterMap (fun notice => f notice.event) = (sent.map Notice.event).filterMap f :=
      fun f sent => (List.filterMap_map).symm
    -- When the block leaves its library nothing is deleted any more, and it alone is removed.
    have hdeleted : (last.map Notice.event).filterMap TreeEvent.deletes? = [] := by
      cases hp : t.parent? id with
      | none => rw [hfree hp]; rfl
      | some library => rw [(hattached library hp).2, Tree.deletes?_parting]
    have hremoved : (last.map Notice.event).filterMap TreeEvent.removes? =
        [id].filter fun block => (t.parent? block).isSome := by
      cases hp : t.parent? id with
      | none => simp [hfree hp, hp]
      | some library => rw [(hattached library hp).2, Tree.removes?_parting]; simp [hp]
    refine ⟨hollowed, first, last, hfirst, hevents, hlast, hcourse.children, hfree, hattached,
      ?_, ?_, fun notice hmem => ?_⟩
    · rw [List.filterMap_append, hfilter, hfilter, hevents, hdeleted, List.append_nil,
        Tree.deletes?_teardown]
      have htoured := hforest.toured hid
      rwa [Tree.descendants, if_pos hid] at htoured
    · rw [List.filterMap_append, hfilter, hfilter, hevents, hremoved, Tree.removes?_teardown]
      exact (hforest.filter_upwards hid).symm
    · exact (List.mem_append.mp hmem).elim (fun hin => (hlinked notice hin).1) (halive notice)

/-- A folder that is managed elsewhere stands in a library and has a leaf in it. -/
theorem told_of_destroy_folder :
    let s : Site Stock := ((((((start 0).perform (.insertSystem .library)).perform
      (.adopt (.folder ⟨"", false⟩))).perform (.insertSystem (.leaf ⟨""⟩))).perform
        (.add ⟨0, 0⟩ ⟨1, 0⟩)).perform (.add ⟨1, 0⟩ ⟨2, 0⟩)).perform .subscribe
    s.tree.contains ⟨1, 0⟩ ∧ ∃ sent, Sends s (s.destroy ⟨1, 0⟩).2 sent ∧
      sent.map Notice.event = [.deleted ⟨1, 0⟩, .clearing ⟨1, 0⟩, .deleted ⟨2, 0⟩, .removed ⟨2, 0⟩,
        .indexChanged ⟨2, 0⟩ (some 0) none, .cleared ⟨1, 0⟩, .removingBlock ⟨0, 0⟩ 0,
        .indexChanged ⟨1, 0⟩ (some 0) none, .removed ⟨1, 0⟩, .blockRemoved ⟨0, 0⟩ 0] := by
  intro s
  have hreached : Reached Guarded s :=
    .perform (.perform (.perform (.perform (.perform (.perform (.start 0) trivial) trivial)
      trivial) trivial) trivial) trivial
  have hid : s.tree.contains ⟨1, 0⟩ := by decide
  obtain ⟨-, order, -, -, -, -, htold⟩ := told_of_destroy hreached hid
  obtain ⟨hollowed, first, last, hfirst, hevents, hlast, -, -, hattached, -⟩ := htold (by decide)
  obtain ⟨-, hremoved⟩ := hattached ⟨0, 0⟩ (by decide)
  refine ⟨hid, first ++ last, hfirst.trans hlast, ?_⟩
  rw [List.map_append, hevents, hremoved]
  decide

end Site

end BlockForest
