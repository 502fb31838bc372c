import Mathlib
import BlockForest.Proofs.ObserverNotices

/-!
# Calls that are announced

A call that changes a child list and succeeds sends an opening notice with the tree before the
call and a closing one with the tree after it. `Announced.Between` says for each call what stands
between the two, and `Site.told_of_announced` that all of this is what every observer is told.

The walk down that the notices of a subtree follow is not that of the program: `Tree.Preorder`
says in which order a list goes through a subtree, whatever the number of levels. The subtree of
a block that enters or leaves a library is the same before and after, because the library does
not stand in it.
-/

set_option autoImplicit false

namespace BlockForest

variable {β : Type}

namespace Tree

variable {t t' : Tree β}

/-- The list goes through a block and all that is below it: first the block, then the subtree of
each child in turn. -/
inductive Preorder (t : Tree β) : BlockId → List BlockId → Prop
  | visit {id : BlockId} {walks : List (List BlockId)} :
      List.Forall₂ (Preorder t) (t.children id) walks → Preorder t id (id :: walks.flatten)

/-- The listing of a subtree that ends within so many levels is in the order of a walk down. -/
theorem preorder_listing {levels : Nat} {root : BlockId} (hw : t.Within levels root) :
    t.Preorder root (t.listing levels root) := by
  induction levels generalizing root with
  | zero =>
    have hc : t.children root = [] := hw
    have hvisit : t.Preorder root (root :: ([] : List (List BlockId)).flatten) :=
      .visit (hc ▸ .nil)
    exact hvisit
  | succ levels ih =>
    rw [listing_succ, below, List.flatMap_def]
    refine .visit (List.forall₂_map_right_iff.mpr (List.forall₂_same.mpr fun child hchild => ?_))
    exact ih (hw child hchild)

/-- The list names each block of a subtree once, in the order of the walk down. -/
structure Toured (t : Tree β) (root : BlockId) (blocks : List BlockId) : Prop where
  nodup : blocks.Nodup
  mem_iff : ∀ id, id ∈ blocks ↔ t.Above root id
  preorder : t.Preorder root blocks

/-- In a forest the descendants of a block tour its subtree: each block comes once, in the order of
the walk down. -/
theorem Forest.toured (h : t.Forest) {root : BlockId} (hroot : t.contains root) :
    t.Toured root (t.descendants root) where
  nodup := h.nodup_descendants root
  mem_iff _ := h.mem_descendants hroot
  preorder := by
    rw [descendants, if_pos hroot]
    exact preorder_listing (h.upright hroot).within

/-- A subtree is told of block by block, after the changes of indexes, and what is shown is the
tree at the end. -/
def Passed (t t' : Tree β) (event : BlockId → TreeEvent) (block : BlockId)
    (notices : List (Notice β)) : Prop :=
  ∃ changes blocks, Renumbers t.index? t'.index? changes ∧ t.Toured block blocks ∧
    t'.Toured block blocks ∧ notices = changes ++ blocks.map fun id => ⟨event id, t'⟩

/-- Whatever is sent while a block passes is about an index that has changed or is the event for a
block of its subtree. -/
theorem Passed.event_eq {event : BlockId → TreeEvent} {block : BlockId}
    {notices : List (Notice β)} (h : t.Passed t' event block notices) {notice : Notice β}
    (hmem : notice ∈ notices) :
    (∃ id old new, notice.event = .indexChanged id old new) ∨ ∃ id, notice.event = event id := by
  obtain ⟨changes, blocks, hchanges, -, -, rfl⟩ := h
  rcases List.mem_append.mp hmem with hmem | hmem
  · exact Or.inl (hchanges.event_eq hmem)
  · obtain ⟨id, -, rfl⟩ := List.mem_map.mp hmem
    exact Or.inr ⟨id, rfl⟩

end Tree

/-- A call that observers are told of before and after. -/
inductive Announced where
  | insert (library block : BlockId) (index : Nat)
  | remove (library block : BlockId)
  | swap (library a b : BlockId)
  | moveTo (library block : BlockId) (target : Nat)
  | clear (library : BlockId)

namespace Announced

/-- What is sent before anything is changed. -/
def opening (t : Tree β) : Announced → TreeEvent
  | insert library _ index => .addingBlock library index
  | remove library block => .removingBlock library ((t.children library).idxOf block)
  | swap library a b =>
    .swappingBlocks library ((t.children library).idxOf a) ((t.children library).idxOf b)
  | moveTo library block target =>
    .movingBlock library ((t.children library).idxOf block) target
  | clear library => .clearing library

/-- What is sent at the end. The positions are those before the call. -/
def closing (t : Tree β) : Announced → TreeEvent
  | insert library _ index => .blockAdded library index
  | remove library block => .blockRemoved library ((t.children library).idxOf block)
  | swap library a b =>
    .blocksSwapped library ((t.children library).idxOf a) ((t.children library).idxOf b)
  | moveTo library block target =>
    .blockMoved library ((t.children library).idxOf block) target
  | clear library => .cleared library

/-- The call finds something to do: a block is moved away from its place, or there are children
to destroy. -/
def Effective (t : Tree β) : Announced → Prop
  | moveTo library block target => (t.children library).idxOf block ≠ target
  | clear library => t.children library ≠ []
  | _ => True

/-- What is sent in between, from one tree to the other. -/
def Between (t t' : Tree β) : Announced → List (Notice β) → Prop
  | insert _ block _, middle => t.Passed t' .inserted block middle
  | remove _ block, middle => t.Passed t' .removed block middle
  | swap _ _ _, middle => Renumbers t.index? t'.index? middle
  | moveTo _ _ _, middle => Renumbers t.index? t'.index? middle
  | clear library, middle => ∀ notice ∈ middle, notice.event.clears? ≠ some library

variable [Payload β]

/-- Carries out a call. -/
def run (s : Site β) : Announced → Except TreeError Unit × Site β
  | insert library block index => s.insert library block index
  | remove library block => s.remove library block
  | swap library a b => s.swap library a b
  | moveTo library block target => s.moveTo library block target
  | clear library => s.clear library

end Announced

namespace Site

variable {s : Site β} {library block : BlockId}

/-- A subtree that enters or leaves a library which does not stand in it is the same after that. -/
theorem toured_of_relisted {s' : Site β} {new : List BlockId} (h : s.tree.Forest)
    (hf : s'.tree.Forest) (hr : s.tree.Relisted s'.tree library new) (hw : Reworked s s')
    (hlib : s.tree.isLibrary library) (hid : s.tree.contains block)
    (hout : library ∉ s.tree.listing s.tree.slots.size block) :
    s.tree.Toured block (s'.tree.descendants block) ∧
      s'.tree.Toured block (s'.tree.descendants block) := by
  have hid' : s'.tree.contains block := by rwa [hw.contains]
  have hsame : s'.tree.descendants block = s.tree.descendants block := by
    rw [Tree.descendants, Tree.descendants, if_pos hid, if_pos hid', hw.slots]
    refine Tree.listing_congr fun id hmet => ?_
    rw [hr.children_eq hlib, if_neg]
    rintro rfl
    exact hout hmet
  exact ⟨hsame ▸ h.toured hid, hf.toured hid'⟩

variable [Payload β]

/-- An insertion that succeeds is announced before and after, and in between the inserted subtree is
gone through once, with the indexes that have changed. -/
theorem told_insert (hs : s.tree.Sound) (ho : s.tree.observers ≠ []) {index : Nat}
    (hok : (s.insert library block index).1 = .ok ()) :
    ∃ middle, Brackets s (s.insert library block index).2 (.addingBlock library index)
        (.blockAdded library index) middle ∧
      s.tree.Passed (s.insert library block index).2.tree .inserted block middle := by
  have hf := (relists_sound.insert hs library block index).forest
  unfold insert at hok hf ⊢
  cases hcheck : checkInsertion s.tree library block index with
  | error e => simp [hcheck] at hok
  | ok =>
    simp only [hcheck] at hf ⊢
    obtain ⟨ha, hi⟩ := checkInsertion_eq_ok_iff.mp hcheck
    have hlib := Tree.contains_of_isLibrary ha.isLibrary
    have hout : library ∉ s.tree.listing s.tree.slots.size block := fun hmet =>
      ha.apart ((hs.forest.mem_ancestors hlib).mpr
        ((hs.forest.mem_listing ha.contains le_rfl).mp hmet))
    obtain ⟨changes, hchanges, hsend⟩ := sends_attach ho hf
    obtain ⟨htour, htour'⟩ := toured_of_relisted hs.forest hf (admissible_attach hs.forest ha hi).2
      (reworked_attach s library block index).toReworked ha.isLibrary ha.contains hout
    exact ⟨_, hsend, changes, _, hchanges, htour, htour', rfl⟩

/-- A removal that succeeds is announced before and after with the index that the block had, and in
between the removed subtree is gone through once. -/
theorem told_remove (hs : s.tree.Sound) (ho : s.tree.observers ≠ [])
    (hok : (s.remove library block).1 = .ok ()) :
    ∃ middle, Brackets s (s.remove library block).2
        (.removingBlock library ((s.tree.children library).idxOf block))
        (.blockRemoved library ((s.tree.children library).idxOf block)) middle ∧
      s.tree.Passed (s.remove library block).2.tree .removed block middle := by
  have hf := (relists_sound.remove hs library block).forest
  unfold remove at hok hf ⊢
  cases hpos : positionOf s.tree library block with
  | error e => simp [hpos] at hok
  | ok index =>
    simp only [hpos] at hf ⊢
    have hindex := getElem?_of_positionOf hpos
    have hmem := List.mem_of_getElem? hindex
    rw [idxOf_eq_of_getElem? (hs.forest.nodup_children library) hindex]
    have hid := Tree.contains_of_parent? (hs.forest.mem_children_iff.mp hmem)
    have hout : library ∉ s.tree.listing s.tree.slots.size block := fun hmet =>
      hs.forest.root_not_mem_children hmet hmem
    obtain ⟨changes, hchanges, hsend⟩ := sends_unlink ho hs.forest hindex hf
    obtain ⟨htour, htour'⟩ := toured_of_relisted hs.forest hf (relisted_unlink hs.forest hindex)
      (reworked_unlink s library block index).toReworked (Tree.isLibrary_of_mem_children hmem) hid hout
    exact ⟨_, hsend, changes, _, hchanges, htour, htour', rfl⟩

omit [Payload β] in
/-- An exchange that succeeds is announced before and after with both indexes, and in between come
the two index changes and nothing else. -/
theorem told_swap (hs : s.tree.Sound) (ho : s.tree.observers ≠ []) {a b : BlockId}
    (hok : (s.swap library a b).1 = .ok ()) :
    ∃ middle, Brackets s (s.swap library a b).2
        (.swappingBlocks library ((s.tree.children library).idxOf a)
          ((s.tree.children library).idxOf b))
        (.blocksSwapped library ((s.tree.children library).idxOf a)
          ((s.tree.children library).idxOf b)) middle ∧
      Renumbers s.tree.index? (s.swap library a b).2.tree.index? middle := by
  have hnd := hs.forest.nodup_children library
  unfold swap at hok ⊢
  split at hok
  · cases hok
  · cases hok
  · next first second ha hb =>
    have hfirst := getElem?_of_positionOf ha
    have hsecond := getElem?_of_positionOf hb
    rw [idxOf_eq_of_getElem? hnd hfirst, idxOf_eq_of_getElem? hnd hsecond]
    obtain ⟨middle, hchanges, hsend⟩ := sends_exchange ho hs.forest hfirst hsecond
    exact ⟨middle, hsend, hchanges⟩

/-- A move that changes the position is announced before and after with both positions, and in
between come the index changes of the blocks that were shifted. -/
theorem told_moveTo (hs : s.tree.Sound) (ho : s.tree.observers ≠ []) {target : Nat}
    (hne : (s.tree.children library).idxOf block ≠ target)
    (hok : (s.moveTo library block target).1 = .ok ()) :
    ∃ middle, Brackets s (s.moveTo library block target).2
        (.movingBlock library ((s.tree.children library).idxOf block) target)
        (.blockMoved library ((s.tree.children library).idxOf block) target) middle ∧
      Renumbers s.tree.index? (s.moveTo library block target).2.tree.index? middle := by
  have hf := (relists_sound.moveTo hs library block target).forest
  unfold moveTo at hok hf ⊢
  cases hpos : positionOf s.tree library block with
  | error e => simp [hpos] at hok
  | ok source =>
    have hidx := idxOf_eq_of_getElem? (hs.forest.nodup_children library)
      (getElem?_of_positionOf hpos)
    rw [hidx] at hne ⊢
    simp only [hpos, hne, if_false] at hok hf ⊢
    by_cases hbound : s.tree.childCount library ≤ target
    · simp [hbound] at hok
    · simp only [hbound, if_false] at hf ⊢
      obtain ⟨middle, hchanges, hsend⟩ := sends_shift ho hf
      exact ⟨middle, hsend, hchanges⟩

end Site

namespace Announced

variable {t t' : Tree β} {middle : List (Notice β)}

/-- What is sent in between is another event than the first and the last one. -/
theorem Between.apart {c : Announced} (h : c.Between t t' middle) {notice : Notice β}
    (hmem : notice ∈ middle) :
    notice.event ≠ c.opening t ∧ notice.event ≠ c.closing t := by
  cases c with
  | insert library block index =>
    rcases Tree.Passed.event_eq h hmem with ⟨_, _, _, he⟩ | ⟨_, he⟩ <;>
      simp [he, opening, closing]
  | remove library block =>
    rcases Tree.Passed.event_eq h hmem with ⟨_, _, _, he⟩ | ⟨_, he⟩ <;>
      simp [he, opening, closing]
  | swap library a b =>
    obtain ⟨_, _, _, he⟩ := Renumbers.event_eq h hmem
    simp [he, opening, closing]
  | moveTo library block target =>
    obtain ⟨_, _, _, he⟩ := Renumbers.event_eq h hmem
    simp [he, opening, closing]
  | clear library =>
    have hnot := h notice hmem
    constructor <;> intro he <;> rw [he] at hnot <;> exact hnot rfl

end Announced

namespace Site

variable [Payload β] {s : Site β}

/-- Every call that changes places and succeeds is announced to every observer by one event before
all others, which shows the tree before the call, and by one event after all others, which shows
the tree after it. In between, the blocks whose index is another one after the call are announced
with their old and new index, once each; and where a block enters or leaves a library, all blocks
of its subtree are announced once in the order of the walk down, and the tree after the call is
shown with them. -/
theorem told_of_announced (h : Reached Guarded s) {observer : Nat}
    (ho : observer ∈ s.tree.observers) (c : Announced) (heffective : c.Effective s.tree)
    (hok : (c.run s).1 = .ok ()) :
    let t := s.tree
    let t' := (c.run s).2.tree
    ∃ middle : List (Notice β),
      (c.run s).2.notices.toList =
        s.notices.toList ++ ⟨c.opening t, t⟩ :: (middle ++ [⟨c.closing t, t'⟩]) ∧
      (∀ notice ∈ middle, notice.event ≠ c.opening t ∧ notice.event ≠ c.closing t) ∧
      c.Between t t' middle := by
  intro t t'
  have hs := h.sound
  have ho := List.ne_nil_of_mem ho
  obtain ⟨middle, hbrackets, hbetween⟩ : ∃ middle,
      Brackets s (c.run s).2 (c.opening t) (c.closing t) middle ∧ c.Between t t' middle := by
    cases c with
    | insert library block index => exact told_insert hs ho hok
    | remove library block => exact told_remove hs ho hok
    | swap library a b => exact told_swap hs ho hok
    | moveTo library block target => exact told_moveTo hs ho heffective hok
    | clear library => exact sends_clear ho hs.forest heffective
  exact ⟨middle, hbrackets, fun notice => hbetween.apart, hbetween⟩

/-- A folder is put in front of another one while somebody watches. -/
theorem told_of_announced_folders :
    let folder : Stock := .folder ⟨"", false⟩
    let s : Site Stock := ((((start 0).perform (.adopt .library)).perform
      (.adopt folder)).perform (.adopt folder)).perform (.add ⟨0, 0⟩ ⟨1, 0⟩) |>.perform .subscribe
    let c : Announced := .insert ⟨0, 0⟩ ⟨2, 0⟩ 0
    (c.run s).1 = .ok () ∧ ∃ middle : List (Notice Stock),
      (c.run s).2.notices.toList = s.notices.toList ++ ⟨.addingBlock ⟨0, 0⟩ 0, s.tree⟩ ::
        (middle ++ [⟨.blockAdded ⟨0, 0⟩ 0, (c.run s).2.tree⟩]) ∧
      .indexChanged ⟨1, 0⟩ (some 0) (some 1) ∈ middle.map Notice.event := by
  intro folder s c
  have hreached : Reached Guarded s :=
    .perform (.perform (.perform (.perform (.perform (.start 0) trivial) trivial) trivial)
      trivial) trivial
  have hok : (c.run s).1 = .ok () := by decide
  have hbefore : s.tree.index? ⟨1, 0⟩ = some 0 := by decide
  have hafter : (c.run s).2.tree.index? ⟨1, 0⟩ = some 1 := by decide
  have ho : 0 ∈ s.tree.observers := by decide
  obtain ⟨middle, hsend, -, changes, blocks, hchanges, -, -, rfl⟩ :=
    told_of_announced hreached ho c trivial hok
  refine ⟨hok, _, hsend, ?_⟩
  rw [List.map_append]
  refine List.mem_append_left _ ((hchanges.announced _).mpr ⟨⟨1, 0⟩, ?_, ?_⟩)
  · rw [hbefore, hafter]
    decide
  · rw [hbefore, hafter]

end Site

end BlockForest
