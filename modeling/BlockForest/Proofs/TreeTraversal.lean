import Mathlib
import BlockForest.Proofs.AnnouncedCalls

/-!
# Ways down a tree

A subtree is listed with a stack onto which the children of a block go from the last to the first,
it is counted with a stack onto which they go from the first to the last, and it is searched by a
recursion that has a depth to go or none. `listingRound` and `countingRound` are one round of the
first two, `Collects` is the third. Nothing in them says that they end.

In a forest they do, because a block has a bounded number of levels below it (`Within`), and what
comes out are the functions that count levels: `descendants`, `totalSize` and `findChildren`. A
search to a depth finds those of the descendants from which no more than so many parent links lead
to the root (`Forest.listing_eq_filter`).
-/

set_option autoImplicit false

namespace BlockForest

variable {β : Type}

namespace Tree

variable {t : Tree β}

/-! ### Walks with a stack -/

/-- Puts blocks on a stack one after the other. The top of a stack comes first. -/
def pushEach (stack ids : List BlockId) : List BlockId :=
  ids.foldl (fun stack id => id :: stack) stack

/-- Pushed one after the other, blocks lie on a stack in reverse. -/
theorem pushEach_eq (stack ids : List BlockId) : pushEach stack ids = ids.reverse ++ stack := by
  rw [pushEach, List.foldl_flip_cons_eq_append, List.map_id']

/-- One round of a walk with a stack: the block on top is taken off and noted, and others are
pushed. A walk with an empty stack has come to its end. -/
def stackRound {α : Type} (others : BlockId → List BlockId) (note : α → BlockId → α) :
    List BlockId × α → List BlockId × α
  | ([], noted) => ([], noted)
  | (id :: stack, noted) => (pushEach stack (others id), note noted id)

/-- One round of the walk that lists blocks. -/
def listingRound (t : Tree β) : List BlockId × List BlockId → List BlockId × List BlockId :=
  stackRound (fun id => (t.children id).reverse) fun listed id => listed ++ [id]

/-- One round of the walk that counts blocks. -/
def countingRound (t : Tree β) : List BlockId × Nat → List BlockId × Nat :=
  stackRound t.children fun count _ => count + 1

/-- A round of the walk that lists takes a block off the stack, lists it, and puts its children on
the stack with the first one on top. -/
theorem listingRound_cons (t : Tree β) (id : BlockId) (stack listed : List BlockId) :
    t.listingRound (id :: stack, listed) = (t.children id ++ stack, listed ++ [id]) := by
  rw [listingRound, stackRound, pushEach_eq, List.reverse_reverse]

/-- A round of the walk that counts does the same with the last child on top. -/
theorem countingRound_cons (t : Tree β) (id : BlockId) (stack : List BlockId) (count : Nat) :
    t.countingRound (id :: stack, count) = ((t.children id).reverse ++ stack, count + 1) := by
  rw [countingRound, stackRound, pushEach_eq]

/-- If what stands on top of the stack is worked off block by block, so are several blocks. -/
theorem rounds_of_each {α : Type} {round : List BlockId × α → List BlockId × α}
    {f : α → BlockId → α} {ids : List BlockId}
    (hone : ∀ id ∈ ids, ∀ stack noted, ∃ n, round^[n] (id :: stack, noted) = (stack, f noted id))
    (stack : List BlockId) (noted : α) :
    ∃ n, round^[n] (ids ++ stack, noted) = (stack, ids.foldl f noted) := by
  induction ids generalizing noted with
  | nil => exact ⟨0, rfl⟩
  | cons id ids ih =>
    obtain ⟨n, hn⟩ := hone id List.mem_cons_self (ids ++ stack) noted
    obtain ⟨m, hm⟩ := ih (fun x hx => hone x (List.mem_cons_of_mem _ hx)) (f noted id)
    refine ⟨m + n, ?_⟩
    rw [List.cons_append, Function.iterate_add_apply, hn, hm, List.foldl_cons]

/-- Appending in a loop is appending all of it at once. -/
theorem foldl_append_eq (f : BlockId → List BlockId) (listed ids : List BlockId) :
    ids.foldl (fun listed id => listed ++ f id) listed = listed ++ ids.flatMap f := by
  induction ids generalizing listed with
  | nil => simp
  | cons id ids ih => rw [List.foldl_cons, ih, List.flatMap_cons, List.append_assoc]

/-- Adding up in a loop is adding the sum. -/
theorem foldl_add_eq (f : BlockId → Nat) (count : Nat) (ids : List BlockId) :
    ids.foldl (fun count id => count + f id) count = count + (ids.map f).sum := by
  induction ids generalizing count with
  | nil => simp
  | cons id ids ih => rw [List.foldl_cons, ih, List.map_cons, List.sum_cons, Nat.add_assoc]

/-- The walk lists a block with all that is below it before it comes to the rest of the stack. -/
theorem listingRound_iterate {levels : Nat} {id : BlockId} (hw : t.Within levels id)
    (stack listed : List BlockId) :
    ∃ n, t.listingRound^[n] (id :: stack, listed) = (stack, listed ++ t.listing levels id) := by
  induction levels generalizing id stack listed with
  | zero =>
    have hnone : t.children id = [] := hw
    refine ⟨1, ?_⟩
    rw [Function.iterate_one, listingRound_cons, hnone]
    rfl
  | succ levels ih =>
    have hone : ∀ child ∈ t.children id, ∀ stack listed, ∃ n,
        t.listingRound^[n] (child :: stack, listed) = (stack, listed ++ t.listing levels child) :=
      fun child hc stack listed => ih (hw child hc) stack listed
    obtain ⟨n, hn⟩ := rounds_of_each hone stack (listed ++ [id])
    refine ⟨n + 1, ?_⟩
    rw [Function.iterate_succ_apply, listingRound_cons, hn, foldl_append_eq, List.append_assoc]
    rfl

/-- With one level more, each child counts for itself and for what is below it. -/
theorem countBelow_succ (t : Tree β) (levels : Nat) (id : BlockId) :
    t.countBelow (levels + 1) id =
      ((t.children id).map fun child => t.countBelow levels child + 1).sum := rfl

/-- The walk counts what is below a block before it comes to the rest of the stack. -/
theorem countingRound_iterate {levels : Nat} {id : BlockId} (hw : t.Within levels id)
    (stack : List BlockId) (count : Nat) :
    ∃ n, t.countingRound^[n] ((t.children id).reverse ++ stack, count) =
      (stack, count + t.countBelow levels id) := by
  induction levels generalizing id stack count with
  | zero =>
    have hnone : t.children id = [] := hw
    rw [hnone]
    exact ⟨0, rfl⟩
  | succ levels ih =>
    have hone : ∀ child ∈ (t.children id).reverse, ∀ stack count, ∃ n,
        t.countingRound^[n] (child :: stack, count) =
          (stack, count + (t.countBelow levels child + 1)) := by
      intro child hc stack count
      obtain ⟨n, hn⟩ := ih (hw child (List.mem_reverse.mp hc)) stack (count + 1)
      refine ⟨n + 1, ?_⟩
      rw [Function.iterate_succ_apply, countingRound_cons, hn, Nat.add_assoc, Nat.add_comm 1]
    obtain ⟨n, hn⟩ := rounds_of_each hone stack count
    refine ⟨n, ?_⟩
    rw [hn, foldl_add_eq, List.map_reverse, List.sum_reverse, countBelow_succ]

/-! ### The search -/

/-- What a block adds to a search: itself, if its payload passes the test. -/
def found (t : Tree β) (test : β → Bool) (id : BlockId) : List BlockId :=
  if (t.payload? id).any test then [id] else []

mutual

/-- The blocks that a search to a depth finds, one after the other. Without a depth it turns back
nowhere. -/
inductive Collects (t : Tree β) (test : β → Bool) : Option Nat → BlockId → List BlockId → Prop
  | bottom (id : BlockId) : Collects t test (some 0) id (t.found test id)
  | further {depth : Option Nat} {id : BlockId} {below : List BlockId} (deep : depth ≠ some 0)
      (children : CollectsEach t test (depth.map Nat.pred) (t.children id) below) :
      Collects t test depth id (t.found test id ++ below)

/-- The blocks that a search finds below several blocks. -/
inductive CollectsEach (t : Tree β) (test : β → Bool) :
    Option Nat → List BlockId → List BlockId → Prop
  | nil (depth : Option Nat) : CollectsEach t test depth [] []
  | cons {depth : Option Nat} {id : BlockId} {ids found more : List BlockId}
      (first : Collects t test depth id found) (others : CollectsEach t test depth ids more) :
      CollectsEach t test depth (id :: ids) (found ++ more)

end

variable {test : β → Bool}

/-- If the search below each of several blocks has one answer, the search below all of them has the
answers joined. -/
theorem collectsEach_iff {depth : Option Nat} {f : BlockId → List BlockId} {ids : List BlockId}
    (hone : ∀ id ∈ ids, ∀ blocks, t.Collects test depth id blocks ↔ blocks = f id)
    (blocks : List BlockId) :
    t.CollectsEach test depth ids blocks ↔ blocks = ids.flatMap f := by
  induction ids generalizing blocks with
  | nil =>
    constructor
    · rintro ⟨⟩
      rfl
    · rintro rfl
      exact .nil depth
  | cons id ids ih =>
    have hrest := ih fun x hx => hone x (List.mem_cons_of_mem _ hx)
    rw [List.flatMap_cons]
    constructor
    · rintro (_ | ⟨hfirst, hothers⟩)
      rw [(hone id List.mem_cons_self _).mp hfirst, (hrest _).mp hothers]
    · rintro rfl
      exact .cons ((hone id List.mem_cons_self _).mpr rfl) ((hrest _).mpr rfl)

/-- A search that does not turn back at a block finds what it finds below its children. -/
theorem collects_iff_of_children {depth : Option Nat} {f : BlockId → List BlockId} {id : BlockId}
    (hdeep : depth ≠ some 0)
    (hchildren : ∀ child ∈ t.children id, ∀ blocks,
      t.Collects test (depth.map Nat.pred) child blocks ↔ blocks = f child)
    (blocks : List BlockId) :
    t.Collects test depth id blocks ↔
      blocks = t.found test id ++ (t.children id).flatMap f := by
  constructor
  · intro h
    cases h with
    | bottom => exact absurd rfl hdeep
    | further _ hbelow => rw [(collectsEach_iff hchildren _).mp hbelow]
  · rintro rfl
    exact .further hdeep ((collectsEach_iff hchildren _).mpr rfl)

/-- To a depth the search ends whatever the tree is like. -/
theorem collects_depth_iff (depth : Nat) (id : BlockId) (blocks : List BlockId) :
    t.Collects test (some depth) id blocks ↔ blocks = t.matching test depth id := by
  induction depth generalizing id blocks with
  | zero =>
    constructor
    · intro h
      cases h with
      | bottom => rfl
      | further hdeep => exact absurd rfl hdeep
    · rintro rfl
      exact .bottom id
  | succ depth ih =>
    exact collects_iff_of_children (by simp) (fun child _ blocks => ih child blocks) blocks

/-- Without a depth it ends where the levels do. -/
theorem collects_iff_of_within {levels : Nat} {id : BlockId} (hw : t.Within levels id)
    (blocks : List BlockId) :
    t.Collects test none id blocks ↔ blocks = t.matching test levels id := by
  induction levels generalizing id blocks with
  | zero =>
    have hnone : t.children id = [] := hw
    rw [collects_iff_of_children (f := fun _ => []) (by simp) (by simp [hnone]), hnone]
    rw [List.flatMap_nil, List.append_nil]
    rfl
  | succ levels ih =>
    exact collects_iff_of_children (by simp) (fun child hc blocks => ih (hw child hc) blocks)
      blocks

/-! ### What they have in common -/

/-- If each block determines its walk, a list determines the list of walks. -/
theorem eq_map_of_forall₂ {R : BlockId → List BlockId → Prop} {f : BlockId → List BlockId}
    {ids : List BlockId} {walks : List (List BlockId)} (h : List.Forall₂ R ids walks)
    (hone : ∀ id ∈ ids, ∀ walk, R id walk → walk = f id) : walks = ids.map f := by
  induction h with
  | nil => rfl
  | cons hfirst _ ih =>
    rw [List.map_cons, hone _ List.mem_cons_self _ hfirst,
      ih fun x hx => hone x (List.mem_cons_of_mem _ hx)]

/-- A subtree with so many levels has one order of this kind. -/
theorem Preorder.eq_listing {levels : Nat} {id : BlockId} {blocks : List BlockId}
    (hw : t.Within levels id) (h : t.Preorder id blocks) : blocks = t.listing levels id := by
  induction levels generalizing id blocks with
  | zero =>
    obtain ⟨hwalks⟩ := h
    have hnone : t.children id = [] := hw
    rw [hnone, List.forall₂_nil_left_iff] at hwalks
    rw [hwalks]
    rfl
  | succ levels ih =>
    obtain ⟨hwalks⟩ := h
    rw [eq_map_of_forall₂ hwalks fun child hc _ hwalk => ih (hw child hc) hwalk, listing_succ,
      Tree.below, List.flatMap_def]

/-- The listing of a subtree has the block and as many others as are counted below it. -/
theorem length_listing (t : Tree β) (levels : Nat) (id : BlockId) :
    (t.listing levels id).length = t.countBelow levels id + 1 := by
  induction levels generalizing id with
  | zero => rfl
  | succ levels ih =>
    rw [listing_succ, countBelow_succ, List.length_cons, below, List.length_flatMap]
    simp only [ih]

/-- What is found below a block are the blocks of its listing that pass the test. -/
theorem matching_eq_filter (t : Tree β) (test : β → Bool) (levels : Nat) (id : BlockId) :
    t.matching test levels id =
      (t.listing levels id).filter fun x => (t.payload? x).any test := by
  induction levels generalizing id with
  | zero =>
    rw [matching, listing, List.filter_singleton]
    cases (t.payload? id).any test <;> rfl
  | succ levels ih =>
    have hbelow : (t.children id).flatMap (t.matching test levels) =
        ((t.children id).flatMap (t.listing levels)).filter
          fun x => (t.payload? x).any test := by
      rw [List.filter_flatMap]
      exact List.flatMap_congr fun child _ => ih child
    rw [matching, listing, List.filter_cons, hbelow]
    split <;> rfl

/-! ### Depth -/

/-- To climb so many links and then some more is to climb all of them. -/
theorem climb_add (t : Tree β) (m n : Nat) (id : BlockId) :
    t.climb (m + n) id = (t.climb m id).bind (t.climb n) := by
  induction m generalizing id with
  | zero => rw [Nat.zero_add, climb, Option.bind_some]
  | succ m ih =>
    rw [Nat.add_right_comm, climb, climb, Option.bind_assoc]
    congr 1
    funext parent
    exact ih parent

/-- A block that climbs some links to another one has that many more to the top. -/
theorem rises_of_climb {m d : Nat} {a id : BlockId} (hc : t.climb m id = some a)
    (hd : t.Rises a d) : t.Rises id (d + m) := by
  induction m generalizing id with
  | zero =>
    cases hc
    exact hd
  | succ m ih =>
    obtain ⟨parent, hp, hc⟩ := Option.bind_eq_some_iff.mp hc
    exact Rises.up hp (ih hc)

/-- What stands above a block is met by climbing from it. -/
theorem Above.exists_climb {a id : BlockId} (h : t.Above a id) : ∃ n, t.climb n id = some a := by
  induction h with
  | refl => exact ⟨0, rfl⟩
  | up hp _ ih =>
    obtain ⟨n, hn⟩ := ih
    exact ⟨n + 1, by rw [climb, hp, Option.bind_some, hn]⟩

/-- In a forest one number of links leads from a block to one above it. -/
theorem Forest.climb_unique (h : t.Forest) {m n : Nat} {a id : BlockId}
    (hm : t.climb m id = some a) (hn : t.climb n id = some a) : m = n := by
  obtain ⟨d, hd⟩ := h.grounded a
  have := (rises_of_climb hm hd).unique (rises_of_climb hn hd)
  omega

/-- Whoever stands below a child is one link farther away from its library than from the child. -/
theorem Forest.climb_child_iff (h : t.Forest) {root child id : BlockId}
    (hc : child ∈ t.children root) (hid : t.Above child id) (depth : Nat) :
    (∃ n ≤ depth + 1, t.climb n id = some root) ↔ ∃ n ≤ depth, t.climb n id = some child := by
  have hp := h.mem_children_iff.mp hc
  have hstep : ∀ n, t.climb n id = some child → t.climb (n + 1) id = some root := by
    intro n hn
    rw [climb_add, hn, Option.bind_some, climb, hp]
    rfl
  constructor
  · rintro ⟨n, hle, hn⟩
    obtain ⟨m, hm⟩ := hid.exists_climb
    have := h.climb_unique hn (hstep m hm)
    exact ⟨m, by omega, hm⟩
  · rintro ⟨n, hle, hn⟩
    exact ⟨n + 1, by omega, hstep n hn⟩

/-- To a depth, those blocks of a subtree are listed from which so many links lead to its root. -/
theorem Forest.listing_eq_filter (h : t.Forest) (depth more : Nat) (root : BlockId) :
    t.listing depth root =
      (t.listing (depth + more) root).filter fun id => ∃ n ≤ depth, t.climb n id = some root := by
  induction depth generalizing root with
  | zero =>
    obtain ⟨d, hd⟩ := h.grounded root
    have hnodup : (t.listing (0 + more) root).Nodup := (h.listing_of_rises hd).1
    have hself : ∃ n ≤ 0, t.climb n root = some root := ⟨0, le_rfl, rfl⟩
    rw [listing_eq_cons] at hnodup
    rw [listing_eq_cons (0 + more), List.filter_cons, if_pos (decide_eq_true hself),
      List.filter_eq_nil_iff.mpr]
    · rfl
    · intro id hid hmet
      obtain ⟨n, hle, hn⟩ := of_decide_eq_true hmet
      obtain rfl := Nat.le_zero.mp hle
      cases hn
      exact (List.nodup_cons.mp hnodup).1 hid
  | succ depth ih =>
    have hself : ∃ n ≤ depth + 1, t.climb n root = some root := ⟨0, Nat.zero_le _, rfl⟩
    rw [Nat.add_right_comm, listing_succ, listing_succ, List.filter_cons,
      if_pos (decide_eq_true hself), below, below, List.filter_flatMap]
    congr 1
    refine List.flatMap_congr fun child hc => ?_
    rw [ih child]
    refine List.filter_congr fun id hid => ?_
    -- The way up from below a child meets the child one step before it meets the root.
    obtain ⟨d, hd⟩ := h.grounded child
    have habove := (h.listing_of_rises hd).2 id hid
    exact decide_eq_decide.mpr (h.climb_child_iff hc habove depth).symm

/-! ### All together -/

/-- The answers to the questions for the descendants of a block, for their number and for those
among them who pass a test. -/
structure Surveyed (t : Tree β) (test : β → Bool) (root : BlockId) : Prop where
  /-- Nothing is listed below a stale name. -/
  stale : ¬ t.contains root → t.descendants root = []
  /-- The list goes through a block and then through the subtree of each child in turn. -/
  preorder : t.contains root → ∀ blocks, t.Preorder root blocks ↔ blocks = t.descendants root
  nodup : (t.descendants root).Nodup
  /-- The walk that lists begins with the root alone on its stack, if it is there. -/
  listed : ∃ rounds, t.listingRound^[rounds] (if t.contains root then [root] else [], []) =
    ([], t.descendants root)
  /-- The walk that counts begins with the children of the root. -/
  counted : ∃ rounds, t.countingRound^[rounds] (pushEach [] (t.children root), 0) =
    ([], t.totalSize root)
  total : t.totalSize root = (t.descendants root).length - 1
  collected : ∀ depth blocks,
    t.Collects test depth root blocks ↔ blocks = t.findChildren test root depth
  unbounded : t.findChildren test root none =
    (t.descendants root).filter fun id => (t.payload? id).any test
  bounded : ∀ depth, t.findChildren test root (some depth) =
    (t.descendants root).filter fun id =>
      (t.payload? id).any test ∧ ∃ n ≤ depth, t.climb n id = some root
  mono : ∀ depth deeper, depth ≤ deeper →
    (t.findChildren test root (some depth)).Sublist (t.findChildren test root (some deeper))
  /-- A search that goes as deep as the subtree finds all there is to find. -/
  exhausted : ∀ depth, (∀ id ∈ t.descendants root, ∃ n ≤ depth, t.climb n id = some root) →
    t.findChildren test root (some depth) = t.findChildren test root none

/-- The name of a block that is gone leads nowhere. -/
theorem within_of_stale {root : BlockId} (hroot : ¬ t.contains root) (levels : Nat) :
    t.Within levels root ∧ t.children root = [] := by
  have hnode : t.node? root = none := by simpa [contains] using hroot
  have hnone : t.children root = [] := by simp [children, hnode]
  refine ⟨?_, hnone⟩
  cases levels with
  | zero => exact hnone
  | succ levels =>
    intro child hc
    rw [hnone] at hc
    cases hc

/-- In a forest no way down has more levels than there are slots. -/
theorem Forest.within (h : t.Forest) (root : BlockId) : t.Within t.slots.size root := by
  by_cases hroot : t.contains root
  · exact (h.upright hroot).within
  · exact (within_of_stale hroot _).1

/-- The descendants are those that are listed, without the block itself. -/
theorem totalSize_eq (t : Tree β) (root : BlockId) :
    t.totalSize root = (t.descendants root).length - 1 := by
  have hlength := t.length_listing t.slots.size root
  unfold descendants totalSize
  split
  · omega
  · next hroot =>
    rw [listing_of_childless (within_of_stale hroot 0).2, List.length_singleton] at hlength
    rw [List.length_nil]
    omega

/-- What is searched are the descendants, if there are any. -/
theorem findChildren_none_eq_filter (t : Tree β) (test : β → Bool) (root : BlockId) :
    t.findChildren test root none =
      (t.descendants root).filter fun id => (t.payload? id).any test := by
  unfold findChildren
  rw [Option.getD_none, matching_eq_filter]
  unfold descendants
  split
  · rfl
  · next hroot =>
    have hnode : t.node? root = none := by simpa [contains] using hroot
    rw [listing_of_childless (within_of_stale hroot 0).2]
    simp [payload?, hnode]

/-- To a depth, those are found who stand no deeper below the root. -/
theorem Forest.findChildren_some_eq_filter (h : t.Forest) (test : β → Bool) (root : BlockId)
    (depth : Nat) : t.findChildren test root (some depth) =
      (t.findChildren test root none).filter
        fun id => ∃ n ≤ depth, t.climb n id = some root := by
  have hlevels := listing_eq_of_within (h.within root) depth
  unfold findChildren
  rw [Option.getD_some, Option.getD_none, matching_eq_filter, matching_eq_filter,
    h.listing_eq_filter depth t.slots.size, Nat.add_comm depth, hlevels, List.filter_comm]

end Tree

namespace Site

variable [Payload β] {s : Site β}

/-- Whatever tree is reached, all ways down from a block come to their ends and agree, and so they
do for a name that is stale. -/
theorem surveyed_of_reached (h : Reached Guarded s) (test : β → Bool) (root : BlockId) :
    s.tree.Surveyed test root where
  stale hroot := if_neg hroot
  preorder hroot blocks := by
    have hw := h.sound.forest.within root
    rw [Tree.descendants, if_pos hroot]
    exact ⟨fun hblocks => hblocks.eq_listing hw, fun hblocks => hblocks ▸ Tree.preorder_listing hw⟩
  nodup := h.sound.forest.nodup_descendants root
  listed := by
    unfold Tree.descendants
    split
    · obtain ⟨n, hn⟩ := Tree.listingRound_iterate (h.sound.forest.within root) [] []
      exact ⟨n, hn⟩
    · exact ⟨0, rfl⟩
  counted := by
    obtain ⟨n, hn⟩ := Tree.countingRound_iterate (h.sound.forest.within root) [] 0
    rw [Nat.zero_add] at hn
    rw [Tree.pushEach_eq]
    exact ⟨n, hn⟩
  total := s.tree.totalSize_eq root
  collected depth blocks := by
    cases depth with
    | none => exact Tree.collects_iff_of_within (h.sound.forest.within root) blocks
    | some depth => exact Tree.collects_depth_iff depth root blocks
  unbounded := Tree.findChildren_none_eq_filter s.tree test root
  bounded depth := by
    rw [h.sound.forest.findChildren_some_eq_filter, Tree.findChildren_none_eq_filter,
      List.filter_filter]
    simp only [Bool.decide_and, Bool.and_comm, Bool.decide_eq_true]
  mono depth deeper hle := by
    rw [h.sound.forest.findChildren_some_eq_filter, h.sound.forest.findChildren_some_eq_filter]
    refine List.monotone_filter_right _ fun id hid => ?_
    obtain ⟨n, hn, hclimb⟩ := of_decide_eq_true hid
    exact decide_eq_true ⟨n, hn.trans hle, hclimb⟩
  exhausted depth hall := by
    rw [h.sound.forest.findChildren_some_eq_filter, List.filter_eq_self]
    intro id hid
    rw [Tree.findChildren_none_eq_filter] at hid
    exact decide_eq_true (hall id (List.mem_filter.mp hid).1)

/-- A library, a folder and two leaves, none of them in its place. -/
def cuttings : Site Stock :=
  ((((start 0).perform (.adopt .library)).perform (.adopt (.folder ⟨"", false⟩))).perform
    (.adopt (.leaf ⟨"inner"⟩))).perform (.adopt (.leaf ⟨"outer"⟩))

/-- The folder stands in the library with one leaf in it, and the other leaf next to it. -/
def branch : Site Stock :=
  ((cuttings.perform (.add ⟨1, 0⟩ ⟨2, 0⟩)).perform (.add ⟨0, 0⟩ ⟨1, 0⟩)).perform
    (.add ⟨0, 0⟩ ⟨3, 0⟩)

/-- The cuttings are reached by creating the blocks. -/
theorem reached_cuttings : Reached Guarded cuttings :=
  .perform (.perform (.perform (.perform (.start 0) trivial) trivial) trivial) trivial

/-- The branch is reached from the cuttings by adding blocks. -/
theorem reached_branch : Reached Guarded branch :=
  .perform (.perform (.perform reached_cuttings trivial) trivial) trivial

/-- One of the leaves stands right below the library, the other one level deeper. -/
theorem surveyed_of_reached_branch :
    let isLeaf : Stock → Bool := fun payload => payload.typeName == "Leaf"
    let t := branch.tree
    t.descendants ⟨0, 0⟩ = [⟨0, 0⟩, ⟨1, 0⟩, ⟨2, 0⟩, ⟨3, 0⟩] ∧ t.totalSize ⟨0, 0⟩ = 3 ∧
      t.findChildren isLeaf ⟨0, 0⟩ (some 1) = [⟨3, 0⟩] ∧
      t.findChildren isLeaf ⟨0, 0⟩ none = [⟨2, 0⟩, ⟨3, 0⟩] := by
  intro isLeaf t
  have hall := surveyed_of_reached reached_branch isLeaf ⟨0, 0⟩
  have hlist : t.descendants ⟨0, 0⟩ = [⟨0, 0⟩, ⟨1, 0⟩, ⟨2, 0⟩, ⟨3, 0⟩] := by decide +kernel
  refine ⟨hlist, ?_, ?_, ?_⟩
  · rw [hall.total, hlist]
    rfl
  · rw [hall.bounded, hlist]
    decide +kernel
  · rw [hall.unbounded, hlist]
    decide +kernel

end Site

end BlockForest
