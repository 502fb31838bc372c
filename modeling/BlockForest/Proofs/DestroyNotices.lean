import Mathlib
import BlockForest.Proofs.AnnouncedCalls

/-!
# What a destruction has to say

A block that is destroyed is announced, then its children go one after the other with all that is
below them, then it leaves its library. `Tree.teardown` is what is sent up to the point where the
block itself leaves, read off the child lists as they are before the call. `Tree.dismissal` goes on
with what a library that is being deleted says of a child, and `Tree.parting` is what a library says
that goes on.

`Tree.upwards` is the order in which the blocks of the subtree leave, each after those below it. The
announcements are in the order of the walk down and the removals in this one.
-/

set_option autoImplicit false

namespace BlockForest

variable {β : Type}

/-- The block that is announced as one that goes. -/
def TreeEvent.deletes? : TreeEvent → Option BlockId
  | .deleted block => some block
  | _ => none

/-- The block that is announced as one that has left a library. -/
def TreeEvent.removes? : TreeEvent → Option BlockId
  | .removed block => some block
  | _ => none

namespace Tree

variable {t t' : Tree β}

/-- What is sent while a block is destroyed, up to the point where it leaves its library. -/
def teardown (t : Tree β) : Nat → BlockId → List TreeEvent
  | 0, id => [.deleted id]
  | levels + 1, id =>
    .deleted id :: if t.children id = [] then [] else
      .clearing id :: ((t.children id).flatMap fun kid =>
        t.teardown levels kid ++ [.removed kid, .indexChanged kid (t.index? kid) none]) ++
          [.cleared id]

/-- The same up to the point where the block has left a library that is being deleted. -/
def dismissal (t : Tree β) (levels : Nat) (id : BlockId) : List TreeEvent :=
  t.teardown levels id ++ [.removed id, .indexChanged id (t.index? id) none]

/-- A block and its descendants down to a number of levels below it, each after its own. -/
def upwards (t : Tree β) : Nat → BlockId → List BlockId
  | 0, id => [id]
  | levels + 1, id => (t.children id).flatMap (t.upwards levels) ++ [id]

/-- What is sent when a block without children is removed from its library. -/
def parting (t : Tree β) (library block : BlockId) : List TreeEvent :=
  let index := (t.children library).idxOf block
  .removingBlock library index ::
    ((((t.children library).drop (index + 1)).zipIdx index).map fun (sibling, position) =>
      .indexChanged sibling (some (position + 1)) (some position)) ++
    [.indexChanged block (some index) none, .removed block, .blockRemoved library index]

/-- The blocks of a list that go back to an owner when they are destroyed. -/
def owned (t : Tree β) (ids : List BlockId) : List BlockId :=
  ids.filter fun id => t.ownership? id ≠ some .unowned

/-- The owned blocks of two lists are those of the first and those of the second. -/
theorem owned_append (a b : List BlockId) : t.owned (a ++ b) = t.owned a ++ t.owned b :=
  List.filter_append a b

/-- Who owns the blocks decides which of them are owned, and nothing else of the tree. -/
theorem owned_congr {ids : List BlockId} (h : ∀ id ∈ ids, t'.ownership? id = t.ownership? id) :
    t'.owned ids = t.owned ids := List.filter_congr fun id hid => by rw [h id hid]

/-- A block is among the owned ones unless it is managed elsewhere. -/
theorem owned_singleton {id : BlockId} {node : Node β} (h : t.node? id = some node) :
    t.owned [id] = if node.ownership = .unowned then [] else [id] := by
  by_cases hown : node.ownership = .unowned <;> simp [owned, ownership?, h, hown]

/-! ### The way up -/

/-- On the way upwards a block comes after all that is below it. -/
theorem upwards_eq_append (levels : Nat) (root : BlockId) :
    t.upwards levels root = (t.upwards levels root).dropLast ++ [root] := by
  cases levels <;> simp [upwards]

/-- On the way upwards the same blocks come as on the way down. -/
theorem perm_upwards (levels : Nat) (root : BlockId) :
    (t.upwards levels root).Perm (t.listing levels root) := by
  induction levels generalizing root with
  | zero => exact List.Perm.refl _
  | succ levels ih =>
    rw [upwards, listing_succ]
    refine List.perm_append_comm.trans (List.Perm.cons root ?_)
    exact List.Perm.flatMap_left (t.children root) fun kid _ => ih kid

/-- So a block is on the way upwards exactly if it is listed below the root. -/
theorem mem_upwards {levels : Nat} {root id : BlockId} :
    id ∈ t.upwards levels root ↔ id ∈ t.listing levels root := (perm_upwards levels root).mem_iff

/-- A block without children is its own way upwards. -/
theorem upwards_of_childless {root : BlockId} (hc : t.children root = []) (levels : Nat) :
    t.upwards levels root = [root] := by
  cases levels <;> simp [upwards, hc]

/-- The way upwards depends on the blocks of the subtree alone. -/
theorem upwards_congr {levels : Nat} {root : BlockId}
    (h : ∀ id ∈ t.listing levels root, t'.node? id = t.node? id) :
    t'.upwards levels root = t.upwards levels root := by
  induction levels generalizing root with
  | zero => rfl
  | succ levels ih =>
    have hkids : t'.children root = t.children root := by
      simp only [children, h root (mem_listing_self _ _)]
    rw [upwards, upwards, hkids]
    congr 1
    exact List.flatMap_congr fun kid hkid => ih fun id hid => h id (mem_listing_child hkid hid)

/-- The blocks below the root have a library each, and it is only the root that may have none. -/
theorem Forest.filter_upwards (h : t.Forest) {root : BlockId} (hroot : t.contains root) :
    ((t.upwards t.slots.size root).filter fun block => (t.parent? block).isSome) =
      (t.upwards t.slots.size root).dropLast ++ [root].filter fun block =>
        (t.parent? block).isSome := by
  have hnd : (t.upwards t.slots.size root).Nodup :=
    (perm_upwards _ root).nodup_iff.mpr (h.upright hroot).nodup
  rw [upwards_eq_append] at hnd
  conv_lhs => rw [upwards_eq_append, List.filter_append]
  congr 1
  refine List.filter_eq_self.mpr fun block hb => ?_
  have hin := List.mem_append_left [root] hb
  rw [← upwards_eq_append, mem_upwards, h.mem_listing hroot le_rfl] at hin
  cases hin with
  | refl => exact absurd rfl ((List.nodup_append.mp hnd).2.2 root hb root List.mem_cons_self)
  | up hp _ => rw [hp, Option.isSome_some]

/-- On the way up nobody comes before a block that is below it. -/
theorem Forest.pairwise_upwards (h : t.Forest) (levels : Nat) (root : BlockId) :
    (t.upwards levels root).Pairwise fun a b => ¬ t.Above a b := by
  induction levels generalizing root with
  | zero => exact List.pairwise_singleton _ _
  | succ levels ih =>
    obtain ⟨d, hd⟩ := h.grounded root
    have hbelow : ∀ kid ∈ t.children root, ∀ id ∈ t.upwards levels kid,
        t.Rises kid (d + 1) ∧ t.Above kid id := by
      intro kid hkid id hid
      have hrises := Rises.up (h.mem_children_iff.mp hkid) hd
      exact ⟨hrises, (h.listing_of_rises hrises).2 id (mem_upwards.mp hid)⟩
    rw [upwards, List.pairwise_append]
    refine ⟨?_, List.pairwise_singleton _ _, ?_⟩
    · rw [List.flatMap_def, List.pairwise_flatten]
      refine ⟨?_, ?_⟩
      · rw [List.forall_mem_map]
        exact fun kid _ => ih kid
      · -- Two children lie at one depth, so a block below one of them is not below the other.
        rw [List.pairwise_map]
        refine (h.nodup_children root).imp_of_mem fun ha hb hab x hx y hy habove => ?_
        obtain ⟨hrisesA, hax⟩ := hbelow _ ha x hx
        obtain ⟨hrisesB, hby⟩ := hbelow _ hb y hy
        obtain ⟨e, he⟩ := h.grounded y
        exact hab ((hax.trans habove).eq_of_rises hby he hrisesA hrisesB)
    · intro x hx y hy habove
      obtain ⟨kid, hkid, hx⟩ := List.mem_flatMap.mp hx
      obtain ⟨-, hup⟩ := hbelow kid hkid x hx
      rw [List.mem_singleton.mp hy] at habove
      have hkidRoot : kid = root :=
        h.above_antisymm (hup.trans habove) (.up (h.mem_children_iff.mp hkid) (.refl root))
      exact h.not_mem_children_self root (hkidRoot ▸ hkid)

/-! ### What is sent -/

/-- A block without children only announces that it goes. -/
theorem teardown_of_childless {root : BlockId} (hc : t.children root = []) (levels : Nat) :
    t.teardown levels root = [.deleted root] := by
  cases levels <;> simp [teardown, hc]

/-- What is sent for a teardown depends on the blocks of the subtree alone. -/
theorem teardown_congr {levels : Nat} {root : BlockId}
    (h : ∀ id ∈ t.listing levels root, t'.node? id = t.node? id) :
    t'.teardown levels root = t.teardown levels root := by
  induction levels generalizing root with
  | zero => rfl
  | succ levels ih =>
    have hkids : t'.children root = t.children root := by
      simp only [children, h root (mem_listing_self _ _)]
    have hbelow : ((t.children root).flatMap fun kid =>
          t'.teardown levels kid ++ [.removed kid, .indexChanged kid (t'.index? kid) none]) =
        (t.children root).flatMap fun kid =>
          t.teardown levels kid ++ [.removed kid, .indexChanged kid (t.index? kid) none] := by
      refine List.flatMap_congr fun kid hkid => ?_
      have hkid' : ∀ id ∈ t.listing levels kid, t'.node? id = t.node? id :=
        fun id hid => h id (mem_listing_child hkid hid)
      rw [ih hkid']
      simp only [index?, hkid' kid (mem_listing_self _ _)]
    rw [teardown, teardown, hkids, hbelow]

/-- What is sent for a dismissal depends on the blocks of the subtree alone. -/
theorem dismissal_congr {levels : Nat} {root : BlockId}
    (h : ∀ id ∈ t.listing levels root, t'.node? id = t.node? id) :
    t'.dismissal levels root = t.dismissal levels root := by
  rw [dismissal, dismissal, teardown_congr h]
  simp only [index?, h root (mem_listing_self _ _)]

/-- A block with children announces that it goes and is cleared: each child is dismissed in
between. -/
theorem teardown_of_children {levels : Nat} {root : BlockId} (hc : t.children root ≠ []) :
    t.teardown (levels + 1) root = [.deleted root] ++ ([.clearing root] ++
      ((t.children root).flatMap (t.dismissal levels) ++ [.cleared root])) := by
  rw [teardown, if_neg hc]
  rfl

/-- Levels beyond the last one send nothing. -/
theorem teardown_succ_of_within {levels : Nat} {root : BlockId} (hw : t.Within levels root) :
    t.teardown (levels + 1) root = t.teardown levels root := by
  induction levels generalizing root with
  | zero => rw [teardown_of_childless hw, teardown_of_childless hw]
  | succ levels ih =>
    rw [teardown]
    conv_rhs => rw [teardown]
    rw [List.flatMap_congr fun kid hkid => by rw [ih (hw kid hkid)]]

/-- Every block of the subtree is announced before it goes, each before its own descendants. -/
theorem deletes?_teardown (levels : Nat) (root : BlockId) :
    (t.teardown levels root).filterMap TreeEvent.deletes? = t.listing levels root := by
  induction levels generalizing root with
  | zero => rfl
  | succ levels ih =>
    rw [teardown, listing_succ, below]
    by_cases hc : t.children root = []
    · simp [hc, TreeEvent.deletes?]
    · simp [hc, TreeEvent.deletes?, List.filterMap_cons, List.filterMap_flatMap, ih]

/-- Whoever is below the block leaves its library, each after its own descendants. -/
theorem removes?_teardown (levels : Nat) (root : BlockId) :
    (t.teardown levels root).filterMap TreeEvent.removes? = (t.upwards levels root).dropLast := by
  induction levels generalizing root with
  | zero => rfl
  | succ levels ih =>
    have hkid : ∀ kid, (t.upwards levels kid).dropLast ++ [kid] = t.upwards levels kid :=
      fun kid => (upwards_eq_append levels kid).symm
    rw [teardown, upwards, List.dropLast_concat]
    by_cases hc : t.children root = []
    · simp [hc, TreeEvent.removes?]
    · simp [hc, TreeEvent.removes?, List.filterMap_cons, List.filterMap_flatMap, ih, hkid]

/-- A parting announces no block as one that goes. -/
theorem deletes?_parting (library block : BlockId) :
    (t.parting library block).filterMap TreeEvent.deletes? = [] := by
  simp [parting, TreeEvent.deletes?, List.filterMap_cons, List.filterMap_map, Function.comp_def]

/-- A parting announces one removal, that of the block itself. -/
theorem removes?_parting (library block : BlockId) :
    (t.parting library block).filterMap TreeEvent.removes? = [block] := by
  simp [parting, TreeEvent.removes?, List.filterMap_cons, List.filterMap_map, Function.comp_def]

/-- In a dismissal each block of the subtree is announced as removed once, after all that is below
it. -/
theorem removes?_dismissal (levels : Nat) (root : BlockId) :
    (t.dismissal levels root).filterMap TreeEvent.removes? = t.upwards levels root := by
  rw [dismissal, List.filterMap_append, removes?_teardown]
  exact (upwards_eq_append levels root).symm

/-- Nobody but the blocks of the subtree leaves a library. -/
theorem mem_listing_of_dismissal {levels : Nat} {root id : BlockId}
    (h : .removed id ∈ t.dismissal levels root) : id ∈ t.listing levels root := by
  rw [← mem_upwards, ← removes?_dismissal]
  exact List.mem_filterMap.mpr ⟨_, h, rfl⟩

/-- What is sent for a block, in terms of what is sent for its children. -/
theorem Forest.teardown_eq (h : t.Forest) {id : BlockId} (hid : t.contains id) :
    t.teardown t.slots.size id = .deleted id :: if t.children id = [] then [] else
      .clearing id :: ((t.children id).zipIdx.flatMap fun (kid, index) =>
        t.teardown t.slots.size kid ++ [.removed kid, .indexChanged kid (some index) none]) ++
          [.cleared id] := by
  have hindex : ∀ place ∈ (t.children id).zipIdx, t.index? place.1 = some place.2 := fun place hp =>
    (h.child id place.2 place.1 (List.mem_zipIdx_iff_getElem?.mp hp)).2
  rw [← teardown_succ_of_within (h.upright hid).within, teardown]
  congr 3
  conv_lhs => rw [← List.zipIdx_map_fst 0 (t.children id)]
  rw [List.flatMap_map]
  congr 1
  exact List.flatMap_congr fun place hp => by rw [hindex place hp]

end Tree

end BlockForest
