import Mathlib
import BlockForest.Proofs.SlotsAndNames

/-!
# Forests

A tree keeps the order of its blocks three times over: in the child lists, in the parent links
and in the indexes. `Forest` says that the three agree and that every block stands a finite
number of links below a block without a library.

Two measures tie this to the walks of the program, which count levels. `Rises` counts the links
above a block: there are fewer than the arena has slots, so the walk up sees all of them.
`Within` bounds the levels below a block, and the same count shows that as many levels as there
are slots always suffice. `Upright` collects what a walk down relies on; it speaks of one block
and its descendants only, so that it can also be said of a subtree in a tree of which nothing
else is known.
-/

set_option autoImplicit false

namespace BlockForest.Tree

variable {β : Type}

/-! ### Links upwards -/

/-- The first block is the second one or a library above it. -/
inductive Above (t : Tree β) : BlockId → BlockId → Prop
  | refl (id : BlockId) : Above t id id
  | up {a b p : BlockId} : t.parent? b = some p → Above t a p → Above t a b

/-- So many links lead from a block to one that belongs to no library. -/
inductive Rises (t : Tree β) : BlockId → Nat → Prop
  | top {b : BlockId} : t.parent? b = none → Rises t b 0
  | up {b p : BlockId} {d : Nat} : t.parent? b = some p → Rises t p d → Rises t b (d + 1)

/-- Child lists, parent links and indexes tell the same story, and it has no cycles. -/
structure Forest (t : Tree β) : Prop where
  child : ∀ library index id, (t.children library)[index]? = some id →
    t.parent? id = some library ∧ t.index? id = some index
  listed : ∀ id library, t.parent? id = some library → id ∈ t.children library
  indexed : ∀ id, (t.index? id).isSome ↔ (t.parent? id).isSome
  grounded : ∀ id, ∃ d, t.Rises id d

variable {t t' : Tree β}

/-- A block that belongs to a library is alive, since links are read off live blocks. -/
theorem contains_of_parent? {id p : BlockId} (h : t.parent? id = some p) : t.contains id := by
  unfold parent? at h
  unfold contains
  cases hn : t.node? id with
  | none => simp [hn] at h
  | some node => rfl

/-- What has children is a library. -/
theorem isLibrary_of_mem_children {library id : BlockId} (h : id ∈ t.children library) :
    t.isLibrary library := by
  unfold children at h
  unfold isLibrary
  cases hn : t.node? library with
  | none => simp [hn] at h
  | some node =>
    cases hc : node.children with
    | none => simp [hn, hc] at h
    | some cs => simp [hc]

/-- A library is alive. -/
theorem contains_of_isLibrary {library : BlockId} (h : t.isLibrary library) :
    t.contains library := by
  unfold isLibrary at h
  unfold contains
  cases hn : t.node? library with
  | none => simp [hn] at h
  | some node => rfl

/-- The number of links up to the top is determined, since each block has at most one parent. -/
theorem Rises.unique {id : BlockId} {d e : Nat} (h : t.Rises id d) (h' : t.Rises id e) :
    d = e := by
  induction h generalizing e with
  | top hp =>
    cases h' with
    | top _ => rfl
    | up hp' _ => simp [hp] at hp'
  | up hp _ ih =>
    cases h' with
    | top hp' => simp [hp] at hp'
    | up hp' h' =>
      rw [hp] at hp'
      cases hp'
      rw [ih h']

/-- Standing above is transitive. -/
theorem Above.trans {a b c : BlockId} (h : t.Above a b) (h' : t.Above b c) : t.Above a c := by
  induction h' with
  | refl => exact h
  | up hp _ ih => exact Above.up hp ih

/-- A library stands strictly fewer links below the top than what is below it. -/
theorem Above.rises {a b : BlockId} {d : Nat} (h : t.Above a b) (hd : t.Rises b d) :
    ∃ e, t.Rises a e ∧ (a = b ∨ e < d) := by
  induction h generalizing d with
  | refl => exact ⟨d, hd, Or.inl rfl⟩
  | up hp _ ih =>
    cases hd with
    | top hp' => simp [hp] at hp'
    | up hp' hd' =>
      rw [hp] at hp'
      cases hp'
      obtain ⟨e, he, hlt⟩ := ih hd'
      refine ⟨e, he, Or.inr ?_⟩
      rcases hlt with rfl | hlt
      · have := he.unique hd'
        omega
      · omega

/-- At each height there is one library above a block. -/
theorem Above.eq_of_rises {a b c : BlockId} {d e : Nat} (ha : t.Above a c) (hb : t.Above b c)
    (hc : t.Rises c e) (hda : t.Rises a d) (hdb : t.Rises b d) : a = b := by
  induction ha generalizing e with
  | refl =>
    obtain ⟨f, hf, h | h⟩ := hb.rises hc
    · exact h.symm
    · have := hf.unique hdb
      have := hc.unique hda
      omega
  | @up c p hp hap ih =>
    cases hb with
    | refl =>
      obtain ⟨f, hf, h | h⟩ := (Above.up hp hap).rises hc
      · exact h
      · have := hf.unique hda
        have := hc.unique hdb
        omega
    | up hp' hbp =>
      rw [hp] at hp'
      cases hp'
      cases hc with
      | top hp'' => simp [hp] at hp''
      | up hp'' hc' =>
        rw [hp] at hp''
        cases hp''
        exact ih hbp hc'

/-! ### The walk up -/

/-- Climbing as many links as there are comes to the top, meets every block above once and no
other. -/
theorem lineage_of_rises {id : BlockId} {d : Nat} (h : t.Rises id d) :
    (t.lineage (d + 1) id).length = d + 1 ∧ (t.lineage (d + 1) id).Nodup ∧
      ∀ a, a ∈ t.lineage (d + 1) id ↔ t.Above a id := by
  induction h with
  | @top b hp =>
    simp only [lineage, hp, Option.elim_none]
    refine ⟨rfl, List.nodup_singleton _, ?_⟩
    intro a
    rw [List.mem_singleton]
    constructor
    · rintro rfl
      exact Above.refl _
    · intro ha
      cases ha with
      | refl => rfl
      | up hp' _ => simp [hp] at hp'
  | @up b p d hp hd ih =>
    obtain ⟨hlen, hnd, hmem⟩ := ih
    have hline : t.lineage (d + 1 + 1) b = b :: t.lineage (d + 1) p := by
      rw [lineage, hp]
      rfl
    rw [hline]
    refine ⟨by simp [hlen], List.nodup_cons.mpr ⟨?_, hnd⟩, ?_⟩
    · -- A block above itself would lie at two depths.
      intro hb
      obtain ⟨e, he, hlt⟩ := ((hmem b).mp hb).rises hd
      have := he.unique (Rises.up hp hd)
      rcases hlt with rfl | hlt
      · have := hd.unique (Rises.up hp hd)
        omega
      · omega
    · intro a
      rw [List.mem_cons, hmem a]
      constructor
      · rintro (rfl | ha)
        · exact Above.refl _
        · exact Above.up hp ha
      · intro ha
        cases ha with
        | refl => exact Or.inl rfl
        | up hp' ha' =>
          rw [hp] at hp'
          cases hp'
          exact Or.inr ha'

/-- Further steps find nothing above the top. -/
theorem lineage_eq_of_lt {id : BlockId} {d n : Nat} (h : t.Rises id d) (hn : d < n) :
    t.lineage n id = t.lineage (d + 1) id := by
  induction h generalizing n with
  | top hp =>
    obtain ⟨n, rfl⟩ := Nat.exists_eq_succ_of_ne_zero (by omega : n ≠ 0)
    simp [lineage, hp]
  | up hp _ ih =>
    obtain ⟨n, rfl⟩ := Nat.exists_eq_succ_of_ne_zero (by omega : n ≠ 0)
    rw [lineage, lineage, hp]
    simp only [Option.elim_some]
    rw [ih (by omega)]

/-- Every library above a block is alive. -/
theorem Forest.contains_of_above (h : t.Forest) {a id : BlockId} (ha : t.Above a id)
    (hid : t.contains id) : t.contains a := by
  induction ha with
  | refl => exact hid
  | up hp _ ih => exact ih (contains_of_isLibrary (isLibrary_of_mem_children (h.listed _ _ hp)))

/-- There are fewer links above a block than slots in the arena. -/
theorem Forest.lt_size (h : t.Forest) {id : BlockId} {d : Nat} (hd : t.Rises id d)
    (hid : t.contains id) : d < t.slots.size := by
  obtain ⟨hlen, hnd, hmem⟩ := lineage_of_rises hd
  have halive : ∀ a ∈ t.lineage (d + 1) id, t.contains a := fun a ha =>
    h.contains_of_above ((hmem a).mp ha) hid
  have := length_le_of_alive hnd halive
  omega

/-- The walk up from a block meets exactly the libraries above it. -/
theorem Forest.mem_ancestors (h : t.Forest) {a id : BlockId} (hid : t.contains id) :
    a ∈ t.ancestors id ↔ t.Above a id := by
  obtain ⟨d, hd⟩ := h.grounded id
  have hlt := h.lt_size hd hid
  unfold ancestors
  rw [lineage_eq_of_lt hd (by omega)]
  exact (lineage_of_rises hd).2.2 a

/-! ### The walk down -/

/-- The block has no more than so many levels below it. -/
def Within (t : Tree β) : Nat → BlockId → Prop
  | 0, id => t.children id = []
  | levels + 1, id => ∀ child ∈ t.children id, Within t levels child

/-- What a walk down relies on: the subtree has no more than so many levels, each of its blocks
is alive and met once, and each child knows its library. -/
structure Upright (t : Tree β) (levels : Nat) (root : BlockId) : Prop where
  within : t.Within levels root
  nodup : (t.listing levels root).Nodup
  alive : ∀ id ∈ t.listing levels root, t.contains id
  linked : ∀ id ∈ t.listing levels root, ∀ child ∈ t.children id, t.parent? child = some id

/-- The blocks below a block, each before its own. -/
def below (t : Tree β) (levels : Nat) (id : BlockId) : List BlockId :=
  (t.children id).flatMap (t.listing levels)

/-- The listing with one level more is the block itself and what is met below it. -/
theorem listing_succ (levels : Nat) (id : BlockId) :
    t.listing (levels + 1) id = id :: t.below levels id := rfl

/-- A block is in its own listing, whatever the number of levels. -/
@[simp] theorem mem_listing_self (levels : Nat) (id : BlockId) : id ∈ t.listing levels id := by
  cases levels <;> simp [listing]

/-- What is listed below a child is listed below its library, with one level more. -/
theorem mem_listing_child {levels : Nat} {id child x : BlockId} (hc : child ∈ t.children id)
    (hx : x ∈ t.listing levels child) : x ∈ t.listing (levels + 1) id :=
  List.mem_cons_of_mem _ (List.mem_flatMap.mpr ⟨child, hc, hx⟩)

/-- Levels beyond the last one change nothing. -/
theorem listing_eq_of_within {levels : Nat} {id : BlockId} (h : t.Within levels id) (k : Nat) :
    t.listing (levels + k) id = t.listing levels id := by
  induction levels generalizing id with
  | zero =>
    have hc : t.children id = [] := h
    cases k with
    | zero => rfl
    | succ k =>
      rw [Nat.zero_add, listing_succ, below, hc]
      rfl
  | succ levels ih =>
    rw [Nat.add_right_comm, listing_succ, listing_succ]
    unfold below
    congr 1
    apply List.flatMap_congr
    intro child hc
    exact ih (h child hc)

/-- A subtree that ends within so many levels ends within more of them. -/
theorem Within.add {levels : Nat} {id : BlockId} (h : t.Within levels id) (k : Nat) :
    t.Within (levels + k) id := by
  induction levels generalizing id with
  | zero =>
    have hc : t.children id = [] := h
    cases k with
    | zero => exact h
    | succ k =>
      rw [Nat.zero_add]
      intro child hchild
      simp [hc] at hchild
  | succ levels ih =>
    rw [Nat.add_right_comm]
    intro child hc
    exact ih (h child hc)

/-- The blocks met below the root. -/
def under (t : Tree β) (levels : Nat) (root : BlockId) : List BlockId :=
  (t.listing levels root).tail

/-- A listing begins with its root. -/
theorem listing_eq_cons (levels : Nat) (root : BlockId) :
    t.listing levels root = root :: t.under levels root := by
  cases levels <;> rfl

/-- A listing has its root and what is met below it. -/
theorem mem_listing_iff {levels : Nat} {root id : BlockId} :
    id ∈ t.listing levels root ↔ id = root ∨ id ∈ t.under levels root := by
  rw [listing_eq_cons, List.mem_cons]

/-- What is met below the root is listed. -/
theorem mem_listing_of_under {levels : Nat} {root id : BlockId} (h : id ∈ t.under levels root) :
    id ∈ t.listing levels root := List.mem_of_mem_tail h

/-- Children of a block that is met are met below the root. -/
theorem Within.mem_under {levels : Nat} {root id child : BlockId} (h : t.Within levels root)
    (hid : id ∈ t.listing levels root) (hc : child ∈ t.children id) :
    child ∈ t.under levels root := by
  induction levels generalizing root with
  | zero =>
    rw [listing, List.mem_singleton] at hid
    subst hid
    have hnil : t.children id = [] := h
    simp [hnil] at hc
  | succ levels ih =>
    show child ∈ t.below levels root
    rw [listing_succ, List.mem_cons] at hid
    rcases hid with rfl | hid
    · exact List.mem_flatMap.mpr ⟨child, hc, mem_listing_self _ _⟩
    · obtain ⟨kid, hkid, hid⟩ := List.mem_flatMap.mp hid
      exact List.mem_flatMap.mpr ⟨kid, hkid, mem_listing_of_under (ih (h kid hkid) hid)⟩

/-- A subtree has fewer levels below its root than blocks. -/
theorem Within.of_length {levels k : Nat} {id : BlockId} (h : t.Within levels id)
    (hk : (t.listing levels id).length ≤ k + 1) : t.Within k id := by
  induction levels generalizing k id with
  | zero => simpa using h.add k
  | succ levels ih =>
    rw [listing_succ, List.length_cons] at hk
    have hchild : ∀ child ∈ t.children id, (t.listing levels child).length ≤ k := by
      intro child hc
      have hsub := (List.sublist_flatten_of_mem
        (List.mem_map_of_mem (f := t.listing levels) hc)).length_le
      have hflat : (t.below levels id).length
          = ((t.children id).map (t.listing levels)).flatten.length := by
        rw [below, List.flatMap_def]
      omega
    cases k with
    | zero =>
      show t.children id = []
      apply List.eq_nil_iff_forall_not_mem.mpr
      intro child hc
      have hpos := List.length_pos_of_mem (mem_listing_self (t := t) levels child)
      have := hchild child hc
      omega
    | succ k =>
      intro child hc
      exact ih (h child hc) (hchild child hc)

/-- As many levels as there are slots are enough for any subtree. -/
theorem Upright.full {levels : Nat} {id : BlockId} (h : t.Upright levels id) :
    t.Upright t.slots.size id ∧ t.listing t.slots.size id = t.listing levels id := by
  have hlen := length_le_of_alive h.nodup h.alive
  have hw : t.Within t.slots.size id := h.within.of_length (by omega)
  have hlist : t.listing t.slots.size id = t.listing levels id := by
    rw [← listing_eq_of_within hw levels, ← listing_eq_of_within h.within t.slots.size,
      Nat.add_comm]
  exact ⟨⟨hw, hlist ▸ h.nodup, hlist ▸ h.alive, hlist ▸ h.linked⟩, hlist⟩

/-- The descendants of an upright subtree are its listing, since the levels do not cut it off. -/
theorem Upright.descendants_eq {levels : Nat} {id : BlockId} (h : t.Upright levels id) :
    t.descendants id = t.listing levels id := by
  rw [descendants, if_pos (h.alive id (mem_listing_self levels id)), h.full.2]

/-- A child of the root is the root of a subtree of its own. -/
theorem Upright.child {levels : Nat} {id child : BlockId} (h : t.Upright (levels + 1) id)
    (hc : child ∈ t.children id) : t.Upright levels child where
  within := h.within child hc
  nodup := by
    have hnd := (List.nodup_cons.mp (listing_succ (t := t) levels id ▸ h.nodup)).2
    exact (List.nodup_flatMap.mp hnd).1 child hc
  alive x hx := h.alive x (mem_listing_child hc hx)
  linked x hx := h.linked x (mem_listing_child hc hx)

/-- The root is not met again below itself. -/
theorem Upright.root_not_mem {levels : Nat} {id : BlockId} (h : t.Upright (levels + 1) id) :
    id ∉ t.below levels id := (List.nodup_cons.mp (listing_succ (t := t) levels id ▸ h.nodup)).1

/-- The listing of a block without children is the block alone. -/
theorem listing_of_childless {root : BlockId} (hc : t.children root = []) (levels : Nat) :
    t.listing levels root = [root] := by
  cases levels with
  | zero => rfl
  | succ levels =>
    rw [listing_succ, below, hc]
    rfl

/-- A live block without children is upright, whatever the number of levels. -/
theorem Upright.of_childless {root : BlockId} (hc : t.children root = [])
    (hroot : t.contains root) (levels : Nat) : t.Upright levels root := by
  have hlist := listing_of_childless hc levels
  refine ⟨?_, ?_, ?_, ?_⟩
  · cases levels with
    | zero => exact hc
    | succ levels =>
      intro child hchild
      rw [hc] at hchild
      cases hchild
  · rw [hlist]
    exact List.nodup_singleton root
  · intro id hid
    rw [hlist, List.mem_singleton] at hid
    rwa [hid]
  · intro id hid child hchild
    rw [hlist, List.mem_singleton] at hid
    rw [hid, hc] at hchild
    cases hchild

/-! ### Subtrees that stay as they are -/

/-- The root of an upright subtree is not met again below it. -/
theorem Upright.not_mem_under {levels : Nat} {root : BlockId} (h : t.Upright levels root) :
    root ∉ t.under levels root :=
  (List.nodup_cons.mp (listing_eq_cons (t := t) levels root ▸ h.nodup)).1

/-- A listing depends only on the children of the blocks in it. -/
theorem listing_congr {levels : Nat} {root : BlockId}
    (h : ∀ id ∈ t.listing levels root, t'.children id = t.children id) :
    t'.listing levels root = t.listing levels root := by
  induction levels generalizing root with
  | zero => rfl
  | succ levels ih =>
    rw [listing_succ, listing_succ, below, below, h root (mem_listing_self _ _)]
    congr 1
    apply List.flatMap_congr
    intro child hc
    exact ih fun id hid => h id (mem_listing_child hc hid)

/-- That a subtree ends within so many levels depends only on the children of its blocks. -/
theorem Within.congr {levels : Nat} {root : BlockId} (hw : t.Within levels root)
    (h : ∀ id ∈ t.listing levels root, t'.children id = t.children id) :
    t'.Within levels root := by
  have hroot := h root (mem_listing_self _ _)
  induction levels generalizing root with
  | zero =>
    show t'.children root = []
    rw [hroot]
    exact hw
  | succ levels ih =>
    intro child hc
    rw [hroot] at hc
    have hbelow : ∀ id ∈ t.listing levels child, t'.children id = t.children id :=
      fun id hid => h id (mem_listing_child hc hid)
    exact ih (hw child hc) hbelow (hbelow child (mem_listing_self _ _))

/-- A subtree whose links stay as they are can still be walked down, whatever becomes of the
links of its root to the rest of the tree. -/
theorem Upright.congr {levels : Nat} {root : BlockId} (hu : t.Upright levels root)
    (hc : ∀ id ∈ t.listing levels root, t'.children id = t.children id)
    (ha : ∀ id ∈ t.listing levels root, t'.contains id = t.contains id)
    (hp : ∀ id ∈ t.under levels root, t'.parent? id = t.parent? id) :
    t'.Upright levels root := by
  have hlist := listing_congr hc
  refine ⟨hu.within.congr hc, hlist ▸ hu.nodup, ?_, ?_⟩
  · intro id hid
    rw [hlist] at hid
    rw [ha id hid]
    exact hu.alive id hid
  · intro id hid child hchild
    rw [hlist] at hid
    rw [hc id hid] at hchild
    rw [hp child (hu.within.mem_under hid hchild)]
    exact hu.linked id hid child hchild

/-- Trees that agree on the blocks of a listing have the same listing. -/
theorem listing_eq_of_node?_eq {levels : Nat} {root : BlockId}
    (h : ∀ id ∈ t.listing levels root, t'.node? id = t.node? id) :
    t'.listing levels root = t.listing levels root :=
  listing_congr fun id hid => by
    unfold children
    rw [h id hid]

/-- A subtree whose blocks are as they were is as upright as it was. -/
theorem Upright.of_node?_eq {levels : Nat} {root : BlockId} (hu : t.Upright levels root)
    (h : ∀ id ∈ t.listing levels root, t'.node? id = t.node? id) : t'.Upright levels root := by
  apply hu.congr
  · intro id hid
    unfold children
    rw [h id hid]
  · intro id hid
    unfold contains
    rw [h id hid]
  · intro id hid
    unfold parent?
    rw [h id (mem_listing_of_under hid)]

/-! ### The subtrees of a forest -/

section Forest

variable (h : t.Forest)

include h

/-- Each child of a library is listed once. -/
theorem Forest.nodup_children (library : BlockId) : (t.children library).Nodup := by
  rw [List.nodup_iff_getElem?_ne_getElem?]
  intro i j hij hj heq
  obtain ⟨id, hid⟩ : ∃ id, (t.children library)[i]? = some id :=
    ⟨_, List.getElem?_eq_getElem (by omega)⟩
  have hi := (h.child library i id hid).2
  have hj' := (h.child library j id (heq ▸ hid)).2
  rw [hi] at hj'
  cases hj'
  omega

/-- In a forest the children of a library are the blocks that belong to it. -/
theorem Forest.mem_children_iff {library id : BlockId} :
    id ∈ t.children library ↔ t.parent? id = some library := by
  constructor
  · intro hid
    obtain ⟨i, hi⟩ := List.mem_iff_getElem?.mp hid
    exact (h.child library i id hi).1
  · exact h.listed id library

/-- In a forest the index of a child is its position in the list. -/
theorem Forest.index_eq {library id : BlockId} (hid : id ∈ t.children library) :
    t.index? id = some ((t.children library).idxOf id) := by
  have hlt := List.idxOf_lt_length_of_mem hid
  refine (h.child library _ id ?_).2
  rw [List.getElem?_eq_getElem hlt, List.getElem_idxOf hlt]

/-- Above a block that rises so many links there are as many blocks, so below it there is room for
so many levels only. -/
theorem Forest.within_of_rises {levels d : Nat} {id : BlockId} (hd : t.Rises id d)
    (hle : t.slots.size ≤ d + 1 + levels) : t.Within levels id := by
  induction levels generalizing id d with
  | zero =>
    show t.children id = []
    apply List.eq_nil_iff_forall_not_mem.mpr
    intro child hc
    have hp := h.mem_children_iff.mp hc
    have := h.lt_size (Rises.up hp hd) (contains_of_parent? hp)
    omega
  | succ levels ih =>
    intro child hc
    exact ih (Rises.up (h.mem_children_iff.mp hc) hd) (by omega)

/-- What is met on the walk down stands below the block it starts from, and is met once: two
children of a block have nothing below them in common. -/
theorem Forest.listing_of_rises {levels d : Nat} {root : BlockId} (hd : t.Rises root d) :
    (t.listing levels root).Nodup ∧ ∀ x ∈ t.listing levels root, t.Above root x := by
  induction levels generalizing root d with
  | zero =>
    refine ⟨List.nodup_singleton _, ?_⟩
    intro x hx
    rw [listing, List.mem_singleton] at hx
    subst hx
    exact Above.refl _
  | succ levels ih =>
    have hchild : ∀ child ∈ t.children root, t.Rises child (d + 1) := fun child hc =>
      Rises.up (h.mem_children_iff.mp hc) hd
    have habove : ∀ child ∈ t.children root, t.Above root child := fun child hc =>
      Above.up (h.mem_children_iff.mp hc) (Above.refl _)
    rw [listing_succ]
    refine ⟨List.nodup_cons.mpr ⟨?_, ?_⟩, ?_⟩
    · intro hmem
      obtain ⟨child, hc, hx⟩ := List.mem_flatMap.mp hmem
      obtain ⟨e, he, hlt⟩ := ((ih (hchild child hc)).2 root hx).rises hd
      have := he.unique (hchild child hc)
      rcases hlt with rfl | hlt
      · have := hd.unique he
        omega
      · omega
    · refine List.nodup_flatMap.mpr ⟨fun child hc => (ih (hchild child hc)).1, ?_⟩
      refine (h.nodup_children root).imp_of_mem ?_
      intro a b ha hb hab x hxa hxb
      have hax := (ih (hchild a ha)).2 x hxa
      have hbx := (ih (hchild b hb)).2 x hxb
      obtain ⟨e, he⟩ := h.grounded x
      exact hab (hax.eq_of_rises hbx he (hchild a ha) (hchild b hb))
    · intro x hx
      rcases List.mem_cons.mp hx with rfl | hx
      · exact Above.refl _
      · obtain ⟨child, hc, hx⟩ := List.mem_flatMap.mp hx
        exact (habove child hc).trans ((ih (hchild child hc)).2 x hx)

/-- Nobody who is met on the walk down from a block is the library of that block. -/
theorem Forest.root_not_mem_children {levels : Nat} {root id : BlockId}
    (hid : id ∈ t.listing levels root) : root ∉ t.children id := by
  intro hmem
  obtain ⟨d, hd⟩ := h.grounded root
  obtain ⟨e, he⟩ := h.grounded id
  obtain ⟨f, hf, hlt⟩ := ((h.listing_of_rises hd).2 id hid).rises he
  have := hf.unique (Rises.up (h.mem_children_iff.mp hmem) he)
  rcases hlt with rfl | hlt
  · have := he.unique hf
    omega
  · omega

/-- No block is its own child. -/
theorem Forest.not_mem_children_self (id : BlockId) : id ∉ t.children id :=
  h.root_not_mem_children (mem_listing_self 0 id)

/-- Two blocks that stand above each other are one block. -/
theorem Forest.above_antisymm {a b : BlockId} (hab : t.Above a b)
    (hba : t.Above b a) : a = b := by
  obtain ⟨d, hd⟩ := h.grounded b
  obtain ⟨e, he, hlt⟩ := hab.rises hd
  obtain ⟨f, hf, hlt'⟩ := hba.rises he
  have := hf.unique hd
  rcases hlt with rfl | hlt
  · rfl
  · rcases hlt' with rfl | hlt'
    · rfl
    · omega

/-- The subtree of every block of a forest is one that can be walked down. -/
theorem Forest.upright_of_le {levels : Nat} {root : BlockId} (hroot : t.contains root)
    (hle : t.slots.size ≤ levels) : t.Upright levels root := by
  obtain ⟨d, hd⟩ := h.grounded root
  obtain ⟨hnd, hmet⟩ : (t.listing levels root).Nodup ∧ _ := h.listing_of_rises hd
  refine ⟨h.within_of_rises hd (by omega), hnd, ?_, ?_⟩
  · intro x hx
    cases hmet x hx with
    | refl => exact hroot
    | up hp _ => exact contains_of_parent? hp
  · intro x _ child hc
    exact h.mem_children_iff.mp hc

/-- In a forest every live block has an upright subtree, since there are no more levels than
slots. -/
theorem Forest.upright {root : BlockId} (hroot : t.contains root) :
    t.Upright t.slots.size root := h.upright_of_le hroot le_rfl

/-- The walk down from a block meets exactly what stands below it. -/
theorem Forest.mem_listing {levels : Nat} {root id : BlockId} (hroot : t.contains root)
    (hle : t.slots.size ≤ levels) : id ∈ t.listing levels root ↔ t.Above root id := by
  constructor
  · intro hid
    obtain ⟨d, hd⟩ := h.grounded root
    exact (h.listing_of_rises hd).2 id hid
  · intro habove
    induction habove with
    | refl => exact mem_listing_self levels root
    | up hp _ ih =>
      have hwithin := (h.upright_of_le hroot hle).within
      exact mem_listing_of_under (hwithin.mem_under ih (h.mem_children_iff.mpr hp))

/-- In a forest the descendants of a block are the blocks that it stands above, itself included. -/
theorem Forest.mem_descendants {root id : BlockId} (hroot : t.contains root) :
    id ∈ t.descendants root ↔ t.Above root id := by
  rw [descendants, if_pos hroot]
  exact h.mem_listing hroot le_rfl

/-- In a forest no block is met twice on the way down. -/
theorem Forest.nodup_descendants (root : BlockId) : (t.descendants root).Nodup := by
  unfold descendants
  split
  · next hroot => exact (h.upright hroot).nodup
  · exact List.nodup_nil

end Forest

end BlockForest.Tree
