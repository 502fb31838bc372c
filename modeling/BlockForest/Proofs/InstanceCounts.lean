import Mathlib
import BlockForest.Proofs.DestroySubtree
import BlockForest.Proofs.ReachedSites

/-!
# What entries count

An entry counts the blocks it made, and a tree knows for each block whether an entry counts it.
`Tree.headcount` is the number of blocks in a tree that an entry counts; a site is `Balanced` if
every entry counts these blocks and a fixed number of others, which are elsewhere.

The balance is kept by each elementary change of a site, so by all operations, whatever they do
in between and however they end. `Turnover` is such a change; what it says besides is that a
block goes back to an entry that counts at least one, so that no counter is ever asked to go
below zero. When a tree is dropped, its slots are gone through in order, and the same holds at
each of them.
-/

set_option autoImplicit false

namespace BlockForest

variable {β : Type}

namespace Catalogue

variable {c c' : Catalogue β} {r : RegistryRef} {ref : EntryRef}

/-- The number of blocks that an entry counts as alive. -/
def instances (c : Catalogue β) (ref : EntryRef) : Nat :=
  (c.entryAt? ref).elim 0 Entry.instances

/-- The count of an entry that is there is read off it. -/
theorem instances_of_entryAt? {entry : Entry β} (h : c.entryAt? ref = some entry) :
    c.instances ref = entry.instances := by
  rw [instances, h]
  rfl

/-- A change of one entry changes the count of this entry alone. -/
theorem instances_modifyEntry (c : Catalogue β) (ref other : EntryRef) (f : Entry β → Entry β) :
    (c.modifyEntry ref f).instances other =
      (c.entryAt? other).elim 0 fun e => if other = ref then (f e).instances else e.instances := by
  rw [instances, entryAt?_modifyEntry]
  cases c.entryAt? other with
  | none => rfl
  | some e => exact apply_ite Entry.instances _ _ _

/-- Counting up adds one to the count of one entry. -/
theorem instances_countUp {entry : Entry β} (he : c.entryAt? ref = some entry)
    (other : EntryRef) :
    (c.countUp ref).instances other = c.instances other + if other = ref then 1 else 0 := by
  rw [countUp, instances_modifyEntry, instances]
  by_cases ho : other = ref
  · rw [ho, he, if_pos rfl, Option.elim_some, if_pos rfl]
    rfl
  · cases c.entryAt? other <;> simp [ho]

/-- Releasing what a block was counted by takes one off that count, or nothing if it was not
counted. -/
theorem instances_elim_release (c : Catalogue β) (counted : Option EntryRef) (ref : EntryRef) :
    (counted.elim c c.release).instances ref =
      c.instances ref - if counted = some ref then 1 else 0 := by
  rw [instances, entryAt?_elim_release, instances]
  cases c.entryAt? ref with
  | none => exact (Nat.zero_sub _).symm
  | some e => rfl

/-- A registered type is unregistered exactly if its entry counts no block. -/
theorem unregister_eq_ok_iff {name : String} {entry : Entry β}
    (hf : c.findName r name = some (ref, entry)) :
    (c.unregister r name).1 = .ok () ↔ c.instances ref = 0 := by
  rw [instances_of_entryAt? (entryAt?_of_findName hf).2, Catalogue.unregister, hf]
  simp only
  by_cases hload : entry.instances = 0
  · simp [Entry.canUnload, hload]
  · simp [Entry.canUnload, hload]

end Catalogue

/-! ### The blocks of a tree -/

namespace Tree

variable {t t' : Tree β} {ref : EntryRef}

/-- The entry counts the block as alive. -/
def Counts (t : Tree β) (ref : EntryRef) (id : BlockId) : Prop :=
  (t.node? id).bind Node.countedBy? = some ref

instance (t : Tree β) (ref : EntryRef) (id : BlockId) : Decidable (t.Counts ref id) :=
  inferInstanceAs (Decidable (_ = _))

/-- The blocks that an entry counts, by slot. -/
def holders (t : Tree β) (ref : EntryRef) : List BlockId := t.tenants.filter (t.Counts ref)

/-- How many blocks of a tree an entry counts. -/
def headcount (t : Tree β) (ref : EntryRef) : Nat := (t.holders ref).length

/-- An entry counts a live block exactly if the block says so. -/
theorem counts_iff_of_node? {id : BlockId} {node : Node β} (h : t.node? id = some node) :
    t.Counts ref id ↔ node.countedBy? = some ref := by
  rw [Counts, h]
  rfl

/-- The holders of an entry are the blocks that it counts. -/
theorem mem_holders {id : BlockId} : id ∈ t.holders ref ↔ t.Counts ref id := by
  rw [holders, List.mem_filter, mem_tenants, decide_eq_true_eq]
  refine and_iff_right_of_imp fun h => ?_
  obtain ⟨node, hn, -⟩ := Option.bind_eq_some_iff.mp h
  exact contains_of_node? hn

/-- No block is counted twice. -/
theorem nodup_holders (t : Tree β) (ref : EntryRef) : (t.holders ref).Nodup :=
  (nodup_tenants t).filter _

/-- The headcount depends on nothing but which blocks are counted. -/
theorem headcount_congr (h : ∀ id, t'.Counts ref id ↔ t.Counts ref id) :
    t'.headcount ref = t.headcount ref := by
  refine List.Perm.length_eq ?_
  refine (List.perm_ext_iff_of_nodup (nodup_holders t' ref) (nodup_holders t ref)).mpr ?_
  intro id
  rw [mem_holders, mem_holders, h]

/-- If one more block is counted and nothing else changes, the headcount grows by one. -/
theorem headcount_succ {id : BlockId} (hnot : ¬ t.Counts ref id)
    (h : ∀ other, t'.Counts ref other ↔ other = id ∨ t.Counts ref other) :
    t'.headcount ref = t.headcount ref + 1 := by
  have hnew : id ∉ t.holders ref := fun hmem => hnot (mem_holders.mp hmem)
  have hperm : (t'.holders ref).Perm (id :: t.holders ref) := by
    refine (List.perm_ext_iff_of_nodup (nodup_holders t' ref)
      (List.nodup_cons.mpr ⟨hnew, nodup_holders t ref⟩)).mpr ?_
    intro other
    rw [List.mem_cons, mem_holders, mem_holders, h]
  exact hperm.length_eq

/-- A new block raises the headcount of its own entry by one. -/
theorem headcount_alloc (h : t.Orderly) (node : Node β) (ref : EntryRef) :
    (t.alloc node).2.headcount ref =
      t.headcount ref + if node.countedBy? = some ref then 1 else 0 := by
  have hfresh : ¬ t.Counts ref (t.alloc node).1 := by
    rw [Counts, node?_alloc_fresh h]
    exact nofun
  have hcounts : ∀ other, (t.alloc node).2.Counts ref other ↔
      other = (t.alloc node).1 ∧ node.countedBy? = some ref ∨ t.Counts ref other := by
    intro other
    rw [Counts, node?_alloc h]
    by_cases ho : other = (t.alloc node).1
    · subst ho
      simp [hfresh]
    · simp [ho, Counts]
  split
  · next hc =>
    apply headcount_succ hfresh
    simpa [hc] using hcounts
  · next hc =>
    apply headcount_congr
    simpa [hc] using hcounts

/-- When a block gives up its slot, the headcount of its entry falls by one. -/
theorem headcount_vacate {id : BlockId} (hid : t.contains id) (ref : EntryRef) :
    t.headcount ref = (t.vacate id).headcount ref + if t.Counts ref id then 1 else 0 := by
  have hcounts : ∀ other, (t.vacate id).Counts ref other ↔ other ≠ id ∧ t.Counts ref other := by
    intro other
    rw [Counts, node?_vacate hid]
    by_cases ho : other = id
    · simp [ho]
    · simp [ho, Counts]
  split
  · next hc =>
    refine headcount_succ (fun hgone => ((hcounts id).mp hgone).1 rfl) fun other => ?_
    rw [hcounts]
    by_cases ho : other = id
    · simp [ho, hc]
    · simp [ho]
  · next hc =>
    refine (headcount_congr fun other => ?_).symm
    rw [hcounts, and_iff_right_iff_imp]
    rintro ho rfl
    exact hc ho

/-- A tree without blocks has no headcount. -/
theorem headcount_empty (registry : RegistryRef) (ref : EntryRef) :
    (empty registry : Tree β).headcount ref = 0 := rfl

/-- The headcount slot by slot. -/
theorem headcount_eq_countP (t : Tree β) (ref : EntryRef) :
    t.headcount ref =
      t.slots.toList.countP fun slot => decide (slot.node.bind Node.countedBy? = some ref) := by
  rw [headcount, holders, ← List.countP_eq_length_filter, tenants, List.countP_filterMap,
    ← countP_range _ t.slots.toList, Array.length_toList]
  congr 1
  funext index
  rw [Array.getElem?_toList, tenant?]
  cases hs : t.slots[index]? with
  | none => rfl
  | some slot =>
    cases hn : slot.node with
    | none => simp [hn]
    | some node => simp [hn, Counts, node?, hs]

end Tree

namespace Site

variable {s s' : Site β} {rest : EntryRef → Nat}

/-- Every entry counts the blocks of the tree that it made, and so many others. -/
structure Balanced (rest : EntryRef → Nat) (s : Site β) : Prop where
  orderly : s.tree.Orderly
  count : ∀ ref, s.catalogue.instances ref = s.tree.headcount ref + rest ref

/-- Who counts a block counts at least one. -/
theorem Balanced.pos (h : Balanced rest s) {ref : EntryRef} {id : BlockId}
    (hc : s.tree.Counts ref id) : 0 < s.catalogue.instances ref := by
  have hmem := List.length_pos_of_mem (Tree.mem_holders.mpr hc)
  have hcount := h.count ref
  rw [Tree.headcount] at hcount
  omega

/-- Changes that bring and take no block and leave entries alone keep the balance. -/
theorem Balanced.work (h : Balanced rest s) (hr : Reworked s s') : Balanced rest s' where
  orderly := hr.orderly h.orderly
  count ref := by
    have hsame : s'.tree.headcount ref = s.tree.headcount ref := by
      refine Tree.headcount_congr fun id => ?_
      have hcounted : ∀ t : Tree β, (t.node? id).bind Node.countedBy? =
          ((t.node? id).map Node.holder).bind fun holder =>
            if holder.1 = .registryOwned then holder.2 else none := fun t => by
        rw [Option.bind_map]
        rfl
      rw [Tree.Counts, Tree.Counts, hcounted, hcounted, hr.holder]
    rw [hr.catalogue, hsame]
    exact h.count ref

/-- A block that goes back to its owner leaves the tree and its count together. -/
theorem Balanced.surrender (h : Balanced rest s) (id : BlockId) :
    Balanced rest (s.surrender id).2 := by
  rcases surrender_cases s id with heq | ⟨node, hn, heq⟩
  · rwa [heq]
  · rw [heq]
    have hid := Tree.contains_of_node? hn
    refine ⟨h.orderly.vacate hid, fun ref => ?_⟩
    have hcount := h.count ref
    have hleft := Tree.headcount_vacate hid ref
    have hcounts : s.tree.Counts ref id ↔ node.countedBy? = some ref :=
      Tree.counts_iff_of_node? hn
    show (node.countedBy?.elim s.catalogue s.catalogue.release).instances ref =
      (s.tree.vacate id).headcount ref + rest ref
    rw [Catalogue.instances_elim_release]
    by_cases hc : node.countedBy? = some ref
    · have hpos := h.pos (hcounts.mpr hc)
      rw [if_pos (hcounts.mpr hc)] at hleft
      rw [if_pos hc]
      omega
    · rw [if_neg fun h => hc (hcounts.mp h)] at hleft
      rw [if_neg hc]
      omega

/-- A block that no entry counts comes in without a count. -/
theorem Balanced.setTree_alloc (h : Balanced rest s) {node : Node β}
    (hc : node.countedBy? = none) : Balanced rest (s.setTree (s.tree.alloc node).2) where
  orderly := h.orderly.alloc node
  count ref := by
    have hsame : (s.tree.alloc node).2.headcount ref = s.tree.headcount ref := by
      rw [Tree.headcount_alloc h.orderly, hc, if_neg nofun, Nat.add_zero]
    show s.catalogue.instances ref = (s.tree.alloc node).2.headcount ref + rest ref
    rw [hsame]
    exact h.count ref

/-- A block that is reclaimed goes back like one that is destroyed. -/
theorem Balanced.reclaim (h : Balanced rest s) (id : BlockId) :
    Balanced rest (s.reclaim id).2 := by
  unfold Site.reclaim
  split
  · next payload hcheck =>
    obtain ⟨node, hn, hown, -⟩ := node?_of_checkReclaim hcheck
    have hid := Tree.contains_of_node? hn
    have hnot : ∀ ref, ¬ s.tree.Counts ref id := by
      intro ref
      rw [Tree.counts_iff_of_node? hn]
      simp [Node.countedBy?, hown]
    refine ⟨h.orderly.vacate hid, fun ref => ?_⟩
    have hleft := Tree.headcount_vacate hid ref
    rw [if_neg (hnot ref), Nat.add_zero] at hleft
    show s.catalogue.instances ref = (s.tree.vacate id).headcount ref + rest ref
    rw [← hleft]
    exact h.count ref
  · exact h

/-- Who observes a tree has nothing to do with the counts. -/
theorem Balanced.audience {t : Tree β} (h : Balanced rest s) (hs : t.slots = s.tree.slots)
    (hf : t.free = s.tree.free) (hz : t.size = s.tree.size) : Balanced rest (s.setTree t) where
  orderly := h.orderly.of_slots hs hf hz
  count ref := by
    have hsame : t.headcount ref = s.tree.headcount ref := by
      rw [Tree.headcount_eq_countP, Tree.headcount_eq_countP, hs]
    show s.catalogue.instances ref = t.headcount ref + rest ref
    rw [hsame]
    exact h.count ref

variable [Payload β]

/-- A block that is made by an entry is counted when it comes in. -/
theorem Balanced.createFrom (h : Balanced rest s) {ref : EntryRef} {entry : Entry β}
    (he : s.catalogue.entryAt? ref = some entry) : Balanced rest (s.createFrom ref entry).2 where
  orderly := (lasting_createFrom s ref entry).orderly h.orderly
  count other := by
    have hcount := h.count other
    have hmade := Catalogue.instances_countUp he other
    show (s.catalogue.countUp ref).instances other =
      (s.tree.alloc _).2.headcount other + rest other
    rw [Tree.headcount_alloc h.orderly, Node.countedBy?, if_pos rfl]
    simp only [Option.some.injEq, eq_comm (a := ref)]
    omega

/-- An elementary change of a site. A block goes back only to an entry that counts at least
one. -/
inductive Turnover : Site β → Site β → Prop
  | work {s s' : Site β} : Reworked s s' → Turnover s s'
  | audience {s : Site β} {t : Tree β} : t.slots = s.tree.slots → t.free = s.tree.free →
      t.size = s.tree.size → t.registry = s.tree.registry → Turnover s (s.setTree t)
  | place {s : Site β} (payload : β) (entry : Option EntryRef) (ownership : Ownership)
      (flags : Flags) : ownership ≠ .registryOwned →
      Turnover s (s.place payload entry ownership flags).2
  | createFrom {s : Site β} {ref : EntryRef} {entry : Entry β} :
      s.catalogue.entryAt? ref = some entry → Turnover s (s.createFrom ref entry).2
  | reclaim {s : Site β} (id : BlockId) : Turnover s (s.reclaim id).2
  | surrender {s : Site β} (id : BlockId) :
      (∀ ref, s.tree.Counts ref id → 0 < s.catalogue.instances ref) →
      Turnover s (s.surrender id).2

/-- Every elementary change keeps the balance. -/
theorem Balanced.turnover (h : Balanced rest s) (ht : Turnover s s') : Balanced rest s' := by
  cases ht with
  | work hr => exact h.work hr
  | audience hs hf hz _ => exact h.audience hs hf hz
  | place payload entry ownership flags hown =>
    exact h.setTree_alloc (if_neg hown)
  | createFrom he => exact h.createFrom he
  | reclaim id => exact h.reclaim id
  | surrender id _ => exact h.surrender id

/-- A site that comes from another one by elementary changes, and is balanced. -/
theorem tended_balanced (s : Site β) (rest : EntryRef → Nat) :
    Tended fun s' => Balanced rest s' ∧ Relation.ReflTransGen Turnover s s' := by
  have hstep : ∀ {s₁ s₂ : Site β}, Balanced rest s₁ ∧ Relation.ReflTransGen Turnover s s₁ →
      Turnover s₁ s₂ → Balanced rest s₂ ∧ Relation.ReflTransGen Turnover s s₂ :=
    fun h ht => ⟨h.1.turnover ht, h.2.tail ht⟩
  refine ⟨⟨?_, ?_⟩, ?_, ?_, ?_, ?_⟩
  · exact fun h hr => hstep h (.work hr.toReworked)
  · exact fun id h => hstep h (.surrender id fun _ hc => h.1.pos hc)
  · exact fun payload entry ownership flags hown h => hstep h (.place payload entry _ flags hown)
  · intro s' ref entry hfinds h
    refine hstep h (.createFrom ?_)
    rcases hfinds with ⟨name, hf⟩ | ⟨id, hf⟩
    · exact (Catalogue.entryAt?_of_findName hf).2
    · exact Catalogue.entryAt?_of_findId hf
  · exact fun id h => hstep h (.reclaim id)
  · exact fun hs hf hz hr h => hstep h (.audience hs hf hz hr)

/-- An operation is made of elementary changes and keeps the balance. -/
theorem Balanced.perform (h : Balanced rest s) (op : Op β) :
    Balanced rest (s.perform op) ∧ Relation.ReflTransGen Turnover s (s.perform op) :=
  (tended_balanced s rest).perform ⟨h, .refl⟩ fun _ _ _ he =>
    ⟨h.createFrom he, .single (.createFrom he)⟩

/-! ### Dropping a tree -/

section Drop

omit [Payload β]

/-- Dropping a slot releases the entry that counts the block in it, if there is one. -/
theorem releaseSlot_eq (c : Catalogue β) (slot : Slot β) :
    releaseSlot c slot = (slot.node.bind Node.countedBy?).elim c c.release := by
  unfold releaseSlot
  cases slot.node with
  | none => rfl
  | some node => exact (Node.elim_countedBy? node c c.release).symm

/-- Dropping a slot takes one off the count of that entry and leaves the others alone. -/
theorem instances_releaseSlot (c : Catalogue β) (slot : Slot β) (ref : EntryRef) :
    (releaseSlot c slot).instances ref =
      c.instances ref - if slot.node.bind Node.countedBy? = some ref then 1 else 0 := by
  rw [releaseSlot_eq, Catalogue.instances_elim_release]

/-- Each slot that is gone through takes one block off the entry that counts its block. -/
theorem instances_releaseSlots (slots : List (Slot β)) (c : Catalogue β) (ref : EntryRef) :
    (slots.foldl releaseSlot c).instances ref = c.instances ref -
      slots.countP fun slot => decide (slot.node.bind Node.countedBy? = some ref) := by
  induction slots generalizing c with
  | nil => rfl
  | cons slot rest ih =>
    rw [List.foldl_cons, ih, instances_releaseSlot, List.countP_cons, Nat.sub_sub, Nat.add_comm]
    simp only [decide_eq_true_eq]

/-- When a tree is dropped, what its entries count is what they counted outside of it. -/
theorem Balanced.dropTree (h : Balanced rest s) (ref : EntryRef) :
    (dropTree s.catalogue s.tree).instances ref = rest ref := by
  rw [Site.dropTree, instances_releaseSlots, ← Tree.headcount_eq_countP, h.count]
  omega

/-- While a tree is dropped no entry gets a block back that it does not count. -/
theorem Balanced.pos_of_split (h : Balanced rest s) {before after : List (Slot β)}
    {slot : Slot β} (hslots : s.tree.slots.toList = before ++ slot :: after) {ref : EntryRef}
    (hc : slot.node.bind Node.countedBy? = some ref) :
    0 < (before.foldl releaseSlot s.catalogue).instances ref := by
  have hcount := h.count ref
  rw [Tree.headcount_eq_countP, hslots, List.countP_append, List.countP_cons,
    if_pos (decide_eq_true hc)] at hcount
  rw [instances_releaseSlots]
  omega

/-- Dropping a tree changes counts alone, by induction on its slots. -/
theorem recounted_dropTree (c : Catalogue β) (t : Tree β) :
    Catalogue.Recounted c (dropTree c t) := by
  unfold Site.dropTree
  generalize t.slots.toList = slots
  induction slots generalizing c with
  | nil => exact .refl c
  | cons slot rest ih =>
    refine .trans ?_ (ih _)
    rw [releaseSlot_eq]
    cases slot.node.bind Node.countedBy? with
    | none => exact .refl c
    | some ref => exact Catalogue.recounted_release c ref

end Drop

end Site

end BlockForest
