import Mathlib
import BlockForest.Proofs.FailedInflate
import BlockForest.Proofs.DestroyEventOrder

/-!
# What is shown when a block has left its library

A block leaves its library in two ways. `unlink` clears the links of the block first and then
announces it as removed, so the tree that is shown has neither library nor index for it. A child
of a library that is being deleted goes by `dropLinks`, which announces it first: it is shown in
its place, and its library carries the mark.

`Site.Removes` follows what is shown with each block that is announced as removed. In any tree,
however its links are, it is one of the two. Where a subtree can be walked down, all blocks below
its root go in the second way.
-/

set_option autoImplicit false

namespace BlockForest

variable {β : Type}

namespace Tree

/-- The block has neither library nor index. -/
def Parted (t : Tree β) (block : BlockId) : Prop :=
  t.parent? block = none ∧ t.index? block = none

/-- The block belongs to a library that is being deleted. -/
def Torn (t : Tree β) (block : BlockId) : Prop :=
  ∃ library, t.parent? block = some library ∧ t.isBeingDeleted library

/-- A block that belongs to a library has not lost its links. -/
theorem Torn.not_parted {t : Tree β} {block : BlockId} (h : t.Torn block) : ¬ t.Parted block := by
  obtain ⟨library, hp, -⟩ := h
  rintro ⟨hnone, -⟩
  rw [hp] at hnone
  cases hnone

end Tree

namespace Site

variable {s s' s'' : Site β} {id library block : BlockId} {R R' : BlockId → Tree β → Prop}

/-- Between the two sites each block that was announced as removed was shown in this way. -/
def Removes (R : BlockId → Tree β → Prop) (s s' : Site β) : Prop :=
  Tells (fun notice => ∀ block, notice.event = .removed block → R block notice.shown) s s'

namespace Removes

/-- Where nothing is sent nothing is shown. -/
theorem refl (R : BlockId → Tree β → Prop) (s : Site β) : Removes R s s := Tells.refl _ s

/-- What is shown in two steps is shown as each of them shows it. -/
theorem trans (h : Removes R s s') (h' : Removes R s' s'') : Removes R s s'' := Tells.trans h h'

/-- A requirement on what is shown may be replaced by a weaker one. -/
theorem mono (h : Removes R s s') (hr : ∀ block t, R block t → R' block t) : Removes R' s s' :=
  Tells.mono h fun notice hall block he => hr block notice.shown (hall block he)

/-- A step that sends nothing shows nothing. -/
theorem of_silent (R : BlockId → Tree β → Prop) (h : s'.notices = s.notices) : Removes R s s' :=
  Tells.of_silent _ h

/-- Something else is announced. -/
theorem notify (s : Site β) {event : TreeEvent} (he : event.removes? = none) :
    Removes R s (s.notify event) := by
  refine Tells.notify s fun block heq => ?_
  have heq : event = .removed block := heq
  rw [heq] at he
  cases he

/-- Numbering blocks announces no removal. -/
theorem number (s : Site β) (start : Nat) (blocks : List BlockId) :
    Removes R s (number s start blocks) := Tells.number (fun _ _ _ _ => nofun) s start blocks

/-- Setting an index announces no removal. -/
theorem setIndex (s : Site β) (block : BlockId) (index : Option Nat) :
    Removes R s (s.setIndex block index) := Tells.setIndex (fun _ _ _ _ => nofun) s block index

/-- Setting a parent announces nothing at all. -/
theorem setParent (s : Site β) (block : BlockId) (parent : Option BlockId) :
    Removes R s (s.setParent block parent) := of_silent R rfl

/-- Changing a list of children announces nothing at all. -/
theorem modifyChildren (s : Site β) (library : BlockId) (f : List BlockId → List BlockId) :
    Removes R s (s.modifyChildren library f) := of_silent R rfl

end Removes

/-! ### A library that goes on -/

/-- A block whose index and parent are cleared has left its library, as the tree shows it. -/
theorem parted_released (s : Site β) (block : BlockId) :
    ((s.setIndex block none).setParent block none).tree.Parted block := by
  constructor
  · unfold Tree.parent?
    rw [node?_setParent]
    cases (s.setIndex block none).tree.node? block <;> simp
  · rw [index?_setParent]
    unfold Tree.index?
    rw [node?_setIndex]
    cases s.tree.node? block <;> simp

/-- When a block is taken off its library, what stands below it is announced as well. The links of
the block are cleared before that. -/
theorem removes_unlink (s : Site β) (library block : BlockId) (index : Nat) :
    Removes (fun other t => t.Parted block ∧ other ∈ t.descendants block ∧
      ∀ id, id ≠ library → t.children id = s.tree.children id) s (s.unlink library block index) := by
  unfold unlink
  refine .trans ?_ (.notify _ rfl)
  refine .trans ?_ (Tells.notifySubtree _ block fun other hother id he => ?_)
  · refine .trans ?_ (.setParent _ block none)
    refine .trans ?_ (.setIndex _ block none)
    refine .trans ?_ (.number _ _ _)
    refine .trans ?_ (.modifyChildren _ library _)
    exact .notify s rfl
  · cases he
    refine ⟨parted_released _ block, hother, fun id hid => ?_⟩
    rw [children_setParent, children_setIndex, children_reindex, children_modifyChildren,
      if_neg fun h => hid h.1, tree_notify]

/-- A removal shows the block without links. The blocks below it are announced as well and keep
theirs. -/
theorem removes_remove (s : Site β) (library block : BlockId) :
    Removes (fun other t => other = block → t.Parted other) s (s.remove library block).2 := by
  unfold remove
  split
  · refine (removes_unlink s library block _).mono fun other t hshown heq => ?_
    rw [heq]
    exact hshown.1
  · exact .refl _ s

/-- If nobody is below the block, it is the only one that is announced. -/
theorem removes_remove_of_childless (library : BlockId) (hc : s.tree.children block = []) :
    Removes (fun other t => other = block ∧ t.Parted other) s (s.remove library block).2 := by
  unfold remove
  cases hpos : positionOf s.tree library block with
  | error e => exact .refl _ s
  | ok index =>
    have hne : block ≠ library := by
      rintro rfl
      have hmem := List.mem_of_getElem? (getElem?_of_positionOf hpos)
      rw [hc] at hmem
      cases hmem
    refine (removes_unlink s library block index).mono fun other t ⟨hparted, hother, hkids⟩ => ?_
    have hlist := Tree.listing_of_childless ((hkids block hne).trans hc) t.slots.size
    have heq : other = block := by
      unfold Tree.descendants at hother
      split at hother
      · rwa [hlist, List.mem_singleton] at hother
      · cases hother
    exact ⟨heq, heq ▸ hparted⟩

/-! ### A library that is being deleted -/

/-- A block of a library that is being deleted is announced before its links are dropped. -/
theorem removes_dropLinks (h : s.tree.Torn id) :
    Removes (fun other t => other = id ∧ t.Torn other) s (s.dropLinks id) := by
  unfold dropLinks
  refine .trans ?_ (.setParent _ id none)
  refine .trans ?_ (.setIndex _ id none)
  refine Tells.notify s fun block he => ?_
  cases he
  exact ⟨rfl, h⟩

/-- A block that has lost its children leaves its library in one of the two ways. -/
theorem removes_depart (hc : s.tree.children id = []) :
    Removes (fun other t => other = id ∧ (t.Parted other ∨ t.Torn other)) s (s.depart id).2 := by
  have hleft : Removes (fun other t => other = id ∧ (t.Parted other ∨ t.Torn other)) s
      (s.leave id).2 := by
    unfold leave
    split
    · exact .refl _ s
    · next library hp =>
      split
      · next hm =>
        exact (removes_dropLinks ⟨library, hp, hm⟩).mono fun other t hshown =>
          ⟨hshown.1, Or.inr hshown.2⟩
      · exact (removes_remove_of_childless library hc).mono fun other t hshown =>
          ⟨hshown.1, Or.inl hshown.2⟩
  unfold depart
  split
  · next heq =>
    rw [heq] at hleft
    exact hleft
  · next heq =>
    rw [heq] at hleft
    exact hleft.trans (.of_silent _ (notices_surrender _ id))

/-- Condemning a block announces no removal. -/
theorem removes_condemn (s : Site β) (id : BlockId) : Removes R s (s.condemn id) :=
  (Removes.of_silent R rfl).trans (.notify _ rfl)

/-- What holds of every step for a block holds of all blocks of a list. -/
theorem removes_foldl {act : Site β → BlockId → Site β} (hact : ∀ s id, Removes R s (act s id))
    (s : Site β) (ids : List BlockId) : Removes R s (ids.foldl act s) :=
  foldl_preserves (P := Removes R s) (fun s' id hs' => hs'.trans (hact s' id)) (.refl R s) ids

/-- Clearing a library shows what destroying its children shows. -/
theorem removes_clearWith {destroyChild : Site β → BlockId → Except TreeError Unit × Site β}
    (hdown : ∀ s id, Removes R s (destroyChild s id).2) (s : Site β) (library : BlockId) :
    Removes R s (clearWith destroyChild s library).2 := by
  unfold clearWith
  split
  · exact .refl R s
  · exact .refl R s
  · refine .trans ?_ (.notify _ rfl)
    refine .trans ?_ (.modifyChildren _ library _)
    exact (Removes.notify s rfl).trans (removes_foldl hdown _ _)

/-- An emptied list has no children. -/
theorem children_emptied (s : Site β) (id : BlockId) :
    (s.modifyChildren id fun _ => []).tree.children id = [] := by
  rw [children_modifyChildren]
  split
  · rfl
  · next hnot =>
    refine List.eq_nil_iff_forall_not_mem.mpr fun kid hkid => hnot ⟨rfl, ?_⟩
    exact Tree.isLibrary_of_mem_children hkid

/-- Whatever becomes of its children, a block that is done with them has none. -/
theorem children_hollow (levels : Nat) (s : Site β) (id : BlockId) :
    (hollow levels s id).2.tree.children id = [] := by
  cases hc : s.tree.children id with
  | nil =>
    rw [hollow_of_childless hc, children_condemn, hc]
  | cons kid kids =>
    rw [hollow_of_children hc, tree_notify, children_emptied]

/-- Whatever the links of a tree are like, each block that is destroyed leaves its library in one
of the two ways. -/
theorem removes_destroyTo (levels : Nat) (s : Site β) (id : BlockId) :
    Removes (fun other t => t.Parted other ∨ t.Torn other) s (destroyTo levels s id).2 := by
  induction levels generalizing s id with
  | zero => exact .refl _ s
  | succ levels ih =>
    have hhollow : Removes (fun other t => t.Parted other ∨ t.Torn other) s
        (hollow levels s id).2 := by
      unfold hollow
      split
      · exact (removes_condemn s id).trans (removes_clearWith ih _ id)
      · exact removes_condemn s id
    rw [destroyTo_succ]
    split
    · exact .refl _ s
    · split
      · next heq =>
        rw [heq] at hhollow
        exact hhollow
      · next heq =>
        have hc := children_hollow levels s id
        rw [heq] at hhollow hc
        exact hhollow.trans ((removes_depart hc).mono fun _ _ hshown => hshown.2)

/-! ### Subtrees that can be walked down -/

/-- While a block that can be taken off at once is destroyed, each block that leaves its library
leaves one that is being deleted. -/
def Tears (β : Type) (levels : Nat) : Prop :=
  ∀ (s : Site β) (id : BlockId), s.tree.Upright levels id → Loose s.tree levels id →
    Removes (fun other t => other ∈ s.tree.listing levels id ∧ t.Torn other) s
      (destroyTo (levels + 1) s id).2

/-- The children of a library that is being deleted are shown with their library, one after the
other, and so is all that is below them. -/
theorem removes_doomed {levels : Nat} (hdown : Tears β levels) {kids : List BlockId}
    (h : Doomed s.tree levels library kids) :
    Removes (fun other t => other ∈ kids.flatMap (s.tree.listing levels) ∧ t.Torn other) s
      (kids.foldl (fun s kid => (destroyTo (levels + 1) s kid).2) s) := by
  induction kids generalizing s with
  | nil => exact .refl _ s
  | cons kid rest ih =>
    have hkid := h.upright kid List.mem_cons_self
    have hrazed := razes levels s kid hkid h.loose
    have hfirst := hdown s kid hkid h.loose
    rw [List.foldl_cons, List.flatMap_cons]
    generalize (destroyTo (levels + 1) s kid).2 = s₁ at hrazed hfirst ⊢
    have hlist : rest.flatMap (s₁.tree.listing levels) = rest.flatMap (s.tree.listing levels) :=
      List.flatMap_congr fun other ho => Tree.listing_eq_of_node?_eq fun _ => h.node?_eq hrazed ho
    have hrest := ih (h.tail hrazed)
    rw [hlist] at hrest
    exact (hfirst.mono fun _ _ hshown => ⟨List.mem_append_left _ hshown.1, hshown.2⟩).trans
      (hrest.mono fun _ _ hshown => ⟨List.mem_append_right _ hshown.1, hshown.2⟩)

/-- In the first half of a destruction all blocks below the root are shown with their libraries. -/
theorem removes_hollow {levels : Nat} (hdown : ∀ k, levels = k + 1 → Tears β k)
    (hu : s.tree.Upright levels id) :
    Removes (fun other t => other ∈ s.tree.under levels id ∧ t.Torn other) s
      (hollow levels s id).2 := by
  cases hc : s.tree.children id with
  | nil =>
    rw [hollow_of_childless hc]
    exact removes_condemn s id
  | cons kid kids =>
    obtain ⟨k, rfl⟩ : ∃ k, levels = k + 1 := by
      cases levels with
      | zero =>
        have hnil : s.tree.children id = [] := hu.within
        rw [hnil] at hc
        cases hc
      | succ k => exact ⟨k, rfl⟩
    obtain ⟨hkeep, hdoomed⟩ := doomed_children hu
    have hbelow : (s.tree.children id).flatMap
        (((s.condemn id).notify (.clearing id)).tree.listing k) = s.tree.under (k + 1) id := by
      refine List.flatMap_congr fun other ho => Tree.listing_eq_of_node?_eq fun x hx => ?_
      exact hkeep x (List.mem_flatMap.mpr ⟨other, ho, hx⟩)
    have hfold := removes_doomed (hdown k rfl) hdoomed
    rw [hbelow, hc] at hfold
    rw [hollow_of_children hc]
    refine .trans ?_ (.notify _ rfl)
    refine .trans ?_ (.modifyChildren _ id _)
    exact (removes_condemn s id).trans ((Removes.notify _ rfl).trans hfold)

/-- When the subtree of a block is gone, the library that it belongs to is as it was. -/
theorem Hollowed.torn {levels : Nat} (h : Hollowed s s' id (s.tree.under levels id))
    (hl : Loose s.tree levels id) : s'.tree.parent? id = none ∨ s'.tree.Torn id := by
  rcases hl with ⟨hnone, -⟩ | ⟨library, hp, hm, hout⟩
  · exact Or.inl (h.parent?_root.trans hnone)
  · refine Or.inr ⟨library, h.parent?_root.trans hp, ?_⟩
    rwa [Tree.isBeingDeleted_eq_of_node?_eq (h.node?_of_not_mem hout)]

/-- The second half shows a block with its library if that is being deleted, and shows nothing of it
if it has none. -/
theorem removes_depart_of_torn (h : s.tree.parent? id = none ∨ s.tree.Torn id) :
    Removes (fun other t => other = id ∧ t.Torn other) s (s.depart id).2 := by
  rcases h with hp | htorn
  · have hleave : s.leave id = (.ok (), s) := by simp [leave, hp]
    rw [depart_eq_surrender (by rw [hleave]), hleave]
    exact .of_silent _ (notices_surrender s id)
  · obtain ⟨library, hp, hm⟩ := htorn
    have hleave : s.leave id = (.ok (), s.dropLinks id) := by simp [leave, hp, hm]
    rw [depart_eq_surrender (by rw [hleave]), hleave]
    exact (removes_dropLinks ⟨library, hp, hm⟩).trans (.of_silent _ (notices_surrender _ id))

/-- By induction on the levels, every block of a subtree below a deleted library is shown with its
library. -/
theorem tears (levels : Nat) : Tears β levels := by
  induction levels using Nat.strong_induction_on with
  | _ levels ih =>
    intro s id hu hl
    have hid := hu.alive id (Tree.mem_listing_self _ _)
    obtain ⟨hok, hhollow⟩ := hollow_spec (fun k _ => razes k) hu
    have hbelow := removes_hollow (fun k hk => ih k (by omega)) hu
    rw [destroyTo_eq_depart hid hok]
    refine .trans (hbelow.mono fun _ _ hshown => ⟨Tree.mem_listing_of_under hshown.1, hshown.2⟩) ?_
    refine (removes_depart_of_torn (hhollow.torn hl)).mono fun other _ hshown => ?_
    exact ⟨hshown.1 ▸ Tree.mem_listing_self _ _, hshown.2⟩

/-! ### Trees that are forests -/

/-- A block that leaves a library which goes on is shown without links. -/
theorem removes_depart_of_unmarked (hc : s.tree.children id = [])
    (h : ∀ library, s.tree.parent? id = some library → ¬ s.tree.isBeingDeleted library) :
    Removes (fun other t => other = id ∧ t.Parted other) s (s.depart id).2 := by
  have hleft : Removes (fun other t => other = id ∧ t.Parted other) s (s.leave id).2 := by
    unfold leave
    split
    · exact .refl _ s
    · next library hp =>
      rw [if_neg (h library hp)]
      exact removes_remove_of_childless library hc
  unfold depart
  split
  · next heq =>
    rw [heq] at hleft
    exact hleft
  · next heq =>
    rw [heq] at hleft
    exact hleft.trans (.of_silent _ (notices_surrender _ id))

/-- A block that is destroyed in a library that goes on is announced when it has left, and what is
below it before that. -/
theorem removes_destroyTo_of_forest {levels : Nat} (h : s.tree.Forest) (hid : s.tree.contains id)
    (hlevels : s.tree.slots.size = levels)
    (hlib : ∀ library, s.tree.parent? id = some library → ¬ s.tree.isBeingDeleted library) :
    Removes (fun other t => other = id ∧ t.Parted other ∨
      other ∈ s.tree.under levels id ∧ t.Torn other) s (destroyTo (levels + 1) s id).2 := by
  have hu : s.tree.Upright levels id := hlevels ▸ h.upright hid
  obtain ⟨hok, hhollow⟩ := hollow_spec (fun k _ => razes k) hu
  have hbelow := removes_hollow (fun k _ => tears k) hu
  have hc := children_hollow levels s id
  rw [destroyTo_eq_depart hid hok]
  generalize (hollow levels s id).2 = s₁ at hhollow hbelow hc ⊢
  have hlib₁ : ∀ library, s₁.tree.parent? id = some library →
      ¬ s₁.tree.isBeingDeleted library := by
    intro library hp
    rw [hhollow.parent?_root] at hp
    have hout : library ∉ s.tree.listing levels id := fun hin =>
      h.root_not_mem_children hin (h.mem_children_iff.mpr hp)
    rw [Tree.isBeingDeleted_eq_of_node?_eq (hhollow.node?_of_not_mem hout)]
    exact hlib library hp
  exact (hbelow.mono fun _ _ hshown => Or.inr hshown).trans
    ((removes_depart_of_unmarked hc hlib₁).mono fun _ _ hshown => Or.inl hshown)

/-- The children of a library that goes on leave it one by one, and what is below them before
that. -/
theorem removes_destroy_children {levels : Nat} (kids : List BlockId) (h : s.tree.Sound)
    (hlevels : s.tree.slots.size = levels) (hkids : s.tree.children library = kids) :
    Removes (fun other t => other ∈ kids ∧ t.Parted other ∨
        other ∈ kids.flatMap (s.tree.under levels) ∧ t.Torn other) s
      (kids.foldl (fun s kid => (destroyTo (levels + 1) s kid).2) s) := by
  induction kids generalizing s with
  | nil => exact .refl _ s
  | cons kid rest ih =>
    have hf := h.forest
    have hmem : kid ∈ s.tree.children library := hkids ▸ List.mem_cons_self
    have hp := hf.mem_children_iff.mp hmem
    have hkid := Tree.contains_of_parent? hp
    have hfirst := removes_destroyTo_of_forest hf hkid hlevels fun other ho => by
      rw [hp, Option.some.injEq] at ho
      exact ho ▸ (h.not_marked_of_mem hmem).1
    have hplucked := plucked_of_sound h hkid hlevels
    have hsound := sound_destroyTo h hkid hlevels
    obtain ⟨hlist, hlistings⟩ := hplucked.rest hf hkids hlevels
    rw [List.foldl_cons]
    generalize (destroyTo (levels + 1) s kid).2 = s₁ at hplucked hsound hlist hlistings hfirst ⊢
    have hrest : ∀ other ∈ rest, s₁.tree.under levels other = s.tree.under levels other :=
      fun other ho => congrArg List.tail (hlistings other ho)
    have hnext := ih hsound (hplucked.slots.trans hlevels) hlist
    rw [List.flatMap_congr hrest] at hnext
    refine (hfirst.mono fun other t hshown => ?_).trans (hnext.mono fun other t hshown => ?_)
    · rw [List.flatMap_cons, List.mem_append]
      rcases hshown with ⟨rfl, hparted⟩ | ⟨hin, htorn⟩
      · exact Or.inl ⟨List.mem_cons_self, hparted⟩
      · exact Or.inr ⟨Or.inl hin, htorn⟩
    · rw [List.flatMap_cons, List.mem_append]
      exact hshown.imp (And.imp_left (List.mem_cons_of_mem _)) (And.imp_left Or.inr)

/-- In a sound tree exactly the children of the library that is cleared are announced when they
have left. -/
theorem removes_clear (h : s.tree.Sound) (library : BlockId) :
    Removes (fun other t => other ∈ s.tree.children library ∧ t.Parted other ∨
      other ∉ s.tree.children library ∧ t.Torn other) s (s.clear library).2 := by
  unfold clear clearWith
  split
  · exact .refl _ s
  · exact .refl _ s
  · next kid rest hreq =>
    obtain ⟨-, hkids⟩ := requireLibrary_eq_ok_iff.mp hreq
    refine .trans ?_ (.notify _ rfl)
    refine .trans ?_ (.modifyChildren _ library _)
    have hfold := removes_destroy_children (s := s.notify (.clearing library)) (kid :: rest)
      (sound_notify h _) rfl (by rw [tree_notify, hkids])
    rw [tree_notify] at hfold
    refine (Removes.notify s rfl).trans (hfold.mono fun other t hshown => ?_)
    rw [hkids]
    refine hshown.imp_right fun ⟨hin, htorn⟩ => ⟨fun hother => ?_, htorn⟩
    -- A block below a child belongs to that child or to one below it, and not to the library.
    obtain ⟨child, hchild, hunder⟩ := List.mem_flatMap.mp hin
    obtain ⟨upper, hupper, hmem⟩ := Tree.mem_children_of_mem_under hunder
    have hsame := h.forest.mem_children_iff.mp hmem
    rw [h.forest.mem_children_iff.mp (hkids ▸ hother), Option.some.injEq] at hsame
    exact h.forest.root_not_mem_children (hsame ▸ hupper) (hkids ▸ hchild)

/-- In a sound tree only the block that is destroyed is announced when it has left. -/
theorem removes_destroy (h : s.tree.Sound) (id : BlockId) :
    Removes (fun other t => other = id ∧ t.Parted other ∨ other ≠ id ∧ t.Torn other) s
      (s.destroy id).2 := by
  by_cases hid : s.tree.contains id
  · refine (removes_destroyTo_of_forest h.forest hid rfl fun library hp =>
      (h.not_marked_of_mem (h.forest.mem_children_iff.mpr hp)).1).mono fun other t hshown => ?_
    refine hshown.imp_right (And.imp_left fun hin heq => ?_)
    exact (h.forest.upright hid).not_mem_under (heq ▸ hin)
  · rw [destroy_of_stale hid]
    exact .refl _ s

/-! ### Moving blocks -/

/-- Detaching shows the block without links, or nothing. -/
theorem removes_detach (s : Site β) (block : BlockId) :
    Removes (fun other t => other = block → t.Parted other) s (s.detach block).2 := by
  unfold detach
  split
  · exact .refl _ s
  · split
    · exact removes_remove s _ block
    · exact .refl _ s

/-- Nobody is announced as removed when a block enters a library. -/
theorem removes_attach (s : Site β) (library block : BlockId) (index : Nat) :
    Removes R s (s.attach library block index) := by
  unfold attach
  refine .trans ?_ (.notify _ rfl)
  refine .trans ?_ (Tells.notifySubtree _ block fun _ _ _ => nofun)
  refine .trans ?_ (.number _ _ _)
  refine .trans ?_ (.setParent _ block _)
  exact (Removes.notify s rfl).trans (.modifyChildren _ library _)

variable [Payload β]

/-- An insertion announces no removal. -/
theorem removes_insert (s : Site β) (library block : BlockId) (index : Nat) :
    Removes R s (s.insert library block index).2 := by
  unfold insert
  split
  · exact removes_attach s library block index
  · exact .refl R s

/-- To reparent a block shows it without links when it leaves its old library. -/
theorem removes_reparentAt (s : Site β) (block library : BlockId) (index : Nat) :
    Removes (fun other t => other = block → t.Parted other) s
      (s.reparentAt block library index).2 := by
  unfold reparentAt
  split
  · exact .refl _ s
  · exact removes_insert s library block index
  · next old _ =>
    have hremoved := removes_remove s old block
    split
    · next heq =>
      rw [heq] at hremoved
      exact hremoved.trans (removes_insert _ library block index)
    · next heq =>
      rw [heq] at hremoved
      exact hremoved

/-- To reparent a block to the end does the same. -/
theorem removes_reparent (s : Site β) (block library : BlockId) :
    Removes (fun other t => other = block → t.Parted other) s (s.reparent block library).2 := by
  unfold reparent
  split
  · exact .refl _ s
  · exact removes_reparentAt s block library _

end Site

/-! ### Blocks of a stream that are given up -/

namespace Inflate

open Site

variable [Payload β] {s s' : Site β}

omit [Payload β] in
/-- A block that is given up belongs to no library, and what is below it leaves it while it is
being deleted. -/
theorem removes_discard {levels : Nat} {id : BlockId} (h : Sprouted s s' levels id) :
    Removes (fun other t => t.Torn other) s' (s'.destroy id).2 :=
  (tears _ s' id h.upright.full.1 (Or.inl h.detached)).mono fun _ _ hshown => hshown.2

/-- Whoever is removed while blocks are read leaves a library that is being deleted. -/
theorem steps_removes : Steps (Removes fun other (t : Tree β) => t.Torn other) where
  refl := .refl _
  trans := .trans
  createFrom _ _ _ := .of_silent _ rfl
  setPayload _ _ _ := .of_silent _ rfl
  attach _ := removes_attach _ _ _ _
  discard := removes_discard

end Inflate

namespace Site

variable [Payload β] {s : Site β} {block : BlockId}

/-- A stream takes no block out of a library but out of one that is given up. -/
theorem removes_inflate {σ : Type} [ByteSource σ] (ho : s.tree.Orderly) (settings : Settings)
    (source : σ) (monitor : Monitor) : Removes (fun other t => t.Torn other) s
      (inflate settings s source monitor).2.site :=
  Inflate.steps_removes.inflate ho settings source monitor

/-! ### Operations -/

/-- Whether an operation takes a block out of its own library if it announces it as removed. What
stands below a block that is removed or moved is announced as well, but stays where it is. -/
def Op.takes : Op β → BlockId → Prop
  | .remove _ target, block => block = target
  | .detach target, block => block = target
  | .reparent target _, block => block = target
  | .reparentAt target _ _, block => block = target
  | .destroy _, _ => True
  | .clear _, _ => True
  | @Op.inflate _ _ _ _ _ _, _ => True
  | _, _ => False

/-- Whether an operation takes a block out of a library that goes on. -/
def Op.releases (t : Tree β) : Op β → BlockId → Prop
  | .destroy id, block => block = id
  | .clear library, block => block ∈ t.children library
  | @Op.inflate _ _ _ _ _ _, _ => False
  | _, _ => True

/-- Whatever marks are set, a block that is taken out of its library is shown in one of the two
ways. -/
theorem removes_perform (ho : s.tree.Orderly) (op : Op β) (htakes : op.takes block) :
    Removes (fun other t => op.takes other → t.Parted other ∨ t.Torn other) s (s.perform op) := by
  cases op with
  | remove library target =>
    exact (removes_remove s library target).mono fun _ _ hshown heq => Or.inl (hshown heq)
  | detach target =>
    exact (removes_detach s target).mono fun _ _ hshown heq => Or.inl (hshown heq)
  | reparent target library =>
    exact (removes_reparent s target library).mono fun _ _ hshown heq => Or.inl (hshown heq)
  | reparentAt target library index =>
    exact (removes_reparentAt s target library index).mono fun _ _ hshown heq =>
      Or.inl (hshown heq)
  | destroy id => exact (removes_destroyTo _ s id).mono fun _ _ hshown _ => hshown
  | clear library =>
    exact (removes_clearWith (fun s id => removes_destroyTo _ s id) s library).mono
      fun _ _ hshown _ => hshown
  | inflate settings source monitor =>
    exact (removes_inflate ho settings source monitor).mono fun _ _ hshown _ => Or.inr hshown
  | _ => exact htakes.elim

/-- In a sound tree the operation and the block decide which of the two it is. -/
theorem removes_perform_of_sound (h : s.tree.Sound) (op : Op β) (htakes : op.takes block) :
    Removes (fun other t => op.takes other →
      op.releases s.tree other ∧ t.Parted other ∨ ¬ op.releases s.tree other ∧ t.Torn other)
      s (s.perform op) := by
  cases op with
  | remove library target =>
    exact (removes_remove s library target).mono fun _ _ hshown heq =>
      Or.inl ⟨trivial, hshown heq⟩
  | detach target =>
    exact (removes_detach s target).mono fun _ _ hshown heq => Or.inl ⟨trivial, hshown heq⟩
  | reparent target library =>
    exact (removes_reparent s target library).mono fun _ _ hshown heq =>
      Or.inl ⟨trivial, hshown heq⟩
  | reparentAt target library index =>
    exact (removes_reparentAt s target library index).mono fun _ _ hshown heq =>
      Or.inl ⟨trivial, hshown heq⟩
  | destroy id => exact (removes_destroy h id).mono fun _ _ hshown _ => hshown
  | clear library => exact (removes_clear h library).mono fun _ _ hshown _ => hshown
  | inflate settings source monitor =>
    exact (removes_inflate h.orderly settings source monitor).mono fun _ _ hshown _ =>
      Or.inr ⟨not_false, hshown⟩
  | _ => exact htakes.elim

/-- In every site that is reached: a block that an operation takes out of its library is announced
as removed with neither library nor index, unless the library that is shown for it is being
deleted. Where no marks are set by hand, that is to say: unless it stands below a block that is
destroyed or given up, or below a child of a library that is cleared. -/
theorem parted_of_removed (h : Reached Any s) (op : Op β) {sent : List (Notice β)}
    (hsent : Sends s (s.perform op) sent) {notice : Notice β} (hmem : notice ∈ sent)
    (hevent : notice.event = .removed block) (htakes : op.takes block) :
    let parted := notice.shown.parent? block = none ∧ notice.shown.index? block = none
    (parted ↔ ∀ library, notice.shown.parent? block = some library →
      ¬ notice.shown.isBeingDeleted library) ∧
    (Reached Guarded s → (parted ↔ op.releases s.tree block)) := by
  intro parted
  have hshown : ∀ {R : BlockId → Tree β → Prop}, Removes R s (s.perform op) →
      R block notice.shown := by
    rintro R ⟨sent', hsent', hall⟩
    have heq : sent' = sent := List.append_cancel_left (hsent'.symm.trans hsent)
    exact hall notice (heq ▸ hmem) block hevent
  constructor
  · rcases hshown (removes_perform h.orderly op htakes) htakes with hparted | htorn
    · refine ⟨fun _ library hp => ?_, fun _ => hparted⟩
      rw [hparted.1] at hp
      cases hp
    · obtain ⟨library, hp, hm⟩ := htorn
      exact ⟨fun hparted => absurd hparted (Tree.Torn.not_parted ⟨library, hp, hm⟩),
        fun hall => absurd hm (hall library hp)⟩
  · intro hguarded
    rcases hshown (removes_perform_of_sound hguarded.sound op htakes) htakes with
      ⟨hreleased, hparted⟩ | ⟨hkept, htorn⟩
    · exact ⟨fun _ => hreleased, fun _ => hparted⟩
    · exact ⟨fun hparted => absurd hparted htorn.not_parted,
        fun hreleased => absurd hreleased hkept⟩

omit [Payload β] in
/-- If nothing has been sent before, everything is new. -/
theorem sends_of_quiet {s' : Site β} (h : s.notices.toList = []) :
    Sends s s' s'.notices.toList := by
  rw [Sends, h, List.nil_append]

/-- A library is cleared. The folder in it has left when it is announced as removed, and the leaf
in the folder has not. -/
theorem parted_of_removed_folder :
    let s : Site Stock := ((((((start 0).perform (.insertSystem .library)).perform
      (.insertSystem (.folder ⟨"", false⟩))).perform (.insertSystem (.leaf ⟨""⟩))).perform
        (.add ⟨0, 0⟩ ⟨1, 0⟩)).perform (.add ⟨1, 0⟩ ⟨2, 0⟩)).perform .subscribe
    ∃ sent leaf folder, Sends s (s.perform (.clear ⟨0, 0⟩)) sent ∧ leaf ∈ sent ∧ folder ∈ sent ∧
      leaf.event = .removed ⟨2, 0⟩ ∧ folder.event = .removed ⟨1, 0⟩ ∧
      leaf.shown.parent? ⟨2, 0⟩ ≠ none ∧
      folder.shown.parent? ⟨1, 0⟩ = none ∧ folder.shown.index? ⟨1, 0⟩ = none := by
  intro s
  have hreached : Reached Guarded s :=
    .perform (.perform (.perform (.perform (.perform (.perform (.start 0) trivial) trivial)
      trivial) trivial) trivial) trivial
  have hany : Reached Any s := hreached.mono fun _ _ _ => trivial
  have hsent : Sends s (s.perform (.clear ⟨0, 0⟩)) _ := sends_of_quiet rfl
  obtain ⟨leaf, hleaf, hremoved⟩ : ∃ leaf ∈ (s.perform (.clear ⟨0, 0⟩)).notices.toList,
      leaf.event = .removed ⟨2, 0⟩ := by decide
  obtain ⟨folder, hfolder, hremoved'⟩ : ∃ folder ∈ (s.perform (.clear ⟨0, 0⟩)).notices.toList,
      folder.event = .removed ⟨1, 0⟩ := by decide
  have hparted := ((parted_of_removed hany (.clear ⟨0, 0⟩) hsent hfolder hremoved' trivial).2
    hreached).mpr (show (⟨1, 0⟩ : BlockId) ∈ s.tree.children ⟨0, 0⟩ by decide)
  refine ⟨_, leaf, folder, hsent, hleaf, hfolder, hremoved, hremoved', fun hnone => ?_, hparted⟩
  obtain ⟨hkept, hreleased⟩ := parted_of_removed hany (.clear ⟨0, 0⟩) hsent hleaf hremoved trivial
  have hin := (hreleased hreached).mp (hkept.mpr fun library hp => by rw [hnone] at hp; cases hp)
  exact absurd hin (show (⟨2, 0⟩ : BlockId) ∉ s.tree.children ⟨0, 0⟩ by decide)

/-- The leaf of a library that is destroyed is announced as removed while it still has its library
and its index. -/
theorem not_parted_of_removed :
    ∃ s : Site Stock, Reached Any s ∧
      ∃ sent, Sends s (s.perform (.destroy ⟨0, 0⟩)) sent ∧
        ∃ notice ∈ sent, notice.event = .removed ⟨1, 0⟩ ∧
          notice.shown.parent? ⟨1, 0⟩ = some ⟨0, 0⟩ ∧ notice.shown.index? ⟨1, 0⟩ = some 0 := by
  refine ⟨((((start 0).perform (.insertSystem .library)).perform
    (.insertSystem (.leaf ⟨""⟩))).perform (.add ⟨0, 0⟩ ⟨1, 0⟩)).perform .subscribe,
    .perform (.perform (.perform (.perform (.start 0) trivial) trivial) trivial) trivial,
    _, sends_of_quiet rfl, by decide⟩

end Site

end BlockForest
