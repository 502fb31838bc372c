import Mathlib
import BlockForest.Proofs.AnnouncedCalls

/-!
# Freezing

`freeze` walks down from a block and turns back at every block that is in the wanted state
already. The blocks it gets to are `Tree.strays`: on the way down to them, both ends included,
everybody is in the other state. One call comes to changing the strays one after the other
(`Site.freezeTo_eq`), so what it does to the blocks and what it tells the observers is read off
that list.

The call therefore does not reach everything below the block. It leaves the whole subtree in the
wanted state if and only if those who are in this state before have nobody below them who is
not.
-/

set_option autoImplicit false

namespace BlockForest

variable {β : Type}

namespace Tree

variable {t t' : Tree β} {frozen : Bool}

/-- The blocks in the other state that the walk down gets to, each before its own descendants.
The walk turns back at a block that is in the wanted state. -/
def strays (t : Tree β) (frozen : Bool) : Nat → BlockId → List BlockId
  | 0, id => if t.isFrozen id = frozen then [] else [id]
  | levels + 1, id =>
    if t.isFrozen id = frozen then []
    else id :: (t.children id).flatMap (t.strays frozen levels)

/-- Whether a live block is frozen is one of its fields. -/
theorem isFrozen_of_node? {id : BlockId} {node : Node β} (h : t.node? id = some node) :
    t.isFrozen id = node.frozen := by
  simp [isFrozen, h]

/-- The walk turns back at once at a block that is in the wanted state. -/
theorem strays_of_settled {id : BlockId} (h : t.isFrozen id = frozen) (levels : Nat) :
    t.strays frozen levels id = [] := by
  cases levels <;> simp [strays, h]

/-- A block in the other state is a stray, and so are the strays below its children. -/
theorem strays_succ {id : BlockId} (h : t.isFrozen id ≠ frozen) (levels : Nat) :
    t.strays frozen (levels + 1) id =
      id :: (t.children id).flatMap (t.strays frozen levels) := by
  rw [strays, if_neg h]

/-- If each block contributes a part of what it contributed before, the whole is a part, too. -/
theorem flatMap_sublist {f g : BlockId → List BlockId} (h : ∀ id, (f id).Sublist (g id))
    (ids : List BlockId) : (ids.flatMap f).Sublist (ids.flatMap g) := by
  induction ids with
  | nil => exact List.Sublist.refl _
  | cons id rest ih =>
    rw [List.flatMap_cons, List.flatMap_cons]
    exact (h id).append ih

/-- The strays of a subtree come in the order of its listing, so none comes twice. -/
theorem strays_sublist (t : Tree β) (frozen : Bool) (levels : Nat) (root : BlockId) :
    (t.strays frozen levels root).Sublist (t.listing levels root) := by
  induction levels generalizing root with
  | zero =>
    unfold strays listing
    split
    · exact List.nil_sublist _
    · exact List.Sublist.refl _
  | succ levels ih =>
    unfold strays
    split
    · exact List.nil_sublist _
    · exact (flatMap_sublist ih _).cons_cons root

/-- Which blocks are strays depends on the blocks of the subtree alone. -/
theorem strays_congr (frozen : Bool) {levels : Nat} {root : BlockId}
    (h : ∀ id ∈ t.listing levels root, t'.node? id = t.node? id) :
    t'.strays frozen levels root = t.strays frozen levels root := by
  have hroot := h root (mem_listing_self levels root)
  have hstate : t'.isFrozen root = t.isFrozen root := by simp only [isFrozen, hroot]
  induction levels generalizing root with
  | zero => rw [strays, strays, hstate]
  | succ levels ih =>
    have hkids : t'.children root = t.children root := by simp only [children, hroot]
    rw [strays, strays, hstate, hkids]
    congr 2
    refine List.flatMap_congr fun kid hkid => ?_
    have hbelow : ∀ id ∈ t.listing levels kid, t'.node? id = t.node? id :=
      fun id hid => h id (mem_listing_child hkid hid)
    have hself := hbelow kid (mem_listing_self levels kid)
    exact ih hbelow hself (by simp only [isFrozen, hself])

/-! ### Who is met -/

/-- A stray is in the other state. -/
theorem isFrozen_of_mem_strays {levels : Nat} {root id : BlockId}
    (hid : id ∈ t.strays frozen levels root) : t.isFrozen id ≠ frozen := by
  induction levels generalizing root with
  | zero =>
    unfold strays at hid
    split at hid
    · cases hid
    · next hroot => rwa [List.mem_singleton.mp hid]
  | succ levels ih =>
    unfold strays at hid
    split at hid
    · cases hid
    · next hroot =>
      rcases List.mem_cons.mp hid with rfl | hbelow
      · exact hroot
      · obtain ⟨kid, -, hid⟩ := List.mem_flatMap.mp hbelow
        exact ih hid

/-- A root in the other state is the first stray. -/
theorem root_mem_strays {root : BlockId} (h : t.isFrozen root ≠ frozen) (levels : Nat) :
    root ∈ t.strays frozen levels root := by
  cases levels <;> simp [strays, h]

/-- The walk gets to the children of a stray who are in the other state. -/
theorem child_mem_strays {levels : Nat} {root id child : BlockId} (hw : t.Within levels root)
    (hid : id ∈ t.strays frozen levels root) (hc : child ∈ t.children id)
    (hstate : t.isFrozen child ≠ frozen) : child ∈ t.strays frozen levels root := by
  induction levels generalizing root with
  | zero =>
    have hroot := (strays_sublist t frozen 0 root).subset hid
    rw [listing, List.mem_singleton] at hroot
    have hnil : t.children root = [] := hw
    rw [hroot, hnil] at hc
    cases hc
  | succ levels ih =>
    have hroot : t.isFrozen root ≠ frozen := by
      intro hsettled
      rw [strays_of_settled hsettled] at hid
      cases hid
    rw [strays_succ hroot, List.mem_cons] at hid ⊢
    right
    rcases hid with rfl | hbelow
    · exact List.mem_flatMap.mpr ⟨child, hc, root_mem_strays hstate levels⟩
    · obtain ⟨kid, hkid, hid⟩ := List.mem_flatMap.mp hbelow
      exact List.mem_flatMap.mpr ⟨kid, hkid, ih (hw kid hkid) hid⟩

/-- It has come to a stray by way of its library. -/
theorem parent_mem_strays {levels : Nat} {root id : BlockId} (hu : t.Upright levels root)
    (hid : id ∈ t.strays frozen levels root) (hne : id ≠ root) :
    ∃ library ∈ t.strays frozen levels root, t.parent? id = some library := by
  induction levels generalizing root with
  | zero =>
    have hroot := (strays_sublist t frozen 0 root).subset hid
    rw [listing, List.mem_singleton] at hroot
    exact absurd hroot hne
  | succ levels ih =>
    have hroot : t.isFrozen root ≠ frozen := by
      intro hsettled
      rw [strays_of_settled hsettled] at hid
      cases hid
    rw [strays_succ hroot, List.mem_cons] at hid
    obtain ⟨kid, hkid, hid⟩ := List.mem_flatMap.mp (hid.resolve_left hne)
    rw [strays_succ hroot]
    by_cases hself : id = kid
    · have hp := hu.linked root (mem_listing_self _ _) kid hkid
      exact ⟨root, List.mem_cons_self, hself ▸ hp⟩
    · obtain ⟨library, hmem, hp⟩ := ih (hu.child hkid) hid hself
      exact ⟨library, List.mem_cons_of_mem _ (List.mem_flatMap.mpr ⟨kid, hkid, hmem⟩), hp⟩

/-- The strays are the blocks with nobody in the wanted state on the way down to them. -/
theorem Forest.mem_strays_iff (h : t.Forest) {root id : BlockId} (hroot : t.contains root)
    {levels : Nat} (hle : t.slots.size ≤ levels) :
    id ∈ t.strays frozen levels root ↔
      t.Above root id ∧
        ∀ other, t.Above root other → t.Above other id → t.isFrozen other ≠ frozen := by
  have hu := h.upright_of_le hroot hle
  constructor
  · intro hid
    refine ⟨(h.mem_listing hroot hle).mp ((strays_sublist t frozen levels root).subset hid), ?_⟩
    intro other hdown hup
    -- From a stray the way up leads through strays until it comes to the root.
    induction hup with
    | refl => exact isFrozen_of_mem_strays hid
    | @up x p hp hup ih =>
      by_cases hx : x = root
      · have hsame := h.above_antisymm hdown (hx ▸ .up hp hup)
        rw [← hsame, ← hx]
        exact isFrozen_of_mem_strays hid
      · obtain ⟨library, hmem, hp'⟩ := parent_mem_strays hu hid hx
        rw [hp] at hp'
        cases hp'
        exact ih hmem
  · rintro ⟨habove, hway⟩
    induction habove with
    | refl => exact root_mem_strays (hway root (.refl root) (.refl root)) levels
    | @up x p hp habove ih =>
      have hid := ih fun other hdown hup => hway other hdown (.up hp hup)
      exact child_mem_strays hu.within hid (h.mem_children_iff.mpr hp)
        (hway x (.up hp habove) (.refl x))

end Tree

namespace Site

variable {s : Site β} {frozen : Bool}

/-! ### One call -/

/-- Puts one block into the wanted state and tells the observers. -/
def refreeze (frozen : Bool) (s : Site β) (id : BlockId) : Site β :=
  (s.modify id fun node => { node with frozen := frozen }).notify (.freezeChanged id frozen)

/-- To put a block into a state changes this block alone. -/
theorem reworked_refreeze (frozen : Bool) (s : Site β) (id : BlockId) :
    ReworkedInPlace s (s.refreeze frozen id) :=
  (reworked_modify s id _).trans (reworked_notify _ _)

/-- To put many blocks into a state is a chain of changes to single blocks. -/
theorem reworked_foldl_refreeze (frozen : Bool) (s : Site β) (ids : List BlockId) :
    ReworkedInPlace s (ids.foldl (refreeze frozen) s) :=
  foldl_preserves (P := ReworkedInPlace s) (fun s' id hs' => hs'.trans (reworked_refreeze frozen s' id))
    (.refl s) ids

/-- Afterwards exactly the blocks of the list have the state, and no block differs in anything
else. -/
theorem node?_foldl_refreeze (frozen : Bool) (s : Site β) (ids : List BlockId) (id : BlockId) :
    (ids.foldl (refreeze frozen) s).tree.node? id =
      (s.tree.node? id).map fun node =>
        { node with frozen := if id ∈ ids then frozen else node.frozen } := by
  induction ids generalizing s with
  | nil => simp
  | cons first rest ih =>
    rw [List.foldl_cons, ih, refreeze, tree_notify, node?_modify]
    by_cases hfirst : id = first
    · subst hfirst
      simp [Function.comp_def]
    · simp [hfirst]

/-- The blocks outside the list are as they were. -/
theorem node?_foldl_refreeze_of_not_mem (frozen : Bool) (s : Site β) (ids : List BlockId) {id : BlockId}
    (hid : id ∉ ids) : (ids.foldl (refreeze frozen) s).tree.node? id = s.tree.node? id := by
  rw [node?_foldl_refreeze]
  simp [hid]

/-- One notice is sent for each block of the list, in this order. -/
theorem sends_foldl_refreeze (frozen : Bool) (ho : s.tree.observers ≠ []) (ids : List BlockId) :
    ∃ sent, Sends s (ids.foldl (refreeze frozen) s) sent ∧
      sent.map Notice.event = ids.map fun id => .freezeChanged id frozen := by
  induction ids generalizing s with
  | nil => exact ⟨[], Sends.refl s, rfl⟩
  | cons first rest ih =>
    have ho' : (s.refreeze frozen first).tree.observers ≠ [] :=
      (reworked_refreeze frozen s first).observers ▸ ho
    have hmodify : ReworkedInPlace s (s.modify first fun node => { node with frozen := frozen }) :=
      reworked_modify s first _
    have hfirst : Sends s (s.refreeze frozen first) _ :=
      (sends_modify s first _).trans (sends_notify (hmodify.observers ▸ ho) _)
    obtain ⟨sent, hsent, hevents⟩ := ih ho'
    refine ⟨_, hfirst.trans hsent, ?_⟩
    simp [hevents]

/-- Blocks that have nothing in common below them are frozen one after the other: none of these
walks gets to a block of another one. -/
theorem forEach_freezeTo {levels : Nat}
    (hone : ∀ (s : Site β) (id : BlockId), s.tree.Upright levels id →
      freezeTo frozen (levels + 1) s id =
        (.ok (), (s.tree.strays frozen levels id).foldl (refreeze frozen) s))
    {kids : List BlockId} (hu : ∀ kid ∈ kids, s.tree.Upright levels kid)
    (hapart : kids.Pairwise fun a b =>
      List.Disjoint (s.tree.listing levels a) (s.tree.listing levels b)) :
    forEach (freezeTo frozen (levels + 1)) s kids =
      (.ok (), (kids.flatMap (s.tree.strays frozen levels)).foldl (refreeze frozen) s) := by
  induction kids generalizing s with
  | nil => rfl
  | cons kid rest ih =>
    obtain ⟨hfirst, hapart⟩ := List.pairwise_cons.mp hapart
    rw [forEach, hone s kid (hu kid List.mem_cons_self)]
    have hkept : ∀ other ∈ rest, ∀ id ∈ s.tree.listing levels other,
        ((s.tree.strays frozen levels kid).foldl (refreeze frozen) s).tree.node? id =
          s.tree.node? id := by
      intro other hother id hid
      refine node?_foldl_refreeze_of_not_mem frozen s _ fun hmem => ?_
      exact hfirst other hother ((Tree.strays_sublist _ _ _ _).subset hmem) hid
    have hstrays := List.flatMap_congr fun other hother =>
      Tree.strays_congr frozen (hkept other hother)
    have hrest := ih (s := (s.tree.strays frozen levels kid).foldl (refreeze frozen) s)
      (fun other hother => (hu other (List.mem_cons_of_mem _ hother)).of_node?_eq
        (hkept other hother))
      (hapart.imp_of_mem fun ha hb hab => by
        rwa [Tree.listing_eq_of_node?_eq (hkept _ ha), Tree.listing_eq_of_node?_eq (hkept _ hb)])
    rw [List.flatMap_cons, List.foldl_append, ← hstrays]
    exact hrest

/-- The state of a block is no link. -/
theorem sameLinks_refreeze (frozen : Bool) (s : Site β) (id : BlockId) :
    Tree.SameLinks s.tree (s.refreeze frozen id).tree := by
  rw [refreeze, tree_notify]
  exact Tree.sameLinks_modify s.tree id (fun _ => rfl) (fun _ => rfl) fun _ => rfl

/-- Freezing answers that all is well at a block that is in the wanted state, and does nothing. -/
theorem freezeTo_of_settled {levels : Nat} {id : BlockId} (hid : s.tree.contains id)
    (h : s.tree.isFrozen id = frozen) : freezeTo frozen (levels + 1) s id = (.ok (), s) := by
  obtain ⟨node, hn⟩ := Option.isSome_iff_exists.mp hid
  rw [Tree.isFrozen_of_node? hn] at h
  simp [freezeTo, require_eq_ok_iff.mpr hn, h]

/-- Freezing a block in the other state puts it into the wanted one and goes on with its children in
order. -/
theorem freezeTo_of_stray {levels : Nat} {id : BlockId} (hid : s.tree.contains id)
    (h : s.tree.isFrozen id ≠ frozen) :
    freezeTo frozen (levels + 1) s id =
      forEach (freezeTo frozen levels) (s.refreeze frozen id) (s.tree.children id) := by
  obtain ⟨node, hn⟩ := Option.isSome_iff_exists.mp hid
  rw [Tree.isFrozen_of_node? hn] at h
  rw [← (sameLinks_refreeze frozen s id).children]
  simp only [freezeTo, require_eq_ok_iff.mpr hn, h, if_false]
  rfl

/-- To freeze a subtree is to change its strays one after the other. -/
theorem freezeTo_eq (frozen : Bool) {levels : Nat} {id : BlockId} (hu : s.tree.Upright levels id) :
    freezeTo frozen (levels + 1) s id =
      (.ok (), (s.tree.strays frozen levels id).foldl (refreeze frozen) s) := by
  have hid := hu.alive id (Tree.mem_listing_self levels id)
  induction levels generalizing s id with
  | zero =>
    have hkids : s.tree.children id = [] := hu.within
    by_cases hstate : s.tree.isFrozen id = frozen
    · rw [freezeTo_of_settled hid hstate, Tree.strays_of_settled hstate]
      rfl
    · rw [freezeTo_of_stray hid hstate, hkids, Tree.strays, if_neg hstate]
      rfl
  | succ levels ih =>
    by_cases hstate : s.tree.isFrozen id = frozen
    · rw [freezeTo_of_settled hid hstate, Tree.strays_of_settled hstate]
      rfl
    · -- The subtrees of the children are as they were: the root does not stand in them.
      have hkept : ∀ kid ∈ s.tree.children id, ∀ other ∈ s.tree.listing levels kid,
          (s.refreeze frozen id).tree.node? other = s.tree.node? other := by
        intro kid hkid other hother
        refine node?_foldl_refreeze_of_not_mem frozen s [id] fun hself => ?_
        rw [List.mem_singleton.mp hself] at hother
        exact hu.root_not_mem (List.mem_flatMap.mpr ⟨kid, hkid, hother⟩)
      have hnd := (List.nodup_cons.mp (Tree.listing_succ (t := s.tree) levels id ▸ hu.nodup)).2
      have hkids := forEach_freezeTo (s := s.refreeze frozen id)
        (fun s' id' hu' => ih hu' (hu'.alive id' (Tree.mem_listing_self levels id')))
        (fun kid hkid => (hu.child hkid).of_node?_eq (hkept kid hkid))
        ((List.nodup_flatMap.mp hnd).2.imp_of_mem fun ha hb hab => by
          rwa [Tree.listing_eq_of_node?_eq (hkept _ ha), Tree.listing_eq_of_node?_eq (hkept _ hb)])
      rw [freezeTo_of_stray hid hstate, hkids, Tree.strays_succ hstate, List.foldl_cons,
        List.flatMap_congr fun kid hkid => Tree.strays_congr frozen (hkept kid hkid)]

/-- Nothing of the tree is touched but the slots, and of these nothing but blocks. -/
theorem frame_foldl_refreeze (frozen : Bool) (s : Site β) (ids : List BlockId) :
    { (ids.foldl (refreeze frozen) s).tree with slots := s.tree.slots } = s.tree := by
  induction ids generalizing s with
  | nil => rfl
  | cons first rest ih =>
    have hone : { (s.refreeze frozen first).tree with slots := s.tree.slots } = s.tree := by
      rw [refreeze, tree_notify, tree_modify, Tree.modify]
      cases s.tree.node? first <;> rfl
    have hrest := congrArg (fun t : Tree β => { t with slots := s.tree.slots })
      (ih (s.refreeze frozen first))
    exact hrest.trans hone

/-- A subtree is in one state after its strays are changed exactly if nobody is passed over who
has blocks of the other state below it. -/
theorem settled_iff {s' : Site β} {root : BlockId} {changed : List BlockId}
    (hmem : ∀ id, id ∈ changed ↔ s.tree.Above root id ∧
      ∀ other, s.tree.Above root other → s.tree.Above other id → s.tree.isFrozen other ≠ frozen)
    (halive : ∀ id, s.tree.Above root id → s.tree.contains id)
    (hnode : ∀ id, s'.tree.node? id = (s.tree.node? id).map fun node =>
      { node with frozen := if id ∈ changed then frozen else node.frozen }) :
    (∀ id, s.tree.Above root id → s'.tree.isFrozen id = frozen) ↔
      ∀ upper lower, s.tree.Above root upper → s.tree.Above upper lower →
        s.tree.isFrozen upper = frozen → s.tree.isFrozen lower = frozen := by
  have hafter : ∀ id, s.tree.contains id →
      s'.tree.isFrozen id = if id ∈ changed then frozen else s.tree.isFrozen id := by
    intro id hid
    obtain ⟨node, hn⟩ := Option.isSome_iff_exists.mp hid
    have hn' := hnode id
    rw [hn, Option.map_some] at hn'
    rw [Tree.isFrozen_of_node? hn', Tree.isFrozen_of_node? hn]
  constructor
  · intro hall upper lower hupper hlower hstate
    have hnot : lower ∉ changed := fun hin => ((hmem lower).mp hin).2 upper hupper hlower hstate
    have hbelow := hupper.trans hlower
    rw [← hall lower hbelow, hafter lower (halive lower hbelow), if_neg hnot]
  · intro hdown id hid
    rw [hafter id (halive id hid)]
    split
    · rfl
    · next hnot =>
      by_contra hstate
      exact hnot ((hmem id).mpr ⟨hid, fun other hother hup hsettled =>
        hstate (hdown other id hother hup hsettled)⟩)

variable [Payload β]

/-- `freeze` succeeds at every block that is there. It puts those blocks of the subtree into the
wanted state that have nobody in this state on the way down to them, itself included, and changes
nothing else. Each of them is announced once, in the order of the walk down. So the whole subtree
is in the wanted state after the call if and only if everything below a block that was in this
state before was in this state, too. -/
theorem freeze_of_reached (h : Reached Guarded s) {id : BlockId} (hid : s.tree.contains id)
    (frozen : Bool) :
    let t := s.tree
    let s' := (s.freeze id frozen).2
    (s.freeze id frozen).1 = .ok () ∧
      ∃ changed : List BlockId,
        changed.Nodup ∧ changed.Sublist (t.descendants id) ∧
        (∀ block, block ∈ changed ↔ t.Above id block ∧
          ∀ other, t.Above id other → t.Above other block → t.isFrozen other ≠ frozen) ∧
        (∀ block, s'.tree.node? block = (t.node? block).map fun node =>
          { node with frozen := if block ∈ changed then frozen else node.frozen }) ∧
        s'.catalogue = s.catalogue ∧ t.SameTenancy s'.tree ∧
        { s'.tree with slots := t.slots } = t ∧
        (t.observers ≠ [] → ∃ sent, Sends s s' sent ∧
          sent.map Notice.event = changed.map fun block => .freezeChanged block frozen) ∧
        ((∀ block, t.Above id block → s'.tree.isFrozen block = frozen) ↔
          ∀ upper lower, t.Above id upper → t.Above upper lower →
            t.isFrozen upper = frozen → t.isFrozen lower = frozen) := by
  intro t s'
  have hforest := h.sound.forest
  have hwalk := freezeTo_eq frozen (hforest.upright hid)
  have hs' : s' = (t.strays frozen t.slots.size id).foldl (refreeze frozen) s :=
    congrArg Prod.snd hwalk
  have hmem : ∀ block, block ∈ t.strays frozen t.slots.size id ↔ t.Above id block ∧
      ∀ other, t.Above id other → t.Above other block → t.isFrozen other ≠ frozen :=
    fun block => hforest.mem_strays_iff hid le_rfl
  have hsub : (t.strays frozen t.slots.size id).Sublist (t.descendants id) := by
    rw [Tree.descendants, if_pos hid]
    exact Tree.strays_sublist t frozen t.slots.size id
  have hnode := node?_foldl_refreeze frozen s (t.strays frozen t.slots.size id)
  have hwork := reworked_foldl_refreeze frozen s (t.strays frozen t.slots.size id)
  have hframe := frame_foldl_refreeze frozen s (t.strays frozen t.slots.size id)
  rw [← hs'] at hnode hwork hframe
  have halive : ∀ block, t.Above id block → t.contains block := fun block habove =>
    (hforest.upright hid).alive block ((hforest.mem_listing hid le_rfl).mpr habove)
  refine ⟨congrArg Prod.fst hwalk, _, (hforest.nodup_descendants id).sublist hsub, hsub, hmem,
    hnode, hwork.catalogue, hwork.tenancy, hframe, fun ho => ?_, settled_iff hmem halive hnode⟩
  rw [hs']
  exact sends_foldl_refreeze frozen ho _

/-- A folder is frozen before a leaf is put into it. If the library around it is frozen then, the
library is announced and the folder is not, and the leaf stays as it is. -/
theorem freeze_of_reached_folder :
    let s : Site Stock := ((((((start 0).perform (.adopt .library)).perform
      (.adopt (.folder ⟨"", false⟩))).perform (.adopt (.leaf ⟨""⟩))).perform
        (.add ⟨0, 0⟩ ⟨1, 0⟩)).perform (.freeze ⟨1, 0⟩ true)).perform (.add ⟨1, 0⟩ ⟨2, 0⟩) |>.perform
          .subscribe
    let s' := (s.freeze ⟨0, 0⟩ true).2
    s'.tree.isFrozen ⟨2, 0⟩ = false ∧
      ∃ (changed : List BlockId) (sent : List (Notice Stock)), ⟨0, 0⟩ ∈ changed ∧
        ⟨1, 0⟩ ∉ changed ∧ Sends s s' sent ∧
        sent.map Notice.event = changed.map fun block => .freezeChanged block true := by
  intro s s'
  have hreached : Reached Guarded s :=
    .perform (.perform (.perform (.perform (.perform (.perform (.perform (.start 0) trivial)
      trivial) trivial) trivial) trivial) trivial) trivial
  have hid : s.tree.contains ⟨0, 0⟩ := by decide
  obtain ⟨-, changed, -, -, hmem, -, -, -, -, hsent, -⟩ := freeze_of_reached hreached hid true
  obtain ⟨sent, hsend, hevents⟩ := hsent (by decide)
  refine ⟨by decide, changed, sent, (hmem _).mpr ⟨.refl _, ?_⟩, fun hin => ?_, hsend, hevents⟩
  · intro other hdown hup
    rw [hreached.sound.forest.above_antisymm hup hdown]
    decide
  · obtain ⟨habove, hway⟩ := (hmem _).mp hin
    exact hway _ habove (.refl _) (by decide)

/-- A call that succeeds may leave a block of the subtree in the other state. -/
theorem not_isFrozen_of_freeze :
    ∃ s : Site Stock, Reached Guarded s ∧ s.tree.contains ⟨0, 0⟩ ∧
      (s.freeze ⟨0, 0⟩ true).1 = .ok () ∧ s.tree.Above ⟨0, 0⟩ ⟨2, 0⟩ ∧
        (s.freeze ⟨0, 0⟩ true).2.tree.isFrozen ⟨2, 0⟩ ≠ true := by
  refine ⟨((((((start 0).perform (.adopt .library)).perform
    (.adopt (.folder ⟨"", false⟩))).perform (.adopt (.leaf ⟨""⟩))).perform
      (.add ⟨0, 0⟩ ⟨1, 0⟩)).perform (.freeze ⟨1, 0⟩ true)).perform (.add ⟨1, 0⟩ ⟨2, 0⟩),
    .perform (.perform (.perform (.perform (.perform (.perform (.start 0) trivial) trivial)
      trivial) trivial) trivial) trivial, by decide, by decide, ?_, by decide⟩
  exact .up (show Tree.parent? _ ⟨2, 0⟩ = some ⟨1, 0⟩ by decide)
    (.up (show Tree.parent? _ ⟨1, 0⟩ = some ⟨0, 0⟩ by decide) (.refl _))

end Site

end BlockForest
