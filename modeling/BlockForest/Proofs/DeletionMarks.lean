import Mathlib
import BlockForest.Proofs.FailedInflate

/-!
# Marks that are set by hand

The mark of a block that goes is a flag like any other for those who set flags. What goes wrong
then is one thing only: a block that is destroyed leaves its library by another way where the
library carries the mark, and trusts that the library empties its list itself. A library that
is not being destroyed does no such thing, and its list goes on naming the block.

`Heedful` rules out just this, and leaves all flags to be set and taken away at will. Then a
forest stays a forest: libraries that carry the mark take in nobody, may be cleared and may be
destroyed, and blocks that are read are destroyed again only as long as they belong to nobody.
`children_of_heedful` says what this means for the lists, and that nothing less will do.
-/

set_option autoImplicit false

namespace BlockForest

variable {β : Type}

/-- To mark a block that is marked already changes nothing. -/
theorem Flags.union_beingDeleted_of_contains {a : Flags} (h : a.contains beingDeleted) :
    a.union beingDeleted = a := by
  have hbits : a.bits ||| (a.bits &&& 1) = a.bits := by
    apply UInt32.toNat_inj.mp
    rw [UInt32.toNat_or, UInt32.toNat_and]
    apply Nat.eq_of_testBit_eq
    intro i
    rw [Nat.testBit_or, Nat.testBit_and]
    cases a.bits.toNat.testBit i <;> rfl
  have hmark : a.bits &&& 1 = 1 := beq_iff_eq.mp h
  rw [hmark] at hbits
  rw [union, beingDeleted, hbits]

namespace Site

variable {s s' : Site β} {library : BlockId}

/-! ### A block is destroyed -/

/-- A block that is destroyed out of a library without the mark is in no list any more. -/
theorem forest_destroy (h : s.tree.Forest) {id : BlockId}
    (hlib : ∀ library, s.tree.parent? id = some library → ¬ s.tree.isBeingDeleted library) :
    (s.destroy id).2.tree.Forest ∧ ∀ library, id ∉ (s.destroy id).2.tree.children library := by
  by_cases hid : s.tree.contains id
  · have hup := plucked_destroyTo h hid rfl hlib
    refine ⟨hup.forest, fun library hmem => ?_⟩
    have hp := hup.forest.mem_children_iff.mp hmem
    rw [hup.free id (Or.inl rfl)] at hp
    cases hp
  · rw [destroy_of_stale hid]
    exact ⟨h, fun library hmem =>
      hid (Tree.contains_of_parent? (h.mem_children_iff.mp hmem))⟩

/-- A library with the mark goes on naming a child that is destroyed. -/
theorem mem_children_destroy (h : s.tree.Forest) {id : BlockId}
    (hp : s.tree.parent? id = some library) (hm : s.tree.isBeingDeleted library) :
    id ∈ (s.destroy id).2.tree.children library := by
  have hmem := h.mem_children_iff.mpr hp
  have hout : library ∉ s.tree.listing s.tree.slots.size id := fun hin =>
    h.root_not_mem_children hin hmem
  have hrazed := razes s.tree.slots.size s id (h.upright (Tree.contains_of_parent? hp))
    (Or.inr ⟨library, hp, hm, hout⟩)
  unfold Tree.children destroy
  rw [hrazed.node?_of_not_mem hout]
  exact hmem

/-! ### A library is cleared -/

/-- When all children of a library with the mark are gone, its list is emptied. -/
theorem hollowed_emptied {ids : List BlockId} (hm : s.tree.isBeingDeleted library)
    (hout : library ∉ ids) (h : Razed s s' ids) :
    Hollowed s (s'.modifyChildren library fun _ => []) library ids where
  node? other := by
    rw [node?_modifyChildren, h.node?]
    by_cases ho : other = library
    · subst ho
      rw [if_neg hout, if_pos rfl]
      cases hn : s.tree.node? other with
      | none => rfl
      | some node =>
        rw [Tree.isBeingDeleted_of_node? hn] at hm
        simp [Node.hollowed, Flags.union_beingDeleted_of_contains hm]
    · simp [ho]
  entryAt? ref := h.entryAt? ref
  slots := (reworked_modify s' library _).slots.trans h.slots
  lasting := h.lasting.trans (reworked_modify s' library _).lasting

/-- A library that carries the mark is cleared without a removal of its children: each takes its own
links off, and the list is emptied in the end. What is left is a forest. -/
theorem forest_clear_marked (h : s.tree.Forest) (hm : s.tree.isBeingDeleted library)
    {kids : List BlockId} (hlib : s.tree.isLibrary library)
    (hkids : s.tree.children library = kids) {levels : Nat}
    (hlevels : s.tree.slots.size = levels) :
    ((kids.foldl (fun s kid => (destroyTo (levels + 1) s kid).2) s).modifyChildren library
      fun _ => []).tree.Forest := by
  subst hkids
  have hup : s.tree.Upright (levels + 1) library :=
    h.upright_of_le (Tree.contains_of_isLibrary hlib) (by omega)
  have hdoomed : Doomed s.tree levels library (s.tree.children library) :=
    ⟨fun kid hkid => hup.child hkid,
      (List.nodup_cons.mp (Tree.listing_succ (t := s.tree) levels library ▸ hup.nodup)).2,
      fun kid hkid => h.mem_children_iff.mp hkid, hm, hup.root_not_mem⟩
  -- The library lists its dead children until the end, and no teardown of a child reads that list.
  have hrazed := razed_foldl (razes levels) hdoomed
  exact (hollowed_emptied hm hup.root_not_mem hrazed).forest h hup

/-- A child of a library without the mark leaves it, and the library gets no mark by that. -/
theorem plucked_of_unmarked (h : s.tree.Forest) (hm : ¬ s.tree.isBeingDeleted library)
    {kid : BlockId} (hmem : kid ∈ s.tree.children library) {levels : Nat}
    (hlevels : s.tree.slots.size = levels) :
    let s' := (destroyTo (levels + 1) s kid).2
    (s'.tree.Forest ∧ ¬ s'.tree.isBeingDeleted library) ∧
      Plucked s.tree s'.tree kid (s.tree.listing levels kid) := by
  have hp := h.mem_children_iff.mp hmem
  have hup := plucked_destroyTo h (Tree.contains_of_parent? hp) hlevels fun other ho => by
    rw [hp] at ho
    cases ho
    exact hm
  refine ⟨⟨hup.forest, ?_⟩, hup⟩
  rw [hup.isBeingDeleted library fun hin => h.root_not_mem_children hin hmem]
  exact hm

/-- A library may be cleared whether it carries the mark or not: its children leave the list one
by one, or the list is emptied behind them. -/
theorem forest_clear (h : s.tree.Forest) (library : BlockId) :
    (s.clear library).2.tree.Forest := by
  unfold clear clearWith
  split
  · exact h
  · exact h
  · next child children hreq =>
    obtain ⟨hlib, hkids⟩ := requireLibrary_eq_ok_iff.mp hreq
    rw [tree_notify]
    have htree := tree_notify s (.clearing library)
    by_cases hm : s.tree.isBeingDeleted library
    · exact forest_clear_marked (s := s.notify (.clearing library)) (htree ▸ h) (htree ▸ hm)
        (htree ▸ hlib) (htree ▸ hkids) (by rw [htree])
    · obtain ⟨⟨hforest, -⟩, hempty⟩ := destroy_children
        (P := fun s : Site β => s.tree.Forest ∧ ¬ s.tree.isBeingDeleted library)
        (fun _ hs => hs.1) (fun s kid hs hmem hsize => plucked_of_unmarked hs.1 hs.2 hmem hsize)
        (s := s.notify (.clearing library)) (child :: children) (htree ▸ ⟨h, hm⟩)
        (by rw [htree]) (htree ▸ hkids)
      exact (retouched_emptied hempty).links.forest hforest

end Site

/-! ### Blocks are read -/

namespace Inflate

open Site

variable [Payload β] {s : Site β}

/-- A forest stays one while blocks are read, for a block that is destroyed again belongs to nobody. -/
theorem steps_forest : Steps fun s s' : Site β => s.tree.Forest → s'.tree.Forest where
  refl _ := id
  trans h h' := h' ∘ h
  createFrom _ _ ho := (sameLinks_place ho _ _ _ _).forest
  setPayload s id payload := (retouched_setPayload s id payload).links.forest
  attach ha h := relists_forest.attach h ha le_rfl
  discard hs h := (forest_destroy h fun _ hp => by simp [hs.detached.1] at hp).1

end Inflate

namespace Site

variable [Payload β] {s : Site β}

/-- Reading a stream leaves a forest, whatever the source and however it ends. -/
theorem forest_inflate {σ : Type} [ByteSource σ] (ho : s.tree.Orderly) (h : s.tree.Forest)
    (settings : Settings) (source : σ) (monitor : Monitor) :
    (inflate settings s source monitor).2.site.tree.Forest :=
  Inflate.steps_forest.inflate ho settings source monitor h

/-! ### Runs -/

/-- Everything is allowed, and any flags may be set and taken away, but no block is destroyed
out of a library that carries the mark of a block that goes. -/
def Heedful : Site β → Op β → Prop
  | s, .destroy id => ∀ library, s.tree.parent? id = some library →
      ¬ s.tree.isBeingDeleted library
  | _, _ => True

/-- A forest stays a forest under every call that heeds the mark. -/
theorem forest_perform (ho : s.tree.Orderly) (h : s.tree.Forest) {op : Op β}
    (hop : Heedful s op) : (s.perform op).tree.Forest := by
  cases op with
  | create name => exact (sameLinks_create ho name).forest h
  | createByName name => exact (sameLinks_createByName ho name).forest h
  | createFrom ref =>
    show ((s.catalogue.entryAt? ref).elim s fun entry => (s.createFrom ref entry).2).tree.Forest
    cases s.catalogue.entryAt? ref with
    | none => exact h
    | some entry => exact (sameLinks_place ho _ _ _ _).forest h
  | insertSystem payload => exact (sameLinks_place ho _ _ _ _).forest h
  | adopt payload => exact (sameLinks_place ho _ _ _ _).forest h
  | reclaim id => exact (sameLinks_reclaim h id).forest h
  | add library block => exact relists_forest.add h library block
  | insert library block index => exact relists_forest.insert h library block index
  | remove library block => exact relists_forest.remove h library block
  | detach block => exact relists_forest.detach h block
  | reparent block library => exact relists_forest.reparent h block library
  | reparentAt block library index => exact relists_forest.reparentAt h block library index
  | swap library a b => exact relists_forest.swap h library a b
  | moveTo library block target => exact relists_forest.moveTo h library block target
  | clear library => exact forest_clear h library
  | destroy id => exact (forest_destroy h hop).1
  | freeze id frozen => exact (retouched_freezeTo frozen _ s id).links.forest h
  | rename id name => exact (retouched_rename s id name).links.forest h
  | setSerializable id on => exact (sameLinks_setSerializable s id on).forest h
  | addFlag id flag => exact (sameLinks_addFlag s id flag).forest h
  | removeFlag id flag => exact (sameLinks_removeFlag s id flag).forest h
  | setPayload id payload => exact (retouched_setPayload s id payload).links.forest h
  | optimize root => exact (retouched_optimize s root).links.forest h
  | inflate settings source monitor => exact forest_inflate ho h settings source monitor
  | subscribe =>
    have hslots : Tree.Retouched s.tree s.tree.subscribe.2 := .of_slots rfl
    exact hslots.links.forest h
  | unsubscribe observer =>
    have hslots : Tree.Retouched s.tree (s.tree.unsubscribe observer).2 := .of_slots rfl
    exact hslots.links.forest h

/-- So by induction on the run every site that is reached in this way is a forest. -/
theorem Reached.forest (h : Reached Heedful s) : s.tree.Forest :=
  (h.induct (P := fun s => s.tree.Orderly ∧ s.tree.Forest)
    (fun registry => ⟨Tree.orderly_empty registry, (Tree.sound_empty registry).forest⟩)
    (fun s op hop hs =>
      ⟨(lasting_perform s op).orderly hs.1, forest_perform hs.1 hs.2 hop⟩)
    fun _ _ hs => hs).2

/-- Whatever flags are set and taken away, as long as no block is destroyed out of a library that
carries the mark, every block that a list names is alive and belongs to that library, and no
list names a block twice. From there on a block that is destroyed is in no list any more
exactly if its library does not carry the mark. -/
theorem children_of_heedful (h : Reached Heedful s) :
    (∀ library, (s.tree.children library).Nodup ∧ ∀ id ∈ s.tree.children library,
        s.tree.contains id ∧ s.tree.parent? id = some library) ∧
      ∀ id, (∀ library, id ∉ (s.destroy id).2.tree.children library) ↔
        ∀ library, s.tree.parent? id = some library → ¬ s.tree.isBeingDeleted library := by
  have hforest := h.forest
  refine ⟨fun library => ⟨hforest.nodup_children library, fun id hid => ?_⟩, fun id => ?_⟩
  · have hp := hforest.mem_children_iff.mp hid
    exact ⟨Tree.contains_of_parent? hp, hp⟩
  · constructor
    · intro hout library hp hm
      exact hout library (mem_children_destroy hforest hp hm)
    · exact fun hlib => (forest_destroy hforest hlib).2

/-- A library gets the mark and loses it again before its folder is destroyed. -/
theorem children_of_heedful_folder :
    let s : Site Stock := (((((start 0).perform (.adopt .library)).perform
      (.insertSystem (.folder ⟨"", false⟩))).perform (.addFlag ⟨0, 0⟩ Flags.beingDeleted)).perform
        (.removeFlag ⟨0, 0⟩ Flags.beingDeleted)).perform (.add ⟨0, 0⟩ ⟨1, 0⟩)
    Reached Heedful s ∧ s.tree.children ⟨0, 0⟩ = [⟨1, 0⟩] ∧
      (∀ library, ⟨1, 0⟩ ∉ (s.destroy ⟨1, 0⟩).2.tree.children library) ∧
      ¬ ∀ library, ⟨1, 0⟩ ∉
        ((s.perform (.addFlag ⟨0, 0⟩ Flags.beingDeleted)).destroy ⟨1, 0⟩).2.tree.children
          library := by
  intro s
  have hreached : Reached Heedful s :=
    .perform (.perform (.perform (.perform (.perform (.start 0) trivial) trivial) trivial)
      trivial) trivial
  have hmarked : Reached Heedful (s.perform (.addFlag ⟨0, 0⟩ Flags.beingDeleted)) :=
    .perform hreached trivial
  refine ⟨hreached, by decide, ?_, ?_⟩
  · refine ((children_of_heedful hreached).2 ⟨1, 0⟩).mpr fun library hp => ?_
    have hlib : s.tree.parent? ⟨1, 0⟩ = some ⟨0, 0⟩ := by decide
    rw [hlib] at hp
    cases hp
    decide
  · rw [(children_of_heedful hmarked).2 ⟨1, 0⟩]
    intro hfree
    exact hfree ⟨0, 0⟩ (by decide) (by decide)

/-- A leaf is destroyed out of a library whose mark was set by hand, and the library goes on
naming it. -/
theorem not_alive_of_marked :
    let s₀ : Site Stock := { start 0 with
      catalogue := ((Catalogue.empty.perform .addRegistry).perform
        (.register 0 StockType.library.blockType)).perform
          (.register 0 StockType.leaf.blockType) }
    let s := ((((s₀.perform (.create "Library")).perform (.create "Leaf")).perform
      (.add ⟨0, 0⟩ ⟨1, 0⟩)).perform (.addFlag ⟨0, 0⟩ ⟨1⟩)).perform (.destroy ⟨1, 0⟩)
    Reached Any s ∧ s.tree.isLibrary ⟨0, 0⟩ ∧ ⟨1, 0⟩ ∈ s.tree.children ⟨0, 0⟩ ∧
      ¬ s.tree.contains ⟨1, 0⟩ := by
  intro s₀ s
  have hstart : Reached Any s₀ :=
    (((Reached.start 0).elsewhere .addRegistry).elsewhere
      (.register 0 StockType.library.blockType)).elsewhere (.register 0 StockType.leaf.blockType)
  have hreached : Reached Any s :=
    .perform (.perform (.perform (.perform (.perform hstart trivial) trivial) trivial) trivial)
      trivial
  refine ⟨hreached, ?_, ?_, ?_⟩ <;> decide +kernel

/-- A folder that is managed elsewhere stays when it is destroyed. Once the marks are taken away,
the library that still names it takes it in again. -/
example :
    let s : Site Stock := ((((((((start 0).perform (.adopt .library)).perform
      (.adopt (.folder ⟨"", false⟩))).perform (.add ⟨0, 0⟩ ⟨1, 0⟩)).perform
        (.addFlag ⟨0, 0⟩ ⟨1⟩)).perform (.destroy ⟨1, 0⟩)).perform
          (.removeFlag ⟨0, 0⟩ ⟨1⟩)).perform (.removeFlag ⟨1, 0⟩ ⟨1⟩)).perform
            (.add ⟨0, 0⟩ ⟨1, 0⟩)
    s.tree.children ⟨0, 0⟩ = [⟨1, 0⟩, ⟨1, 0⟩] := by
  decide

end Site

end BlockForest
