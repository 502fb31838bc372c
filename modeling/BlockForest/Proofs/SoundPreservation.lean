import Mathlib
import BlockForest.Proofs.ForestPreservation

/-!
# Every operation keeps a tree sound

Whatever an operation does, a forest stays one, if no block is destroyed out of a library that
carries the mark. So what is left to follow here is the mark. Operations on attributes do not
set it, except that it may be set by hand, which is ruled out. Insertion refuses blocks that
carry it, and `destroy` sets it for blocks that stand alone in the end.
-/

set_option autoImplicit false

namespace BlockForest

variable {β : Type}

namespace Site

variable {s s' : Site β} {library block : BlockId}

/-! ### Attributes -/

/-- A notice changes no tree. -/
theorem sound_notify (h : s.tree.Sound) (event : TreeEvent) : (s.notify event).tree.Sound := by
  rwa [tree_notify]

/-- An attribute that is no link can be changed, as long as the mark does not come with it. -/
theorem sound_update (h : s.tree.Sound) (id : BlockId) {f : Node β → Node β}
    (hi : ∀ node, (f node).index = node.index) (hp : ∀ node, (f node).parent = node.parent)
    (hc : ∀ node, (f node).children = node.children)
    (hf : ∀ node, (f node).flags.contains Flags.beingDeleted →
      node.flags.contains Flags.beingDeleted) : (s.update id f).2.tree.Sound := by
  unfold update
  split
  · exact h.modify id hi hp hc hf
  · exact h

/-- A new name is such an attribute. -/
theorem sound_rename (h : s.tree.Sound) (id : BlockId) (name : String) :
    (s.rename id name).2.tree.Sound :=
  h.retouched ((reworked_rename s id name).orderly h.orderly) (retouched_rename s id name)

/-- Any flag but the mark may be set. -/
theorem sound_addFlag (h : s.tree.Sound) (id : BlockId) {flag : Flags}
    (hflag : ¬ flag.contains Flags.beingDeleted) : (s.addFlag id flag).2.tree.Sound := by
  refine sound_update h id (fun _ => rfl) (fun _ => rfl) (fun _ => rfl) ?_
  intro node hm
  exact (Flags.contains_beingDeleted_union.mp hm).resolve_right hflag

/-- Any flag may be taken away, the mark as well. -/
theorem sound_removeFlag (h : s.tree.Sound) (id : BlockId) (flag : Flags) :
    (s.removeFlag id flag).2.tree.Sound :=
  sound_update h id (fun _ => rfl) (fun _ => rfl) (fun _ => rfl) fun _ =>
    Flags.contains_beingDeleted_of_minus

/-- The flag of those that take part in serialization is not the mark. -/
theorem sound_setSerializable (h : s.tree.Sound) (id : BlockId) (on : Bool) :
    (s.setSerializable id on).2.tree.Sound := by
  unfold setSerializable
  split
  · exact sound_addFlag h id (by decide)
  · exact sound_removeFlag h id _

/-- A payload is neither link nor mark. -/
theorem sound_setPayload (h : s.tree.Sound) (id : BlockId) (payload : β) :
    (s.setPayload id payload).tree.Sound :=
  h.retouched ((reworked_modify s id _).orderly h.orderly) (retouched_setPayload s id payload)

/-- Freezing touches neither links nor marks. -/
theorem sound_freezeTo (frozen : Bool) (levels : Nat) (h : s.tree.Sound) (id : BlockId) :
    (freezeTo frozen levels s id).2.tree.Sound :=
  h.retouched ((reworked_freezeTo frozen levels s id).orderly h.orderly)
    (retouched_freezeTo frozen levels s id)

/-- Optimizing only changes payloads. -/
theorem sound_optimize [Payload β] (h : s.tree.Sound) (root : BlockId) :
    (s.optimize root).tree.Sound :=
  h.retouched ((reworked_optimize s root).orderly h.orderly) (retouched_optimize s root)

/-! ### Places -/

section

variable [Payload β]

/-- Children of a library carry no mark, and the check keeps out blocks that do. -/
theorem relists_sound : Relists fun s : Site β => s.tree.Sound where
  forest h := h.forest
  shuffle h hmem hwork hr hnd hsub :=
    h.relist_sub (hwork.orderly h.orderly) hr (Tree.isLibrary_of_mem_children hmem)
      (h.not_marked_of_mem hmem).1 hnd hsub
  attach {s library block index} h ha hi := by
    obtain ⟨hadm, hr⟩ := admissible_attach h.forest ha hi
    apply h.relist ((reworked_attach s library block index).orderly h.orderly) hadm hr
      ha.unmarked.1
    intro id hid
    rcases (List.mem_insertIdx hi).mp hid with rfl | hold
    · exact ha.unmarked.2
    · exact (h.not_marked_of_mem hold).2

/-! ### New blocks -/

/-- A new block stands alone, whether or not its type marks it. -/
theorem sound_place (h : s.tree.Sound) (payload : β) (entry : Option EntryRef)
    (ownership : Ownership) (flags : Flags) :
    (s.place payload entry ownership flags).2.tree.Sound := by
  apply h.alloc rfl rfl
  split <;> rfl

/-- So does a block that is made by an entry, which is counted besides. -/
theorem sound_createFrom (h : s.tree.Sound) (ref : EntryRef) (entry : Entry β) :
    (s.createFrom ref entry).2.tree.Sound := sound_place h _ _ _ _

/-- To make a block by the name of its type keeps a tree sound. -/
theorem sound_createByName (h : s.tree.Sound) (name : String) :
    (s.createByName name).2.tree.Sound := by
  unfold createByName
  split
  · exact sound_createFrom h _ _
  · exact h

/-- The same where an unknown name is an error. -/
theorem sound_create (h : s.tree.Sound) (name : String) : (s.create name).2.tree.Sound := by
  have hmake := sound_createByName h name
  unfold create
  split
  · next heq =>
    rw [heq] at hmake
    exact hmake
  · next heq =>
    rw [heq] at hmake
    exact hmake

end

/-- A block that may be reclaimed stands alone, so the others are as sound without it. -/
theorem sound_reclaim (h : s.tree.Sound) (id : BlockId) : (s.reclaim id).2.tree.Sound := by
  unfold reclaim
  split
  · next heq =>
    obtain ⟨hid, hp, hc⟩ := alone_of_checkReclaim heq
    exact h.vacate hid hp hc
  · exact h

/-! ### Destroying -/

/-- In a sound tree no library that has children carries the mark. -/
theorem plucked_of_sound {levels : Nat} {id : BlockId} (h : s.tree.Sound)
    (hid : s.tree.contains id) (hlevels : s.tree.slots.size = levels) :
    Plucked s.tree (destroyTo (levels + 1) s id).2.tree id (s.tree.listing levels id) :=
  plucked_destroyTo h.forest hid hlevels fun _ hp =>
    (h.not_marked_of_mem (h.forest.mem_children_iff.mpr hp)).1

/-- Destroying a block of a sound tree, wherever it stands, leaves the tree sound. -/
theorem sound_destroyTo {levels : Nat} {id : BlockId} (h : s.tree.Sound)
    (hid : s.tree.contains id) (hlevels : s.tree.slots.size = levels) :
    (destroyTo (levels + 1) s id).2.tree.Sound := by
  have hup := plucked_of_sound h hid hlevels
  refine ⟨(lasting_destroyTo _ s id).orderly h.orderly, hup.forest, fun other hm => ?_⟩
  by_cases hgone : other ∈ s.tree.listing levels id
  · exact ⟨hup.free other (Or.inr hgone), hup.bare other hgone⟩
  · have hne : other ≠ id := by
      rintro rfl
      exact hgone (Tree.mem_listing_self _ _)
    rw [hup.isBeingDeleted other hgone] at hm
    obtain ⟨hp, hc⟩ := h.marked other hm
    rw [hup.parent? other hne hgone, hup.children other hgone, hp, hc]
    exact ⟨rfl, rfl⟩

/-- A destruction keeps a tree sound, since in a sound tree no library around a block is marked. -/
theorem sound_destroy (h : s.tree.Sound) (id : BlockId) : (s.destroy id).2.tree.Sound := by
  by_cases hid : s.tree.contains id
  · exact sound_destroyTo h hid rfl
  · rw [destroy_of_stale hid]
    exact h

/-- A library that has lost its children can be given an empty list. -/
theorem sound_emptied {library : BlockId} (h : s.tree.Sound)
    (hc : s.tree.children library = []) :
    (s.modifyChildren library fun _ => []).tree.Sound :=
  h.retouched ((reworked_modify s library _).orderly h.orderly) (retouched_emptied hc)

/-- Clearing a library keeps a tree sound: its children are destroyed one after the other, and it is
not marked itself. -/
theorem sound_clear (h : s.tree.Sound) (library : BlockId) :
    (s.clear library).2.tree.Sound := by
  unfold clear clearWith
  split
  · exact h
  · exact h
  · next child children hreq =>
    obtain ⟨hlib, hkids⟩ := requireLibrary_eq_ok_iff.mp hreq
    obtain ⟨hsound, hempty⟩ := destroy_children (P := fun s : Site β => s.tree.Sound)
      (fun _ hs => hs.forest) (fun _ _ hs hmem hsize =>
        have hid := Tree.contains_of_parent? (hs.forest.mem_children_iff.mp hmem)
        ⟨sound_destroyTo hs hid hsize, plucked_of_sound hs hid hsize⟩)
      (s := s.notify (.clearing library)) (child :: children) (sound_notify h _)
      (by rw [tree_notify]) (by rw [tree_notify, hkids])
    exact sound_notify (sound_emptied hsound hempty) _

/-! ### Reading blocks -/

/-- The steps of a walk that reads blocks keep a tree sound. -/
theorem keeps_sound [Payload β] : Inflate.Keeps fun s : Site β => s.tree.Sound where
  createFrom _ _ ref entry h _ := sound_createFrom h ref entry
  filled _ _ payload h _ _ := sound_setPayload (sound_createFrom h _ _) _ payload
  add _ library block h := relists_sound.add h library block
  destroy _ id h := sound_destroy h id

/-- So reading a stream does, from whatever source and however it ends. -/
theorem sound_inflate [Payload β] {σ : Type} [ByteSource σ] (h : s.tree.Sound)
    (settings : Settings) (source : σ) (monitor : Monitor) :
    (inflate settings s source monitor).2.site.tree.Sound :=
  keeps_sound.inflate settings h source monitor

end Site

end BlockForest
