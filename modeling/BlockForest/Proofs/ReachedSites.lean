import Mathlib
import BlockForest.Proofs.SoundPreservation
import BlockForest.Proofs.CatalogueInvariants
import BlockForest.Stock.Basic

/-!
# Runs

An `Op` is an operation on a site with its arguments, and `perform` carries it out; what it
answers is left aside, since an operation that fails is a step like any other. Between two
steps anything may happen to the catalogue, because other trees share it. `Reached` is every
site that comes about in this way from an empty tree and an empty catalogue, by operations that
are allowed where they take place.

Whatever is allowed, slots stay in order and the catalogue consistent. If nobody sets the mark
of a block that goes by hand, every tree that is reached is sound; `forest_of_reached` says what
this means for child lists, parent links and indexes.
-/

set_option autoImplicit false

namespace BlockForest

variable {β : Type}

namespace Catalogue

/-- A change of a catalogue. -/
inductive Op (β : Type) where
  | addRegistry
  | addEntry (type : BlockType β)
  | register (r : RegistryRef) (type : BlockType β)
  | unregister (r : RegistryRef) (name : String)
  | attachExtension (ref : EntryRef) (x : Extension)
  | detachExtension (ref : EntryRef) (x : Extension)
  /-- Another tree makes a block of the entry. -/
  | countUp (ref : EntryRef)
  /-- Another tree hands a block back to the entry. -/
  | release (ref : EntryRef)

/-- The catalogue after a change, however it ended. -/
def perform (c : Catalogue β) : Op β → Catalogue β
  | .addRegistry => c.addRegistry.2
  | .addEntry type => (c.addEntry type).2
  | .register r type => (c.register r type).2
  | .unregister r name => (c.unregister r name).2
  | .attachExtension ref x => c.modifyEntry ref fun e => (e.attachExtension x).2
  | .detachExtension ref x => c.modifyEntry ref fun e => (e.detachExtension x).2
  | .countUp ref => c.countUp ref
  | .release ref => c.release ref

/-- Whatever is done to a catalogue, its two maps stay consistent. -/
theorem Consistent.perform {c : Catalogue β} (h : c.Consistent) (op : Op β) :
    (c.perform op).Consistent := by
  cases op with
  | addRegistry => exact h.addRegistry
  | addEntry type => exact h.addEntry type
  | register r type => exact h.register r type
  | unregister r name => exact h.unregister r name
  | attachExtension ref x =>
    refine h.modifyEntry ref fun e => ?_
    unfold Entry.attachExtension
    split <;> exact ⟨rfl, rfl⟩
  | detachExtension ref x => exact h.modifyEntry ref fun e => ⟨rfl, rfl⟩
  | countUp ref => exact h.recounted (recounted_countUp c ref)
  | release ref => exact h.recounted (recounted_release c ref)

end Catalogue

namespace Site

/-- An operation on a site. -/
inductive Op (β : Type) where
  | create (name : String)
  | createByName (name : String)
  | createFrom (ref : EntryRef)
  | insertSystem (payload : β)
  | adopt (payload : β)
  | reclaim (id : BlockId)
  | add (library block : BlockId)
  | insert (library block : BlockId) (index : Nat)
  | remove (library block : BlockId)
  | detach (block : BlockId)
  | reparent (block library : BlockId)
  | reparentAt (block library : BlockId) (index : Nat)
  | swap (library a b : BlockId)
  | moveTo (library block : BlockId) (target : Nat)
  | clear (library : BlockId)
  | destroy (id : BlockId)
  | freeze (id : BlockId) (frozen : Bool)
  | rename (id : BlockId) (name : String)
  | setSerializable (id : BlockId) (on : Bool)
  | addFlag (id : BlockId) (flag : Flags)
  | removeFlag (id : BlockId) (flag : Flags)
  | setPayload (id : BlockId) (payload : β)
  | optimize (root : BlockId)
  /-- Blocks are read from any source, also from one that fails. -/
  | inflate {σ : Type} [ByteSource σ] (settings : Settings) (source : σ) (monitor : Monitor)
  | subscribe
  | unsubscribe (observer : Nat)

variable [Payload β]

/-- The site after an operation, however it ended. -/
def perform (s : Site β) : Op β → Site β
  | .create name => (s.create name).2
  | .createByName name => (s.createByName name).2
  | .createFrom ref => (s.catalogue.entryAt? ref).elim s fun entry => (s.createFrom ref entry).2
  | .insertSystem payload => (s.insertSystem payload).2
  | .adopt payload => (s.adopt payload).2
  | .reclaim id => (s.reclaim id).2
  | .add library block => (s.add library block).2
  | .insert library block index => (s.insert library block index).2
  | .remove library block => (s.remove library block).2
  | .detach block => (s.detach block).2
  | .reparent block library => (s.reparent block library).2
  | .reparentAt block library index => (s.reparentAt block library index).2
  | .swap library a b => (s.swap library a b).2
  | .moveTo library block target => (s.moveTo library block target).2
  | .clear library => (s.clear library).2
  | .destroy id => (s.destroy id).2
  | .freeze id frozen => (s.freeze id frozen).2
  | .rename id name => (s.rename id name).2
  | .setSerializable id on => (s.setSerializable id on).2
  | .addFlag id flag => (s.addFlag id flag).2
  | .removeFlag id flag => (s.removeFlag id flag).2
  | .setPayload id payload => s.setPayload id payload
  | .optimize root => s.optimize root
  | @Op.inflate _ _ _ settings source monitor =>
    (BlockForest.inflate settings s source monitor).2.site
  | .subscribe => s.setTree s.tree.subscribe.2
  | .unsubscribe observer => s.setTree (s.tree.unsubscribe observer).2

/-- A tree without blocks over one of the registries of a catalogue without types. -/
def start (registry : RegistryRef) : Site β := ⟨Catalogue.empty, Tree.empty registry, #[]⟩

/-- The sites that are reached by operations that are allowed. -/
inductive Reached (allowed : Site β → Op β → Prop) : Site β → Prop
  | start (registry : RegistryRef) : Reached allowed (start registry)
  | perform {s : Site β} {op : Op β} : Reached allowed s → allowed s op →
      Reached allowed (s.perform op)
  | elsewhere {s : Site β} (op : Catalogue.Op β) : Reached allowed s →
      Reached allowed { s with catalogue := s.catalogue.perform op }

/-- Everything is allowed. -/
def Any : Site β → Op β → Prop := fun _ _ => True

/-- Everything is allowed but to set the mark of a block that goes. -/
def Guarded : Site β → Op β → Prop
  | _, .addFlag _ flag => ¬ flag.contains Flags.beingDeleted
  | _, _ => True

variable {s : Site β} {allowed : Site β → Op β → Prop}

/-- What holds of the empty tree and is kept by every step holds of every site that is reached. -/
theorem Reached.induct {P : Site β → Prop} (hstart : ∀ registry, P (Site.start registry))
    (hperform : ∀ s op, allowed s op → P s → P (s.perform op))
    (helsewhere : ∀ s op, P s → P { s with catalogue := s.catalogue.perform op })
    (h : Reached allowed s) : P s := by
  induction h with
  | start registry => exact hstart registry
  | perform _ hop ih => exact hperform _ _ hop ih
  | elsewhere op _ ih => exact helsewhere _ op ih

/-- Runs that are allowed stay allowed if more is allowed. -/
theorem Reached.mono {allowed' : Site β → Op β → Prop}
    (hall : ∀ s op, allowed s op → allowed' s op) (h : Reached allowed s) :
    Reached allowed' s :=
  h.induct (fun registry => .start registry) (fun s op hop hs => hs.perform (hall s op hop))
    fun _ op hs => hs.elsewhere op

/-- What withstands the elementary changes is kept by every operation. The entry of `createFrom` is
the caller's choice. -/
theorem Tended.perform {P : Site β → Prop} (hk : Tended P) (hs : P s) {op : Op β}
    (hmade : ∀ ref entry, op = .createFrom ref → s.catalogue.entryAt? ref = some entry →
      P (s.createFrom ref entry).2) : P (s.perform op) := by
  cases op with
  | create name => exact hk.create hs name
  | createByName name => exact hk.createByName hs name
  | createFrom ref =>
    show P ((s.catalogue.entryAt? ref).elim s fun entry => (s.createFrom ref entry).2)
    cases he : s.catalogue.entryAt? ref with
    | none => exact hs
    | some entry => exact hmade ref entry rfl he
  | insertSystem payload => exact hk.place _ _ _ _ (by decide) hs
  | adopt payload => exact hk.place _ _ _ _ (by decide) hs
  | reclaim id => exact hk.reclaim id hs
  | add library block => exact hk.work hs (reworked_add s library block)
  | insert library block index => exact hk.work hs (reworked_insert s library block index)
  | remove library block => exact hk.work hs (reworked_remove s library block)
  | detach block => exact hk.work hs (reworked_detach s block)
  | reparent block library => exact hk.work hs (reworked_reparent s block library)
  | reparentAt block library index => exact hk.work hs (reworked_reparentAt s block library index)
  | swap library a b => exact hk.work hs (reworked_swap s library a b)
  | moveTo library block target => exact hk.work hs (reworked_moveTo s library block target)
  | clear library => exact hk.clear hs library
  | destroy id => exact hk.destroy hs id
  | freeze id frozen => exact hk.work hs (reworked_freezeTo frozen _ s id)
  | rename id name => exact hk.work hs (reworked_rename s id name)
  | setSerializable id on => exact hk.work hs (reworked_setSerializable s id on)
  | addFlag id flag => exact hk.work hs (reworked_update s id _)
  | removeFlag id flag => exact hk.work hs (reworked_update s id _)
  | setPayload id payload => exact hk.work hs (reworked_modify s id _)
  | optimize root => exact hk.work hs (reworked_optimize s root)
  | inflate settings source monitor =>
    exact (Inflate.keeps_of_tended hk).inflate settings hs source monitor
  | subscribe => exact hk.audience rfl rfl rfl rfl hs
  | unsubscribe observer => exact hk.audience rfl rfl rfl rfl hs

/-- Every operation lasts, whatever it is and however it ends. -/
theorem lasting_perform (s : Site β) (op : Op β) : Lasting s (s.perform op) :=
  (tended_lasting s).perform (.refl s) fun ref entry _ _ => lasting_createFrom s ref entry

/-- By induction on the run, the slots of a site that is reached are in order, whatever was
allowed. -/
theorem Reached.orderly (h : Reached allowed s) : s.tree.Orderly :=
  h.induct (P := fun s => s.tree.Orderly) (fun registry => Tree.orderly_empty registry)
    (fun s op _ ho => (lasting_perform s op).orderly ho) fun _ _ ho => ho

/-- By induction on the run, the catalogue of a site that is reached is consistent. -/
theorem Reached.consistent (h : Reached allowed s) : s.catalogue.Consistent :=
  h.induct (P := fun s => s.catalogue.Consistent) (fun _ => Catalogue.consistent_empty)
    (fun s op _ hc => hc.recounted (lasting_perform s op).catalogue)
    fun _ op hc => hc.perform op

/-! ### Runs that set no mark -/

/-- Every operation that does not set the mark by hand keeps a tree sound. One case for each
operation. -/
theorem sound_perform (h : s.tree.Sound) {op : Op β} (hop : Guarded s op) :
    (s.perform op).tree.Sound := by
  cases op with
  | create name => exact sound_create h name
  | createByName name => exact sound_createByName h name
  | createFrom ref =>
    show ((s.catalogue.entryAt? ref).elim s fun entry => (s.createFrom ref entry).2).tree.Sound
    cases s.catalogue.entryAt? ref with
    | none => exact h
    | some entry => exact sound_createFrom h ref entry
  | insertSystem payload => exact sound_place h _ _ _ _
  | adopt payload => exact sound_place h _ _ _ _
  | reclaim id => exact sound_reclaim h id
  | add library block => exact relists_sound.add h library block
  | insert library block index => exact relists_sound.insert h library block index
  | remove library block => exact relists_sound.remove h library block
  | detach block => exact relists_sound.detach h block
  | reparent block library => exact relists_sound.reparent h block library
  | reparentAt block library index => exact relists_sound.reparentAt h block library index
  | swap library a b => exact relists_sound.swap h library a b
  | moveTo library block target => exact relists_sound.moveTo h library block target
  | clear library => exact sound_clear h library
  | destroy id => exact sound_destroy h id
  | freeze id frozen => exact sound_freezeTo frozen _ h id
  | rename id name => exact sound_rename h id name
  | setSerializable id on => exact sound_setSerializable h id on
  | addFlag id flag => exact sound_addFlag h id hop
  | removeFlag id flag => exact sound_removeFlag h id flag
  | setPayload id payload => exact sound_setPayload h id payload
  | optimize root => exact sound_optimize h root
  | inflate settings source monitor => exact sound_inflate h settings source monitor
  | subscribe => exact h.of_slots rfl rfl rfl
  | unsubscribe observer => exact h.of_slots rfl rfl rfl

/-- By induction on the run, the tree of a site that is reached in this way is sound. -/
theorem Reached.sound (h : Reached Guarded s) : s.tree.Sound :=
  h.induct (P := fun s => s.tree.Sound) (fun registry => Tree.sound_empty registry)
    (fun _ _ hop hs => sound_perform hs hop) fun _ _ hs => hs

end Site

namespace Tree

variable {t : Tree β}

/-- The block that so many parent links lead to. -/
def climb (t : Tree β) : Nat → BlockId → Option BlockId
  | 0, id => some id
  | n + 1, id => (t.parent? id).bind (t.climb n)

/-- In a forest the links from a live block lead to a block that belongs to no library. -/
theorem Forest.climb_to_top (h : t.Forest) {id : BlockId} {d : Nat} (hd : t.Rises id d)
    (hid : t.contains id) :
    ∃ top, t.climb d id = some top ∧ t.contains top ∧ t.parent? top = none := by
  induction hd with
  | @top b hp => exact ⟨b, rfl, hid, hp⟩
  | @up b p d hp _ ih =>
    have hparent := contains_of_isLibrary (isLibrary_of_mem_children (h.listed b p hp))
    obtain ⟨top, hclimb, htop⟩ := ih hparent
    refine ⟨top, ?_, htop⟩
    rw [climb, hp]
    exact hclimb

end Tree

namespace Site

variable [Payload β] {s : Site β}

/-- After any run in which nobody sets the mark by hand, child lists, parent links and indexes
tell the same story, and every chain of parent links ends. -/
theorem forest_of_reached (h : Reached Guarded s) :
    (∀ library, s.tree.isLibrary library →
      (s.tree.children library).Nodup ∧
        ∀ index id, (s.tree.children library)[index]? = some id →
          s.tree.contains id ∧ s.tree.parent? id = some library ∧
            s.tree.index? id = some index) ∧
      (∀ id library, s.tree.parent? id = some library →
        s.tree.contains library ∧ s.tree.isLibrary library ∧ id ∈ s.tree.children library) ∧
      (∀ id, (s.tree.index? id).isSome ↔ (s.tree.parent? id).isSome) ∧
      ∀ id, s.tree.contains id →
        ∃ steps top, s.tree.climb steps id = some top ∧ s.tree.contains top ∧
          s.tree.parent? top = none := by
  have hforest := h.sound.forest
  refine ⟨?_, ?_, hforest.indexed, ?_⟩
  · intro library _
    refine ⟨hforest.nodup_children library, fun index id hid => ?_⟩
    obtain ⟨hp, hi⟩ := hforest.child library index id hid
    exact ⟨Tree.contains_of_parent? hp, hp, hi⟩
  · intro id library hp
    have hmem := hforest.listed id library hp
    have hlib := Tree.isLibrary_of_mem_children hmem
    exact ⟨Tree.contains_of_isLibrary hlib, hlib, hmem⟩
  · intro id hid
    obtain ⟨d, hd⟩ := hforest.grounded id
    exact ⟨d, hforest.climb_to_top hd hid⟩

/-- A folder in a library, and a refused attempt to put the library into the folder. -/
theorem forest_of_reached_folder :
    let s : Site Stock := ((((start 0).perform (.adopt .library)).perform
      (.insertSystem (.folder ⟨"", false⟩))).perform (.add ⟨0, 0⟩ ⟨1, 0⟩)).perform
        (.add ⟨1, 0⟩ ⟨0, 0⟩)
    s.tree.isLibrary ⟨0, 0⟩ ∧ (s.tree.children ⟨0, 0⟩)[0]? = some ⟨1, 0⟩ ∧
      s.tree.parent? ⟨1, 0⟩ = some ⟨0, 0⟩ ∧ s.tree.index? ⟨1, 0⟩ = some 0 := by
  intro s
  have hreached : Reached Guarded s :=
    .perform (.perform (.perform (.perform (.start 0) trivial) trivial) trivial) trivial
  have hlib : s.tree.isLibrary ⟨0, 0⟩ := by decide
  have hchild : (s.tree.children ⟨0, 0⟩)[0]? = some ⟨1, 0⟩ := by decide
  obtain ⟨-, hlinks⟩ := (forest_of_reached hreached).1 ⟨0, 0⟩ hlib
  exact ⟨hlib, hchild, (hlinks 0 ⟨1, 0⟩ hchild).2⟩

end Site

end BlockForest
