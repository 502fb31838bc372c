import Mathlib
import BlockForest.Proofs.ChildListRearrangement

/-!
# Calls that are refused

A call that is refused leaves the site as it was: the tree, the catalogue, and what the observers
were told. Most calls look at everything that could go wrong before they change anything, and
then only the refusal has to be followed. Two calls look less far ahead.

* `freeze` works its way down and would stop at a child that is gone. In a forest no child is
  gone, so what it may find stale is the block it was called with.
* `reparentAt` takes the block out of its library and then inserts it, and the insertion looks
  at the tree in between. `Movable` is what the check in front asks for, and it is enough for
  both: a library that loses a child is above nobody new, and a position that was counted without
  the block fits the list without the block.
-/

set_option autoImplicit false

namespace BlockForest

open ChildLists (without)

variable {β : Type}

/-- A call that may be refused. -/
inductive Request where
  | create (name : String)
  | reclaim (id : BlockId)
  | rearrange (c : Rearrangement)
  | clear (library : BlockId)
  | rename (id : BlockId) (name : String)
  | addFlag (id : BlockId) (flag : Flags)
  | removeFlag (id : BlockId) (flag : Flags)
  | setSerializable (id : BlockId) (on : Bool)
  | freeze (id : BlockId) (frozen : Bool)

/-- Carries out a call. Of what it answers only a refusal is kept. -/
def Request.run [Payload β] (s : Site β) : Request → Except TreeError Unit × Site β
  | create name => ((s.create name).1.map fun _ => (), (s.create name).2)
  | reclaim id => ((s.reclaim id).1.map fun _ => (), (s.reclaim id).2)
  | rearrange c => c.run s
  | clear library => s.clear library
  | rename id name => s.rename id name
  | addFlag id flag => s.addFlag id flag
  | removeFlag id flag => s.removeFlag id flag
  | setSerializable id on => s.setSerializable id on
  | freeze id frozen => s.freeze id frozen

namespace Site

variable {s : Site β} {library block : BlockId}

/-- If the call was refused, it left the site as it was. -/
def Inert {α : Type} (s : Site β) (call : Except TreeError α × Site β) : Prop :=
  ∀ e, call.1 = .error e → call.2 = s

/-- A call that is refused at the start has done nothing. -/
theorem inert_refused {α : Type} (s : Site β) (e : TreeError) :
    Inert s ((.error e, s) : Except TreeError α × Site β) := fun _ _ => rfl

/-- A call that succeeds was not refused, so nothing is asked of it. -/
theorem inert_done {α : Type} {s s' : Site β} (a : α) :
    Inert s ((.ok a, s') : Except TreeError α × Site β) := fun _ h => nomatch h

/-- A call that goes through cannot have been refused. -/
theorem inert_of_ok {α : Type} {call : Except TreeError α × Site β} {a : α}
    (h : call.1 = .ok a) : Inert s call := fun _ he => nomatch h.symm.trans he

/-- What a call answers when it succeeds does not matter. -/
theorem Inert.map {α γ : Type} {call : Except TreeError α × Site β} (h : Inert s call)
    (f : α → γ) : Inert s (call.1.map f, call.2) := by
  intro e he
  obtain ⟨outcome, s'⟩ := call
  cases outcome with
  | error e' => exact h e' rfl
  | ok a => cases he

/-! ### Calls that look first -/

/-- A type that is not known makes no block. -/
theorem inert_create [Payload β] (s : Site β) (name : String) : Inert s (s.create name) := by
  unfold create createByName
  split
  · exact inert_done _
  · next heq =>
    split at heq
    · cases heq
    · cases heq
      exact inert_refused s _

/-- A block that may not be reclaimed is left where it is. -/
theorem inert_reclaim (s : Site β) (id : BlockId) : Inert s (s.reclaim id) := by
  unfold reclaim
  split
  · exact inert_done _
  · exact inert_refused s _

/-- An attribute of a block that is not there is not changed. -/
theorem inert_update (s : Site β) (id : BlockId) (f : Node β → Node β) :
    Inert s (s.update id f) := by
  unfold update
  split
  · exact inert_done _
  · exact inert_refused s _

/-- A name is not given to a block that is not there. -/
theorem inert_rename (s : Site β) (id : BlockId) (name : String) :
    Inert s (s.rename id name) := by
  unfold rename
  split
  · exact inert_refused s _
  · split
    · exact inert_done _
    · exact inert_done _

/-- A block that is not there is not marked for serialization. -/
theorem inert_setSerializable (s : Site β) (id : BlockId) (on : Bool) :
    Inert s (s.setSerializable id on) := by
  unfold setSerializable
  split
  · exact inert_update s id _
  · exact inert_update s id _

/-- What is not a library is not cleared, and a library is cleared without an error. -/
theorem inert_clear (s : Site β) (library : BlockId) : Inert s (s.clear library) := by
  unfold clear clearWith
  split
  · exact inert_refused s _
  · exact inert_done _
  · exact inert_done _

/-- A removal is refused before anything is removed. -/
theorem inert_remove (s : Site β) (library block : BlockId) :
    Inert s (s.remove library block) := by
  unfold remove
  split
  · exact inert_done _
  · exact inert_refused s _

/-- Detaching fails for a name that is stale, or if its removal is refused. -/
theorem inert_detach (s : Site β) (block : BlockId) : Inert s (s.detach block) := by
  unfold detach
  split
  · exact inert_refused s _
  · split
    · exact inert_remove s _ block
    · exact inert_done _

/-- An exchange is refused before anything is exchanged. -/
theorem inert_swap (s : Site β) (library a b : BlockId) : Inert s (s.swap library a b) := by
  unfold swap
  split
  · exact inert_refused s _
  · exact inert_refused s _
  · exact inert_done _

/-- A move is refused before anything is moved. -/
theorem inert_moveTo (s : Site β) (library block : BlockId) (target : Nat) :
    Inert s (s.moveTo library block target) := by
  unfold moveTo
  split
  · exact inert_refused s _
  · simp only
    split
    · exact inert_refused s _
    · split
      · exact inert_done _
      · exact inert_done _

/-! ### Freezing -/

/-- A walk over a list goes through if each of its steps does. -/
theorem forEach_eq_ok {P : Site β → Prop}
    {act : Site β → BlockId → Except TreeError Unit × Site β} {ids : List BlockId}
    (hact : ∀ s, P s → ∀ id ∈ ids, (act s id).1 = .ok () ∧ P (act s id).2) {s : Site β}
    (hs : P s) : (forEach act s ids).1 = .ok () := by
  induction ids generalizing s with
  | nil => rfl
  | cons id rest ih =>
    obtain ⟨hok, hnext⟩ := hact s hs id List.mem_cons_self
    unfold forEach
    generalize act s id = r at hok hnext
    obtain ⟨_, s'⟩ := r
    cases hok
    exact ih (fun s hs id hid => hact s hs id (List.mem_cons_of_mem _ hid)) hnext

/-- A block of a forest can be frozen, since none of its descendants is gone. -/
theorem freezeTo_eq_ok (frozen : Bool) (levels : Nat) {id : BlockId} (h : s.tree.Forest)
    (hid : s.tree.contains id) : (freezeTo frozen levels s id).1 = .ok () := by
  induction levels generalizing s id with
  | zero => rfl
  | succ levels ih =>
    obtain ⟨node, hn⟩ := Option.isSome_iff_exists.mp hid
    have hreq := require_eq_ok_iff.mpr hn
    unfold freezeTo
    simp only [hreq]
    split
    · rfl
    · have hforest : (s.modify id fun node => { node with frozen := frozen }).tree.Forest :=
        Tree.SameLinks.forest
          (Tree.sameLinks_modify s.tree id (fun _ => rfl) (fun _ => rfl) fun _ => rfl) h
      generalize (s.modify id fun node => { node with frozen := frozen }) = s₁ at hforest ⊢
      rw [tree_notify]
      -- Freezing one child leaves the others where they are.
      apply forEach_eq_ok (P := fun s' : Site β => s'.tree.Forest ∧
        ∀ kid ∈ s₁.tree.children id, s'.tree.contains kid)
      · rintro s' ⟨hforest', hkids⟩ kid hkid
        refine ⟨ih hforest' (hkids kid hkid), ?_, fun other ho => ?_⟩
        · exact (retouched_freezeTo frozen levels s' kid).links.forest hforest'
        · rw [(reworked_freezeTo frozen levels s' kid).contains]
          exact hkids other ho
      · rw [tree_notify]
        exact ⟨hforest, fun kid hkid =>
          Tree.contains_of_parent? (hforest.mem_children_iff.mp hkid)⟩

/-- In a forest freezing fails only at the block it starts with, since all blocks below it are
alive. -/
theorem inert_freeze (h : s.tree.Forest) (id : BlockId) (frozen : Bool) :
    Inert s (s.freeze id frozen) := by
  by_cases hid : s.tree.contains id
  · exact inert_of_ok (freezeTo_eq_ok frozen _ h hid)
  · have hnone : s.tree.node? id = none := by simpa [Tree.contains] using hid
    have hstale : s.tree.require id = .error (.staleBlock id) := by
      rw [Tree.require, hnone]
    unfold freeze freezeTo
    simp only [hstale]
    exact inert_refused s _

end Site

/-! ### Moving to another library -/

namespace Tree

variable {t t' : Tree β}

/-- If no link is new, nobody is above a block who was not above it before. -/
theorem Above.of_links (hlinks : ∀ id p, t'.parent? id = some p → t.parent? id = some p)
    {a b : BlockId} (h : t'.Above a b) : t.Above a b := by
  induction h with
  | refl => exact .refl _
  | up hp _ ih => exact .up (hlinks _ _ hp) ih

variable {id : BlockId} (h : (t'.node? id).map Node.placeless = (t.node? id).map Node.placeless)

include h

/-- Trees that differ in links only have the same live blocks. -/
theorem contains_of_placeless : t'.contains id = t.contains id := by
  have hsome := congrArg Option.isSome h
  rwa [Option.isSome_map, Option.isSome_map] at hsome

/-- They have the same payloads. -/
theorem payload?_of_placeless : t'.payload? id = t.payload? id := by
  have hpayload := congrArg (Option.map Node.payload) h
  rwa [Option.map_map, Option.map_map] at hpayload

/-- They have the same marks. -/
theorem isBeingDeleted_of_placeless : t'.isBeingDeleted id = t.isBeingDeleted id := by
  have hflags := congrArg (fun node => node.elim Flags.empty Node.flags) h
  simp only [Option.elim_map] at hflags
  unfold isBeingDeleted checkFlag flags
  exact congrArg (fun f => Flags.contains f Flags.beingDeleted) hflags

/-- They have the same libraries. -/
theorem isLibrary_of_placeless : t'.isLibrary id = t.isLibrary id := by
  have hlibrary := congrArg (fun node => node.any fun node => node.children.isSome) h
  simp only [Option.any_map, Node.placeless, Option.isSome_map] at hlibrary
  exact hlibrary

end Tree

namespace Site

variable [Payload β] {s : Site β} {t : Tree β} {library block : BlockId} {index : Nat}

/-- What the check for a move asks for. -/
structure Movable (t : Tree β) (block library : BlockId) (index : Nat) : Prop where
  isLibrary : t.isLibrary library
  contains : t.contains block
  bound : index ≤ (without t.children block library).length
  unmarked : ¬ t.isBeingDeleted library ∧ ¬ t.isBeingDeleted block
  apart : block ∉ t.ancestors library
  accepted : ∃ p q, t.payload? library = some p ∧ t.payload? block = some q ∧
    Payload.accepts p q

/-- A check for compatibility that lets two blocks through has found that neither is marked, that
the one is not above the other, and that the library accepts the block. -/
theorem compatible_of_check (h : checkCompatible t library block = .ok ()) :
    (¬ t.isBeingDeleted library ∧ ¬ t.isBeingDeleted block) ∧ block ∉ t.ancestors library ∧
      ∃ p q, t.payload? library = some p ∧ t.payload? block = some q ∧ Payload.accepts p q := by
  unfold checkCompatible at h
  split at h
  · cases h
  · cases h
  · next libraryNode node hl hn =>
    rw [require_eq_ok_iff] at hl hn
    split_ifs at h with hmark hmark' habove haccept
    rw [Tree.isBeingDeleted_of_node? hl, Tree.isBeingDeleted_of_node? hn]
    refine ⟨⟨hmark, hmark'⟩, fun hmem => habove (List.contains_iff_mem.mpr hmem),
      libraryNode.payload, node.payload, ?_, ?_, by simpa using haccept⟩
    · rw [Tree.payload?, hl]
      rfl
    · rw [Tree.payload?, hn]
      rfl

/-- A check for a move that lets a block through has found it movable. -/
theorem movable_of_check (h : t.Forest) {parent : Option BlockId}
    (hcheck : checkReparent t block library index = .ok parent) :
    Movable t block library index := by
  have hlength := h.length_without library block
  unfold checkReparent at hcheck
  split at hcheck
  · cases hcheck
  · next node hreq =>
    rw [parent?_of_require hreq] at hlength
    split at hcheck
    · cases hcheck
    · next children hreq' =>
      obtain ⟨hlib, rfl⟩ := requireLibrary_eq_ok_iff.mp hreq'
      simp only [← hlength] at hcheck
      split at hcheck
      · cases hcheck
      · next hbound =>
        split at hcheck
        · next hcompatible =>
          obtain ⟨hmark, habove, haccept⟩ := compatible_of_check hcompatible
          refine ⟨hlib, ?_, Nat.not_lt.mp hbound, hmark, habove, haccept⟩
          rw [require_eq_ok_iff] at hreq
          simp [Tree.contains, hreq]
        · cases hcheck

/-- A block that belongs to nobody can be inserted where it can be moved. -/
theorem Movable.insert_eq_ok (h : Movable s.tree block library index) (hf : s.tree.Forest)
    (hp : s.tree.parent? block = none) : (s.insert library block index).1 = .ok () := by
  have hbound := h.bound
  rw [hf.without_eq_self hp] at hbound
  have hcheck : checkInsertion s.tree library block index = .ok () :=
    checkInsertion_eq_ok_iff.mpr
      ⟨⟨h.isLibrary, h.contains, hp, h.unmarked, h.apart, h.accepted⟩, hbound⟩
  unfold insert
  rw [hcheck]

/-- A block that can be moved can still be moved when it has left its library. -/
theorem Movable.remove {old : BlockId} (h : Movable s.tree block library index)
    (hs : s.tree.Sound) (hp : s.tree.parent? block = some old) :
    (s.remove old block).1 = .ok () ∧
      Movable (s.remove old block).2.tree block library index ∧
        (s.remove old block).2.tree.parent? block = none := by
  have hmem := hs.forest.mem_children_iff.mpr hp
  obtain ⟨position, hpos⟩ := positionOf_of_mem hmem
  have hok : (s.remove old block).1 = .ok () := by
    unfold Site.remove
    rw [hpos]
  have hforest : (s.remove old block).2.tree.Forest := (relists_sound.remove hs old block).forest
  obtain ⟨-, hr⟩ := rearranged_remove hs hok
  have hlists := hr.children
  rw [← hs.forest.without_eq_update hp] at hlists
  generalize (s.remove old block).2 = s' at hforest hr hlists
  -- What is listed now was listed before, and it is not the block.
  have hlisted : ∀ id p, s'.tree.parent? id = some p → s.tree.parent? id = some p ∧ id ≠ block := by
    intro id p hparent
    have hin := hforest.listed id p hparent
    rw [hlists, without, (hs.forest.nodup_children p).mem_erase_iff] at hin
    exact ⟨hs.forest.mem_children_iff.mp hin.2, hin.1⟩
  have hfree : s'.tree.parent? block = none :=
    Option.eq_none_iff_forall_ne_some.mpr fun p hparent => (hlisted block p hparent).2 rfl
  have hsame := hr.placeless
  refine ⟨hok, ⟨?_, ?_, ?_, ?_, ?_, ?_⟩, hfree⟩
  · rw [Tree.isLibrary_of_placeless (hsame library)]
    exact h.isLibrary
  · rw [Tree.contains_of_placeless (hsame block)]
    exact h.contains
  · rw [hforest.without_eq_self hfree, hlists]
    exact h.bound
  · rw [Tree.isBeingDeleted_of_placeless (hsame library),
      Tree.isBeingDeleted_of_placeless (hsame block)]
    exact h.unmarked
  · have hlib' : s'.tree.contains library := by
      rw [Tree.contains_of_placeless (hsame library)]
      exact Tree.contains_of_isLibrary h.isLibrary
    have hapart := h.apart
    rw [hs.forest.mem_ancestors (Tree.contains_of_isLibrary h.isLibrary)] at hapart
    rw [hforest.mem_ancestors hlib']
    exact fun habove => hapart (habove.of_links fun id p hparent => (hlisted id p hparent).1)
  · rw [Tree.payload?_of_placeless (hsame library), Tree.payload?_of_placeless (hsame block)]
    exact h.accepted

/-- A move that passes its check goes through: the block leaves its library, if it has one, and
can be inserted then. -/
theorem reparentAt_eq_ok (h : s.tree.Sound) {parent : Option BlockId}
    (hcheck : checkReparent s.tree block library index = .ok parent) :
    (s.reparentAt block library index).1 = .ok () ∧
      (parent = none → (s.insert library block index).1 = .ok ()) ∧
        ∀ old, parent = some old → (s.remove old block).1 = .ok () ∧
          ((s.remove old block).2.insert library block index).1 = .ok () := by
  have hmovable := movable_of_check h.forest hcheck
  have hparent := parent?_of_checkReparent hcheck
  unfold reparentAt
  cases parent with
  | none =>
    have hinsert := hmovable.insert_eq_ok h.forest hparent
    simp only [hcheck]
    exact ⟨hinsert, fun _ => hinsert, nofun⟩
  | some old =>
    obtain ⟨hremove, hmovable', hfree⟩ := hmovable.remove h hparent
    have hinsert := hmovable'.insert_eq_ok (relists_sound.remove h old block).forest hfree
    refine ⟨?_, nofun, ?_⟩
    · simp only [hcheck]
      generalize s.remove old block = r at hremove hinsert ⊢
      obtain ⟨_, s'⟩ := r
      cases hremove
      exact hinsert
    · rintro _ ⟨⟩
      exact ⟨hremove, hinsert⟩

/-- An insertion is refused before anything is inserted. -/
theorem inert_insert (s : Site β) (library block : BlockId) (index : Nat) :
    Inert s (s.insert library block index) := by
  unfold insert
  split
  · exact inert_done _
  · exact inert_refused s _

/-- Adding fails only if its insertion is refused. -/
theorem inert_add (s : Site β) (library block : BlockId) : Inert s (s.add library block) := by
  unfold add
  split
  · exact inert_insert s library block _
  · exact inert_refused s _

/-- The removal in the first half cannot fail once the check is passed, and then the insertion in
the second half cannot fail either. So a move to another library fails before anything has
happened. -/
theorem inert_reparentAt (h : s.tree.Sound) (block library : BlockId) (index : Nat) :
    Inert s (s.reparentAt block library index) := by
  cases hcheck : checkReparent s.tree block library index with
  | ok parent => exact inert_of_ok (reparentAt_eq_ok h hcheck).1
  | error e =>
    unfold reparentAt
    rw [hcheck]
    exact inert_refused s _

/-- The same holds of a move to the end of another library. -/
theorem inert_reparent (h : s.tree.Sound) (block library : BlockId) :
    Inert s (s.reparent block library) := by
  unfold reparent
  split
  · exact inert_refused s _
  · exact inert_reparentAt h block library _

/-- Every rearrangement that is refused has left the site as it was. -/
theorem inert_rearrangement (h : s.tree.Sound) (c : Rearrangement) : Inert s (c.run s) := by
  cases c with
  | insert library block index => exact inert_insert s library block index
  | add library block => exact inert_add s library block
  | remove library block => exact inert_remove s library block
  | detach block => exact inert_detach s block
  | swap library a b => exact inert_swap s library a b
  | moveTo library block target => exact inert_moveTo s library block target
  | reparentAt block library index => exact inert_reparentAt h block library index
  | reparent block library => exact inert_reparent h block library

/-- Every call that is refused has left the site as it was. One case for each kind of call. -/
theorem inert_run (h : s.tree.Sound) (q : Request) : Inert s (q.run s) := by
  cases q with
  | create name => exact (inert_create s name).map _
  | reclaim id => exact (inert_reclaim s id).map _
  | rearrange c => exact inert_rearrangement h c
  | clear library => exact inert_clear s library
  | rename id name => exact inert_rename s id name
  | addFlag id flag => exact inert_update s id _
  | removeFlag id flag => exact inert_update s id _
  | setSerializable id on => exact inert_setSerializable s id on
  | freeze id frozen => exact inert_freeze h.forest id frozen

/-- A call that is refused leaves everything as it was: the tree, the catalogue, and what the
observers were told. A move to another library is never refused halfway: once its check is
passed, the block can be taken out and put in. -/
theorem unchanged_of_refused (h : Reached Guarded s) :
    (∀ (q : Request) (e : TreeError), (q.run s).1 = .error e → (q.run s).2 = s) ∧
      ∀ block library index parent,
        checkReparent s.tree block library index = .ok parent →
          (s.reparentAt block library index).1 = .ok () ∧
            (parent = none → (s.insert library block index).1 = .ok ()) ∧
              ∀ old, parent = some old → (s.remove old block).1 = .ok () ∧
                ((s.remove old block).2.insert library block index).1 = .ok () :=
  ⟨fun q => inert_run h.sound q, fun _ _ _ _ hcheck => reparentAt_eq_ok h.sound hcheck⟩

/-- A library is refused a place in the folder that it holds. The folder itself may be moved to
where it stands. -/
theorem unchanged_of_refused_folder :
    let s : Site Stock := ((((start 0).perform (.adopt .library)).perform .subscribe).perform
      (.adopt (.folder ⟨"", false⟩))).perform (.add ⟨0, 0⟩ ⟨1, 0⟩)
    let cycle : Request := .rearrange (.reparentAt ⟨0, 0⟩ ⟨1, 0⟩ 0)
    (cycle.run s).1 = .error (.cycleDetected ⟨1, 0⟩ ⟨0, 0⟩) ∧ (cycle.run s).2 = s ∧
      s.notices.size = 4 ∧
      checkReparent s.tree ⟨1, 0⟩ ⟨0, 0⟩ 0 = .ok (some ⟨0, 0⟩) ∧
      (s.remove ⟨0, 0⟩ ⟨1, 0⟩).1 = .ok () ∧
      ((s.remove ⟨0, 0⟩ ⟨1, 0⟩).2.insert ⟨0, 0⟩ ⟨1, 0⟩ 0).1 = .ok () := by
  intro s cycle
  have hreached : Reached Guarded s :=
    .perform (.perform (.perform (.perform (.start 0) trivial) trivial) trivial) trivial
  obtain ⟨hinert, hmove⟩ := unchanged_of_refused hreached
  have hrefused : (cycle.run s).1 = .error (.cycleDetected ⟨1, 0⟩ ⟨0, 0⟩) := by decide
  have hcheck : checkReparent s.tree ⟨1, 0⟩ ⟨0, 0⟩ 0 = .ok (some ⟨0, 0⟩) := by decide
  exact ⟨hrefused, hinert cycle _ hrefused, by decide, hcheck,
    (hmove _ _ _ _ hcheck).2.2 _ rfl⟩

end Site

end BlockForest
