import Mathlib
import BlockForest.Proofs.ChildListEdits
import BlockForest.Stream.Inflate

/-!
# What every operation keeps

Whatever an operation on a site does, and whether it succeeds or fails, the slots stay in order,
the tree goes on using its registry, and no entry of the catalogue gets another type or another
table of properties. This is `Lasting`. Nothing is assumed of the site but that its slots are in
order: flags, links and child lists may be as they are.

An operation on what is there is even `ReworkedInPlace`: it brings no block, takes none away and
leaves all owners as they are. Besides, blocks are made, taken back and given back to their owners,
and that is all. `Upkept` and `Tended` list these changes for destroying and for all operations; what
withstands them is kept, so the walks of `destroy` and `inflate` are followed once for all that
is said of them here.
-/

set_option autoImplicit false

namespace BlockForest

variable {β : Type}

/-! ### Counting blocks -/

namespace Catalogue

variable {c c' c'' : Catalogue β}

/-- An entry that is changed is found changed, and all others as they were. -/
theorem entryAt?_modifyEntry (c : Catalogue β) (ref other : EntryRef)
    (f : Entry β → Entry β) :
    (c.modifyEntry ref f).entryAt? other =
      (c.entryAt? other).map fun e => if other = ref then f e else e := by
  unfold modifyEntry
  cases he : c.entryAt? ref with
  | none =>
    by_cases ho : other = ref
    · simp [ho, he]
    · simp [ho]
  | some entry =>
    obtain ⟨hlt, -⟩ := Array.getElem?_eq_some_iff.mp he
    by_cases ho : other = ref
    · subst ho
      unfold entryAt? at he ⊢
      rw [he]
      simp [hlt]
    · have hne : ref ≠ other := fun h => ho h.symm
      simp [entryAt?, ho, Array.getElem?_setIfInBounds_ne hne]

/-- What is found by a name is what the name leads to, and it is there. -/
theorem entryAt?_of_findName {r : RegistryRef} {name : String} {ref : EntryRef}
    {entry : Entry β} (hf : c.findName r name = some (ref, entry)) :
    c.lookupName r name = some ref ∧ c.entryAt? ref = some entry := by
  obtain ⟨ref', href, hentry⟩ := Option.bind_eq_some_iff.mp hf
  obtain ⟨entry', he, heq⟩ := Option.map_eq_some_iff.mp hentry
  cases heq
  exact ⟨href, he⟩

/-- What is found by an identifier is there. -/
theorem entryAt?_of_findId {r : RegistryRef} {id : UInt32} {ref : EntryRef} {entry : Entry β}
    (hf : c.findId r id = some (ref, entry)) : c.entryAt? ref = some entry := by
  obtain ⟨ref', -, hentry⟩ := Option.bind_eq_some_iff.mp hf
  obtain ⟨entry', he, heq⟩ := Option.map_eq_some_iff.mp hentry
  cases heq
  exact he

/-- The registry finds the entry, by a name or by an identifier. -/
def Finds (c : Catalogue β) (r : RegistryRef) (ref : EntryRef) (entry : Entry β) : Prop :=
  (∃ name, c.findName r name = some (ref, entry)) ∨ ∃ id, c.findId r id = some (ref, entry)

/-- To change an entry changes no registry. -/
@[simp] theorem registries_modifyEntry (c : Catalogue β) (ref : EntryRef)
    (f : Entry β → Entry β) : (c.modifyEntry ref f).registries = c.registries := by
  unfold modifyEntry
  split <;> rfl

/-- The two catalogues differ in the numbers of blocks alive and nothing else. -/
structure Recounted (c c' : Catalogue β) : Prop where
  registries : c'.registries = c.registries
  entries : ∀ ref, (c'.entryAt? ref).map (fun e => { e with instances := 0 }) =
    (c.entryAt? ref).map fun e => { e with instances := 0 }

/-- A catalogue differs in nothing from itself. -/
theorem Recounted.refl (c : Catalogue β) : Recounted c c := ⟨rfl, fun _ => rfl⟩

/-- Catalogues that differ in counts only, twice, do so from end to end. -/
theorem Recounted.trans (h : Recounted c c') (h' : Recounted c' c'') : Recounted c c'' :=
  ⟨h'.registries.trans h.registries, fun ref => (h'.entries ref).trans (h.entries ref)⟩

/-- A change of an entry that touches its count only recounts the catalogue. -/
theorem recounted_modifyEntry (c : Catalogue β) (ref : EntryRef) {f : Entry β → Entry β}
    (hf : ∀ e, { f e with instances := 0 } = { e with instances := 0 }) :
    Recounted c (c.modifyEntry ref f) := by
  refine ⟨registries_modifyEntry c ref f, fun other => ?_⟩
  rw [entryAt?_modifyEntry, Option.map_map]
  congr 1
  funext e
  by_cases ho : other = ref
  · simp [ho, hf e]
  · simp [ho]

/-- An entry that counts other blocks is still that of its type. -/
theorem Recounted.type_eq (h : Recounted c c') (ref : EntryRef) :
    (c'.entryAt? ref).map Entry.type = (c.entryAt? ref).map Entry.type := by
  have hentries := congrArg (Option.map Entry.type) (h.entries ref)
  rwa [Option.map_map, Option.map_map] at hentries

/-- Counting a block is such a change. -/
theorem recounted_countUp (c : Catalogue β) (ref : EntryRef) : Recounted c (c.countUp ref) :=
  recounted_modifyEntry c ref fun _ => rfl

/-- Releasing a block is such a change. -/
theorem recounted_release (c : Catalogue β) (ref : EntryRef) : Recounted c (c.release ref) :=
  recounted_modifyEntry c ref fun _ => rfl

end Catalogue

namespace Site

variable {s s' s'' : Site β}

/-- What an operation on a site keeps, whatever it does. -/
structure Lasting (s s' : Site β) : Prop where
  orderly : s.tree.Orderly → s'.tree.Orderly
  registry : s'.tree.registry = s.tree.registry
  catalogue : Catalogue.Recounted s.catalogue s'.catalogue

/-- To do nothing keeps everything. -/
theorem Lasting.refl (s : Site β) : Lasting s s := ⟨id, rfl, .refl _⟩

/-- What two steps keep they keep together, so an operation is followed step by step. -/
theorem Lasting.trans (h : Lasting s s') (h' : Lasting s' s'') : Lasting s s'' where
  orderly ho := h'.orderly (h.orderly ho)
  registry := h'.registry.trans h.registry
  catalogue := h.catalogue.trans h'.catalogue

/-- Changes to single blocks keep the order of the slots, the registry and the types of entries. -/
theorem Reworked.lasting (h : Reworked s s') : Lasting s s' :=
  ⟨h.orderly, h.registry, h.catalogue ▸ .refl _⟩

/-! ### Attributes -/

/-- An attribute of a block is changed, or the name is stale and nothing happens. -/
theorem reworked_update (s : Site β) (id : BlockId) (f : Node β → Node β)
    (hf : ∀ node, (f node).holder = node.holder := by exact fun _ => rfl) :
    ReworkedInPlace s (s.update id f).2 := by
  unfold update
  split
  · exact reworked_modify s id f hf
  · exact .refl s

/-- A new name is a change to a single block. -/
theorem reworked_rename (s : Site β) (id : BlockId) (name : String) :
    ReworkedInPlace s (s.rename id name).2 := by
  unfold rename
  split
  · exact .refl s
  · split
    · exact .refl s
    · refine .trans ?_ (reworked_notify _ _)
      exact (reworked_modify s id _).trans (reworked_notify _ _)

/-- Whether a block takes part in serialization is one of its flags. -/
theorem reworked_setSerializable (s : Site β) (id : BlockId) (on : Bool) :
    ReworkedInPlace s (s.setSerializable id on).2 := by
  unfold setSerializable
  split
  · exact reworked_update s id _
  · exact reworked_update s id _

/-- A walk over a list keeps what each of its steps keeps. -/
theorem forEach_preserves {P : Site β → Prop}
    {act : Site β → BlockId → Except TreeError Unit × Site β}
    (hact : ∀ s id, P s → P (act s id).2) {s : Site β} (hs : P s) (ids : List BlockId) :
    P (forEach act s ids).2 := by
  induction ids generalizing s with
  | nil => exact hs
  | cons id rest ih =>
    have hstep := hact s id hs
    unfold forEach
    split
    · next heq =>
      rw [heq] at hstep
      exact ih hstep
    · next heq =>
      rw [heq] at hstep
      exact hstep

/-- Freezing is a chain of changes to single blocks. By induction on the levels. -/
theorem reworked_freezeTo (frozen : Bool) (levels : Nat) (s : Site β) (id : BlockId) :
    ReworkedInPlace s (freezeTo frozen levels s id).2 := by
  induction levels generalizing s id with
  | zero => exact .refl s
  | succ levels ih =>
    unfold freezeTo
    split
    · exact .refl s
    · split
      · exact .refl s
      · apply forEach_preserves fun s' id' hs => hs.trans (ih s' id')
        exact (reworked_modify s id _).trans (reworked_notify _ _)

/-- Steps one after the other keep what each of them keeps. -/
theorem foldl_preserves {P : Site β → Prop} {act : Site β → BlockId → Site β}
    (hact : ∀ s id, P s → P (act s id)) {s : Site β} (hs : P s) (ids : List BlockId) :
    P (ids.foldl act s) := by
  induction ids generalizing s with
  | nil => exact hs
  | cons id rest ih => exact ih (hact s id hs)

/-! ### Places -/

/-- A removal is made of such changes, or refused before any of them. -/
theorem reworked_remove (s : Site β) (library block : BlockId) :
    ReworkedInPlace s (s.remove library block).2 := by
  unfold remove
  split
  · exact reworked_unlink s library block _
  · exact .refl s

/-- So is leaving a library, if the block is in one. -/
theorem reworked_detach (s : Site β) (block : BlockId) : ReworkedInPlace s (s.detach block).2 := by
  unfold detach
  split
  · exact .refl s
  · split
    · exact reworked_remove s _ block
    · exact .refl s

/-- An exchange is made of such changes, or refused before. -/
theorem reworked_swap (s : Site β) (library a b : BlockId) :
    ReworkedInPlace s (s.swap library a b).2 := by
  unfold swap
  split
  · exact .refl s
  · exact .refl s
  · exact reworked_exchange s library a b _ _

/-- A move inside a library is made of such changes, or refused before. -/
theorem reworked_moveTo (s : Site β) (library block : BlockId) (target : Nat) :
    ReworkedInPlace s (s.moveTo library block target).2 := by
  unfold moveTo
  split
  · exact .refl s
  · simp only
    split
    · exact .refl s
    · split
      · exact .refl s
      · exact reworked_shift s library block _ target

section

variable [Payload β]

/-- Optimizing changes the payloads of single blocks. -/
theorem reworked_optimize (s : Site β) (root : BlockId) : ReworkedInPlace s (s.optimize root) := by
  unfold optimize
  exact foldl_preserves (fun _ id h => h.trans (reworked_modify _ id _)) (.refl s) _

/-- An insertion is made of such changes, or refused before. -/
theorem reworked_insert (s : Site β) (library block : BlockId) (index : Nat) :
    ReworkedInPlace s (s.insert library block index).2 := by
  unfold insert
  split
  · exact reworked_attach s library block index
  · exact .refl s

/-- To add a block is to insert it behind the last child. -/
theorem reworked_add (s : Site β) (library block : BlockId) :
    ReworkedInPlace s (s.add library block).2 := by
  unfold add
  split
  · exact reworked_insert s library block _
  · exact .refl s

/-- To reparent a block at a position is a removal and an insertion, the second of which may be
refused. -/
theorem reworked_reparentAt (s : Site β) (block library : BlockId) (index : Nat) :
    ReworkedInPlace s (s.reparentAt block library index).2 := by
  unfold reparentAt
  split
  · exact .refl s
  · exact reworked_insert s library block index
  · next old _ =>
    have hremove := reworked_remove s old block
    split
    · next heq =>
      rw [heq] at hremove
      exact hremove.trans (reworked_insert _ library block index)
    · next heq =>
      rw [heq] at hremove
      exact hremove

/-- To reparent a block is to do so at the end. -/
theorem reworked_reparent (s : Site β) (block library : BlockId) :
    ReworkedInPlace s (s.reparent block library).2 := by
  unfold reparent
  split
  · exact .refl s
  · exact reworked_reparentAt s block library _

end

/-! ### Blocks that come and go -/

/-- A change of the tree lasts if it keeps the order of the slots and the registry. -/
theorem lasting_setTree {t : Tree β} (ho : s.tree.Orderly → t.Orderly)
    (hr : t.registry = s.tree.registry) : Lasting s (s.setTree t) := ⟨ho, hr, .refl _⟩

/-- Emptying the slot of a live block keeps the slots in order. -/
theorem lasting_vacate {id : BlockId} (hid : s.tree.contains id) :
    Lasting s (s.setTree (s.tree.vacate id)) :=
  lasting_setTree (fun ho => ho.vacate hid) rfl

/-- Filling a slot keeps the slots in order. -/
theorem lasting_alloc (s : Site β) (node : Node β) :
    Lasting s (s.setTree (s.tree.alloc node).2) := by
  refine lasting_setTree (fun ho => ho.alloc node) ?_
  unfold Tree.alloc
  split <;> rfl

/-- Counts may be changed besides. -/
theorem Lasting.recount {c : Catalogue β} (h : Lasting s s')
    (hc : Catalogue.Recounted s'.catalogue c) : Lasting s { s' with catalogue := c } :=
  ⟨h.orderly, h.registry, h.catalogue.trans hc⟩

/-- To reclaim a block empties its slot and lowers a count, or does nothing. -/
theorem lasting_reclaim (s : Site β) (id : BlockId) : Lasting s (s.reclaim id).2 := by
  unfold reclaim
  split
  · next heq =>
    refine lasting_vacate ?_
    unfold checkReclaim at heq
    split at heq
    · cases heq
    · next hn =>
      exact Tree.contains_of_node? (require_eq_ok_iff.mp hn)
  · exact .refl s

/-- A block goes back to its owner, who may be an entry that counts it. -/
theorem surrender_of_node? {id : BlockId} {node : Node β} (hn : s.tree.node? id = some node) :
    s.surrender id =
      if node.ownership = .unowned then (.error (.notDestructible id), s)
      else (.ok (), { s.setTree (s.tree.vacate id) with
        catalogue := node.countedBy?.elim s.catalogue s.catalogue.release }) := by
  unfold surrender
  simp only [require_eq_ok_iff.mpr hn, Node.elim_countedBy?]
  cases node.ownership with
  | registryOwned => cases node.entry <;> rfl
  | staticOwned => rfl
  | unowned => rfl

/-- What may become of a site when a block goes back to its owner. -/
theorem surrender_cases (s : Site β) (id : BlockId) :
    (s.surrender id).2 = s ∨ ∃ node, s.tree.node? id = some node ∧
      (s.surrender id).2 = { s.setTree (s.tree.vacate id) with
        catalogue := node.countedBy?.elim s.catalogue s.catalogue.release } := by
  cases hn : s.tree.node? id with
  | none =>
    left
    unfold surrender Tree.require
    rw [hn]
  | some node =>
    rw [surrender_of_node? hn]
    split
    · exact Or.inl rfl
    · exact Or.inr ⟨node, rfl, rfl⟩

/-- To give a block back to its owner does the same, unless it is managed elsewhere. -/
theorem lasting_surrender (s : Site β) (id : BlockId) : Lasting s (s.surrender id).2 := by
  rcases surrender_cases s id with heq | ⟨node, hn, heq⟩
  · rw [heq]
    exact .refl s
  · rw [heq]
    refine (lasting_vacate (Tree.contains_of_node? hn)).recount ?_
    cases node.countedBy? with
    | none => exact .refl _
    | some ref => exact Catalogue.recounted_release _ ref

/-- To drop the links of a block changes this block alone. -/
theorem reworked_dropLinks (s : Site β) (id : BlockId) : ReworkedInPlace s (s.dropLinks id) := by
  unfold dropLinks
  refine .trans ?_ (reworked_modify _ id _)
  exact (reworked_notify s _).trans (reworked_setIndex _ id none)

/-- To leave a library is made of such changes, whichever way it goes. -/
theorem reworked_leave (s : Site β) (id : BlockId) : ReworkedInPlace s (s.leave id).2 := by
  unfold leave
  split
  · exact .refl s
  · split
    · exact reworked_dropLinks s id
    · exact reworked_remove s _ id

/-- The block is marked and announced as one that goes. -/
def condemn (s : Site β) (id : BlockId) : Site β :=
  (s.modify id fun node => { node with flags := node.flags.union Flags.beingDeleted }).notify
    (.deleted id)

/-- The first half of destroying a block: it is condemned and its children go. -/
def hollow (levels : Nat) (s : Site β) (id : BlockId) : Except TreeError Unit × Site β :=
  if (s.condemn id).tree.isLibrary id then clearWith (destroyTo levels) (s.condemn id) id
  else (.ok (), s.condemn id)

/-- The second half: the block leaves its library and goes back to its owner. -/
def depart (s : Site β) (id : BlockId) : Except TreeError Unit × Site β :=
  match s.leave id with
  | (.error e, s) => (.error e, s)
  | (.ok (), s) => s.surrender id

/-- A destruction with levels left refuses a stale name, and otherwise does its two halves one after
the other. -/
theorem destroyTo_succ (levels : Nat) (s : Site β) (id : BlockId) :
    destroyTo (levels + 1) s id =
      if !s.tree.contains id then (.error (.staleBlock id), s)
      else
        match hollow levels s id with
        | (.error e, s) => (.error e, s)
        | (.ok (), s) => s.depart id := by
  conv_lhs => unfold destroyTo
  rfl

/-- To condemn a block is to change its flags. -/
theorem reworked_condemn (s : Site β) (id : BlockId) : ReworkedInPlace s (s.condemn id) :=
  (reworked_modify s id _).trans (reworked_notify _ _)

/-- What a property of sites has to withstand in order to be kept when blocks are destroyed. -/
structure Upkept (P : Site β → Prop) : Prop where
  work : ∀ {s s' : Site β}, P s → ReworkedInPlace s s' → P s'
  surrender : ∀ {s : Site β} (id : BlockId), P s → P (s.surrender id).2

namespace Upkept

variable {P : Site β → Prop} (hk : Upkept P)

include hk

/-- The second half of a destruction keeps what leaving and giving back keep. -/
theorem depart (hs : P s) (id : BlockId) : P (s.depart id).2 := by
  have hleft := hk.work hs (reworked_leave s id)
  unfold Site.depart
  split
  · next heq =>
    rw [heq] at hleft
    exact hleft
  · next heq =>
    rw [heq] at hleft
    exact hk.surrender id hleft

/-- Clearing keeps what the action on each child keeps. By induction on the children. -/
theorem clearWith {act : Site β → BlockId → Except TreeError Unit × Site β}
    (hact : ∀ s id, P s → P (act s id).2) (hs : P s) (library : BlockId) :
    P (clearWith act s library).2 := by
  unfold Site.clearWith
  split
  · exact hs
  · exact hs
  · refine hk.work ?_ (reworked_notify _ _)
    refine hk.work ?_ (reworked_modify _ library _)
    exact foldl_preserves hact (hk.work hs (reworked_notify s _)) _

/-- The first half of a destruction keeps what destroying blocks of fewer levels keeps. -/
theorem hollow {levels : Nat} (hdown : ∀ (s : Site β) id, P s → P (destroyTo levels s id).2)
    (hs : P s) (id : BlockId) : P (hollow levels s id).2 := by
  have hmarked := hk.work hs (reworked_condemn s id)
  unfold Site.hollow
  split
  · exact hk.clearWith hdown hmarked id
  · exact hmarked

/-- By induction on the levels, what the steps of a destruction keep is kept by the whole. -/
theorem destroyTo (levels : Nat) (hs : P s) (id : BlockId) : P (destroyTo levels s id).2 := by
  induction levels generalizing s id with
  | zero => exact hs
  | succ levels ih =>
    have hhollow := hk.hollow (fun s id hs => ih hs id) hs id
    rw [destroyTo_succ]
    split
    · exact hs
    · split
      · next heq =>
        rw [heq] at hhollow
        exact hhollow
      · next heq =>
        rw [heq] at hhollow
        exact hk.depart hhollow id

/-- What withstands these steps is kept when a block is destroyed. -/
theorem destroy (hs : P s) (id : BlockId) : P (s.destroy id).2 := hk.destroyTo _ hs id

/-- And it is kept when a library is cleared. -/
theorem clear (hs : P s) (library : BlockId) : P (s.clear library).2 :=
  hk.clearWith (fun _ id hs => hk.destroyTo _ hs id) hs library

end Upkept

/-- To last withstands every step of a destruction. -/
theorem upkept_lasting (s : Site β) : Upkept (Lasting s) where
  work h hr := h.trans hr.lasting
  surrender id h := h.trans (lasting_surrender _ id)

/-- Destroying blocks of so many levels lasts. -/
theorem lasting_destroyTo (levels : Nat) (s : Site β) (id : BlockId) :
    Lasting s (destroyTo levels s id).2 := (upkept_lasting s).destroyTo levels (.refl s) id

/-- Destroying a block lasts. -/
theorem lasting_destroy (s : Site β) (id : BlockId) : Lasting s (s.destroy id).2 :=
  lasting_destroyTo _ s id

/-- Clearing a library lasts. -/
theorem lasting_clear (s : Site β) (library : BlockId) : Lasting s (s.clear library).2 :=
  (upkept_lasting s).clear (.refl s) library

variable [Payload β]

/-- What a property of sites has to withstand in order to be kept by every operation. -/
structure Tended (P : Site β → Prop) : Prop extends Upkept P where
  place : ∀ {s : Site β} (payload : β) (entry : Option EntryRef) (ownership : Ownership)
    (flags : Flags), ownership ≠ .registryOwned → P s →
      P (s.place payload entry ownership flags).2
  createFrom : ∀ {s : Site β} (ref : EntryRef) (entry : Entry β),
    s.catalogue.Finds s.tree.registry ref entry → P s → P (s.createFrom ref entry).2
  reclaim : ∀ {s : Site β} (id : BlockId), P s → P (s.reclaim id).2
  /-- Observers come and go. -/
  audience : ∀ {s : Site β} {t : Tree β}, t.slots = s.tree.slots → t.free = s.tree.free →
    t.size = s.tree.size → t.registry = s.tree.registry → P s → P (s.setTree t)

namespace Tended

variable {P : Site β → Prop} (hk : Tended P)

include hk

/-- A block that is made by the name of its type is made by an entry that the registry finds, if at
all. -/
theorem createByName (hs : P s) (name : String) : P (s.createByName name).2 := by
  unfold Site.createByName
  split
  · next heq => exact hk.createFrom _ _ (.inl ⟨name, heq⟩) hs
  · exact hs

/-- The same where an unknown name is an error. -/
theorem create (hs : P s) (name : String) : P (s.create name).2 := by
  have hmade := hk.createByName hs name
  unfold Site.create
  split
  · next heq =>
    rw [heq] at hmade
    exact hmade
  · next heq =>
    rw [heq] at hmade
    exact hmade

end Tended

/-- A new block takes a free slot, and nothing else is touched. -/
theorem lasting_place (s : Site β) (payload : β) (entry : Option EntryRef)
    (ownership : Ownership) (flags : Flags) :
    Lasting s (s.place payload entry ownership flags).2 := lasting_alloc s _

/-- A block that is made by an entry is counted besides. -/
theorem lasting_createFrom (s : Site β) (ref : EntryRef) (entry : Entry β) :
    Lasting s (s.createFrom ref entry).2 :=
  ((Lasting.refl s).recount (Catalogue.recounted_countUp _ ref)).trans (lasting_place _ _ _ _ _)

/-- To last withstands the steps of every operation. -/
theorem tended_lasting (s : Site β) : Tended (Lasting s) where
  toUpkept := upkept_lasting s
  place _ _ _ _ _ h := h.trans (lasting_place _ _ _ _ _)
  createFrom ref entry _ h := h.trans (lasting_createFrom _ ref entry)
  reclaim id h := h.trans (lasting_reclaim _ id)
  audience hs hf hz hr h := h.trans (lasting_setTree (fun ho => ho.of_slots hs hf hz) hr)

end Site

/-! ### Reading blocks -/

namespace Inflate

variable {σ : Type} [ByteSource σ]

/-- What is read as a record has a type that the registry finds by its identifier. -/
theorem findId_of_readRecord {settings : Settings} {c : Catalogue β} {r : RegistryRef}
    {source source' : σ} {record : Record β}
    (h : readRecord settings c r source = (.ok record, source')) :
    c.findId r record.header.blockType = some (record.ref, record.entry) := by
  unfold readRecord at h
  split at h
  · cases h
  · split at h
    · cases h
    · split at h
      · cases h
      · next hfound =>
        split at h
        · cases h
        · split at h
          · cases h
            exact hfound
          · cases h

/-- A walk that has found no block and has not touched the site. -/
structure Idle (s : Site β) (r : Except CodecError InflateStatus × Intake σ β) : Prop where
  site : r.2.site = s
  failed : ∀ root, r.1 ≠ .ok (.success root)

variable [Payload β]

/-- All that a walk can do with a block: it ends before it has made one, or it reads a record of a
registered type and makes a block for it. What the source does shows in nothing else. -/
theorem node_cases (settings : Settings) (total levels : Nat) (i : Intake σ β) :
    Idle i.site (node settings total levels i) ∨
      ∃ left record source monitor, levels = left + 1 ∧
        i.site.catalogue.findId i.site.tree.registry record.header.blockType =
          some (record.ref, record.entry) ∧
        node settings total levels i =
          build (node settings total left) record ⟨i.site, source, monitor⟩ := by
  cases levels with
  | zero =>
    left
    unfold node
    simp only
    split
    · exact ⟨rfl, by simp⟩
    · split
      · exact ⟨rfl, by simp⟩
      · exact ⟨rfl, by simp⟩
  | succ levels =>
    unfold node
    simp only
    split
    · exact .inl ⟨rfl, by simp⟩
    · split
      · exact .inl ⟨rfl, by simp⟩
      · split
        · exact .inl ⟨rfl, by simp⟩
        · next record source hrecord =>
          exact .inr ⟨levels, record, source, _, rfl, findId_of_readRecord hrecord, rfl⟩

/-- The walk has found a block with all that is below it, and then the source fails when it is asked
where it stands. -/
def Strands (settings : Settings) (s : Site β) (source : σ) (monitor : Monitor) (root : BlockId)
    (e : BufferError) : Prop :=
  ∃ (total : Nat) (opened : σ), ByteSource.measure source = (.ok total, opened) ∧
    let walk := node settings total settings.maxDepth ⟨s, opened, monitor⟩
    walk.1 = .ok (.success root) ∧ (ByteSource.position walk.2.source).1 = .error e

/-- Where a block is stranded, the error of the source is the outcome, and the site is left as the
walk has left it. -/
theorem Strands.outcome {settings : Settings} {s : Site β} {source : σ} {monitor : Monitor}
    {root : BlockId} {e : BufferError} (h : Strands settings s source monitor root e) :
    let r := inflate settings s source monitor
    r.1 = .error (.buffer e) ∧ ∃ (total : Nat) (opened : σ),
      let walk := node settings total settings.maxDepth ⟨s, opened, monitor⟩
      walk.1 = .ok (.success root) ∧ r.2.site = walk.2.site := by
  obtain ⟨total, opened, hmeasure, hroot, hfails⟩ := h
  intro r
  have hr : r = inflate settings s source monitor := rfl
  unfold inflate at hr
  simp only [hmeasure] at hr
  refine ⟨?_, total, opened, hroot, ?_⟩
  all_goals
    generalize node settings total settings.maxDepth ⟨s, opened, monitor⟩ = walk at hroot hfails hr ⊢
    obtain ⟨outcome, i⟩ := walk
    cases hroot
    cases hposition : ByteSource.position i.source with
    | mk answer behind =>
      rw [hposition] at hfails
      cases hfails
      simp only [hposition] at hr
      rw [hr]

/-- All that reading a stream comes to: it ends before the walk has begun, or it leaves the site as
the walk from the top does. It ends as the walk does, too, unless a block is stranded. -/
theorem inflate_cases (settings : Settings) (s : Site β) (source : σ) (monitor : Monitor) :
    Idle s (inflate settings s source monitor) ∨
      ∃ (total : Nat) (opened : σ), ByteSource.measure source = (.ok total, opened) ∧
        let r := inflate settings s source monitor
        let walk := node settings total settings.maxDepth ⟨s, opened, monitor⟩
        r.2.site = walk.2.site ∧
          (r.1 = walk.1 ∨
            ∃ root e, Strands settings s source monitor root e ∧ r.1 = .error (.buffer e)) := by
  cases hmeasure : ByteSource.measure source with
  | mk length opened =>
    cases length with
    | error e =>
      left
      unfold inflate
      rw [hmeasure]
      exact ⟨rfl, by simp⟩
    | ok total =>
      refine .inr ⟨total, opened, rfl, ?_⟩
      -- Say what it is to be stranded in terms of the walk, so that both can be split together.
      have hstrands : ∀ root e, Strands settings s source monitor root e ↔
          (node settings total settings.maxDepth ⟨s, opened, monitor⟩).1 = .ok (.success root) ∧
            (ByteSource.position
              (node settings total settings.maxDepth ⟨s, opened, monitor⟩).2.source).1 =
                .error e := by
        simp [Strands, hmeasure]
      unfold inflate
      simp only [hmeasure, hstrands]
      generalize node settings total settings.maxDepth ⟨s, opened, monitor⟩ = walk
      obtain ⟨outcome, i⟩ := walk
      split
      · next root j heq =>
        cases heq
        split
        · next e source' hposition =>
          exact ⟨rfl, .inr ⟨root, e, ⟨rfl, by rw [hposition]⟩, rfl⟩⟩
        · exact ⟨rfl, .inl rfl⟩
      · next heq =>
        cases heq
        exact ⟨rfl, .inl rfl⟩

/-- What the steps of a walk that reads blocks have to keep. A new block is made by an entry that
the registry finds, and it gets no other payload than the one that its properties make of it. -/
structure Keeps (P : Site β → Prop) : Prop where
  createFrom : ∀ s id ref entry, P s →
    s.catalogue.findId s.tree.registry id = some (ref, entry) → P (s.createFrom ref entry).2
  filled : ∀ s (record : Record β) payload, P s →
    s.catalogue.findId s.tree.registry record.header.blockType =
      some (record.ref, record.entry) →
    fillPayload record.entry record.header.propertyCount record.data = .ok payload →
    P ((s.createFrom record.ref record.entry).2.setPayload
      (s.createFrom record.ref record.entry).1 payload)
  add : ∀ s library block, P s → P (s.add library block).2
  destroy : ∀ s id, P s → P (s.destroy id).2

variable {P : Site β → Prop}

omit [ByteSource σ] in
/-- A child that was read goes to its library, or is destroyed. -/
theorem Keeps.adoptChild (hk : Keeps P) {i : Intake σ β} (hi : P i.site)
    (library child : BlockId) : P (adoptChild i library child).2.site := by
  have hadd := hk.add i.site library child hi
  unfold Inflate.adoptChild
  split
  · next heq =>
    rw [heq] at hadd
    exact hadd
  · next heq =>
    rw [heq] at hadd
    exact hk.destroy _ child hadd

variable {readBlock : Intake σ β → Except CodecError InflateStatus × Intake σ β}

omit [ByteSource σ] in
/-- If reading one block keeps it, reading the children of a library does. -/
theorem Keeps.children (hk : Keeps P) (hread : ∀ i, P i.site → P (readBlock i).2.site)
    (library : BlockId) (count : Nat) {i : Intake σ β} (hi : P i.site) :
    P (children readBlock library count i).2.site := by
  induction count generalizing i with
  | zero => exact hi
  | succ count ih =>
    have hblock := hread i hi
    unfold Inflate.children
    split
    · next heq =>
      rw [heq] at hblock
      exact hblock
    · next heq =>
      rw [heq] at hblock
      exact hblock
    · next child i' heq =>
      rw [heq] at hblock
      have hadopt := hk.adoptChild hblock library child
      split
      · next heq =>
        rw [heq] at hadopt
        exact hadopt
      · next heq =>
        rw [heq] at hadopt
        exact ih hadopt

omit [ByteSource σ] in
/-- A block gets the payload that its properties make of it, and then its children. -/
theorem Keeps.fill (hk : Keeps P) (hread : ∀ i, P i.site → P (readBlock i).2.site)
    (record : Record β) (id : BlockId) {i : Intake σ β} (hi : P i.site)
    (hset : ∀ payload, fillPayload record.entry record.header.propertyCount record.data =
      .ok payload → P (i.site.setPayload id payload)) :
    P (fill readBlock record id i).2.site := by
  unfold Inflate.fill
  split
  · exact hi
  · next payload hpayload =>
    simp only
    split
    · exact hset payload hpayload
    · exact hk.children hread id _ (hset payload hpayload)

omit [ByteSource σ] in
/-- A block is made for a record of a registered type, and destroyed if it cannot be filled. -/
theorem Keeps.build (hk : Keeps P) (hread : ∀ i, P i.site → P (readBlock i).2.site)
    {record : Record β} {i : Intake σ β} (hi : P i.site)
    (hfound : i.site.catalogue.findId i.site.tree.registry record.header.blockType =
      some (record.ref, record.entry)) : P (build readBlock record i).2.site := by
  have hcreated := hk.createFrom i.site _ record.ref record.entry hi hfound
  have hset := fun payload => hk.filled i.site record payload hi hfound
  unfold Inflate.build
  generalize i.site.createFrom record.ref record.entry = made at hcreated hset ⊢
  have hfilled := hk.fill hread record made.1 (i := { i with site := made.2 }) hcreated hset
  simp only
  split
  · next heq =>
    rw [heq] at hfilled
    exact hfilled
  · next heq =>
    rw [heq] at hfilled
    exact hk.destroy _ _ hfilled

/-- By induction on the levels, the walk down keeps what its steps keep. -/
theorem Keeps.node (hk : Keeps P) (settings : Settings) (total levels : Nat) {i : Intake σ β}
    (hi : P i.site) : P (node settings total levels i).2.site := by
  induction levels generalizing i with
  | zero =>
    rcases node_cases settings total 0 i with hidle | ⟨_, _, _, _, hlevels, -⟩
    · rw [hidle.site]
      exact hi
    · cases hlevels
  | succ levels ih =>
    rcases node_cases settings total (levels + 1) i with
      hidle | ⟨left, record, source, monitor, hlevels, hfound, hbuild⟩
    · rw [hidle.site]
      exact hi
    · cases hlevels
      rw [hbuild]
      exact hk.build (fun _ => ih) (i := ⟨i.site, source, monitor⟩) hi hfound

/-- Reading blocks keeps what each of its steps keeps, whatever is read and however it ends. -/
theorem Keeps.inflate (hk : Keeps P) (settings : Settings) {s : Site β} (hs : P s)
    (source : σ) (monitor : Monitor) : P (inflate settings s source monitor).2.site := by
  rcases inflate_cases settings s source monitor with hidle | ⟨total, opened, -, hsite, -⟩
  · rw [hidle.site]
    exact hs
  · rw [hsite]
    exact hk.node settings total settings.maxDepth (i := ⟨s, opened, monitor⟩) hs

/-- What every operation keeps is kept by the walk. -/
theorem keeps_of_tended (hk : Site.Tended P) : Keeps P where
  createFrom _ id ref entry h hfound := hk.createFrom ref entry (.inr ⟨id, hfound⟩) h
  filled _ record _ h hfound _ :=
    hk.work (hk.createFrom _ _ (.inr ⟨_, hfound⟩) h) (Site.reworked_modify _ _ _)
  add _ library block h := hk.work h (Site.reworked_add _ library block)
  destroy _ id h := hk.destroy h id

/-- So it is kept by the steps of a walk that reads blocks. -/
theorem keeps_lasting (s : Site β) : Keeps (Site.Lasting s) :=
  keeps_of_tended (Site.tended_lasting s)

/-! ### Reading a buffer -/

end Inflate

/-- A buffer can always say where it stands. -/
theorem Source.position_eq (source : Source) :
    ByteSource.position source = (.ok source.position, source) := rfl

/-- What a buffer has left is told by its bytes and the position. -/
theorem Source.eq_ofBytes (source : Source) : source = ofBytes source.bytes source.position := by
  obtain ⟨bytes, position, remaining, rfl⟩ := source
  rfl

/-- A buffer is measured without being moved. -/
theorem Source.measure_eq (source : Source) :
    ByteSource.measure source = (.ok source.length, source) := by
  show (Except.ok source.length, ofBytes source.bytes source.position) = _
  rw [← source.eq_ofBytes]

namespace Inflate

variable [Payload β]

/-- Apart from the last report, reading a buffer is the walk from the top. -/
theorem inflate_eq_node (settings : Settings) (s : Site β) (source : Source)
    (monitor : Monitor) :
    let r := inflate settings s source monitor
    let walk := node settings source.length settings.maxDepth ⟨s, source, monitor⟩
    r.1 = walk.1 ∧ r.2.site = walk.2.site ∧ r.2.source = walk.2.source := by
  intro r walk
  show (inflate settings s source monitor).1 = walk.1 ∧
    (inflate settings s source monitor).2.site = walk.2.site ∧
      (inflate settings s source monitor).2.source = walk.2.source
  unfold BlockForest.inflate
  simp only [source.measure_eq]
  split
  · next heq =>
    rw [show walk = _ from heq]
    exact ⟨rfl, rfl, rfl⟩
  · next heq =>
    rw [show walk = _ from heq]
    exact ⟨rfl, rfl, rfl⟩

end Inflate

end BlockForest
