import Mathlib
import BlockForest.Proofs.StreamGrammar
import BlockForest.Proofs.FailedInflate

/-!
# Kinds of payloads

A payload has a kind, which is all that it depends on whether its block is a library and which
blocks that library accepts. Nothing changes the kind of a block that is there: whoever writes to
a payload keeps it. In runs of this sort, the `Tame` ones, a block has a list of children exactly
if its payload is that of a library, and each library accepts its children (`Tree.Typed`).

Most operations take things away at most: no block is new and no library gets another child. This
is `Site.Pared`, which composes, and which keeps a tree typed. The two others are a new block and
an attachment, and each of them looks at the payloads first.
-/

set_option autoImplicit false

namespace BlockForest

variable {β κ : Type}

/-- A function that tells the kinds of payloads apart. -/
structure Kinds [Payload β] (kind : β → κ) : Prop where
  optimize : ∀ p : β, kind (Payload.optimize p) = kind p
  isLibrary : ∀ p q : β, kind p = kind q → Payload.isLibrary p = Payload.isLibrary q
  accepts : ∀ p q p' q' : β, kind p = kind p' → kind q = kind q' →
    Payload.accepts p q = Payload.accepts p' q'

/-- Writing a property does not make a payload of another kind. -/
def BlockType.KeepsKind (kind : β → κ) (type : BlockType β) : Prop :=
  ∀ p ∈ type.properties, ∀ payload value next, p.write payload value = .ok next →
    kind next = kind payload

/-- A payload that was filled from pairs is of the kind that it was of before. By induction on the
pairs. -/
theorem Pairs.kind {kind : β → κ} {type : BlockType β} (hk : type.KeepsKind kind) {count : Nat}
    {payload final : β} {data : Bytes} (h : Pairs type.properties count payload data final) :
    kind final = kind payload := by
  induction h with
  | nil => rfl
  | cons known _ written _ ih => exact ih.trans (hk _ known _ _ _ written)

/-- The second block is the first one, perhaps with fewer children. -/
structure Node.Pared (kind : β → κ) (node node' : Node β) : Prop where
  kind : kind node'.payload = kind node.payload
  holds : node'.children.isSome = node.children.isSome
  sub : ∀ id ∈ node'.children.getD [], id ∈ node.children.getD []

/-- A block is pared from itself. -/
theorem Node.Pared.refl (kind : β → κ) (node : Node β) : node.Pared kind node :=
  ⟨rfl, rfl, fun _ hid => hid⟩

/-- A block that is pared twice is pared. -/
theorem Node.Pared.trans {kind : β → κ} {node node' node'' : Node β} (h : node.Pared kind node')
    (h' : node'.Pared kind node'') : node.Pared kind node'' where
  kind := h'.kind.trans h.kind
  holds := h'.holds.trans h.holds
  sub id hid := h.sub id (h'.sub id hid)

namespace Site

variable {kind : β → κ} {s s' s'' : Site β} {library block : BlockId}

/-- No block is new, none has another kind, and no library has got another child. -/
def Pared (kind : β → κ) (s s' : Site β) : Prop :=
  ∀ id node', s'.tree.node? id = some node' →
    ∃ node, s.tree.node? id = some node ∧ node.Pared kind node'

/-- Where every block is what it was, the site is pared. -/
theorem Pared.of_node? (h : ∀ id, s'.tree.node? id = s.tree.node? id) : Pared kind s s' :=
  fun id node' hn => ⟨node', (h id).symm.trans hn, .refl kind node'⟩

/-- A site that is left alone is pared. -/
theorem Pared.refl (kind : β → κ) (s : Site β) : Pared kind s s := .of_node? fun _ => rfl

/-- Two steps that pare a site pare it together. -/
theorem Pared.trans (h : Pared kind s s') (h' : Pared kind s' s'') : Pared kind s s'' := by
  intro id node'' hn''
  obtain ⟨node', hn', hpared'⟩ := h' id node'' hn''
  obtain ⟨node, hn, hpared⟩ := h id node' hn'
  exact ⟨node, hn, hpared.trans hpared'⟩

/-- A notice changes no block. -/
theorem pared_notify (s : Site β) (event : TreeEvent) : Pared kind s (s.notify event) :=
  .of_node? fun id => by rw [tree_notify]

/-- A change of one block pares the site if it pares this block. -/
theorem pared_modify (s : Site β) (id : BlockId) {f : Node β → Node β}
    (hf : ∀ node, s.tree.node? id = some node → node.Pared kind (f node)) :
    Pared kind s (s.modify id f) := by
  intro other node' hn'
  rw [node?_modify] at hn'
  by_cases ho : other = id
  · rw [if_pos ho] at hn'
    obtain ⟨node, hn, rfl⟩ := Option.map_eq_some_iff.mp hn'
    exact ⟨node, ho ▸ hn, hf node hn⟩
  · rw [if_neg ho] at hn'
    exact ⟨node', hn', .refl kind node'⟩

/-- A change of anything but payload and children. -/
theorem pared_modify_aside (s : Site β) (id : BlockId) {f : Node β → Node β}
    (hp : ∀ node, (f node).payload = node.payload)
    (hc : ∀ node, (f node).children = node.children) : Pared kind s (s.modify id f) := by
  refine pared_modify s id fun node _ => ⟨congrArg kind (hp node), ?_, ?_⟩
  · rw [hc]
  · rw [hc]
    exact fun _ hid => hid

/-- A block that is gone has no kind and no children to speak of. -/
theorem pared_vacate {id : BlockId} (hid : s.tree.contains id) :
    Pared kind s (s.setTree (s.tree.vacate id)) := by
  intro other node' hn'
  have hvacated : (s.tree.vacate id).node? other = some node' := hn'
  rw [Tree.node?_vacate hid] at hvacated
  split_ifs at hvacated
  exact ⟨node', hvacated, .refl kind node'⟩

/-! ### Attributes -/

/-- An attribute other than payload and children may be changed. -/
theorem pared_update (s : Site β) (id : BlockId) {f : Node β → Node β}
    (hp : ∀ node, (f node).payload = node.payload)
    (hc : ∀ node, (f node).children = node.children) : Pared kind s (s.update id f).2 := by
  unfold update
  split
  · exact pared_modify_aside s id hp hc
  · exact .refl kind s

/-- A new name is such an attribute. -/
theorem pared_rename (s : Site β) (id : BlockId) (name : String) :
    Pared kind s (s.rename id name).2 := by
  unfold rename
  split
  · exact .refl kind s
  · split
    · exact .refl kind s
    · refine .trans ?_ (pared_notify _ _)
      refine .trans ?_ (pared_notify _ _)
      exact pared_modify_aside s id (fun _ => rfl) fun _ => rfl

/-- So is the flag of those that take part in serialization. -/
theorem pared_setSerializable (s : Site β) (id : BlockId) (on : Bool) :
    Pared kind s (s.setSerializable id on).2 := by
  unfold setSerializable
  split
  · exact pared_update s id (fun _ => rfl) fun _ => rfl
  · exact pared_update s id (fun _ => rfl) fun _ => rfl

/-- Freezing changes no payload and no list, however far it goes. -/
theorem pared_freezeTo (frozen : Bool) (levels : Nat) (s : Site β) (id : BlockId) :
    Pared kind s (freezeTo frozen levels s id).2 := by
  induction levels generalizing s id with
  | zero => exact .refl kind s
  | succ levels ih =>
    unfold freezeTo
    split
    · exact .refl kind s
    · split
      · exact .refl kind s
      · apply forEach_preserves fun s' id' hs => hs.trans (ih s' id')
        refine .trans ?_ (pared_notify _ _)
        exact pared_modify_aside s id (fun _ => rfl) fun _ => rfl

/-- A payload may be replaced by one of the same kind. -/
theorem pared_setPayload {id : BlockId} {payload : β}
    (hp : ∀ old, s.tree.payload? id = some old → kind payload = kind old) :
    Pared kind s (s.setPayload id payload) :=
  pared_modify s id fun node hn => ⟨hp node.payload (by rw [Tree.payload?, hn]; rfl), rfl,
    fun _ hid => hid⟩

/-- Optimizing keeps the kinds of payloads. -/
theorem pared_optimize [Payload β] (hk : Kinds kind) (s : Site β) (root : BlockId) :
    Pared kind s (s.optimize root) := by
  unfold optimize
  refine foldl_preserves (fun s' id hs => hs.trans ?_) (.refl kind s) _
  exact pared_modify s' id fun node _ => ⟨hk.optimize node.payload, rfl, fun _ hid => hid⟩

/-! ### Places -/

/-- An index is neither payload nor list. -/
theorem pared_setIndex (s : Site β) (id : BlockId) (index : Option Nat) :
    Pared kind s (s.setIndex id index) := by
  unfold setIndex
  split
  · exact .refl kind s
  · split
    · exact .refl kind s
    · refine .trans ?_ (pared_notify _ _)
      exact pared_modify_aside s id (fun _ => rfl) fun _ => rfl

/-- Numbering blocks only sets indexes. -/
theorem pared_number (s : Site β) (start : Nat) (blocks : List BlockId) :
    Pared kind s (number s start blocks) := by
  induction blocks generalizing s start with
  | nil => exact .refl kind s
  | cons id rest ih => exact (pared_setIndex s id _).trans (ih _ _)

/-- Notices throughout a subtree change no block. -/
theorem pared_notifySubtree (s : Site β) (root : BlockId) (event : BlockId → TreeEvent) :
    Pared kind s (s.notifySubtree root event) := .of_node? fun id => by rw [tree_notifySubtree]

/-- A library whose list of children loses some. -/
theorem pared_modifyChildren (s : Site β) (library : BlockId)
    {f : List BlockId → List BlockId} (hf : ∀ children, ∀ id ∈ f children, id ∈ children) :
    Pared kind s (s.modifyChildren library f) := by
  refine pared_modify s library fun node _ => ⟨rfl, ?_, ?_⟩
  · cases node.children <;> rfl
  · cases node.children with
    | none => exact fun _ hid => hid
    | some children => exact hf children

/-- A removal shortens one list of children. -/
theorem pared_unlink (s : Site β) (library block : BlockId) (index : Nat) :
    Pared kind s (s.unlink library block index) := by
  unfold unlink
  refine .trans ?_ (pared_notify _ _)
  refine .trans ?_ (pared_notifySubtree _ _ _)
  refine .trans ?_ (pared_modify_aside _ block (fun _ => rfl) fun _ => rfl)
  refine .trans ?_ (pared_setIndex _ block none)
  refine .trans ?_ (pared_number _ _ _)
  refine (pared_notify s _).trans (pared_modifyChildren _ library ?_)
  exact fun children id hid => List.mem_of_mem_eraseIdx hid

/-- A removal that is carried out or refused pares the site. -/
theorem pared_remove (s : Site β) (library block : BlockId) :
    Pared kind s (s.remove library block).2 := by
  unfold remove
  split
  · exact pared_unlink s library block _
  · exact .refl kind s

/-- A library whose children are put in another order, or fewer of them. -/
theorem pared_of_relisted {new : List BlockId} (hr : s.tree.Relisted s'.tree library new)
    (hsub : ∀ id ∈ new, id ∈ s.tree.children library) : Pared kind s s' := by
  intro id node' hn'
  rw [hr] at hn'
  obtain ⟨node, hn, rfl⟩ := Option.map_eq_some_iff.mp hn'
  refine ⟨node, hn, rfl, ?_, ?_⟩
  · unfold Node.relist
    by_cases hid : id = library
    · simp [hid]
    · simp [hid]
  · intro child hchild
    unfold Node.relist at hchild
    by_cases hid : id = library
    · rw [← Tree.children_of_node? hn, hid]
      cases hc : node.children with
      | none => simp [hc] at hchild
      | some children =>
        apply hsub
        simpa [hid, hc] using hchild
    · simpa [hid] using hchild

/-! ### Blocks that go -/

/-- Giving a block back to its owner takes away at most this block. -/
theorem pared_surrender (s : Site β) (id : BlockId) : Pared kind s (s.surrender id).2 := by
  rcases surrender_cases s id with heq | ⟨node, hn, heq⟩
  · rw [heq]
    exact .refl kind s
  · rw [heq]
    exact pared_vacate (Tree.contains_of_node? hn)

/-- Leaving a library shortens its list at most. -/
theorem pared_leave (s : Site β) (id : BlockId) : Pared kind s (s.leave id).2 := by
  unfold leave
  split
  · exact .refl kind s
  · split
    · refine .trans ?_ (pared_modify_aside _ id (fun _ => rfl) fun _ => rfl)
      exact (pared_notify s _).trans (pared_setIndex _ id none)
    · exact pared_remove s _ id

/-- Clearing a library pares the site if the action on each child does, and then empties the
list. -/
theorem pared_clearWith {act : Site β → BlockId → Except TreeError Unit × Site β}
    (hact : ∀ s id, Pared kind s (act s id).2) (s : Site β) (library : BlockId) :
    Pared kind s (clearWith act s library).2 := by
  unfold clearWith
  split
  · exact .refl kind s
  · exact .refl kind s
  · refine .trans ?_ (pared_notify _ _)
    refine .trans ?_ (pared_modifyChildren _ library fun _ _ hid => absurd hid List.not_mem_nil)
    exact foldl_preserves (fun _ id h => h.trans (hact _ id)) (pared_notify s _) _

/-- By induction on the levels, destroying a subtree pares the site. -/
theorem pared_destroyTo (levels : Nat) (s : Site β) (id : BlockId) :
    Pared kind s (destroyTo levels s id).2 := by
  induction levels generalizing s id with
  | zero => exact .refl kind s
  | succ levels ih =>
    have hcondemn : Pared kind s (s.condemn id) := by
      refine .trans ?_ (pared_notify _ _)
      exact pared_modify_aside s id (fun _ => rfl) fun _ => rfl
    have hhollow : Pared kind s (hollow levels s id).2 := by
      unfold hollow
      split
      · exact hcondemn.trans (pared_clearWith ih _ id)
      · exact hcondemn
    rw [destroyTo_succ]
    split
    · exact .refl kind s
    · split
      · next heq =>
        rw [heq] at hhollow
        exact hhollow
      · next s₁ heq =>
        rw [heq] at hhollow
        have hleave : Pared kind s₁ (s₁.leave id).2 := pared_leave s₁ id
        unfold depart
        split
        · next heq =>
          rw [heq] at hleave
          exact hhollow.trans hleave
        · next heq =>
          rw [heq] at hleave
          exact (hhollow.trans hleave).trans (pared_surrender _ id)

/-- So destroying a block pares the site. -/
theorem pared_destroy (s : Site β) (id : BlockId) : Pared kind s (s.destroy id).2 :=
  pared_destroyTo _ s id

/-- And so does clearing a library. -/
theorem pared_clear (s : Site β) (library : BlockId) : Pared kind s (s.clear library).2 :=
  pared_clearWith (pared_destroyTo _) s library

/-- Reclaiming a block takes away at most this block. -/
theorem pared_reclaim (s : Site β) (id : BlockId) : Pared kind s (s.reclaim id).2 := by
  unfold reclaim
  split
  · next heq => exact pared_vacate (alone_of_checkReclaim heq).1
  · exact .refl kind s

end Site

/-! ### Typed trees -/

namespace Tree

variable [Payload β] {t : Tree β}

/-- Exactly the payloads of libraries have children, and each of them is accepted. -/
structure Typed (t : Tree β) : Prop where
  holds : ∀ id node, t.node? id = some node →
    node.children.isSome = Payload.isLibrary node.payload
  accepted : ∀ library node, t.node? library = some node → ∀ child ∈ node.children.getD [],
    ∀ childNode, t.node? child = some childNode →
      Payload.accepts node.payload childNode.payload

/-- A tree without blocks is typed. -/
theorem typed_empty (registry : RegistryRef) : (empty registry : Tree β).Typed := by
  refine ⟨?_, ?_⟩ <;> simp

/-- A new block has no children, and is nobody's child. -/
theorem Typed.alloc (h : t.Typed) (hs : t.Sound) {node : Node β}
    (hc : node.children = if Payload.isLibrary node.payload then some [] else none) :
    (t.alloc node).2.Typed := by
  have hnode := node?_alloc hs.orderly node
  have hfresh := node?_alloc_fresh hs.orderly node
  generalize t.alloc node = made at hnode hfresh ⊢
  refine ⟨fun id other hid => ?_, fun library other hlib child hchild childNode hcn => ?_⟩
  · rw [hnode] at hid
    split_ifs at hid
    · cases hid
      rw [hc]
      cases Payload.isLibrary node.payload <;> rfl
    · exact h.holds id other hid
  · rw [hnode] at hlib hcn
    split_ifs at hlib with heq
    · cases hlib
      rw [hc] at hchild
      split at hchild <;> cases hchild
    · have hmem : child ∈ t.children library := by
        rw [children_of_node? hlib]
        exact hchild
      have halive := contains_of_parent? (hs.forest.mem_children_iff.mp hmem)
      rw [if_neg] at hcn
      · exact h.accepted library other hlib child hchild childNode hcn
      · rintro rfl
        rw [contains, hfresh] at halive
        cases halive

end Tree

namespace Site

variable [Payload β] {kind : β → κ} {s s' : Site β} {library block : BlockId}

/-- Acceptance is a matter of kinds, so fewer children are still accepted. -/
theorem typed_of_pared (hk : Kinds kind) (h : s.tree.Typed) (hp : Pared kind s s') :
    s'.tree.Typed := by
  refine ⟨fun id node' hn' => ?_, fun library node' hn' child hchild childNode' hcn' => ?_⟩
  · obtain ⟨node, hn, hpared⟩ := hp id node' hn'
    rw [hpared.holds, h.holds id node hn]
    exact hk.isLibrary _ _ hpared.kind.symm
  · obtain ⟨node, hn, hpared⟩ := hp library node' hn'
    obtain ⟨childNode, hcn, hcpared⟩ := hp child childNode' hcn'
    rw [hk.accepts _ _ _ _ hpared.kind hcpared.kind]
    exact h.accepted library node hn child (hpared.sub child hchild) childNode hcn

/-- The check looks at both payloads, and the new child is the only one. -/
theorem typed_attach {index : Nat} (h : s.tree.Typed) (hs : s.tree.Sound)
    (ha : Attachable s.tree library block) (hi : index ≤ (s.tree.children library).length) :
    (s.attach library block index).tree.Typed := by
  obtain ⟨-, hrel⟩ := admissible_attach hs.forest ha hi
  refine ⟨fun id node' hn' => ?_, fun id node' hn' child hchild childNode' hcn' => ?_⟩
  · rw [hrel] at hn'
    obtain ⟨node, hn, rfl⟩ := Option.map_eq_some_iff.mp hn'
    show _ = Payload.isLibrary node.payload
    rw [← h.holds id node hn]
    by_cases hid : id = library
    · simp [Node.relist, hid]
    · simp [Node.relist, hid]
  · rw [hrel] at hn' hcn'
    obtain ⟨node, hn, rfl⟩ := Option.map_eq_some_iff.mp hn'
    obtain ⟨childNode, hcn, rfl⟩ := Option.map_eq_some_iff.mp hcn'
    show Payload.accepts node.payload childNode.payload
    by_cases hid : id = library
    · subst hid
      obtain ⟨_, hsame, hc⟩ := Tree.exists_node_of_isLibrary ha.isLibrary
      cases hn.symm.trans hsame
      have hmem : child ∈ (s.tree.children id).insertIdx index block := by
        simpa [Node.relist, hc] using hchild
      -- The newcomer was checked right before, the others when they came.
      rcases (List.mem_insertIdx hi).mp hmem with rfl | hold
      · obtain ⟨p, q, hp, hq, haccepts⟩ := ha.accepted
        rw [Tree.payload?, hn, Option.map_some, Option.some_inj] at hp
        rw [Tree.payload?, hcn, Option.map_some, Option.some_inj] at hq
        rw [hp, hq]
        exact haccepts
      · exact h.accepted id node hn child (by rwa [hc]) childNode hcn
    · have hold : child ∈ node.children.getD [] := by
        simpa [Node.relist, hid] using hchild
      exact h.accepted id node hn child hold childNode hcn

/-- Rearrangement keeps a tree typed, since a block is attached only if its library accepts it. -/
theorem relists_typed (hk : Kinds kind) :
    Relists fun s : Site β => s.tree.Typed ∧ s.tree.Sound where
  forest h := h.2.forest
  shuffle h hmem hw hr hnd hsub := ⟨typed_of_pared hk h.1 (pared_of_relisted hr hsub),
    relists_sound.shuffle h.2 hmem hw hr hnd hsub⟩
  attach h ha hi := ⟨typed_attach h.1 h.2 ha hi, relists_sound.attach h.2 ha hi⟩

/-- A new block has no children, so the tree stays typed. -/
theorem typed_place (h : s.tree.Typed) (hs : s.tree.Sound) (payload : β)
    (entry : Option EntryRef) (ownership : Ownership) (flags : Flags) :
    (s.place payload entry ownership flags).2.tree.Typed := h.alloc hs rfl

/-- Making a block by the name of its type keeps the tree typed. -/
theorem typed_createByName (h : s.tree.Typed) (hs : s.tree.Sound) (name : String) :
    (s.createByName name).2.tree.Typed := by
  unfold createByName
  split
  · exact typed_place h hs _ _ _ _
  · exact h

/-- The same where an unknown name is an error. -/
theorem typed_create (h : s.tree.Typed) (hs : s.tree.Sound) (name : String) :
    (s.create name).2.tree.Typed := by
  have hmake := typed_createByName h hs name
  unfold create
  split
  · next heq =>
    rw [heq] at hmake
    exact hmake
  · next heq =>
    rw [heq] at hmake
    exact hmake

/-! ### Tame runs -/

/-- A tree is typed, and so is whatever is read into it. -/
structure WellTyped (kind : β → κ) (s : Site β) : Prop where
  sound : s.tree.Sound
  typed : s.tree.Typed
  consistent : s.catalogue.Consistent
  keepsKind : ∀ ref entry, s.catalogue.entryAt? ref = some entry → entry.type.KeepsKind kind

/-- What is kept of entries and types lasts, so only the tree has to be typed anew. -/
theorem WellTyped.of_lasting (h : WellTyped kind s) (hl : Lasting s s') (hs : s'.tree.Sound)
    (ht : s'.tree.Typed) : WellTyped kind s' where
  sound := hs
  typed := ht
  consistent := h.consistent.recounted hl.catalogue
  keepsKind ref entry' he' := by
    have htype := hl.catalogue.type_eq ref
    rw [he', Option.map_some] at htype
    obtain ⟨entry, he, heq⟩ := Option.map_eq_some_iff.mp htype.symm
    rw [← heq]
    exact h.keepsKind ref entry he

/-- A new block that is filled keeps the kind that its type starts with. -/
theorem pared_filled (h : WellTyped kind s) {record : Inflate.Record β} {payload : β}
    (he : s.catalogue.entryAt? record.ref = some record.entry)
    (hp : Inflate.fillPayload record.entry record.header.propertyCount record.data =
      .ok payload) :
    Pared kind (s.createFrom record.ref record.entry).2
      ((s.createFrom record.ref record.entry).2.setPayload
        (s.createFrom record.ref record.entry).1 payload) := by
  refine pared_setPayload fun old hold => ?_
  have hnew : (s.createFrom record.ref record.entry).2.tree.payload?
      (s.createFrom record.ref record.entry).1 = some record.entry.type.initial := by
    rw [Tree.payload?, node?_createFrom h.sound.orderly, if_pos rfl]
    rfl
  rw [hnew] at hold
  cases hold
  obtain ⟨hfaithful, hproperties⟩ := PropertyTable.faithful_of_build (h.consistent.table _ _ he)
  have hpairs := (Inflate.fillPayload_eq_ok_iff hfaithful hproperties).mp hp
  exact hpairs.kind (h.keepsKind _ _ he)

/-- Being typed is kept by the steps of a walk that reads blocks. -/
theorem keeps_wellTyped (hk : Kinds kind) : Inflate.Keeps (WellTyped (β := β) kind) where
  createFrom s _ ref entry h _ := h.of_lasting (lasting_createFrom s ref entry)
    (sound_createFrom h.sound ref entry) (typed_place h.typed h.sound _ _ _ _)
  filled s record payload h hfound hp := by
    have he := Catalogue.entryAt?_of_findId hfound
    have hsound := sound_createFrom h.sound record.ref record.entry
    refine h.of_lasting ((lasting_createFrom s _ _).trans (reworked_modify _ _ _).lasting)
      (sound_setPayload hsound _ payload) ?_
    refine typed_of_pared hk ?_ (pared_filled h he hp)
    exact typed_place h.typed h.sound _ _ _ _
  add s library block h := by
    obtain ⟨htyped, hsound⟩ := (relists_typed hk).add ⟨h.typed, h.sound⟩ library block
    exact h.of_lasting (reworked_add s library block).lasting hsound htyped
  destroy s id h := h.of_lasting (lasting_destroy s id) (sound_destroy h.sound id)
    (typed_of_pared hk h.typed (pared_destroy s id))

/-- Nobody sets the mark of a block that goes by hand, and nobody changes the kind of a payload:
neither by putting another one in its place nor by writing a property. -/
def Tame (kind : β → κ) : Site β → Op β → Prop
  | _, .addFlag _ flag => ¬ flag.contains Flags.beingDeleted
  | s, .setPayload id payload => ∀ old, s.tree.payload? id = some old → kind payload = kind old
  | s, @Op.inflate _ _ _ _ _ _ =>
    ∀ ref entry, s.catalogue.entryAt? ref = some entry → entry.type.KeepsKind kind
  | _, _ => True

omit [Payload β] in
/-- Whoever changes no kind does not set the mark either, so such a run is guarded. -/
theorem Tame.guarded {op : Op β} (h : Tame kind s op) : Guarded s op := by
  cases op with
  | addFlag id flag => exact h
  | _ => trivial

/-- Every call that changes no kind of a payload keeps a tree typed. -/
theorem typed_perform (hk : Kinds kind) (h : s.tree.Typed) (hs : s.tree.Sound)
    (hc : s.catalogue.Consistent) {op : Op β} (hop : Tame kind s op) :
    (s.perform op).tree.Typed := by
  have hpared : ∀ {s'}, Pared kind s s' → s'.tree.Typed := typed_of_pared hk h
  have hplaces := relists_typed (β := β) hk
  cases op with
  | create name => exact typed_create h hs name
  | createByName name => exact typed_createByName h hs name
  | createFrom ref =>
    show ((s.catalogue.entryAt? ref).elim s fun entry => (s.createFrom ref entry).2).tree.Typed
    cases s.catalogue.entryAt? ref with
    | none => exact h
    | some entry => exact typed_place h hs _ _ _ _
  | insertSystem payload => exact typed_place h hs _ _ _ _
  | adopt payload => exact typed_place h hs _ _ _ _
  | reclaim id => exact hpared (pared_reclaim s id)
  | add library block => exact (hplaces.add ⟨h, hs⟩ library block).1
  | insert library block index => exact (hplaces.insert ⟨h, hs⟩ library block index).1
  | remove library block => exact (hplaces.remove ⟨h, hs⟩ library block).1
  | detach block => exact (hplaces.detach ⟨h, hs⟩ block).1
  | reparent block library => exact (hplaces.reparent ⟨h, hs⟩ block library).1
  | reparentAt block library index => exact (hplaces.reparentAt ⟨h, hs⟩ block library index).1
  | swap library a b => exact (hplaces.swap ⟨h, hs⟩ library a b).1
  | moveTo library block target => exact (hplaces.moveTo ⟨h, hs⟩ library block target).1
  | clear library => exact hpared (pared_clear s library)
  | destroy id => exact hpared (pared_destroy s id)
  | freeze id frozen => exact hpared (pared_freezeTo frozen _ s id)
  | rename id name => exact hpared (pared_rename s id name)
  | setSerializable id on => exact hpared (pared_setSerializable s id on)
  | addFlag id flag => exact hpared (pared_update s id (fun _ => rfl) fun _ => rfl)
  | removeFlag id flag => exact hpared (pared_update s id (fun _ => rfl) fun _ => rfl)
  | setPayload id payload => exact hpared (pared_setPayload hop)
  | optimize root => exact hpared (pared_optimize hk s root)
  | inflate settings source monitor =>
    exact ((keeps_wellTyped hk).inflate settings ⟨hs, h, hc, hop⟩ source monitor).typed
  | subscribe => exact hpared (.of_node? fun _ => rfl)
  | unsubscribe observer => exact hpared (.of_node? fun _ => rfl)

/-- A site that is reached in this way is reached with the mark guarded. -/
theorem Reached.guarded (h : Reached (Tame kind) s) : Reached Guarded s :=
  h.mono fun _ _ hop => hop.guarded

/-- Whatever is reached by a tame run is typed. -/
theorem Reached.typed (hk : Kinds kind) (h : Reached (Tame kind) s) : s.tree.Typed := by
  have hall : s.tree.Typed ∧ s.tree.Sound ∧ s.catalogue.Consistent := by
    refine h.induct (P := fun s => s.tree.Typed ∧ s.tree.Sound ∧ s.catalogue.Consistent)
      (fun registry => ?_) (fun s op hop hs => ?_) fun s op hs => ?_
    · exact ⟨Tree.typed_empty registry, Tree.sound_empty registry, Catalogue.consistent_empty⟩
    · exact ⟨typed_perform hk hs.1 hs.2.1 hs.2.2 hop, sound_perform hs.2.1 hop.guarded,
        hs.2.2.recounted (lasting_perform s op).catalogue⟩
    · exact ⟨hs.1, hs.2.1, hs.2.2.perform op⟩
  exact hall.1

end Site

end BlockForest
