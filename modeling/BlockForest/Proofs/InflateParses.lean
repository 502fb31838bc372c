import Mathlib
import BlockForest.Proofs.StreamGrammar
import BlockForest.Proofs.FailedInflate

/-!
# Reading blocks is parsing

A walk over a stream succeeds exactly if a well-formed block comes next, and then the subtree it
makes is the blueprint of that block. `Site.Shows` compares a subtree with a blueprint, and
`Growing` is what holds of a library while its children are read: it is the only new subtree, and
it is the blueprint with the children read so far.

`Parses` is the contract of a reader, in both directions: what it finds is well formed, and what
is well formed it finds. The contract of the reader for one level more follows from that of the
reader for its children, so `parses_node` is an induction on levels around one on the number of
children.
-/

set_option autoImplicit false

namespace BlockForest

variable {β : Type}

/-- The type of the block at the top. -/
def Blueprint.type : Blueprint β → BlockType β
  | .block type _ _ => type

/-- The blocks right below it. -/
def Blueprint.children : Blueprint β → List (Blueprint β)
  | .block _ _ children => children

/-- What is known of a block apart from its place and its name. -/
structure Face (β : Type) where
  payload : β
  flags : Flags
  holds : Bool
  type : Option (BlockType β)

/-- How a block looks that was made from a type and then filled. -/
def Face.made [Payload β] (type : BlockType β) (payload : β) : Face β where
  payload := payload
  flags := type.defaultFlags.union Flags.allocated
  holds := Payload.isLibrary type.initial
  type := some type

/-- The type of a well-formed block is registered under some identifier. -/
theorem WellFormed.registered [Payload β] {settings : Settings}
    {type? : UInt32 → Option (BlockType β)} {depth : Nat} {plan : Blueprint β} {used : Bytes}
    (h : WellFormed settings type? depth plan used) : ∃ id, type? id = some plan.type := by
  cases h with
  | block _ _ hregistered => exact ⟨_, hregistered⟩

/-- What holds of related pairs may use that the second one is in the list. -/
theorem forall₂_imp_of_mem {α γ : Type} {R S : α → γ → Prop} {as : List α} {bs : List γ}
    (h : List.Forall₂ R as bs) (hrs : ∀ a, ∀ b ∈ bs, R a b → S a b) : List.Forall₂ S as bs := by
  induction h with
  | nil => exact .nil
  | cons hab _ ih =>
    refine .cons (hrs _ _ List.mem_cons_self hab) (ih fun a b hb => hrs a b ?_)
    exact List.mem_cons_of_mem _ hb

namespace Catalogue.Recounted

variable {c c' : Catalogue β}

/-- Counting blocks changes no entry's type, so identifiers find the same types. -/
theorem findId (h : Recounted c c') (r : RegistryRef) (id : UInt32) :
    (c'.findId r id).map (fun found => found.2.type) =
      (c.findId r id).map fun found => found.2.type := by
  have hlookup : c'.lookupId r id = c.lookupId r id := by
    unfold lookupId registryAt?
    rw [h.registries]
  unfold Catalogue.findId
  rw [hlookup]
  cases c.lookupId r id with
  | none => rfl
  | some ref =>
    have htype := h.type_eq ref
    simpa [Option.map_map, Function.comp_def] using htype

end Catalogue.Recounted

namespace Site

variable {s s' s₁ s₂ : Site β}

/-- The type that streams know by an identifier. -/
def type? (s : Site β) (id : UInt32) : Option (BlockType β) :=
  (s.catalogue.findId s.tree.registry id).map fun found => found.2.type

/-- Types are known by the same identifiers as long as a tree goes on using its registry. -/
theorem Lasting.type? (h : Lasting s s') : s'.type? = s.type? := by
  funext id
  unfold Site.type?
  rw [h.registry]
  exact h.catalogue.findId _ id

/-- The face of a live block. -/
def face? (s : Site β) (id : BlockId) : Option (Face β) :=
  (s.tree.node? id).map fun node =>
    ⟨node.payload, node.flags, node.children.isSome,
      (node.entry.bind s.catalogue.entryAt?).map Entry.type⟩

/-- A block that is left alone looks the same, since entries keep their types. -/
theorem Lasting.face? (h : Lasting s s') {id : BlockId}
    (hn : s'.tree.node? id = s.tree.node? id) : s'.face? id = s.face? id := by
  unfold Site.face?
  rw [hn]
  cases s.tree.node? id with
  | none => rfl
  | some node =>
    cases he : node.entry with
    | none => simp [he]
    | some ref =>
      have htype := h.catalogue.type_eq ref
      simp [he, htype]

/-- Whether a block can hold children is part of its face. -/
theorem isLibrary_of_face? {id : BlockId} {face : Face β} (h : s.face? id = some face) :
    s.tree.isLibrary id = face.holds := by
  obtain ⟨node, hn, rfl⟩ := Option.map_eq_some_iff.mp h
  rw [Tree.isLibrary, hn]
  rfl

/-- The payload of a block is part of its face. -/
theorem payload?_of_face? {id : BlockId} {face : Face β} (h : s.face? id = some face) :
    s.tree.payload? id = some face.payload := by
  obtain ⟨node, hn, rfl⟩ := Option.map_eq_some_iff.mp h
  rw [Tree.payload?, hn]
  rfl

/-- Whether a block is marked is part of its face. -/
theorem isBeingDeleted_of_face? {id : BlockId} {face : Face β} (h : s.face? id = some face) :
    s.tree.isBeingDeleted id = face.flags.contains Flags.beingDeleted := by
  obtain ⟨node, hn, rfl⟩ := Option.map_eq_some_iff.mp h
  exact Tree.isBeingDeleted_of_node? hn

variable [Payload β]

/-- A subtree is the one that a blueprint describes, with no more than so many levels. -/
def Shows (s : Site β) : Nat → Blueprint β → BlockId → Prop
  | 0, _, _ => False
  | levels + 1, plan, id =>
    s.face? id = some (Face.made plan.type plan.payload) ∧
      List.Forall₂ (Shows s levels) plan.children (s.tree.children id)

/-- What a subtree shows depends on its blocks alone. -/
theorem Shows.congr {levels : Nat} {plan : Blueprint β} {id : BlockId}
    (h : s.Shows (levels + 1) plan id)
    (hface : ∀ x ∈ s.tree.listing levels id, s'.face? x = s.face? x)
    (hchildren : ∀ x ∈ s.tree.listing levels id, s'.tree.children x = s.tree.children x) :
    s'.Shows (levels + 1) plan id := by
  have hself := Tree.mem_listing_self (t := s.tree) levels id
  induction levels generalizing plan id with
  | zero =>
    refine ⟨(hface id hself).trans h.1, ?_⟩
    rw [hchildren id hself]
    exact h.2.imp fun _ _ hfalse => hfalse.elim
  | succ levels ih =>
    refine ⟨(hface id hself).trans h.1, ?_⟩
    rw [hchildren id hself]
    refine forall₂_imp_of_mem h.2 fun kid child hchild hshows => ?_
    have hmem : ∀ x ∈ s.tree.listing levels child, x ∈ s.tree.listing (levels + 1) id :=
      fun x hx => Tree.mem_listing_child hchild hx
    exact ih hshows (fun x hx => hface x (hmem x hx)) (fun x hx => hchildren x (hmem x hx))
      (Tree.mem_listing_self levels child)

/-! ### A block takes in a child -/

omit [Payload β] in
/-- Attaching a block at the end changes the face of no block, only links and a list. -/
theorem face?_attach {library block : BlockId} (hlib : s.tree.isLibrary library)
    (hne : block ≠ library) (id : BlockId) :
    (s.attach library block (s.tree.children library).length).face? id = s.face? id := by
  unfold face?
  rw [(reworked_attach s library block _).catalogue]
  refine map_node?_attach_last hlib hne _ ?_ (fun _ _ _ => rfl) id
  intro n _ _ hc
  simp [hc]

/-- While its children are read, a block is new with all that is below it, and shows its type, its
payload and the children read so far. -/
structure Growing (s s' : Site β) (levels : Nat) (plan : Blueprint β) (library : BlockId) :
    Prop where
  sprouted : Sprouted s s' levels library
  shows : s'.Shows (levels + 1) plan library

/-- A step that leaves the site as it was does not disturb a growing block. -/
theorem Growing.undisturbed {m n : Nat} {plan : Blueprint β} {library kid : BlockId}
    (h : Growing s s₁ m plan library) (h' : Sprouted s₁ s₂ n kid) :
    s₂.Shows (m + 1) plan library := by
  have hkeep : ∀ x ∈ s₁.tree.listing m library, s₂.tree.node? x = s₁.tree.node? x :=
    fun x hx => h'.frame x (h.sprouted.apart h' hx)
  refine h.shows.congr (fun x hx => h'.lasting.face? (hkeep x hx)) fun x hx => ?_
  unfold Tree.children
  rw [hkeep x hx]

/-- A new block is marked exactly if its type marks it. -/
theorem contains_beingDeleted_made (type : BlockType β) (payload : β) :
    (Face.made type payload).flags.contains Flags.beingDeleted ↔
      type.defaultFlags.contains Flags.beingDeleted := by
  have hallocated : ¬ Flags.allocated.contains Flags.beingDeleted := by decide
  rw [Face.made, Flags.contains_beingDeleted_union, or_iff_left hallocated]

/-- A new subtree may be added to a growing block exactly if that is a library which accepts it and
neither is marked by its type. The one is never above the other. -/
theorem Growing.attachable_iff {m n k : Nat} {plan kidPlan : Blueprint β}
    {library kid : BlockId} (h : Growing s s₁ m plan library) (h' : Sprouted s₁ s₂ n kid)
    (hk : s₂.Shows (k + 1) kidPlan kid) :
    Attachable s₂.tree library kid ↔
      (Payload.isLibrary plan.type.initial ∧ Payload.accepts plan.payload kidPlan.payload) ∧
        ¬ plan.type.defaultFlags.contains Flags.beingDeleted ∧
          ¬ kidPlan.type.defaultFlags.contains Flags.beingDeleted := by
  have hface : s₂.face? library = some (.made plan.type plan.payload) := (h.undisturbed h').1
  have hkface : s₂.face? kid = some (.made kidPlan.type kidPlan.payload) := hk.1
  have hmark : s₂.tree.isBeingDeleted library ↔
      plan.type.defaultFlags.contains Flags.beingDeleted := by
    rw [isBeingDeleted_of_face? hface, contains_beingDeleted_made]
  have hkmark : s₂.tree.isBeingDeleted kid ↔
      kidPlan.type.defaultFlags.contains Flags.beingDeleted := by
    rw [isBeingDeleted_of_face? hkface, contains_beingDeleted_made]
  constructor
  · intro ha
    obtain ⟨p, q, hp, hq, haccepts⟩ := ha.accepted
    rw [payload?_of_face? hface] at hp
    rw [payload?_of_face? hkface] at hq
    cases hp
    cases hq
    have hlib := ha.isLibrary
    rw [isLibrary_of_face? hface] at hlib
    exact ⟨⟨hlib, haccepts⟩, mt hmark.mpr ha.unmarked.1, mt hkmark.mpr ha.unmarked.2⟩
  · rintro ⟨⟨hlib, haccepts⟩, hclean, hkclean⟩
    have hkept : s₂.tree.parent? library = none := by
      have hroot := Tree.mem_listing_self (t := s₁.tree) m library
      unfold Tree.parent?
      rw [h'.frame library (h.sprouted.apart h' hroot)]
      exact h.sprouted.detached.1
    refine ⟨?_, ?_, h'.detached.1, ⟨mt hmark.mp hclean, mt hkmark.mp hkclean⟩, ?_, _, _,
      payload?_of_face? hface, payload?_of_face? hkface, haccepts⟩
    · rw [isLibrary_of_face? hface]
      exact hlib
    · exact h'.upright.alive kid (Tree.mem_listing_self n kid)
    · intro hin
      rw [Tree.ancestors, Tree.lineage, hkept, List.mem_cons] at hin
      rcases hin with rfl | hin
      · exact h.sprouted.apart h' (Tree.mem_listing_self m kid) (Tree.mem_listing_self n kid)
      · cases hin

/-- With one more child a growing block shows one more child. -/
theorem Growing.adopt {k : Nat} {type : BlockType β} {payload : β}
    {kids : List (Blueprint β)} {kidPlan : Blueprint β} {library kid : BlockId}
    (h : Growing s s₁ (k + 1) (.block type payload kids) library) (h' : Sprouted s₁ s₂ k kid)
    (hk : s₂.Shows (k + 1) kidPlan kid) (hlib : s₂.tree.isLibrary library) :
    Growing s (s₂.attach library kid (s₂.tree.children library).length) (k + 1)
      (.block type payload (kids ++ [kidPlan])) library := by
  have hshows := h.undisturbed h'
  have hkeep : ∀ x ∈ s₁.tree.listing (k + 1) library, s₂.tree.node? x = s₁.tree.node? x :=
    fun x hx => h'.frame x (h.sprouted.apart h' hx)
  have hup : s₂.tree.Upright (k + 1) library := h.sprouted.upright.of_node?_eq hkeep
  have hroot := Tree.mem_listing_self (t := s₁.tree) (k + 1) library
  have hlibOut : library ∉ s₂.tree.listing k kid := h.sprouted.apart h' hroot
  have hne : kid ≠ library := by
    rintro rfl
    exact hlibOut (Tree.mem_listing_self k kid)
  have hkidIn := h'.upright.alive kid (Tree.mem_listing_self k kid)
  have hface := face?_attach hlib hne
  have hgraft := grafted_attach hlib hkidIn hne
  refine ⟨h.sprouted.graft h' hlib, ?_⟩
  generalize s₂.attach library kid (s₂.tree.children library).length = s₃ at hface hgraft ⊢
  -- A subtree without the library is shown as before.
  have hkept : ∀ {p x}, s₂.Shows (k + 1) p x → library ∉ s₂.tree.listing k x →
      s₃.Shows (k + 1) p x := by
    intro p x hp hout
    refine hp.congr (fun y _ => hface y) fun y hy => ?_
    rw [hgraft.children, if_neg]
    rintro rfl
    exact hout hy
  refine ⟨(hface library).trans hshows.1, ?_⟩
  rw [hgraft.children, if_pos rfl]
  refine List.rel_append ?_ (.cons (hkept hk hlibOut) .nil)
  refine forall₂_imp_of_mem hshows.2 fun p x hx hp => hkept hp fun hin => ?_
  exact hup.root_not_mem (List.mem_flatMap.mpr ⟨x, hx, hin⟩)

/-- A new block shows its type and the payload that the type starts with. -/
theorem growing_createFrom (ho : s.tree.Orderly) (levels : Nat) {ref : EntryRef}
    {entry : Entry β} (he : s.catalogue.entryAt? ref = some entry) :
    Growing s (s.createFrom ref entry).2 levels (.block entry.type entry.type.initial [])
      (s.createFrom ref entry).1 := by
  refine ⟨sprouted_createFrom ho levels ref entry, ?_⟩
  have hnode := node?_createFrom ho ref entry (s.createFrom ref entry).1
  have htype := (lasting_createFrom s ref entry).catalogue.type_eq ref
  rw [if_pos rfl] at hnode
  rw [he] at htype
  generalize s.createFrom ref entry = made at hnode htype ⊢
  have hface : made.2.face? made.1 = some (.made entry.type entry.type.initial) := by
    unfold face?
    rw [hnode, Option.map_some]
    simp only [madeBy, Option.bind_some, htype, Face.made, Option.map_some]
    split <;> simp_all
  have hchildren : made.2.tree.children made.1 = [] := by
    rw [Tree.children_of_node? hnode, madeBy]
    split <;> rfl
  refine ⟨hface, ?_⟩
  rw [hchildren]
  exact .nil

/-- A block without children shows the payload that is put into it. -/
theorem Growing.setPayload {levels : Nat} {type : BlockType β} {old : β} {root : BlockId}
    (h : Growing s s₁ levels (.block type old []) root) (payload : β) :
    Growing s (s₁.setPayload root payload) levels (.block type payload []) root := by
  refine ⟨h.sprouted.setPayload payload, ?_⟩
  obtain ⟨hface, hkids⟩ := h.shows
  obtain ⟨node, hn, hlooks⟩ := Option.map_eq_some_iff.mp hface
  have hnode : (s₁.setPayload root payload).tree.node? root = some { node with payload } := by
    unfold Site.setPayload
    rw [node?_modify, if_pos rfl, hn]
    rfl
  refine ⟨?_, ?_⟩
  · unfold face?
    rw [hnode]
    injection hlooks with _ hflags hholds htype
    simp only [Option.map_some, Face.made, Blueprint.payload, Blueprint.type]
    exact congrArg some (congr (congr (congrArg _ hflags) hholds) htype)
  · have hnone : s₁.tree.children root = [] := List.forall₂_nil_left_iff.mp hkids
    rw [Tree.children_of_node? hn] at hnone
    rw [Tree.children_of_node? hnode, hnone]
    exact .nil

end Site

/-! ### The walk -/

namespace Inflate

open Site

variable [Payload β] {settings : Settings} {total : Nat} {type? : UInt32 → Option (BlockType β)}

/-- No new block of a registered type is marked. -/
def Unmarked (type? : UInt32 → Option (BlockType β)) : Prop :=
  ∀ id type, type? id = some type → ¬ type.defaultFlags.contains Flags.beingDeleted

/-- A walk that nobody stops, in a tree that knows at least the given types. -/
structure Ready (type? : UInt32 → Option (BlockType β)) (i : Intake Source β) : Prop where
  orderly : i.site.tree.Orderly
  consistent : i.site.catalogue.Consistent
  types : ∀ id type, type? id = some type → i.site.type? id = some type
  willing : ∀ n, i.monitor.answer n

omit [Payload β] in
/-- A walk that is ready stays so, as long as the site lasts and the monitor answers as before. -/
theorem Ready.of_lasting {i i' : Intake Source β} (h : Ready type? i) (hl : Lasting i.site i'.site)
    (hm : i'.monitor.answer = i.monitor.answer) : Ready type? i' where
  orderly := hl.orderly h.orderly
  consistent := h.consistent.recounted hl.catalogue
  types id type htype := by
    rw [hl.type?]
    exact h.types id type htype
  willing n := by
    rw [hm]
    exact h.willing n

omit [Payload β] in
/-- A walk is ready as before after a child was attached. -/
theorem Ready.attach {i : Intake Source β} (h : Ready type? i) (library child : BlockId)
    (index : Nat) : Ready type? { i with site := i.site.attach library child index } :=
  h.of_lasting (reworked_attach i.site library child index).lasting rfl

/-- A walk has found a block as the blueprint has it, and the bytes that it was read from. -/
structure Found (i : Intake Source β) (levels : Nat) (r : Except CodecError InflateStatus × Intake Source β)
    (plan : Blueprint β) (used : Bytes) (root : BlockId) : Prop where
  success : r.1 = .ok (.success root)
  passes : i.source.Passes r.2.source used
  shows : r.2.site.Shows levels plan root

/-- What a reader of blocks at a depth does. It finds what is well formed and nothing else. -/
structure Parses (settings : Settings) (type? : UInt32 → Option (BlockType β))
    (depth levels : Nat) (readBlock : Intake Source β → Except CodecError InflateStatus × Intake Source β) :
    Prop where
  leaves : ∀ i, i.site.tree.Orderly → Leaves i.site levels (readBlock i)
  lasting : ∀ i, Lasting i.site (readBlock i).2.site
  answer : ∀ i, (readBlock i).2.monitor.answer = i.monitor.answer
  sound : ∀ i root, Ready type? i → i.site.type? = type? →
    (readBlock i).1 = .ok (.success root) →
    ∃ plan used, WellFormed settings type? depth plan used ∧
      Found i levels (readBlock i) plan used root
  complete : ∀ i plan used rest, Ready type? i → WellFormed settings type? depth plan used →
    i.source.remaining = used ++ rest → ∃ root, Found i levels (readBlock i) plan used root

variable {depth levels : Nat}
  {readBlock : Intake Source β → Except CodecError InflateStatus × Intake Source β} {s : Site β}
  {type : BlockType β} {payload : β} {library : BlockId}

/-- A child that may be attached is attached behind the others. -/
theorem adoptChild_of_attachable {i : Intake Source β} {child : BlockId}
    (h : Attachable i.site.tree library child) :
    adoptChild i library child = (.ok (), { i with
      site := i.site.attach library child (i.site.tree.children library).length }) := by
  unfold adoptChild
  rw [add_of_attachable h]

/-- A child that was adopted could be attached. -/
theorem attachable_of_adoptChild {i i' : Intake Source β} {child : BlockId}
    (h : adoptChild i library child = (.ok (), i')) :
    Attachable i.site.tree library child := by
  by_contra hnot
  obtain ⟨e, hadd⟩ := add_of_not_attachable hnot
  unfold adoptChild at h
  rw [hadd] at h
  cases h

/-- The children that a walk has found are well formed and accepted. -/
theorem Parses.sound_children (hp : Parses settings type? depth levels readBlock)
    (count : Nat) {i : Intake Source β} (hi : Ready type? i) (hall : i.site.type? = type?)
    {kids : List (Blueprint β)}
    (hg : Growing s i.site levels (.block type payload kids) library) {root : BlockId}
    (h : (children readBlock library count i).1 = .ok (.success root)) :
    ∃ more used, more.length = count ∧ WellFormedAll settings type? depth payload more used ∧
      i.source.Passes (children readBlock library count i).2.source used ∧
      Growing s (children readBlock library count i).2.site levels
        (.block type payload (kids ++ more)) library := by
  induction count generalizing i kids with
  | zero =>
    refine ⟨[], [], rfl, .nil, .refl i.source, ?_⟩
    rw [List.append_nil]
    exact hg
  | succ count ih =>
    have hleaves := hp.leaves i hi.orderly
    have hlasting := hp.lasting i
    have hanswer := hp.answer i
    have hsound := hp.sound i
    unfold Inflate.children at h ⊢
    cases hr : readBlock i with
    | mk result i₁ =>
      simp only [hr] at h hleaves hlasting hanswer hsound ⊢
      cases result with
      | error e => cases h
      | ok status =>
        cases status with
        | canceled => cases h
        | success child =>
          obtain ⟨k, rfl, hsprouted⟩ := hleaves.1 child rfl
          obtain ⟨plan, first, hplan, hfound⟩ := hsound child hi hall rfl
          have hattach := hg.attachable_iff hsprouted hfound.shows
          cases ha : adoptChild i₁ library child with
          | mk outcome i₂ =>
            simp only [ha] at h ⊢
            cases outcome with
            | error e => cases h
            | ok _ =>
              have hable := attachable_of_adoptChild ha
              rw [adoptChild_of_attachable hable] at ha
              cases ha
              -- One child more, and the library is growing as before.
              have hgrown := hg.adopt hsprouted hfound.shows hable.isLibrary
              have hi₂ := (hi.of_lasting hlasting hanswer).attach library child
                (i₁.site.tree.children library).length
              have hsame := (reworked_attach i₁.site library child
                (i₁.site.tree.children library).length).lasting
              obtain ⟨more, used, hcount, hmore, hpasses, hgrowing⟩ :=
                ih hi₂ ((hlasting.trans hsame).type?.trans hall) hgrown h
              refine ⟨plan :: more, first ++ used, by rw [List.length_cons, hcount],
                .cons hplan (hattach.mp hable).1.2 hmore, hfound.passes.trans hpasses, ?_⟩
              rw [List.append_cons]
              exact hgrowing

/-- A child that is well formed and accepted is found and taken in, and the others are read behind
it. -/
theorem Parses.next_child (hp : Parses settings type? depth levels readBlock)
    (hu : Unmarked type?) (hmark : ¬ type.defaultFlags.contains Flags.beingDeleted)
    (hlib : Payload.isLibrary type.initial) {i : Intake Source β} (hi : Ready type? i)
    {kids : List (Blueprint β)}
    (hg : Growing s i.site levels (.block type payload kids) library) {plan : Blueprint β}
    {first rest : Bytes} (hplan : WellFormed settings type? depth plan first)
    (haccepted : Payload.accepts payload plan.payload)
    (hrem : i.source.remaining = first ++ rest) (count : Nat) :
    ∃ i', children readBlock library (count + 1) i = children readBlock library count i' ∧
      Ready type? i' ∧ Growing s i'.site levels (.block type payload (kids ++ [plan])) library ∧
      i.source.Passes i'.source first ∧ i'.source.remaining = rest := by
  obtain ⟨child, hfound⟩ := hp.complete i plan first _ hi hplan hrem
  have hleaves := hp.leaves i hi.orderly
  have hlasting := hp.lasting i
  have hanswer := hp.answer i
  cases hr : readBlock i with
  | mk result i₁ =>
    simp only [hr] at hfound hleaves hlasting hanswer
    obtain ⟨rfl, hpasses, hshows⟩ := hfound
    obtain ⟨k, rfl, hsprouted⟩ := hleaves.1 child rfl
    obtain ⟨id, hid⟩ := hplan.registered
    have hable := (hg.attachable_iff hsprouted hshows).mpr
      ⟨⟨hlib, haccepted⟩, hmark, hu id _ hid⟩
    have hsplit := hpasses.remaining
    rw [hrem] at hsplit
    refine ⟨_, ?_, (hi.of_lasting hlasting hanswer).attach library child
      (i₁.site.tree.children library).length, hg.adopt hsprouted hshows hable.isLibrary, hpasses,
      (List.append_cancel_left hsplit).symm⟩
    rw [Inflate.children, hr]
    simp only [adoptChild_of_attachable hable]

/-- Children that are well formed and accepted are found. -/
theorem Parses.complete_children (hp : Parses settings type? depth levels readBlock)
    (hu : Unmarked type?) (hmark : ¬ type.defaultFlags.contains Flags.beingDeleted)
    {more : List (Blueprint β)} {i : Intake Source β} (hi : Ready type? i)
    {kids : List (Blueprint β)}
    (hg : Growing s i.site levels (.block type payload kids) library)
    (hlib : more = [] ∨ Payload.isLibrary type.initial) {used rest : Bytes}
    (hw : WellFormedAll settings type? depth payload more used)
    (hrem : i.source.remaining = used ++ rest) :
    (children readBlock library more.length i).1 = .ok (.success library) ∧
      i.source.Passes (children readBlock library more.length i).2.source used ∧
      Growing s (children readBlock library more.length i).2.site levels
        (.block type payload (kids ++ more)) library := by
  induction more generalizing i kids used with
  | nil =>
    cases hw
    refine ⟨rfl, .refl i.source, ?_⟩
    rw [List.append_nil]
    exact hg
  | cons plan more ih =>
    obtain hnil | hlibrary := hlib
    · cases hnil
    cases hw with
    | @cons _ _ _ _ first used hplan haccepted hmore =>
      rw [List.append_assoc] at hrem
      obtain ⟨i', hstep, hi', hg', hpasses, hrem'⟩ :=
        hp.next_child hu hmark hlibrary hi hg hplan haccepted hrem more.length
      rw [List.length_cons, hstep, List.append_cons]
      obtain ⟨hsuccess, hpasses', hgrowing⟩ := ih hi' hg' (Or.inr hlibrary) hmore hrem'
      exact ⟨hsuccess, hpasses.trans hpasses', hgrowing⟩

/-! ### One block -/

/-- Once its data are found to be pairs, a block that is a library or has no children is filled with
its children. -/
theorem fill_eq_children {record : Record β} {id : BlockId} {i : Intake Source β}
    (hpayload : fillPayload record.entry record.header.propertyCount record.data = .ok payload)
    (hroom : record.header.childCount = 0 ∨ (i.site.setPayload id payload).tree.isLibrary id) :
    fill readBlock record id i = children readBlock id record.header.childCount.toNat
      { i with site := i.site.setPayload id payload } := by
  unfold fill
  simp only [hpayload]
  rw [if_neg]
  rintro ⟨hsome, hnot⟩
  rcases hroom with hnone | hlib
  · rw [hnone] at hsome
    exact absurd hsome (by decide)
  · simp [hlib] at hnot

/-- A block is filled exactly if its data are pairs of its type, it is a library or has no
children, and its children are found. -/
theorem fill_eq_success_iff {record : Record β} {id kept : BlockId} {i i' : Intake Source β} :
    fill readBlock record id i = (.ok (.success kept), i') ↔
      ∃ payload, fillPayload record.entry record.header.propertyCount record.data = .ok payload ∧
        (record.header.childCount = 0 ∨ (i.site.setPayload id payload).tree.isLibrary id) ∧
        children readBlock id record.header.childCount.toNat
          { i with site := i.site.setPayload id payload } = (.ok (.success kept), i') := by
  constructor
  · intro h
    unfold fill at h
    split at h
    · cases h
    · next payload hpayload =>
      simp only at h
      split at h
      · cases h
      · next hroom =>
        refine ⟨payload, hpayload, ?_, h⟩
        by_contra hnot
        rw [not_or] at hnot
        refine hroom ⟨?_, by simpa using hnot.2⟩
        rw [UInt32.lt_iff_toNat_lt, UInt32.toNat_zero]
        exact Nat.pos_of_ne_zero fun hzero => hnot.1 (UInt32.toNat_inj.mp hzero)
  · rintro ⟨payload, hpayload, hroom, hchildren⟩
    rw [fill_eq_children hpayload hroom, hchildren]

/-- The walk in front of the properties and children of a block. -/
def opened (total : Nat) (i : Intake Source β) (record : Record β) (source : Source) :
    Intake Source β where
  site := (i.site.createFrom record.ref record.entry).2
  source := source
  monitor := i.monitor.poll.2.report i.source.position total

/-- Once its record is read, a block is made and filled, and destroyed again if that fails. -/
theorem node_eq_of_readRecord (total levels : Nat) {i : Intake Source β}
    (hgo : i.monitor.answer i.monitor.polls) {record : Record β} {source : Source}
    (hrecord : readRecord settings i.site.catalogue i.site.tree.registry i.source =
      (.ok record, source)) :
    node settings total (levels + 1) i =
      match fill (node settings total levels) record (i.site.createFrom record.ref record.entry).1
        (opened total i record source) with
      | (.ok (.success _), i') => (.ok (.success (i.site.createFrom record.ref record.entry).1), i')
      | (outcome, i') => (outcome, discard i' (i.site.createFrom record.ref record.entry).1) := by
  have hpoll : i.monitor.poll.1 = true := hgo
  rw [node]
  simp only [hpoll, Bool.not_true, Bool.false_eq_true, if_false, Source.position_eq, hrecord]
  unfold build
  rcases hfill : fill (node settings total levels) record
    (i.site.createFrom record.ref record.entry).1 (opened total i record source) with
      ⟨_ | _ | _, _⟩
  all_goals
    rw [opened] at hfill
    simp only [hfill]

/-- A block is found exactly if its record is read and the block that is made for it is filled. -/
theorem node_eq_success_iff {i i' : Intake Source β} {root : BlockId}
    (hgo : i.monitor.answer i.monitor.polls) :
    node settings total (levels + 1) i = (.ok (.success root), i') ↔
      ∃ record source kept,
        readRecord settings i.site.catalogue i.site.tree.registry i.source =
          (.ok record, source) ∧
        (i.site.createFrom record.ref record.entry).1 = root ∧
        fill (node settings total levels) record root (opened total i record source) =
          (.ok (.success kept), i') := by
  have hpoll : i.monitor.poll.1 = true := hgo
  constructor
  · intro h
    cases hrecord : readRecord settings i.site.catalogue i.site.tree.registry i.source with
    | mk result source =>
      cases result with
      | error e =>
        rw [node] at h
        simp only [hpoll, Bool.not_true, Bool.false_eq_true, if_false, Source.position_eq,
          hrecord] at h
        cases h
      | ok record =>
        rw [node_eq_of_readRecord total levels hgo hrecord] at h
        split at h
        · next kept i₁ hfill =>
          cases h
          exact ⟨record, source, kept, rfl, rfl, hfill⟩
        · next outcome i₁ hnot hfill =>
          cases h
          exact absurd rfl (hnot _)
  · rintro ⟨record, source, kept, hrecord, rfl, hfill⟩
    rw [node_eq_of_readRecord _ _ hgo hrecord, hfill]

/-! ### All levels -/

/-- Adopting a child does not ask the monitor. -/
theorem answer_adoptChild (i : Intake Source β) (library child : BlockId) :
    (adoptChild i library child).2.monitor = i.monitor := by
  unfold adoptChild
  split <;> rfl

/-- Reading children asks the monitor and does not change how it answers. By induction on their
number. -/
theorem answer_children (hread : ∀ i, (readBlock i).2.monitor.answer = i.monitor.answer)
    (count : Nat) (i : Intake Source β) :
    (children readBlock library count i).2.monitor.answer = i.monitor.answer := by
  induction count generalizing i with
  | zero => rfl
  | succ count ih =>
    have hblock := hread i
    unfold Inflate.children
    split
    · next heq =>
      rw [heq] at hblock
      exact hblock
    · next heq =>
      rw [heq] at hblock
      exact hblock
    · next child i₁ heq =>
      rw [heq] at hblock
      have hadopt := answer_adoptChild i₁ library child
      split
      · next heq =>
        rw [heq] at hadopt
        exact (congrArg Monitor.answer hadopt).trans hblock
      · next heq =>
        rw [heq] at hadopt
        exact (ih _).trans ((congrArg Monitor.answer hadopt).trans hblock)

/-- The walk does not change who answers. -/
theorem answer_node (settings : Settings) (total levels : Nat) (i : Intake Source β) :
    (node settings total levels i).2.monitor.answer = i.monitor.answer := by
  induction levels generalizing i with
  | zero =>
    unfold node
    simp only [Source.position_eq]
    split <;> rfl
  | succ levels ih =>
    unfold node
    simp only [Source.position_eq]
    split
    · rfl
    · split
      · rfl
      · next record source _ =>
        have hfill : ∀ id (j : Intake Source β),
            (fill (node settings total levels) record id j).2.monitor.answer =
              j.monitor.answer := by
          intro id j
          unfold fill
          split
          · rfl
          · simp only
            split
            · rfl
            · exact answer_children ih _ _
        unfold build
        simp only
        split
        · next heq =>
          have hanswer := hfill (i.site.createFrom record.ref record.entry).1
            (opened total i record source)
          rw [opened, heq] at hanswer
          exact hanswer
        · next heq =>
          have hanswer := hfill (i.site.createFrom record.ref record.entry).1
            (opened total i record source)
          rw [opened, heq] at hanswer
          exact hanswer

omit [Payload β] in
/-- What the entry that a record was read for has to do with the types of the tree. -/
theorem Ready.entry {i : Intake Source β} (h : Ready type? i) {id : UInt32} {ref : EntryRef}
    {entry : Entry β}
    (hfound : i.site.catalogue.findId i.site.tree.registry id = some (ref, entry)) :
    i.site.catalogue.entryAt? ref = some entry ∧ i.site.type? id = some entry.type ∧
      entry.table.Faithful ∧ entry.table.properties = entry.type.properties := by
  have hentry := Catalogue.entryAt?_of_findId hfound
  have htype : i.site.type? id = some entry.type := by
    unfold Site.type?
    rw [hfound]
    rfl
  exact ⟨hentry, htype,
    PropertyTable.faithful_of_build (h.consistent.table ref entry hentry)⟩

/-- Once the properties of a new block are written, its children can be read. -/
theorem Ready.filled {i : Intake Source β} (h : Ready type? i) (total levels : Nat) {record : Record β}
    (hentry : i.site.catalogue.entryAt? record.ref = some record.entry) (source : Source)
    (payload : β) :
    let id := (i.site.createFrom record.ref record.entry).1
    let i' := { opened total i record source with
      site := (opened total i record source).site.setPayload id payload }
    Ready type? i' ∧ Growing i.site i'.site levels (.block record.entry.type payload []) id := by
  intro id i'
  have hgrowing := growing_createFrom h.orderly levels hentry
  have hlasting := lasting_createFrom i.site record.ref record.entry
  refine ⟨h.of_lasting (hlasting.trans (reworked_modify _ _ _).lasting) rfl, ?_⟩
  exact hgrowing.setPayload payload

/-- Where a record of a registered type comes next and its data are pairs, the walk comes to the
children: a new block has grown, and how reading the block ends is how reading the children does. -/
theorem Ready.reach_children {i : Intake Source β} (h : Ready type? i) (levels : Nat)
    {header : NodeHeader} {data rest : Bytes} (hsmall : header.size ≤ settings.maxPayloadSize)
    (htype : type? header.blockType = some type) (hwhole : data.length = header.size.toNat)
    (hpairs : Pairs type.properties header.propertyCount.toNat type.initial data payload)
    (hroom : header.childCount = 0 ∨ Payload.isLibrary type.initial)
    (hrem : i.source.remaining = header.toBytes ++ data ++ rest) :
    ∃ library i', Ready type? i' ∧
      Growing i.site i'.site levels (.block type payload []) library ∧
      i.source.Passes i'.source (header.toBytes ++ data) ∧ i'.source.remaining = rest ∧
      let below := children (node settings total levels) library header.childCount.toNat i'
      (∀ kept, below.1 = .ok (.success kept) →
        node settings total (levels + 1) i = (.ok (.success library), below.2)) ∧
      ∀ e, below.1 = .error e → (node settings total (levels + 1) i).1 = .error e := by
  have hregistered := h.types header.blockType type htype
  obtain ⟨⟨ref, entry⟩, hfound, rfl⟩ := Option.map_eq_some_iff.mp hregistered
  obtain ⟨hentry, -, hfaithful, hproperties⟩ := h.entry hfound
  -- The record that stands at the front of the source.
  let record : Record β := ⟨header, ref, entry, data⟩
  let source := i.source.skip (header.toBytes ++ data).length
  obtain ⟨hpasses, hrest⟩ : i.source.Passes source (header.toBytes ++ data) ∧
      source.remaining = rest := Source.passes_skip hrem
  have hrecord : readRecord settings i.site.catalogue i.site.tree.registry i.source =
      (.ok record, source) :=
    readRecord_eq_ok_iff.mpr ⟨hsmall, hfound, hwhole, hpasses⟩
  have hpayload : fillPayload record.entry record.header.propertyCount record.data =
      .ok payload := (fillPayload_eq_ok_iff hfaithful hproperties).mpr hpairs
  have hrecordEntry : i.site.catalogue.entryAt? record.ref = some record.entry := hentry
  obtain ⟨hready, hgrowing⟩ := h.filled total levels hrecordEntry source payload
  have hlib := isLibrary_of_face? hgrowing.shows.1
  have hnode := node_eq_of_readRecord total levels (h.willing _) hrecord
  rw [fill_eq_children hpayload (hroom.imp_right fun hholds => hlib.trans hholds)] at hnode
  refine ⟨_, _, hready, hgrowing, hpasses, hrest, fun kept hkept => ?_, fun e he => ?_⟩
  · rw [hnode]
    split
    · next heq => rw [heq]
    · next hnot heq =>
      rw [heq] at hkept
      exact absurd hkept (hnot _)
  · rw [hnode]
    split
    · next heq =>
      rw [heq] at he
      cases he
    · next heq =>
      rw [heq] at he
      exact he

/-- The reader for one level more, from the one for the children. -/
theorem parses_succ (hu : Unmarked type?) (hdepth : depth < settings.maxDepth)
    (hp : Parses settings type? (depth + 1) levels (node settings total levels)) :
    Parses settings type? depth (levels + 1) (node settings total (levels + 1)) where
  leaves := leaves_node settings total (levels + 1)
  lasting i := (keeps_lasting i.site).node settings total (levels + 1) (.refl i.site)
  answer := answer_node settings total (levels + 1)
  sound i root hi hall h := by
    obtain ⟨i', hi'⟩ : ∃ i', node settings total (levels + 1) i = (.ok (.success root), i') :=
      ⟨_, Prod.ext h rfl⟩
    rw [hi']
    obtain ⟨record, source, kept, hrecord, rfl, hfill⟩ :=
      (node_eq_success_iff (hi.willing _)).mp hi'
    obtain ⟨hsmall, hfound, hwhole, hpasses⟩ := readRecord_eq_ok_iff.mp hrecord
    obtain ⟨hentry, htype, hfaithful, hproperties⟩ := hi.entry hfound
    rw [hall] at htype
    obtain ⟨payload, hpayload, hroom, hchildren⟩ := fill_eq_success_iff.mp hfill
    obtain ⟨hready, hgrowing⟩ := hi.filled total levels hentry source payload
    have hlib := isLibrary_of_face? hgrowing.shows.1
    have hsame : Lasting i.site
        ((opened total i record source).site.setPayload _ payload) := hgrowing.sprouted.lasting
    have hpairs := (fillPayload_eq_ok_iff hfaithful hproperties).mp hpayload
    -- With its pairs in place the block shows no children yet, and reading them lets it grow.
    obtain ⟨kids, used, hcount, hkids, hpasses', hgrown⟩ :=
      hp.sound_children _ hready (hsame.type?.trans hall) hgrowing
        (congrArg Prod.fst hchildren)
    rw [hchildren] at hpasses' hgrown
    refine ⟨.block record.entry.type payload kids, _, ?_, rfl, hpasses.trans hpasses',
      hgrown.shows⟩
    refine .block hdepth hsmall htype hwhole hpairs ?_ hcount hkids
    exact hroom.imp_right fun hholds => hlib.symm.trans hholds
  complete i plan used rest hi hw hrem := by
    cases hw with
    | @block _ header type payload kids data below _ hsmall htype hwhole hpairs hroom hcount
        hkids =>
      rw [List.append_assoc] at hrem
      obtain ⟨library, i', hready, hgrowing, hpasses, hrem', hsuccess, -⟩ :=
        hi.reach_children levels hsmall htype hwhole hpairs hroom hrem
      have hnone : kids = [] ∨ Payload.isLibrary type.initial := by
        refine hroom.imp_left fun hzero => ?_
        rw [hzero] at hcount
        exact List.eq_nil_of_length_eq_zero hcount
      obtain ⟨hchildren, hpasses', hgrown⟩ :=
        hp.complete_children hu (hu _ _ htype) hready hgrowing hnone hkids hrem'
      rw [hcount] at hchildren hpasses' hgrown
      refine ⟨library, ?_⟩
      rw [hsuccess _ hchildren]
      exact ⟨rfl, hpasses.trans hpasses', hgrown.shows⟩

/-- At every depth down to the limit, the reader finds what is well formed and nothing else. -/
theorem parses_node (hu : Unmarked type?) (settings : Settings) (total levels : Nat) {depth : Nat}
    (hdepth : depth + levels = settings.maxDepth) :
    Parses settings type? depth levels (node settings total levels) := by
  induction levels generalizing depth with
  | zero =>
    refine ⟨leaves_node settings total 0, fun i => (keeps_lasting i.site).node settings total 0 (.refl _),
      answer_node settings total 0, fun i root hi _ h => ?_, fun i plan used rest hi hw => ?_⟩
    · obtain ⟨k, hk, -⟩ := (leaves_node settings total 0 i hi.orderly).1 root h
      cases hk
    · cases hw with
      | block hshallow => omega
  | succ levels ih =>
    have hbelow : depth + 1 + levels = settings.maxDepth := by omega
    exact parses_succ hu (by omega) (ih hbelow)

end Inflate

namespace Site

open Inflate

variable [Payload β] {s : Site β}

/-- A stream is read exactly if a well-formed block of registered types stands at its front. -/
theorem inflate_success_iff_wellFormed (h : Reached Any s) (hu : Unmarked s.type?)
    (settings : Settings) (bytes : Bytes) (position : Nat) :
    (∃ root, (inflate settings s (Source.ofBytes bytes position) Monitor.always).1 =
        .ok (.success root)) ↔
      ∃ plan used rest, bytes.drop position = used ++ rest ∧
        WellFormed settings s.type? 0 plan used := by
  have hparses := parses_node hu settings (Source.ofBytes bytes position).length
    settings.maxDepth (Nat.zero_add settings.maxDepth)
  have hready : Ready s.type? ⟨s, Source.ofBytes bytes position, Monitor.always⟩ :=
    ⟨h.orderly, h.consistent, fun _ _ htype => htype, fun _ => rfl⟩
  rw [(inflate_eq_node settings s _ Monitor.always).1]
  constructor
  · rintro ⟨root, hroot⟩
    obtain ⟨plan, used, hplan, hfound⟩ := hparses.sound _ root hready rfl hroot
    exact ⟨plan, used, _, hfound.passes.remaining, hplan⟩
  · rintro ⟨plan, used, rest, hbytes, hplan⟩
    obtain ⟨root, hfound⟩ := hparses.complete _ plan used rest hready hplan hbytes
    exact ⟨root, hfound.success⟩

/-- A library with a leaf is well formed in a tree that knows both types. Without its last byte
it is not. -/
theorem inflate_success_iff_wellFormed_library :
    let s : Site Stock := { start 0 with
      catalogue := ((Catalogue.empty.perform .addRegistry).perform
        (.register 0 StockType.library.blockType)).perform
          (.register 0 StockType.leaf.blockType) }
    let bytes := [0, 0, 0, 0] ++ Bytes.ofWord32 (nameHash "Library") ++ [0, 0, 0, 0, 1, 0, 0, 0]
      ++ ([0, 0, 0, 0] ++ Bytes.ofWord32 (nameHash "Leaf") ++ [0, 0, 0, 0, 0, 0, 0, 0])
    (∃ plan used rest, bytes.drop 0 = used ++ rest ∧
        WellFormed Settings.defaults s.type? 0 plan used) ∧
      ¬ ∃ plan used rest, bytes.dropLast.drop 0 = used ++ rest ∧
        WellFormed Settings.defaults s.type? 0 plan used := by
  intro s bytes
  have hreached : Reached Any s :=
    (((Reached.start 0).elsewhere .addRegistry).elsewhere
      (.register 0 StockType.library.blockType)).elsewhere (.register 0 StockType.leaf.blockType)
  have hu : Unmarked s.type? := by
    intro id type htype
    obtain ⟨⟨ref, entry⟩, hfound, rfl⟩ := Option.map_eq_some_iff.mp htype
    have hentry := Array.mem_of_getElem? (Catalogue.entryAt?_of_findId hfound)
    have hall : s.catalogue.entries.all (fun entry =>
        !entry.type.defaultFlags.contains Flags.beingDeleted) = true := by decide +kernel
    simpa using Array.all_eq_true_iff_forall_mem.mp hall entry hentry
  constructor
  · rw [← inflate_success_iff_wellFormed hreached hu]
    exact ⟨⟨0, 0⟩, by decide +kernel⟩
  · rw [← inflate_success_iff_wellFormed hreached hu]
    have hcut : (inflate Settings.defaults s (Source.ofBytes bytes.dropLast 0)
        Monitor.always).1 = .error (.buffer .headerCut) := by decide +kernel
    rw [hcut]
    simp

end Site

end BlockForest
