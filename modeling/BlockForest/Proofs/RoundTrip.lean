import Mathlib
import BlockForest.Proofs.DeflateWellFormed

/-!
# What was written is read back

A stream that was written from a tree is read into any other tree that knows the types, and what
comes about is a copy: the same types in the same order, every stored value as it was, and every
other property that can be written as in a new block. Blocks that take no part in serialization
are left out with all that is below them.

The two walks meet at the blueprint. What is written is drawn from the tree (`Deflate.leads_node`),
what is well formed is found (`Inflate.parses_node`), and a block that shows what was drawn from
another one is its copy.
-/

set_option autoImplicit false

namespace BlockForest

variable {β κ : Type}

/-- Lists that are related pairwise through a list in between are related pairwise. -/
theorem forall₂_trans {α γ δ : Type} {R : α → γ → Prop} {S : γ → δ → Prop} {T : α → δ → Prop}
    {as : List α} {bs : List γ} {cs : List δ} (h : List.Forall₂ R as bs)
    (h' : List.Forall₂ S bs cs) (hrs : ∀ a b c, R a b → S b c → T a c) :
    List.Forall₂ T as cs := by
  induction h generalizing cs with
  | nil =>
    cases h'
    exact .nil
  | cons hab _ ih =>
    cases h' with
    | cons hbc hrest => exact .cons (hrs _ _ _ hab hbc) (ih hrest)

namespace Site

/-- The type of the entry that a block was made by or is described by. -/
def typeOf? (s : Site β) (id : BlockId) : Option (BlockType β) :=
  ((s.tree.entryRef? id).bind s.catalogue.entryAt?).map Entry.type

/-- Of a block without children that are written, nothing but the block is written. -/
theorem Writes.of_leaf {s : Site β} {root id : BlockId} {payload held : β} {entry : Entry β}
    {type : BlockType β} (h : s.Writes root id payload entry)
    (hnone : Deflate.writtenChildren s.tree root = []) (hheld : s.tree.payload? root = some held)
    (htype : s.typeOf? root = some type) : payload = held ∧ entry.type = type := by
  obtain rfl : id = root := by
    cases h.written with
    | self => rfl
    | under hmem =>
      rw [hnone] at hmem
      cases hmem
  rw [typeOf?, h.entry] at htype
  exact ⟨Option.some.inj (h.payload.symm.trans hheld), Option.some.inj htype⟩

/-- Of a block with one child that is written, and nothing below it, the two are written. -/
theorem Writes.of_pair {s : Site β} {root child id : BlockId} {payload held below : β}
    {entry : Entry β} {type kid : BlockType β} (h : s.Writes root id payload entry)
    (honly : Deflate.writtenChildren s.tree root = [child])
    (hnone : Deflate.writtenChildren s.tree child = []) (hheld : s.tree.payload? root = some held)
    (htype : s.typeOf? root = some type) (hbelow : s.tree.payload? child = some below)
    (hkid : s.typeOf? child = some kid) :
    payload = held ∧ entry.type = type ∨ payload = below ∧ entry.type = kid := by
  obtain ⟨hwritten, hpayload, hentry⟩ := h
  cases hwritten with
  | self =>
    rw [typeOf?, hentry] at htype
    exact .inl ⟨Option.some.inj (hpayload.symm.trans hheld), Option.some.inj htype⟩
  | under hmem hunder =>
    rw [honly, List.mem_singleton] at hmem
    subst hmem
    exact .inr (Writes.of_leaf ⟨hunder, hpayload, hentry⟩ hnone hbelow hkid)

/-- The second block is a copy of the first one, each in its own site, with all that is written of
it. -/
inductive Copied (s t : Site β) : BlockId → BlockId → Prop
  | block {id copy : BlockId} {type : BlockType β} {payload filled : β}
      (typed : s.typeOf? id = some type) (typedCopy : t.typeOf? copy = some type)
      (held : s.tree.payload? id = some payload) (heldCopy : t.tree.payload? copy = some filled)
      (carries : type.Carries payload filled)
      (children : List.Forall₂ (Copied s t) (Deflate.writtenChildren s.tree id)
        (t.tree.children copy)) :
      Copied s t id copy

/-- The type of a block is part of its face. -/
theorem typeOf?_of_face? {s : Site β} {id : BlockId} {face : Face β}
    (h : s.face? id = some face) : s.typeOf? id = face.type := by
  obtain ⟨node, hn, rfl⟩ := Option.map_eq_some_iff.mp h
  rw [typeOf?, Tree.entryRef?, hn]
  rfl

variable [Payload β] {kind : β → κ} {s t : Site β}

/-- A subtree that shows what was drawn from a block is a copy of it. -/
theorem Drawn.copied {levels : Nat} {id copy : BlockId} {plan : Blueprint β}
    (h : s.Drawn kind id plan) (hshows : t.Shows levels plan copy) : Copied s t id copy := by
  induction levels generalizing id copy plan with
  | zero => exact hshows.elim
  | succ levels ih =>
    obtain ⟨hface, hkids⟩ := hshows
    cases h with
    | block hheld hmade _ hcarries hbelow =>
      have htype := typeOf?_of_face? hface
      have hpayload := payload?_of_face? hface
      refine .block ?_ htype hheld hpayload hcarries ?_
      · rw [typeOf?, hmade]
        rfl
      · exact forall₂_trans hbelow hkids fun _ _ _ hdrawn hshown => ih hdrawn hshown

omit [Payload β] in
/-- What is put into an empty sink is all that it holds. -/
theorem bytes_put_empty (limit : Option Nat) (data : Bytes) :
    ((Sink.empty limit).put data).bytes = data := by
  unfold Sink.put
  split
  · next hnone =>
    rw [List.isEmpty_iff.mp hnone]
    rfl
  · simp [Sink.empty, Sink.overwrite]

omit [Payload β] in
/-- What a walk has gathered is what an empty sink receives. -/
theorem node_of_deflate {settings : Settings} {root : BlockId} {limit : Option Nat}
    {watcher watcher' : Monitor} {sink : Sink} {status : DeflateStatus}
    (h : deflate settings s.catalogue s.tree root (Sink.empty limit) watcher =
      (.ok status, sink, watcher')) :
    ∃ o, Deflate.node settings s.catalogue s.tree (s.tree.totalSize root + 1) settings.maxDepth
        ⟨(Sink.empty limit).outlet, watcher, 0⟩ root = (.ok status, o) ∧
      sink.bytes = o.outlet.bytes := by
  unfold deflate at h
  simp only [Prod.mk.injEq] at h
  obtain ⟨hstatus, rfl, -⟩ := h
  exact ⟨_, Prod.ext hstatus rfl, bytes_put_empty limit _⟩

/-- The types of a registry whose new blocks are not marked. -/
def unmarkedType? (t : Site β) (id : UInt32) : Option (BlockType β) :=
  (t.type? id).filter fun type => !type.defaultFlags.contains Flags.beingDeleted

omit [Payload β] in
/-- Types whose blocks would be marked are left out, so no new block is marked. -/
theorem unmarked_unmarkedType? (t : Site β) : Inflate.Unmarked t.unmarkedType? := by
  intro id type htype
  simpa using (Option.filter_eq_some_iff.mp htype).2

/-- A site is ready to take in blocks of all types that it knows and that leave them unmarked. -/
theorem Reached.ready {t : Site β} (ht : Reached Any t) (source : Source) {monitor : Monitor}
    (hgo : ∀ n, monitor.answer n) : Inflate.Ready t.unmarkedType? ⟨t, source, monitor⟩ :=
  ⟨ht.orderly, ht.consistent, fun _ _ htype => (Option.filter_eq_some_iff.mp htype).1, hgo⟩

omit [Payload β] in
/-- A type that is found by its name is known by the identifier of the name. -/
theorem unmarkedType?_of_findName (hc : t.catalogue.Consistent) {type : BlockType β}
    {ref : EntryRef} {entry : Entry β}
    (hf : t.catalogue.findName t.tree.registry type.name = some (ref, entry))
    (he : entry.type = type) (hu : ¬ type.defaultFlags.contains Flags.beingDeleted) :
    t.unmarkedType? (nameHash type.name) = some type := by
  refine Option.filter_eq_some_iff.mpr ⟨?_, by simpa using hu⟩
  rw [type?, hc.findId_of_findName hf, Option.map_some, he]

/-- A block that was written from a tree is read back from the front of a stream, exactly as far
as it goes, and is copied with all that was written below it. It is asked of what was written that
each payload is of the type of its entry, that the types take the stored values in, and that the
target finds the types by their names. The index in the name of a block is a word of 32 bits, as
the number of children in a stream is. -/
theorem copied_of_inflate_deflate (hk : Kinds kind) (hs : Reached (Tame kind) s)
    (hwords : ∀ id, s.tree.contains id → id.index < 2 ^ 32) (ht : Reached Any t)
    (settings : Settings)
    {root : BlockId} {limit : Option Nat} {watcher watcher' : Monitor} {sink : Sink}
    (hdeflate : deflate settings s.catalogue s.tree root (Sink.empty limit) watcher =
      (.ok .success, sink, watcher'))
    (halike : ∀ id payload entry, s.Writes root id payload entry →
      kind payload = kind entry.type.initial)
    (haccepted : ∀ id payload entry, s.Writes root id payload entry →
      BlockType.Accepts (entry.type.storedValues payload) entry.type.initial)
    (hvalues : ∀ id payload entry, s.Writes root id payload entry →
      ∀ w ∈ entry.type.storedValues payload,
        w.2.nesting ≤ Value.maxNesting ∧ entry.type.Takes kind w.1 w.2)
    (hknown : ∀ id payload entry, s.Writes root id payload entry →
      ∃ ref entry', t.catalogue.findName t.tree.registry entry.name = some (ref, entry') ∧
        entry'.type = entry.type ∧ ¬ entry.type.defaultFlags.contains Flags.beingDeleted)
    {source : Source} {rest : Bytes} (hsource : source.remaining = sink.bytes ++ rest) :
    let r := inflate settings t source Monitor.always
    ∃ copy, r.1 = .ok (.success copy) ∧ source.Passes r.2.source sink.bytes ∧
      r.2.site.tree.parent? copy = none ∧ Copied s r.2.site root copy := by
  intro r
  -- The writer leads to a blueprint.
  obtain ⟨o, hnode, hbytes⟩ := node_of_deflate hdeflate
  have hport : ∀ id payload entry, s.Writes root id payload entry →
      Deflate.Portable kind t.unmarkedType? payload entry := by
    intro id payload entry hw
    obtain ⟨ref, entry', hfound, htype, hu⟩ := hknown id payload entry hw
    exact ⟨halike id payload entry hw, hvalues id payload entry hw,
      haccepted id payload entry hw, unmarkedType?_of_findName ht.consistent hfound htype hu⟩
  obtain ⟨plan, used, hdrawn, hplan, hused⟩ := Deflate.leads_node hk hs.guarded.sound
    (hs.typed hk) hs.consistent hwords settings.maxDepth (Nat.zero_add _) hport hnode
  have hsink : sink.bytes = used := by
    rw [hbytes, hused]
    rfl
  rw [hsink] at hsource ⊢
  -- The reader finds it.
  have hparses := Inflate.parses_node t.unmarked_unmarkedType? settings source.length settings.maxDepth
    (Nat.zero_add settings.maxDepth)
  have hready : Inflate.Ready t.unmarkedType? ⟨t, source, Monitor.always⟩ :=
    ⟨ht.orderly, ht.consistent, fun _ _ htype => (Option.filter_eq_some_iff.mp htype).1,
      fun _ => rfl⟩
  obtain ⟨copy, hsuccess, hpasses, hshows⟩ :=
    hparses.complete _ plan used rest hready hplan hsource
  have hleaves := hparses.leaves ⟨t, source, Monitor.always⟩ ht.orderly
  obtain ⟨k, -, hsprouted⟩ := hleaves.1 copy hsuccess
  obtain ⟨houtcome, hsite, hleft⟩ :=
    Inflate.inflate_eq_node settings t source Monitor.always
  refine ⟨copy, houtcome.trans hsuccess, ?_, ?_, ?_⟩
  · rw [hleft]
    exact hpasses
  · rw [hsite]
    exact hsprouted.detached.1
  · rw [hsite]
    exact hdrawn.copied hshows

end Site

/-! ### A library with a leaf -/

/-- What a library accepts does not depend on what the two payloads hold. -/
theorem Stock.accepts_initial (p q : Stock) :
    Stock.accepts p q = Stock.accepts (StockType.of p).initial (StockType.of q).initial := by
  have hname : q.typeName = (StockType.of q).initial.typeName := by
    cases q <;> rfl
  have hlib : q.isLibrary = (StockType.of q).initial.isLibrary := by
    cases q <;> rfl
  cases p with
  | folder f =>
    show _ = Stock.accepts (StockType.folder).initial (StockType.of q).initial
    simp only [Stock.accepts, StockType.initial, hname]
  | vault v =>
    show _ = Stock.accepts (StockType.vault).initial (StockType.of q).initial
    simp only [Stock.accepts, StockType.initial, hlib]
  | _ => rfl

namespace StockType

/-- The stock types tell kinds apart: what a library accepts depends on the types of both
payloads. -/
theorem kinds : Kinds StockType.of where
  optimize p := by
    cases p <;> rfl
  isLibrary p q h := by
    have hlib : ∀ p : Stock, p.isLibrary = (StockType.of p).initial.isLibrary := by
      intro p
      cases p <;> rfl
    show p.isLibrary = q.isLibrary
    rw [hlib p, hlib q, h]
  accepts p q p' q' hp hq := by
    show Stock.accepts p q = Stock.accepts p' q'
    rw [Stock.accepts_initial p q, Stock.accepts_initial p' q', hp, hq]

/-- A new leaf takes in what is stored of a leaf. -/
theorem accepts_leaf (l : Leaf) :
    BlockType.Accepts (leaf.blockType.storedValues (.leaf l)) leaf.blockType.initial :=
  ⟨_, rfl, trivial⟩

/-- A leaf takes any name. -/
theorem takes_leaf {payload : Stock} {w : Property Stock × Value}
    (hw : w ∈ leaf.blockType.storedValues payload) :
    w.2.nesting ≤ Value.maxNesting ∧ leaf.blockType.Takes StockType.of w.1 w.2 := by
  obtain ⟨p, value⟩ := w
  obtain ⟨hp, -, hread⟩ := BlockType.mem_storedValues.mp hw
  have hlist : leaf.blockType.properties = Stock.leafProperties := rfl
  rw [hlist, Stock.leafProperties, List.mem_singleton] at hp
  simp only at hp hread
  subst hp
  obtain ⟨l, -, rfl⟩ := Option.map_eq_some_iff.mp hread
  have hleaf : ∀ payload, StockType.of payload = leaf → ∃ l, payload = .leaf l := by
    intro payload h
    cases payload with
    | leaf l => exact ⟨l, rfl⟩
    | _ => cases h
  refine ⟨Nat.zero_le _, ?_, ?_, ?_⟩
  · intro payload next h hwrite
    obtain ⟨l', rfl⟩ := hleaf payload h
    cases hwrite
    rfl
  · intro payload next h hwrite
    obtain ⟨l', rfl⟩ := hleaf payload h
    cases hwrite
    rfl
  · intro payload next h hwrite q hq hne
    rw [hlist, Stock.leafProperties, List.mem_singleton] at hq
    exact absurd (congrArg Property.name hq) hne

end StockType

namespace Site

/-- A library and a leaf, and the library is to be written. -/
def looseShelf : Site Stock :=
  ((bareShelf.perform (.create "Library")).perform (.create "Leaf")).perform
    (.setSerializable ⟨0, 0⟩ true)

/-- The leaf has a name and stands in the library. -/
def shelf : Site Stock :=
  (looseShelf.perform (.setPayload ⟨1, 0⟩ (.leaf ⟨"alpha"⟩))).perform (.add ⟨0, 0⟩ ⟨1, 0⟩)

/-- What is written of the shelf. -/
def shelfBytes : Bytes :=
  (deflate Settings.defaults shelf.catalogue shelf.tree ⟨0, 0⟩ (Sink.empty none)
    Monitor.always).2.1.bytes

/-- The shelf is reached without changing the kind of a payload. -/
theorem reached_shelf : Reached (Tame StockType.of) shelf := by
  have hold : looseShelf.tree.payload? ⟨1, 0⟩ = some (.leaf ⟨""⟩) := by cbv
  refine .perform (.perform (.perform (.perform (.perform reached_bareShelf ?_) ?_) ?_) ?_) ?_
  · trivial
  · trivial
  · trivial
  · intro old heq
    rw [hold] at heq
    cases heq
    rfl
  · trivial

/-- What is written of the shelf are the library and the leaf. -/
theorem writes_shelf {id : BlockId} {payload : Stock} {entry : Entry Stock}
    (h : shelf.Writes ⟨0, 0⟩ id payload entry) :
    payload = .library ∧ entry.type = StockType.library.blockType ∨
      payload = .leaf ⟨"alpha"⟩ ∧ entry.type = StockType.leaf.blockType :=
  h.of_pair (show Deflate.writtenChildren shelf.tree ⟨0, 0⟩ = [⟨1, 0⟩] by cbv)
    (by cbv) (by cbv) (by cbv) (by cbv) (by cbv)

/-- A registry that knows libraries and leaves finds them by their names. -/
theorem findName_bareShelf {type : StockType} (h : type = .library ∨ type = .leaf) :
    ∃ ref entry, bareShelf.catalogue.findName bareShelf.tree.registry type.blockType.name =
      some (ref, entry) ∧ entry.type = type.blockType := by
  have hfound : (bareShelf.catalogue.findName bareShelf.tree.registry type.blockType.name).map
      (fun found => found.2.type) = some type.blockType := by
    rcases h with rfl | rfl
    · cbv
    · cbv
  obtain ⟨⟨ref, entry⟩, hfind, htype⟩ := Option.map_eq_some_iff.mp hfound
  exact ⟨ref, entry, hfind, htype⟩

/-- The shelf is written, and read into a tree that knows the types. -/
theorem copied_of_inflate_deflate_shelf :
    let r := inflate Settings.defaults bareShelf (Source.ofBytes (shelfBytes ++ [0xff]) 0)
      Monitor.always
    ∃ copy, r.1 = .ok (.success copy) ∧ r.2.source.remaining = [0xff] ∧
      r.2.site.tree.parent? copy = none ∧ Copied shelf r.2.site ⟨0, 0⟩ copy := by
  intro r
  have hdeflate : (deflate Settings.defaults shelf.catalogue shelf.tree ⟨0, 0⟩ (Sink.empty none)
      Monitor.always).1 = .ok .success := by decide +kernel
  have hwords : ∀ id, shelf.tree.contains id → id.index < 2 ^ 32 := by
    intro id hid
    have hsize : shelf.tree.slots.size = 2 := by decide +kernel
    obtain ⟨node, hn⟩ := Option.isSome_iff_exists.mp hid
    have hlt := Tree.index_lt_of_node? hn
    omega
  have halike : ∀ id payload entry, shelf.Writes ⟨0, 0⟩ id payload entry →
      StockType.of payload = StockType.of entry.type.initial := by
    intro id payload entry hw
    rcases writes_shelf hw with ⟨rfl, htype⟩ | ⟨rfl, htype⟩
    · rw [htype]
      rfl
    · rw [htype]
      rfl
  have haccepted : ∀ id payload entry, shelf.Writes ⟨0, 0⟩ id payload entry →
      BlockType.Accepts (entry.type.storedValues payload) entry.type.initial := by
    intro id payload entry hw
    rcases writes_shelf hw with ⟨rfl, htype⟩ | ⟨rfl, htype⟩
    · rw [htype]
      trivial
    · rw [htype]
      exact StockType.accepts_leaf ⟨"alpha"⟩
  have hvalues : ∀ id payload entry, shelf.Writes ⟨0, 0⟩ id payload entry →
      ∀ w ∈ entry.type.storedValues payload,
        w.2.nesting ≤ Value.maxNesting ∧ entry.type.Takes StockType.of w.1 w.2 := by
    intro id payload entry hw w hmem
    rcases writes_shelf hw with ⟨-, htype⟩ | ⟨-, htype⟩
    · rw [htype] at hmem
      cases hmem
    · rw [htype] at hmem ⊢
      exact StockType.takes_leaf hmem
  have hknown : ∀ id payload entry, shelf.Writes ⟨0, 0⟩ id payload entry →
      ∃ ref entry', bareShelf.catalogue.findName bareShelf.tree.registry entry.name =
          some (ref, entry') ∧
        entry'.type = entry.type ∧ ¬ entry.type.defaultFlags.contains Flags.beingDeleted := by
    intro id payload entry hw
    rw [Entry.name]
    rcases writes_shelf hw with ⟨-, htype⟩ | ⟨-, htype⟩
    · obtain ⟨ref, entry', hfind, hsame⟩ := findName_bareShelf (.inl rfl)
      rw [htype]
      exact ⟨ref, entry', hfind, hsame, by decide⟩
    · obtain ⟨ref, entry', hfind, hsame⟩ := findName_bareShelf (.inr rfl)
      rw [htype]
      exact ⟨ref, entry', hfind, hsame, by decide⟩
  have hsource : (Source.ofBytes (shelfBytes ++ [0xff]) 0).remaining = shelfBytes ++ [0xff] := by
    simp [Source.ofBytes]
  obtain ⟨copy, hsuccess, hpasses, hdetached, hcopied⟩ := copied_of_inflate_deflate
    StockType.kinds reached_shelf hwords reached_bareShelf Settings.defaults
    (Prod.ext hdeflate rfl) halike haccepted hvalues hknown hsource
  have hrest : shelfBytes ++ [0xff] = shelfBytes ++ r.2.source.remaining :=
    hsource.symm.trans hpasses.remaining
  exact ⟨copy, hsuccess, (List.append_cancel_left hrest).symm, hdetached, hcopied⟩

end Site

end BlockForest
