import Mathlib
import BlockForest.Proofs.WrittenExcerpt
import BlockForest.Proofs.DumpLoadRoundTrip

/-!
# Saving what was loaded

What was read from a stream is written again, and the bytes are the same. A copy need not be like
the block that was written: it has no name, it is not frozen, and what is not stored is as in a new
block. But it has the same excerpt (`Site.Drawn.excerpted`), and nothing else has an influence.

Two things are asked of the types for this. Their new blocks take part in serialization, or the
copy would be left out. And whether a property can be read depends on the type of the payload
alone (`Property.Uniform`), or a value could turn up in the copy that was not there to be stored.
Properties that are described for one type of payload are of this kind
(`Property.uniform_readWrite`).
-/

set_option autoImplicit false

namespace BlockForest

variable {β κ : Type}

/-- A set of flags has what its first part has. -/
theorem Flags.contains_union_left {a c : Flags} (b : Flags) (h : a.contains c) :
    (a.union b).contains c := by
  have hc : a.bits &&& c.bits = c.bits := by simpa [contains] using h
  have hmore : (a.bits ||| b.bits) &&& c.bits = c.bits := by
    rw [← UInt32.toNat_inj] at hc ⊢
    rw [UInt32.toNat_and, UInt32.toNat_or, Nat.and_or_distrib_right, ← UInt32.toNat_and, hc]
    refine Nat.eq_of_testBit_eq fun i => ?_
    simp
  simpa [contains, union] using hmore

/-! ### Values that are stored again -/

/-- Whether a property can be read depends on the kind of the payload alone. -/
def Property.Uniform (kind : β → κ) (p : Property β) : Prop :=
  ∀ payload other, kind payload = kind other → (p.read payload).isSome = (p.read other).isSome

/-- Properties of a facet that belongs to one kind of payload can be read of that kind. -/
theorem Property.uniform_readWrite {γ : Type} {kind : β → κ} {facet : Facet β γ} {own : κ}
    (hfacet : ∀ payload, (facet.get? payload).isSome ↔ kind payload = own)
    (name : String) (read : γ → Value) (write : γ → Value → Except PropertyError γ) :
    (readWrite facet name read write).Uniform kind := by
  intro payload other hkind
  simp only [readWrite, Option.isSome_map]
  rw [Bool.eq_iff_iff, hfacet, hfacet, hkind]

/-- Of a payload that carries the values of another one, the same values are stored. -/
theorem BlockType.Carries.storedValues_eq {kind : β → κ} {type : BlockType β} {payload filled : β}
    (h : type.Carries payload filled) (halike : kind filled = kind payload)
    (huniform : ∀ p ∈ type.properties, p.stored → p.Uniform kind) :
    type.storedValues filled = type.storedValues payload := by
  refine List.filterMap_congr fun p hp => ?_
  split
  · next hstored =>
    cases hread : p.read payload with
    | some value => rw [h.values p hp hstored value hread]
    | none =>
      have hsome := huniform p hp hstored filled payload halike
      rw [hread, Option.isSome_none, Option.isSome_eq_false_iff, Option.isNone_iff_eq_none] at hsome
      rw [hsome]
  · rfl

/-! ### A copy has the same excerpt -/

namespace Site

/-- Whether a block takes part in serialization is part of its face. -/
theorem isSerializable_of_face? {s : Site β} {id : BlockId} {face : Face β}
    (h : s.face? id = some face) :
    s.tree.isSerializable id = face.flags.contains .serializable := by
  obtain ⟨node, hn, rfl⟩ := Option.map_eq_some_iff.mp h
  rw [Tree.isSerializable, Tree.checkFlag, Tree.flags, hn]
  rfl

variable [Payload β] {kind : β → κ} {s t : Site β}

/-- Nothing that was written of a block of a type is lost when it is read: new blocks take part in
serialization, and what is stored of the others can be read of them. -/
structure Lossless (kind : β → κ) (type : BlockType β) : Prop where
  serializable : type.defaultFlags.contains Flags.serializable
  uniform : ∀ p ∈ type.properties, p.stored → p.Uniform kind

/-- A subtree that shows what was drawn from a block takes part in serialization and has the excerpt
of the block. -/
theorem Drawn.excerpted {levels : Nat} {id copy : BlockId} {plan : Blueprint β} {ex : Excerpt}
    (h : s.Drawn kind id plan) (hshows : t.Shows levels plan copy) (hex : s.Excerpted id ex)
    (hw : ∀ x payload entry, s.Writes id x payload entry → Lossless kind entry.type) :
    t.tree.isSerializable copy ∧ t.Excerpted copy ex := by
  induction levels generalizing id copy plan ex with
  | zero => exact hshows.elim
  | succ levels ih =>
    obtain ⟨hface, hkids⟩ := hshows
    cases h with
    | @block _ payload filled entry kids hheld hmade halike hcarries hbelow =>
    cases hex with
    | @block _ _ _ children hheld' hmade' hbelow' =>
      cases hheld.symm.trans hheld'
      cases hmade.symm.trans hmade'
      have hlossless := hw id payload entry ⟨.self id, hheld, hmade⟩
      -- Each child of the copy stands for one of the children that were written.
      have hcopies : List.Forall₂ (fun copy child => ∃ plan, s.Drawn kind child plan ∧
          t.Shows levels plan copy) (t.tree.children copy) (Deflate.writtenChildren s.tree id) :=
        (forall₂_trans hbelow hkids fun _ plan _ hdrawn hshown => ⟨plan, hdrawn, hshown⟩).flip
      have hmembers := forall₂_imp_of_mem hcopies fun _ _ hmem hcopy => And.intro hmem hcopy
      have hall : List.Forall₂ (fun copy ex => t.tree.isSerializable copy ∧ t.Excerpted copy ex)
          (t.tree.children copy) children :=
        forall₂_trans hmembers hbelow' fun _ _ _ ⟨hmem, plan, hdrawn, hshown⟩ hexcerpt =>
          ih hdrawn hshown hexcerpt fun x payload entry hx => hw x payload entry (hx.below hmem)
      obtain ⟨hwritten, hexcerpts⟩ := (List.forall₂_and_left _ _).mp hall
      have hkept : Deflate.writtenChildren t.tree copy = t.tree.children copy :=
        List.filter_eq_self.mpr hwritten
      have htype : t.typeOf? copy = some entry.type := typeOf?_of_face? hface
      constructor
      · rw [isSerializable_of_face? hface]
        exact Flags.contains_union_left _ hlossless.serializable
      · rw [← hcarries.storedValues_eq halike hlossless.uniform]
        exact .of_type (payload?_of_face? hface) htype (hkept.symm ▸ hexcerpts)

/-- What was written of a block is read into any tree that can read it, and is written again from
there. If no type loses what was written of it, the second walk puts the same bytes into its sink
as the first one did. -/
theorem rewritten_of_inflate_deflate (hk : Kinds kind) (ht : Reached Any t) (settings : Settings)
    {root : BlockId} (hconvey : t.Conveyable kind s root)
    (hlossless : ∀ id payload entry, s.Writes root id payload entry → Lossless kind entry.type)
    {limit : Option Nat} {watcher watcher' : Monitor} {sink : Sink}
    (hdeflate : deflate settings s.catalogue s.tree root (Sink.empty limit) watcher =
      (.ok .success, sink, watcher'))
    {source : Source} {rest : Bytes} (hsource : source.remaining = sink.bytes ++ rest)
    {monitor : Monitor} (hgo : ∀ n, monitor.answer n) :
    let r := inflate settings t source monitor
    ∃ copy, r.1 = .ok (.success copy) ∧ ∀ again : Monitor, again.answer = watcher.answer →
      again.polls = watcher.polls → ∃ again',
        deflate settings r.2.site.catalogue r.2.site.tree copy (Sink.empty limit) again =
          (.ok .success, sink, again') := by
  intro r
  -- What was written leads to a blueprint and has an excerpt.
  obtain ⟨o, hnode, hput, -⟩ := deflate_eq_ok_iff.mp hdeflate
  obtain ⟨plan, used, hdrawn, hplan, hused⟩ := hconvey.leads hk ht.consistent hnode
  obtain ⟨ex, -, hex, -⟩ := Deflate.recorded_node hconvey.reached.guarded.sound
    hconvey.reached.consistent hconvey.words settings.maxDepth hnode
  have hsink : sink.bytes = used := by
    rw [hput, bytes_put_empty, hused]
    rfl
  rw [hsink] at hsource
  -- The reader finds the blueprint, so what it made has the same excerpt.
  have hparses := Inflate.parses_node t.unmarked_unmarkedType? settings source.length settings.maxDepth
    (Nat.zero_add settings.maxDepth)
  obtain ⟨copy, hsuccess, -, hshows⟩ := hparses.complete ⟨t, source, monitor⟩ plan used rest
    (ht.ready source hgo) hplan hsource
  obtain ⟨houtcome, hsite, -⟩ := Inflate.inflate_eq_node settings t source monitor
  rw [← hsite] at hshows
  obtain ⟨hwritten, hcopy⟩ := hdrawn.excerpted hshows hex hlossless
  have hreached : Reached Any r.2.site :=
    ht.perform (show Any t (.inflate settings source monitor) from trivial)
  refine ⟨copy, houtcome.trans hsuccess, fun again hanswer hpolls => ?_⟩
  have hstart : Deflate.Abreast ⟨(Sink.empty limit).outlet, watcher, 0⟩
      ⟨(Sink.empty limit).outlet, again, 0⟩ := ⟨rfl, hanswer, hpolls⟩
  obtain ⟨p, hnode', hab⟩ := Deflate.abreast_node hconvey.reached.consistent hreached.consistent
    (r.2.site.tree.totalSize copy + 1) settings.maxDepth hex hcopy hwritten hstart hnode
  refine ⟨p.monitor, deflate_eq_ok_iff.mpr ⟨p, hnode', ?_, rfl⟩⟩
  rw [hput, hab.outlet]

end Site

/-! ### A folder with a leaf -/

namespace StockType

/-- A folder takes any title. -/
theorem takes_folder {payload : Stock} {w : Property Stock × Value}
    (hw : w ∈ folder.blockType.storedValues payload) :
    w.2.nesting ≤ Value.maxNesting ∧ folder.blockType.Takes StockType.of w.1 w.2 := by
  obtain ⟨p, value⟩ := w
  obtain ⟨hp, hstored, hread⟩ := BlockType.mem_storedValues.mp hw
  have hlist : folder.blockType.properties = Stock.folderProperties := rfl
  rw [hlist, Stock.folderProperties, List.mem_pair] at hp
  simp only at hp hstored hread
  rcases hp with rfl | rfl
  · obtain ⟨f, -, rfl⟩ := Option.map_eq_some_iff.mp hread
    have hfolder : ∀ payload, StockType.of payload = folder → ∃ f, payload = .folder f := by
      intro payload h
      cases payload with
      | folder f => exact ⟨f, rfl⟩
      | _ => cases h
    refine ⟨Nat.zero_le _, ?_, ?_, ?_⟩
    · intro payload next h hwrite
      obtain ⟨f', rfl⟩ := hfolder payload h
      cases hwrite
      rfl
    · intro payload next h hwrite
      obtain ⟨f', rfl⟩ := hfolder payload h
      cases hwrite
      rfl
    · intro payload next h hwrite q hq hne _
      obtain ⟨f', rfl⟩ := hfolder payload h
      cases hwrite
      rw [hlist, Stock.folderProperties, List.mem_pair] at hq
      rcases hq with rfl | rfl
      · exact absurd rfl hne
      · rfl
  · cases hstored

/-- A leaf is seen as one exactly if it is one. -/
theorem isSome_leafFacet (payload : Stock) :
    (Stock.leafFacet.get? payload).isSome ↔ StockType.of payload = leaf := by
  cases payload <;> simp [Stock.leafFacet, StockType.of]

/-- A folder is seen as one exactly if it is one. -/
theorem isSome_folderFacet (payload : Stock) :
    (Stock.folderFacet.get? payload).isSome ↔ StockType.of payload = folder := by
  cases payload <;> simp [Stock.folderFacet, StockType.of]

/-- Nothing that is written of a leaf is lost when it is read. -/
theorem lossless_leaf : Site.Lossless StockType.of leaf.blockType where
  serializable := by decide
  uniform p hp _ := by
    obtain rfl := List.mem_singleton.mp hp
    exact Property.uniform_readWrite isSome_leafFacet _ _ _

/-- Nothing that is written of a folder is lost when it is read. -/
theorem lossless_folder : Site.Lossless StockType.of folder.blockType where
  serializable := by decide
  uniform p hp hstored := by
    rcases List.mem_pair.mp hp with rfl | rfl
    · exact Property.uniform_readWrite isSome_folderFacet _ _ _
    · cases hstored

end StockType

namespace Site

/-- A tree whose registry knows folders and leaves. -/
def bareCrate : Site Stock :=
  { start 0 with
    catalogue := ((Catalogue.empty.perform .addRegistry).perform
      (.register 0 StockType.folder.blockType)).perform
        (.register 0 StockType.leaf.blockType) }

/-- A folder and a leaf. -/
def looseCrate : Site Stock := (bareCrate.perform (.create "Folder")).perform (.create "Leaf")

/-- The folder has a title, it was compacted, and the leaf stands in it. -/
def crate : Site Stock :=
  ((looseCrate.perform (.setPayload ⟨0, 0⟩ (.folder ⟨"box", true⟩))).perform
    (.setPayload ⟨1, 0⟩ (.leaf ⟨"alpha"⟩))).perform (.add ⟨0, 0⟩ ⟨1, 0⟩)

/-- A tree that only knows types is reached, whatever is allowed. -/
theorem reached_bareCrate {allowed : Site Stock → Op Stock → Prop} : Reached allowed bareCrate :=
  (((Reached.start 0).elsewhere .addRegistry).elsewhere
    (.register 0 StockType.folder.blockType)).elsewhere (.register 0 StockType.leaf.blockType)

/-- The crate is reached without changing the kind of a payload. -/
theorem reached_crate : Reached (Tame StockType.of) crate := by
  have hfolder : looseCrate.tree.payload? ⟨0, 0⟩ = some (.folder ⟨"", false⟩) := by cbv
  have hleaf : (looseCrate.perform (.setPayload ⟨0, 0⟩ (.folder ⟨"box", true⟩))).tree.payload?
      ⟨1, 0⟩ = some (.leaf ⟨""⟩) := by cbv
  refine .perform (.perform (.perform (.perform (.perform reached_bareCrate ?_) ?_) ?_) ?_) ?_
  · trivial
  · trivial
  · intro old heq
    rw [hfolder] at heq
    cases heq
    rfl
  · intro old heq
    rw [hleaf] at heq
    cases heq
    rfl
  · trivial

/-- What is written of the crate are the folder and the leaf. -/
theorem writes_crate {id : BlockId} {payload : Stock} {entry : Entry Stock}
    (h : crate.Writes ⟨0, 0⟩ id payload entry) :
    payload = .folder ⟨"box", true⟩ ∧ entry.type = StockType.folder.blockType ∨
      payload = .leaf ⟨"alpha"⟩ ∧ entry.type = StockType.leaf.blockType :=
  h.of_pair (show Deflate.writtenChildren crate.tree ⟨0, 0⟩ = [⟨1, 0⟩] by cbv)
    (by cbv) (by cbv) (by cbv) (by cbv) (by cbv)

/-- A registry that knows folders and leaves finds them by their names. -/
theorem findName_bareCrate {type : StockType} (h : type = .folder ∨ type = .leaf) :
    ∃ ref entry, bareCrate.catalogue.findName bareCrate.tree.registry type.blockType.name =
      some (ref, entry) ∧ entry.type = type.blockType := by
  have hfound : (bareCrate.catalogue.findName bareCrate.tree.registry type.blockType.name).map
      (fun found => found.2.type) = some type.blockType := by
    rcases h with rfl | rfl
    · cbv
    · cbv
  obtain ⟨⟨ref, entry⟩, hfind, htype⟩ := Option.map_eq_some_iff.mp hfound
  exact ⟨ref, entry, hfind, htype⟩

/-- What is written of the crate can be read by a tree that knows folders and leaves. -/
theorem conveyable_crate : bareCrate.Conveyable StockType.of crate ⟨0, 0⟩ where
  reached := reached_crate
  words id hid := by
    have hsize : crate.tree.slots.size = 2 := by decide +kernel
    obtain ⟨node, hn⟩ := Option.isSome_iff_exists.mp hid
    have hlt := Tree.index_lt_of_node? hn
    omega
  alike id payload entry hw := by
    rcases writes_crate hw with ⟨rfl, htype⟩ | ⟨rfl, htype⟩
    · rw [htype]
      rfl
    · rw [htype]
      rfl
  accepted id payload entry hw := by
    rcases writes_crate hw with ⟨rfl, htype⟩ | ⟨rfl, htype⟩
    · rw [htype]
      exact ⟨_, rfl, trivial⟩
    · rw [htype]
      exact StockType.accepts_leaf ⟨"alpha"⟩
  values id payload entry hw w hmem := by
    rcases writes_crate hw with ⟨-, htype⟩ | ⟨-, htype⟩
    · rw [htype] at hmem ⊢
      exact StockType.takes_folder hmem
    · rw [htype] at hmem ⊢
      exact StockType.takes_leaf hmem
  known id payload entry hw := by
    rw [Entry.name]
    rcases writes_crate hw with ⟨-, htype⟩ | ⟨-, htype⟩
    · obtain ⟨ref, entry', hfind, hsame⟩ := findName_bareCrate (.inl rfl)
      rw [htype]
      exact ⟨ref, entry', hfind, hsame, by decide⟩
    · obtain ⟨ref, entry', hfind, hsame⟩ := findName_bareCrate (.inr rfl)
      rw [htype]
      exact ⟨ref, entry', hfind, hsame, by decide⟩

/-- The crate is written, read and written again. That the folder was compacted is not stored. -/
theorem rewritten_of_inflate_deflate_crate :
    let bytes := (deflate Settings.defaults crate.catalogue crate.tree ⟨0, 0⟩ (Sink.empty none)
      Monitor.always).2.1.bytes
    let r := inflate Settings.defaults bareCrate (Source.ofBytes bytes 0) Monitor.always
    ∃ copy, r.1 = .ok (.success copy) ∧
      (deflate Settings.defaults r.2.site.catalogue r.2.site.tree copy (Sink.empty none)
        Monitor.always).2.1.bytes = bytes := by
  intro bytes r
  have hdeflate : (deflate Settings.defaults crate.catalogue crate.tree ⟨0, 0⟩ (Sink.empty none)
      Monitor.always).1 = .ok .success := by decide +kernel
  have hlossless : ∀ id payload entry, crate.Writes ⟨0, 0⟩ id payload entry →
      Lossless StockType.of entry.type := by
    intro id payload entry hw
    rcases writes_crate hw with ⟨-, htype⟩ | ⟨-, htype⟩
    · exact htype ▸ StockType.lossless_folder
    · exact htype ▸ StockType.lossless_leaf
  have hsource : (Source.ofBytes bytes 0).remaining = bytes ++ [] := by
    rw [List.append_nil]
    rfl
  obtain ⟨copy, hsuccess, hagain⟩ := rewritten_of_inflate_deflate StockType.kinds
    reached_bareCrate Settings.defaults conveyable_crate hlossless (Prod.ext hdeflate rfl) hsource
    (fun _ => rfl : ∀ n, Monitor.always.answer n)
  obtain ⟨again', hsame⟩ := hagain Monitor.always rfl rfl
  exact ⟨copy, hsuccess, congrArg (fun answer => answer.2.1.bytes) hsame⟩

end Site

end BlockForest
