import Mathlib
import BlockForest.Proofs.WrittenExcerpt
import BlockForest.Stream.Dumper
import BlockForest.Stream.Loader

/-!
# Streams of several subtrees

A stream is a header, the metadata and one subtree after the other, written over whatever a buffer
holds from some position on. Writing piece by piece comes to the same as writing all of it at once
(`Sink.put_put`), and the header that is written again when the stream is closed finds itself
(`Sink.overwrite_again`). So what a dumper has written is known from what it was given
(`Dumper.Carries`).

Whoever opens the stream finds header and metadata, and each load takes up what one dump has
written, neither more nor less. What is loaded later leaves alone what was loaded before
(`Unloaded`), so in the end all copies stand side by side, in the order in which they were dumped.
-/

set_option autoImplicit false

namespace BlockForest

variable {β κ : Type}

/-! ### Writing over a buffer -/

/-- An outlet takes whatever there is room for, and has so much less room. -/
theorem Outlet.write_of_room {o : Outlet} {data : Bytes}
    (h : ∀ room ∈ o.room, data.length ≤ room) :
    o.write data = (true, ⟨o.room.map (· - data.length), data :: o.pieces⟩) := by
  obtain ⟨room, gathered⟩ := o
  cases room with
  | none => rfl
  | some room => exact if_pos (h room rfl)

/-- Pieces for which there is room are all gathered. -/
theorem Outlet.writeAll_of_room {o : Outlet} {pieces : List Bytes}
    (h : ∀ room ∈ o.room, pieces.flatten.length ≤ room) :
    o.writeAll pieces =
      (true, ⟨o.room.map (· - pieces.flatten.length), pieces.reverse ++ o.pieces⟩) := by
  induction pieces generalizing o with
  | nil => simp [writeAll]
  | cons data rest ih =>
    rw [List.flatten_cons, List.length_append] at h ⊢
    have hdata : ∀ room ∈ o.room, data.length ≤ room := fun room hr => by
      have := h room hr
      omega
    have hrest : ∀ room ∈ o.room.map (· - data.length), rest.flatten.length ≤ room := by
      intro left hleft
      obtain ⟨room, hr, rfl⟩ := Option.map_eq_some_iff.mp hleft
      have := h room hr
      omega
    have htail := @ih ⟨o.room.map (· - data.length), data :: o.pieces⟩ hrest
    rw [writeAll, write_of_room hdata]
    simp only [htail, Option.map_map, Function.comp_def, Nat.sub_sub, List.reverse_cons,
      List.append_assoc, List.singleton_append]

namespace Sink

/-- What stands before a position, filled up with zeros where the buffer is too short. -/
def front (buffer : Bytes) (position : Nat) : Bytes :=
  buffer.take position ++ List.replicate (position - buffer.length) 0

/-- The bytes before a position reach exactly up to it. -/
theorem length_front (buffer : Bytes) (position : Nat) :
    (front buffer position).length = position := by
  rw [front, List.length_append, List.length_take, List.length_replicate]
  omega

/-- Overwriting leaves what stands before the position and what stands behind the new bytes. -/
theorem overwrite_eq (buffer : Bytes) (position : Nat) (data : Bytes) :
    overwrite buffer position data =
      front buffer position ++ data ++ buffer.drop (position + data.length) := rfl

/-- Written at the end of a part that is known, bytes replace as many of those behind it. -/
theorem overwrite_append (before tail data : Bytes) :
    overwrite (before ++ tail) before.length data = before ++ data ++ tail.drop data.length := by
  have hgap : before.length - (before ++ tail).length = 0 := by
    rw [List.length_append]
    omega
  rw [overwrite, List.take_left, hgap, List.replicate_zero, List.append_nil,
    List.drop_length_add_append]

/-- What is written behind what was written before might have been written with it. -/
theorem overwrite_overwrite (buffer : Bytes) (position : Nat) (first second : Bytes) :
    overwrite (overwrite buffer position first) (position + first.length) second =
      overwrite buffer position (first ++ second) := by
  have hlen : (front buffer position ++ first).length = position + first.length := by
    rw [List.length_append, length_front]
  rw [overwrite_eq buffer position first, ← hlen, overwrite_append, overwrite_eq, List.drop_drop,
    hlen, List.length_append, List.append_assoc _ first second, Nat.add_assoc]

/-- Bytes that are written again where they stand change nothing. -/
theorem overwrite_again (buffer : Bytes) (position : Nat) (first second : Bytes) :
    overwrite (overwrite buffer position (first ++ second)) position first =
      overwrite buffer position (first ++ second) := by
  have hsplit : overwrite buffer position (first ++ second) = front buffer position ++
      (first ++ (second ++ buffer.drop (position + (first ++ second).length))) := by
    simp only [overwrite_eq, List.append_assoc]
  have hagain := overwrite_append (front buffer position)
    (first ++ (second ++ buffer.drop (position + (first ++ second).length))) first
  rw [length_front, List.drop_left, List.append_assoc] at hagain
  rw [hsplit, hagain]

/-- Two pieces that are put one after the other might have been put as one. -/
theorem put_put (s : Sink) (first second : Bytes) :
    (s.put first).put second = s.put (first ++ second) := by
  unfold put
  cases hf : first.isEmpty with
  | true => simp [List.isEmpty_iff.mp hf]
  | false =>
    cases hs : second.isEmpty with
    | true => simp [hf, List.isEmpty_iff.mp hs]
    | false =>
      have hboth : (first ++ second).isEmpty = false := by simp_all
      simp only [hboth, Bool.false_eq_true, if_false, overwrite_overwrite, List.length_append,
        Nat.add_assoc]

/-- Where there is something to put, a sink is overwritten and its position moves on. -/
theorem put_eq {data : Bytes} (s : Sink) (h : data ≠ []) : s.put data =
    { s with bytes := overwrite s.bytes s.position data, position := s.position + data.length } :=
  if_neg fun hnone => h (List.isEmpty_iff.mp hnone)

/-- From where a sink stood there is what was written then, and behind it what was there before. -/
theorem remaining_put (s : Sink) (data : Bytes) :
    (Source.ofBytes (s.put data).bytes s.position).remaining =
      data ++ s.bytes.drop (s.position + data.length) := by
  rcases List.eq_nil_or_concat data with rfl | ⟨_, _, hdata⟩
  · rfl
  · have hne : data ≠ [] := by simp [hdata]
    rw [Source.remaining_ofBytes, put_eq s hne, overwrite_eq, List.append_assoc,
      List.drop_left' (length_front s.bytes s.position)]

/-- A sink keeps its limit. -/
@[simp] theorem limit_put (s : Sink) (data : Bytes) : (s.put data).limit = s.limit := by
  unfold put
  split <;> rfl

/-- The limit, if there is one, leaves room for so many bytes. -/
def HasRoom (s : Sink) (count : Nat) : Prop := ∀ limit ∈ s.limit, count ≤ limit - s.position

/-- A sink without a limit has room for everything. -/
theorem hasRoom_of_limit {s : Sink} (h : s.limit = none) (count : Nat) : s.HasRoom count := by
  intro limit hl
  rw [h] at hl
  cases hl

/-- A sink takes whatever it has room for. -/
theorem write_of_hasRoom {s : Sink} {pieces : List Bytes} (h : s.HasRoom pieces.flatten.length) :
    s.write pieces = (true, s.put pieces.flatten) := by
  have hroom : ∀ room ∈ s.outlet.room, pieces.flatten.length ≤ room := by
    intro room hr
    obtain ⟨limit, hl, rfl⟩ := Option.map_eq_some_iff.mp hr
    exact h limit hl
  rw [write, Outlet.writeAll_of_room hroom]
  simp only [receive, Outlet.bytes, outlet, List.append_nil, List.reverse_reverse]

end Sink

/-! ### Opening and closing a stream -/

/-- A header that comes next in a source is read, and the source stands behind it. -/
theorem FileHeader.read_of_remaining {source : Source} {header : FileHeader} {rest : Bytes}
    (h : source.remaining = header.toBytes ++ rest) :
    ∃ source', read source = (some header, source') ∧ source.Passes source' header.toBytes ∧
      source'.remaining = rest := by
  obtain ⟨hpass, hrest⟩ := Source.passes_skip h
  exact ⟨_, read_eq_some_iff.mpr hpass, hpass, hrest⟩

namespace Dumper

variable {d d' : Dumper} {settings : Settings} {sink : Sink} {metadata data : Bytes}

/-- The header of a stream is not empty, so opening a stream always writes. -/
theorem headerFor_ne_nil (settings : Settings) (metadata : Bytes) :
    (headerFor settings metadata).toBytes ≠ [] :=
  List.ne_nil_of_length_pos (by rw [FileHeader.length_toBytes]; decide)

/-- What opening a stream writes is as long as the header and the metadata. -/
theorem length_opening (settings : Settings) (metadata : Bytes) :
    [(headerFor settings metadata).toBytes, metadata].flatten.length =
      FileHeader.byteSize + metadata.length := by
  simp only [List.flatten_cons, List.flatten_nil, List.append_nil, List.length_append,
    FileHeader.length_toBytes]

/-- A dumper has written a header, the metadata and some data over a buffer. -/
structure Carries (d : Dumper) (settings : Settings) (sink : Sink) (metadata data : Bytes) :
    Prop where
  sink_eq : d.sink = sink.put ((headerFor settings metadata).toBytes ++ (metadata ++ data))
  header_eq : d.header = headerFor settings metadata
  offset_eq : d.headerOffset = sink.position
  settings_eq : d.settings = settings

/-- A stream is opened if a word holds the length of its metadata and there is room for both. -/
theorem create_eq_ok (hvalid : settings.validate = .ok ()) (hmeta : metadata.length < 2 ^ 32)
    (hroom : sink.HasRoom (FileHeader.byteSize + metadata.length)) :
    ∃ d, create sink settings metadata = .ok d ∧ d.Carries settings sink metadata [] := by
  refine ⟨⟨sink.put ((headerFor settings metadata).toBytes ++ (metadata ++ [])),
    headerFor settings metadata, sink.position, settings⟩, ?_, ⟨rfl, rfl, rfl, rfl⟩⟩
  have hfits : ¬ UInt32.size ≤ metadata.length := Nat.not_le.mpr hmeta
  rw [← length_opening settings metadata] at hroom
  unfold create
  rw [hvalid]
  simp only [if_neg hfits, Sink.write_of_hasRoom hroom]
  rfl

/-- A dumper that carries some data carries more after it was written, as long as nothing else of it
changes. -/
theorem Carries.write (h : d.Carries settings sink metadata data) {more : Bytes}
    (hsink : d'.sink = d.sink.put more) (hheader : d'.header = d.header)
    (hoffset : d'.headerOffset = d.headerOffset) (hsettings : d'.settings = d.settings) :
    d'.Carries settings sink metadata (data ++ more) where
  sink_eq := by rw [hsink, h.sink_eq, Sink.put_put, List.append_assoc, List.append_assoc]
  header_eq := hheader.trans h.header_eq
  offset_eq := hoffset.trans h.offset_eq
  settings_eq := hsettings.trans h.settings_eq

/-- A header that found room once finds it again, and writing it changes nothing any more. -/
theorem Carries.stampHeader (h : d.Carries settings sink metadata data)
    (hroom : sink.HasRoom FileHeader.byteSize) : d.stampHeader = (.ok (), d) := by
  obtain ⟨hsink, hheader, hoffset, -⟩ := h
  have hhead := headerFor_ne_nil settings metadata
  have hall : (headerFor settings metadata).toBytes ++ (metadata ++ data) ≠ [] := by
    simp [hhead]
  have hback : ((d.sink.seek d.headerOffset).put d.header.toBytes).seek d.sink.position =
      d.sink := by
    rw [hsink, hoffset, hheader, Sink.put_eq _ hall, Sink.seek, Sink.put_eq _ hhead, Sink.seek]
    simp only [Sink.overwrite_again]
  have hagain : (d.sink.seek d.headerOffset).HasRoom [d.header.toBytes].flatten.length := by
    rw [List.flatten_singleton, FileHeader.length_toBytes]
    intro limit hl
    rw [Sink.seek, hsink, Sink.limit_put] at hl
    rw [Sink.seek, hoffset]
    exact hroom limit hl
  unfold Dumper.stampHeader
  simp only [Sink.write_of_hasRoom hagain, List.flatten_singleton, hback]

/-- If stamping the header leaves a dumper as it is, so does closing it. -/
theorem finish_of_stampHeader (h : d.stampHeader = (.ok (), d)) : d.finish = (.ok (), d.sink) := by
  unfold Dumper.finish
  rw [h]

/-- To close a stream changes nothing any more. -/
theorem Carries.finish (h : d.Carries settings sink metadata data) (hlimit : sink.limit = none) :
    d.finish = (.ok (), d.sink) :=
  finish_of_stampHeader (h.stampHeader (Sink.hasRoom_of_limit hlimit _))

/-- What is in the buffer and where the sink stands, once something was written. -/
theorem Carries.bytes (h : d.Carries settings sink metadata data) :
    d.sink.bytes = Sink.overwrite sink.bytes sink.position
        ((headerFor settings metadata).toBytes ++ (metadata ++ data)) ∧
      d.sink.position = sink.position +
        ((headerFor settings metadata).toBytes ++ (metadata ++ data)).length := by
  have hall : (headerFor settings metadata).toBytes ++ (metadata ++ data) ≠ [] := by
    simp [headerFor_ne_nil]
  rw [h.sink_eq, Sink.put_eq _ hall]
  exact ⟨rfl, rfl⟩

end Dumper

namespace Loader

variable {settings : Settings} {metadata rest : Bytes} {source : Source}

/-- A stream that opens with a header and metadata is opened and found to be of this format. -/
theorem create_eq_ok (hvalid : settings.validate = .ok ()) (hmeta : metadata.length < 2 ^ 32)
    (h : source.remaining = (Dumper.headerFor settings metadata).toBytes ++ (metadata ++ rest)) :
    ∃ l, create source settings = .ok l ∧ l.header = Dumper.headerFor settings metadata ∧
      l.metadata = metadata ∧ l.settings = settings ∧ l.source.remaining = rest := by
  obtain ⟨source₁, hread, -, hleft⟩ := FileHeader.read_of_remaining h
  have hsize : (Dumper.headerFor settings metadata).metadataSize.toNat = metadata.length :=
    Value.toNat_ofNat_of_lt hmeta
  obtain ⟨hpass, hrest⟩ := Source.passes_skip hleft
  have hupto := (Source.readUpTo_eq_iff rfl).mpr hpass
  have hsigned : (Dumper.headerFor settings metadata).isValid = true := by
    simp [Dumper.headerFor, FileHeader.isValid, FileHeader.ofSubProfile]
  refine ⟨{
    source := source₁.skip metadata.length
    header := Dumper.headerFor settings metadata
    metadata := metadata
    settings := settings }, ?_, rfl, rfl, rfl, hrest⟩
  unfold create
  simp only [hvalid, hread, hsigned, hupto, hsize, Bool.not_true, Bool.false_eq_true, if_false,
    if_true]

/-- The header that a dumper writes is let through by a loader. -/
theorem check_headerFor (settings : Settings) (metadata : Bytes) :
    check (Dumper.headerFor settings metadata) = .ok () := by
  simp [check, Dumper.headerFor, FileHeader.isValid, FileHeader.ofSubProfile, FileHeader.version?,
    StreamVersion.ofWord?, StreamVersion.word]

end Loader

/-! ### Dumping several subtrees -/

section Dumping

/-- Blocks are dumped one after the other, and each time the answer is that the block was written
or that it was passed over. The list has those that were written, each in its site. -/
inductive Dumper.Dumps : Dumper → List (Site β × BlockId) → Dumper → Prop
  | done (d : Dumper) : Dumps d [] d
  | success {d d' : Dumper} {s : Site β} {root : BlockId} {monitor : Monitor}
      {shipped : List (Site β × BlockId)} :
      (d.dump s.catalogue s.tree root monitor).1 = .ok .success →
      Dumps (d.dump s.catalogue s.tree root monitor).2.1 shipped d' →
      Dumps d ((s, root) :: shipped) d'
  | skipped {d d' : Dumper} {s : Site β} {root : BlockId} {monitor : Monitor}
      {shipped : List (Site β × BlockId)} :
      (d.dump s.catalogue s.tree root monitor).1 = .ok .skipped →
      Dumps (d.dump s.catalogue s.tree root monitor).2.1 shipped d' → Dumps d shipped d'

/-- A walk that passes a block over writes nothing. -/
theorem Deflate.outlet_of_skipped {settings : Settings} {s : Site β} {total levels : Nat}
    {o o' : Outflow} {id : BlockId}
    (h : node settings s.catalogue s.tree total levels o id = (.ok .skipped, o')) :
    o'.outlet = o.outlet := by
  have hnot := not_serializable_of_skipped h
  unfold node at h
  simp only at h
  split at h
  · cases h
  · split at h
    · cases h
    · split at h
      · cases h
        rfl
      · next hyes => exact absurd (by simpa using hyes) hnot

/-- A dump answers what its walk answers, and whatever that was, the sink takes what the walk had
gathered. -/
theorem Dumper.dump_eq {d : Dumper} {c : Catalogue β} {t : Tree β} {root : BlockId}
    {monitor : Monitor} {answer : Except CodecError DeflateStatus} {o : Outflow}
    (h : Deflate.node d.settings c t (t.totalSize root + 1) d.settings.maxDepth
      ⟨d.sink.outlet, monitor, 0⟩ root = (answer, o)) :
    (d.dump c t root monitor).1 = answer.mapError .codec ∧
      (d.dump c t root monitor).2.1 = { d with sink := d.sink.put o.outlet.bytes } := by
  unfold dump deflate
  rw [h]
  cases answer with
  | ok status => exact ⟨rfl, rfl⟩
  | error e => exact ⟨rfl, rfl⟩

/-- A dump that does not fail is a walk over the block, and the sink has what the walk has put
out. -/
theorem Dumper.dump_eq_ok {d : Dumper} {s : Site β} {root : BlockId} {monitor : Monitor}
    {status : DeflateStatus} (h : (d.dump s.catalogue s.tree root monitor).1 = .ok status) :
    ∃ o, Deflate.node d.settings s.catalogue s.tree (s.tree.totalSize root + 1)
        d.settings.maxDepth ⟨d.sink.outlet, monitor, 0⟩ root = (.ok status, o) ∧
      (d.dump s.catalogue s.tree root monitor).2.1 =
        { d with sink := d.sink.put o.outlet.bytes } := by
  cases hnode : Deflate.node d.settings s.catalogue s.tree (s.tree.totalSize root + 1)
      d.settings.maxDepth ⟨d.sink.outlet, monitor, 0⟩ root with
  | mk answer o =>
    obtain ⟨hanswer, hdump⟩ := dump_eq hnode
    rw [hanswer] at h
    cases answer with
    | ok status' =>
      cases h
      exact ⟨o, rfl, hdump⟩
    | error e => cases h

variable [Payload β] {kind : β → κ} {s t : Site β}

/-- What a block is written with can be read into a tree: each payload is of the type of its entry,
the types take the stored values in, and the tree knows the types by their names. -/
structure Site.Conveyable (kind : β → κ) (t : Site β) (s : Site β) (root : BlockId) : Prop where
  reached : Reached (Tame kind) s
  words : ∀ id, s.tree.contains id → id.index < 2 ^ 32
  alike : ∀ id payload entry, s.Writes root id payload entry →
    kind payload = kind entry.type.initial
  accepted : ∀ id payload entry, s.Writes root id payload entry →
    BlockType.Accepts (entry.type.storedValues payload) entry.type.initial
  values : ∀ id payload entry, s.Writes root id payload entry →
    ∀ w ∈ entry.type.storedValues payload,
      w.2.nesting ≤ Value.maxNesting ∧ entry.type.Takes kind w.1 w.2
  known : ∀ id payload entry, s.Writes root id payload entry →
    ∃ ref entry', t.catalogue.findName t.tree.registry entry.name = some (ref, entry') ∧
      entry'.type = entry.type ∧ ¬ entry.type.defaultFlags.contains Flags.beingDeleted

/-- What can be conveyed to a tree is portable for its reader, since the tree finds the same types
by their identifiers. -/
theorem Site.Conveyable.portable {root : BlockId} (h : t.Conveyable kind s root)
    (hc : t.catalogue.Consistent) {id : BlockId} {payload : β} {entry : Entry β}
    (hw : s.Writes root id payload entry) :
    Deflate.Portable kind t.unmarkedType? payload entry := by
  obtain ⟨ref, entry', hfound, htype, hu⟩ := h.known id payload entry hw
  exact ⟨h.alike id payload entry hw, h.values id payload entry hw,
    h.accepted id payload entry hw, unmarkedType?_of_findName hc hfound htype hu⟩

/-- A walk that has written a block which can be read has written what leads to a copy of it. -/
theorem Site.Conveyable.leads {root : BlockId} (h : t.Conveyable kind s root) (hk : Kinds kind)
    (hc : t.catalogue.Consistent) {settings : Settings} {total : Nat} {o o' : Outflow}
    (hnode : Deflate.node settings s.catalogue s.tree total settings.maxDepth o root =
      (.ok .success, o')) : Deflate.Leads kind s settings t.unmarkedType? 0 root o o' :=
  Deflate.leads_node hk h.reached.guarded.sound (h.reached.typed hk) h.reached.consistent h.words
    settings.maxDepth (Nat.zero_add _) (fun _ _ _ hw => h.portable hc hw) hnode

/-- The bytes are what is written of a block, and a reader that knows the types finds the blueprint
in them. -/
def Site.Packed (kind : β → κ) (settings : Settings) (t : Site β) (shipped : Site β × BlockId)
    (piece : Blueprint β × Bytes) : Prop :=
  shipped.1.Drawn kind shipped.2 piece.1 ∧
    WellFormed settings t.unmarkedType? 0 piece.1 piece.2

/-- What comes of dumping several blocks: a piece for each that was written, in their order. -/
theorem Dumper.Dumps.carries (hk : Kinds kind) (hc : t.catalogue.Consistent)
    {settings : Settings} {sink : Sink} {metadata data : Bytes} {d d' : Dumper}
    {shipped : List (Site β × BlockId)} (h : Dumps d shipped d')
    (hd : d.Carries settings sink metadata data)
    (hconvey : ∀ c ∈ shipped, t.Conveyable kind c.1 c.2) :
    ∃ pieces : List (Blueprint β × Bytes),
      List.Forall₂ (Site.Packed kind settings t) shipped pieces ∧
        d'.Carries settings sink metadata (data ++ pieces.flatMap Prod.snd) := by
  induction h generalizing data with
  | done d => exact ⟨[], .nil, by simpa using hd⟩
  | @success d d' s root monitor shipped hok _ ih =>
    obtain ⟨o, hnode, hdump⟩ := dump_eq_ok hok
    obtain ⟨plan, used, hdrawn, hplan, hused⟩ :=
      (hconvey (s, root) List.mem_cons_self).leads hk hc hnode
    have hwrite : (d.dump s.catalogue s.tree root monitor).2.1.Carries settings sink metadata
        (data ++ used) :=
      hd.write (by rw [hdump, hused]; rfl) (by rw [hdump]) (by rw [hdump]) (by rw [hdump])
    obtain ⟨pieces, hpacked, hcarries⟩ := ih hwrite fun c hmem =>
      hconvey c (List.mem_cons_of_mem _ hmem)
    rw [hd.settings_eq] at hplan
    refine ⟨(plan, used) :: pieces, .cons ⟨hdrawn, hplan⟩ hpacked, ?_⟩
    rwa [List.flatMap_cons, ← List.append_assoc]
  | @skipped d d' s root monitor shipped hok _ ih =>
    obtain ⟨o, hnode, hdump⟩ := dump_eq_ok hok
    have hnone : o.outlet.bytes = [] := by
      rw [Deflate.outlet_of_skipped hnode]
      rfl
    have hwrite : (d.dump s.catalogue s.tree root monitor).2.1.Carries settings sink metadata
        (data ++ []) :=
      hd.write (by rw [hdump, hnone]) (by rw [hdump]) (by rw [hdump]) (by rw [hdump])
    rw [List.append_nil] at hwrite
    exact ih hwrite hconvey

end Dumping

/-! ### Loading several subtrees -/

section Loading

/-- New subtrees stand at the top of a tree, a copy of each item, in their order. No block is in two
of them, and whoever was there before is in none of them and as before. -/
structure Site.Unloaded {γ : Type} (t t' : Site β) (IsCopy : γ → BlockId → Prop) (items : List γ)
    (copies : List BlockId) : Prop where
  copied : List.Forall₂ (fun item copy => IsCopy item copy ∧ t'.tree.parent? copy = none) items
    copies
  nodup : copies.Nodup
  apart : copies.Pairwise fun a b => ∀ id ∈ t'.tree.descendants a, id ∉ t'.tree.descendants b
  fresh : ∀ copy ∈ copies, ∀ id ∈ t'.tree.descendants copy, ¬ t.tree.contains id
  frame : ∀ id, t.tree.contains id → t'.tree.node? id = t.tree.node? id
  lasting : Lasting t t'

/-- Nothing is unloaded where there is nothing to unload. -/
theorem Site.unloaded_nil {γ : Type} (t : Site β) (IsCopy : γ → BlockId → Prop) :
    t.Unloaded t IsCopy [] [] where
  copied := .nil
  nodup := List.nodup_nil
  apart := .nil
  fresh _ h := by simp at h
  frame _ _ := rfl
  lasting := .refl t

variable [Payload β]

/-- Loads one subtree after the other, each under a monitor of its own. -/
def Loader.loadEach : Loader → Site β → List Monitor →
    List (Except StreamError InflateStatus) × Loader × Site β
  | l, t, [] => ([], l, t)
  | l, t, monitor :: rest =>
    let (result, loaded) := l.load t monitor
    let (results, last) := loadEach loaded.loader loaded.site rest
    (result :: results, last)

/-- A load that succeeds has read a subtree and goes on behind it. -/
theorem Loader.load_of_success {l : Loader} {t : Site β} {monitor : Monitor} {root : BlockId}
    (hcheck : check l.header = .ok ())
    (h : (inflate l.settings t l.source monitor).1 = .ok (.success root)) :
    (l.load t monitor).1 = .ok (.success root) ∧
      (l.load t monitor).2.loader =
        { l with source := (inflate l.settings t l.source monitor).2.source } ∧
      (l.load t monitor).2.site = (inflate l.settings t l.source monitor).2.site := by
  unfold load
  rw [hcheck]
  cases hinflate : inflate l.settings t l.source monitor with
  | mk result i =>
    rw [hinflate] at h
    cases h
    exact ⟨rfl, rfl, rfl⟩

/-- A subtree that was loaded first is not touched by the others. -/
theorem Site.Unloaded.cons {t t₁ t' : Site β} {levels : Nat} {plan : Blueprint β} {root : BlockId}
    {plans : List (Blueprint β)} {copies : List BlockId}
    (h : t₁.Unloaded t' (fun plan copy => ∃ levels, t'.Shows levels plan copy) plans copies)
    (hs : Sprouted t t₁ levels root) (hshows : t₁.Shows (levels + 1) plan root) :
    t.Unloaded t' (fun plan copy => ∃ levels, t'.Shows levels plan copy) (plan :: plans)
      (root :: copies) := by
  have hroot := Tree.mem_listing_self (t := t₁.tree) levels root
  have hlisted : ∀ id ∈ t₁.tree.listing levels root, t'.tree.node? id = t₁.tree.node? id :=
    fun id hid => h.frame id (hs.upright.alive id hid)
  have hupright := hs.upright.of_node?_eq hlisted
  have hfamily : t'.tree.descendants root = t₁.tree.listing levels root := by
    rw [hupright.descendants_eq, Tree.listing_eq_of_node?_eq hlisted]
  have hmine : root ∈ t'.tree.descendants root := hfamily ▸ hroot
  have hkept : ∀ id, t.tree.contains id → t₁.tree.contains id := by
    intro id hid
    rw [Tree.contains, hs.node?_of_contains hid]
    exact hid
  refine ⟨.cons ⟨⟨levels + 1, hshows.congr ?_ ?_⟩, ?_⟩ h.copied, ?_, ?_, ?_, ?_,
    hs.lasting.trans h.lasting⟩
  · exact fun id hid => h.lasting.face? (hlisted id hid)
  · intro id hid
    rw [Tree.children, hlisted id hid, Tree.children]
  · rw [Tree.parent?, hlisted root hroot]
    exact hs.detached.1
  · exact List.nodup_cons.mpr
      ⟨fun hmem => h.fresh root hmem root hmine (hs.upright.alive root hroot), h.nodup⟩
  · refine List.pairwise_cons.mpr ⟨fun copy hcopy id hid hother => ?_, h.apart⟩
    rw [hfamily] at hid
    exact h.fresh copy hcopy id hother (hs.upright.alive id hid)
  · intro copy hcopy id hid
    rcases List.mem_cons.mp hcopy with rfl | hcopy
    · rw [hfamily] at hid
      exact hs.not_contains hid
    · exact fun hbefore => h.fresh copy hcopy id hid (hkept id hbefore)
  · exact fun id hid => (h.frame id (hkept id hid)).trans (hs.node?_of_contains hid)

variable {type? : UInt32 → Option (BlockType β)} {settings : Settings}

/-- As many loads as there are well-formed pieces find all of them, and nothing behind them is
read. -/
theorem Loader.loadEach_of_wellFormed (hu : Inflate.Unmarked type?)
    {pieces : List (Blueprint β × Bytes)}
    (hpieces : ∀ piece ∈ pieces, WellFormed settings type? 0 piece.1 piece.2) {l : Loader}
    (hcheck : check l.header = .ok ()) (hsettings : l.settings = settings) {t : Site β}
    (hready : Inflate.Ready type? ⟨t, l.source, Monitor.always⟩) {rest : Bytes}
    (hsource : l.source.remaining = pieces.flatMap Prod.snd ++ rest) {monitors : List Monitor}
    (hlen : monitors.length = pieces.length) (hwilling : ∀ m ∈ monitors, ∀ n, m.answer n) :
    let (results, last, t') := l.loadEach t monitors
    ∃ copies, results = copies.map (fun copy => .ok (.success copy)) ∧
      t.Unloaded t' (fun plan copy => ∃ levels, t'.Shows levels plan copy)
        (pieces.map Prod.fst) copies ∧
      last.source.remaining = rest := by
  induction pieces generalizing l t monitors with
  | nil =>
    cases List.eq_nil_of_length_eq_zero hlen
    exact ⟨[], rfl, t.unloaded_nil _, hsource⟩
  | cons piece pieces ih =>
    cases monitors with
    | nil => cases hlen
    | cons m monitors =>
      obtain ⟨plan, used⟩ := piece
      have hm : Inflate.Ready type? ⟨t, l.source, m⟩ :=
        ⟨hready.orderly, hready.consistent, hready.types, hwilling m List.mem_cons_self⟩
      have hparses := Inflate.parses_node hu settings l.source.length settings.maxDepth
        (Nat.zero_add settings.maxDepth)
      rw [List.flatMap_cons, List.append_assoc] at hsource
      obtain ⟨root, hsuccess, hpasses, hshows⟩ := hparses.complete _ plan used _ hm
        (hpieces _ List.mem_cons_self) hsource
      obtain ⟨levels, hlevels, hsprouted⟩ :=
        (hparses.leaves ⟨t, l.source, m⟩ hready.orderly).1 root hsuccess
      obtain ⟨houtcome, hsite, hleft⟩ := Inflate.inflate_eq_node settings t l.source m
      rw [← hsite] at hsprouted hshows
      rw [hlevels] at hshows
      rw [← hleft] at hpasses
      subst hsettings
      obtain ⟨hresult, hloader, hloaded⟩ := load_of_success hcheck (houtcome.trans hsuccess)
      rw [← hloaded] at hsprouted hshows
      -- The other loads start behind the first piece, with the first subtree in the tree.
      have hsource' : (l.load t m).2.loader.source.remaining =
          pieces.flatMap Prod.snd ++ rest := by
        rw [hloader]
        exact List.append_cancel_left (hpasses.remaining.symm.trans hsource)
      have hready' : Inflate.Ready type?
          ⟨(l.load t m).2.site, (l.load t m).2.loader.source, Monitor.always⟩ :=
        hready.of_lasting hsprouted.lasting rfl
      obtain ⟨copies, hresults, hunloaded, hrest⟩ := ih
        (fun p hp => hpieces p (List.mem_cons_of_mem _ hp)) (by rw [hloader]; exact hcheck)
        (by rw [hloader]) hready' hsource' (by simpa using hlen)
        fun m hm => hwilling m (List.mem_cons_of_mem _ hm)
      refine ⟨root :: copies, ?_, hunloaded.cons hsprouted hshows, hrest⟩
      rw [List.map_cons, ← hresult, ← hresults]
      rfl

/-- A stream is written over a buffer from any position on: a header, metadata, and any blocks for
which the answer is that they were written or passed over. Closing it leaves the buffer as it was
before the stream and behind it, with zeros in a gap. Whoever opens it there finds the header and
the metadata, and as many loads as blocks were written give their copies in this order: different
blocks at the top of the tree, with nothing in common, next to what was there before. -/
theorem loaded_of_dumped {kind : β → κ} (hk : Kinds kind) {settings : Settings}
    (hvalid : settings.validate = .ok ()) {sink : Sink} (hlimit : sink.limit = none)
    {metadata : Bytes} (hmeta : metadata.length < 2 ^ 32) {t : Site β}
    (ht : Site.Reached Site.Any t) :
    ∃ d, Dumper.create sink settings metadata = .ok d ∧
      d.header.subProfileSignature = settings.subProfileSignature ∧
      d.header.subProfileVersion = settings.subProfileVersion ∧
      d.header.metadataSize.toNat = metadata.length ∧
      ∀ d' shipped, Dumper.Dumps d shipped d' →
        (∀ c ∈ shipped, t.Conveyable kind c.1 c.2) →
        ∃ final stream, d'.finish = (.ok (), final) ∧
          final.bytes = sink.bytes.take sink.position ++
            List.replicate (sink.position - sink.bytes.length) 0 ++ stream ++
              sink.bytes.drop (sink.position + stream.length) ∧
          final.position = sink.position + stream.length ∧
          ∃ l, Loader.create (Source.ofBytes final.bytes sink.position) settings = .ok l ∧
            l.header = d.header ∧ l.header.isValid ∧ l.metadata = metadata ∧
            ∀ monitors : List Monitor, monitors.length = shipped.length →
              (∀ m ∈ monitors, ∀ n, m.answer n) →
              let (results, last, t') := l.loadEach t monitors
              ∃ copies, results = copies.map (fun copy => .ok (.success copy)) ∧
                t.Unloaded t' (fun c copy => Site.Copied c.1 t' c.2 copy) shipped copies ∧
                last.source.remaining = sink.bytes.drop (sink.position + stream.length) := by
  obtain ⟨d, hcreate, hopened⟩ := Dumper.create_eq_ok hvalid hmeta
    (Sink.hasRoom_of_limit hlimit _)
  refine ⟨d, hcreate, by rw [hopened.header_eq]; rfl, by rw [hopened.header_eq]; rfl, ?_, ?_⟩
  · rw [hopened.header_eq]
    exact Value.toNat_ofNat_of_lt hmeta
  intro d' shipped hdumps hconvey
  obtain ⟨pieces, hpacked, hcarries⟩ := hdumps.carries hk ht.consistent hopened hconvey
  rw [List.nil_append] at hcarries
  obtain ⟨hbytes, hposition⟩ := hcarries.bytes
  generalize hstream : (Dumper.headerFor settings metadata).toBytes ++
    (metadata ++ pieces.flatMap Prod.snd) = stream at hbytes hposition
  refine ⟨d'.sink, stream, hcarries.finish hlimit, hbytes, hposition, ?_⟩
  have hsource : (Source.ofBytes d'.sink.bytes sink.position).remaining =
      (Dumper.headerFor settings metadata).toBytes ++ (metadata ++
        (pieces.flatMap Prod.snd ++ sink.bytes.drop (sink.position + stream.length))) := by
    have hdrop : (Source.ofBytes d'.sink.bytes sink.position).remaining =
        stream ++ sink.bytes.drop (sink.position + stream.length) := by
      rw [Source.remaining_ofBytes, hbytes, Sink.overwrite_eq, List.append_assoc,
        List.drop_left' (Sink.length_front sink.bytes sink.position)]
    rw [hdrop, ← hstream, List.append_assoc, List.append_assoc]
  obtain ⟨l, hload, hheader, hmetadata, hsettings, hremaining⟩ :=
    Loader.create_eq_ok hvalid hmeta hsource
  refine ⟨l, hload, hheader.trans hopened.header_eq.symm, ?_, hmetadata, ?_⟩
  · rw [hheader]
    simp [Dumper.headerFor, FileHeader.isValid, FileHeader.ofSubProfile]
  intro monitors hlen hwilling
  have hready : Inflate.Ready t.unmarkedType? ⟨t, l.source, Monitor.always⟩ :=
    ⟨ht.orderly, ht.consistent, fun _ _ htype => (Option.filter_eq_some_iff.mp htype).1,
      fun _ => rfl⟩
  have hboth : List.Forall₂ (fun piece c => WellFormed settings t.unmarkedType? 0 piece.1 piece.2 ∧
      Site.Packed kind settings t c piece) pieces shipped :=
    (hpacked.imp fun _ _ h => ⟨h.2, h⟩).flip
  have hpieces := ((List.forall₂_and_left pieces shipped).mp hboth).1
  obtain ⟨copies, hresults, hunloaded, hrest⟩ := Loader.loadEach_of_wellFormed
    t.unmarked_unmarkedType? hpieces (by rw [hheader]; exact Loader.check_headerFor _ _)
    hsettings hready hremaining (hlen.trans hpacked.length_eq) hwilling
  refine ⟨copies, hresults, ⟨?_, hunloaded.nodup, hunloaded.apart, hunloaded.fresh,
    hunloaded.frame, hunloaded.lasting⟩, hrest⟩
  refine forall₂_trans hpacked (List.forall₂_map_left_iff.mp hunloaded.copied) ?_
  rintro c piece copy ⟨hdrawn, -⟩ ⟨⟨levels, hshows⟩, hdetached⟩
  exact ⟨hdrawn.copied hshows, hdetached⟩

/-- What is written of the shelf, or of the leaf alone, can be read by one who knows the types. -/
theorem conveyable_shelf {root : BlockId}
    (hroot : ∀ id payload entry, Site.shelf.Writes root id payload entry →
      Site.shelf.Writes ⟨0, 0⟩ id payload entry) :
    Site.bareShelf.Conveyable StockType.of Site.shelf root where
  reached := Site.reached_shelf
  words id hid := by
    have hsize : Site.shelf.tree.slots.size = 2 := by decide +kernel
    obtain ⟨node, hn⟩ := Option.isSome_iff_exists.mp hid
    have hlt := Tree.index_lt_of_node? hn
    omega
  alike id payload entry hw := by
    rcases Site.writes_shelf (hroot id payload entry hw) with ⟨rfl, htype⟩ | ⟨rfl, htype⟩
    · rw [htype]
      rfl
    · rw [htype]
      rfl
  accepted id payload entry hw := by
    rcases Site.writes_shelf (hroot id payload entry hw) with ⟨rfl, htype⟩ | ⟨rfl, htype⟩
    · rw [htype]
      trivial
    · rw [htype]
      exact StockType.accepts_leaf ⟨"alpha"⟩
  values id payload entry hw w hmem := by
    rcases Site.writes_shelf (hroot id payload entry hw) with ⟨-, htype⟩ | ⟨-, htype⟩
    · rw [htype] at hmem
      cases hmem
    · rw [htype] at hmem ⊢
      exact StockType.takes_leaf hmem
  known id payload entry hw := by
    rw [Entry.name]
    rcases Site.writes_shelf (hroot id payload entry hw) with ⟨-, htype⟩ | ⟨-, htype⟩
    · obtain ⟨ref, entry', hfind, hsame⟩ := Site.findName_bareShelf (.inl rfl)
      rw [htype]
      exact ⟨ref, entry', hfind, hsame, by decide⟩
    · obtain ⟨ref, entry', hfind, hsame⟩ := Site.findName_bareShelf (.inr rfl)
      rw [htype]
      exact ⟨ref, entry', hfind, hsame, by decide⟩

/-- The shelf is dumped behind the end of a buffer, then a library that is not to be written, and
then the leaf alone. Two loads find the shelf and the leaf. -/
theorem loaded_of_dumped_shelf :
    ∃ d, Dumper.create ⟨[1, 2, 3], 5, none⟩ Settings.defaults [7, 8] = .ok d ∧
      let first := (d.dump Site.shelf.catalogue Site.shelf.tree ⟨0, 0⟩ Monitor.always).2.1
      let passed := Site.bareShelf.perform (.create "Library")
      let second := (first.dump passed.catalogue passed.tree ⟨0, 0⟩ Monitor.always).2.1
      let third :=
        (second.dump Site.shelf.catalogue Site.shelf.tree ⟨1, 0⟩ Monitor.always).2.1
      ∃ final l copies, third.finish = (.ok (), final) ∧
        final.bytes.take 5 = [1, 2, 3, 0, 0] ∧
        Loader.create (Source.ofBytes final.bytes 5) Settings.defaults = .ok l ∧
        l.metadata = [7, 8] ∧
        let (results, _, t) := l.loadEach Site.bareShelf [Monitor.always, Monitor.always]
        results = copies.map (fun copy => .ok (.success copy)) ∧
          Site.bareShelf.Unloaded t (fun c copy => Site.Copied c.1 t c.2 copy)
            [(Site.shelf, ⟨0, 0⟩), (Site.shelf, ⟨1, 0⟩)] copies := by
  obtain ⟨d, hcreate, -, -, -, hloaded⟩ := loaded_of_dumped StockType.kinds
    (show Settings.defaults.validate = .ok () by decide)
    (show (⟨[1, 2, 3], 5, none⟩ : Sink).limit = none from rfl)
    (show ([7, 8] : Bytes).length < 2 ^ 32 by decide) Site.reached_bareShelf
  refine ⟨d, hcreate, ?_⟩
  intro first passed second third
  cases hcreate
  have hshelf : Dumper.Dumps _ [(Site.shelf, ⟨0, 0⟩), (Site.shelf, ⟨1, 0⟩)] third :=
    .success (by decide +kernel) (.skipped (s := passed) (by decide +kernel)
      (.success (by decide +kernel) (.done third)))
  have hleaf : ⟨1, 0⟩ ∈ Deflate.writtenChildren Site.shelf.tree ⟨0, 0⟩ := by decide +kernel
  obtain ⟨final, stream, hfinish, hbytes, -, l, hopen, -, -, hmetadata, hload⟩ :=
    hloaded third _ hshelf (by
      intro c hc
      rcases List.mem_cons.mp hc with rfl | hc
      · exact conveyable_shelf fun _ _ _ hw => hw
      · rw [List.mem_singleton.mp hc]
        exact conveyable_shelf fun _ _ _ hw => hw.below hleaf)
  obtain ⟨copies, hresults, hunloaded, -⟩ :=
    hload [Monitor.always, Monitor.always] rfl (by simp [Monitor.always, Monitor.of])
  refine ⟨final, l, copies, hfinish, ?_, hopen, hmetadata, hresults, hunloaded⟩
  rw [hbytes]
  rfl

end Loading

end BlockForest
