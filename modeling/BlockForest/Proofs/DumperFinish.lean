import Mathlib
import BlockForest.Proofs.DumpLoadRoundTrip

/-!
# Closing a stream

The header of a stream is written when the stream is opened, and nothing that it says depends on
what is dumped later. So when it is written once more, it finds the same bytes in its place, and
since there was room for it the first time there is room for it now (`Carries.stampHeader`).
Whatever came of the dumps in between, all that they did to the sink is to append what their walks
had gathered (`Dumper.dump_sink`). So a dumper still carries what it opened with, followed by that
(`Carries.dumpAll`), and closing it shows the sink as the last walk has left it.
-/

set_option autoImplicit false

namespace BlockForest

variable {β : Type}

/-! ### Room for a write -/

/-- What was taken piece by piece there was room for. By induction on the pieces, with the room that
is left. -/
theorem Outlet.room_of_writeAll {o : Outlet} {pieces : List Bytes} (h : (o.writeAll pieces).1) :
    ∀ room ∈ o.room, pieces.flatten.length ≤ room := by
  induction pieces generalizing o with
  | nil => exact fun room _ => Nat.zero_le room
  | cons data rest ih =>
    intro room hr
    unfold writeAll at h
    unfold write at h
    rw [Option.mem_def.mp hr] at h
    by_cases hfits : data.length ≤ room
    · simp only [if_pos hfits] at h
      have hrest := ih h (room - data.length) rfl
      rw [List.flatten_cons, List.length_append]
      omega
    · simp [if_neg hfits] at h

/-- What a sink has taken it had room for. -/
theorem Sink.hasRoom_of_write {s : Sink} {pieces : List Bytes} (h : (s.write pieces).1) :
    s.HasRoom pieces.flatten.length := by
  intro limit hl
  refine Outlet.room_of_writeAll h (limit - s.position) ?_
  rw [Sink.outlet, Option.mem_def.mp hl]
  rfl

namespace Dumper

variable {d : Dumper} {settings : Settings} {sink : Sink} {metadata data : Bytes}

/-- Whoever has opened a stream has had room for its header and its metadata. -/
theorem create_eq_ok_iff (hvalid : settings.validate = .ok ()) :
    (∃ d, create sink settings metadata = .ok d) ↔
      metadata.length < 2 ^ 32 ∧ sink.HasRoom (FileHeader.byteSize + metadata.length) := by
  constructor
  · rintro ⟨d, hcreate⟩
    unfold create at hcreate
    rw [hvalid] at hcreate
    simp only at hcreate
    split at hcreate
    · cases hcreate
    · next hfits =>
      refine ⟨Nat.not_le.mp hfits, ?_⟩
      split at hcreate
      · next hwrite =>
        rw [← length_opening settings metadata]
        exact Sink.hasRoom_of_write (by rw [hwrite])
      · cases hcreate
  · rintro ⟨hmeta, hroom⟩
    obtain ⟨d, hcreate, -⟩ := create_eq_ok hvalid hmeta hroom
    exact ⟨d, hcreate⟩

/-! ### Dumps, whatever comes of them -/

/-- What a dump is asked for: a block among others as they are then, and who watches. -/
structure Request (β : Type) where
  catalogue : Catalogue β
  tree : Tree β
  root : BlockId
  monitor : Monitor

/-- Dumps one block after the other, whatever the answers are. -/
def dumpAll (d : Dumper) : List (Request β) → List (Except StreamError DeflateStatus) × Dumper
  | [] => ([], d)
  | request :: rest =>
    let (answer, d, _) := d.dump request.catalogue request.tree request.root request.monitor
    let (answers, d) := d.dumpAll rest
    (answer :: answers, d)

/-- The bytes that the walk of a dump has gathered when it ends. -/
def output (d : Dumper) (request : Request β) : Bytes :=
  (Deflate.node d.settings request.catalogue request.tree
    (request.tree.totalSize request.root + 1) d.settings.maxDepth
    ⟨d.sink.outlet, request.monitor, 0⟩ request.root).2.outlet.bytes

/-- What each of several dumps has gathered. -/
def outputs (d : Dumper) : List (Request β) → List Bytes
  | [] => []
  | request :: rest =>
    d.output request ::
      (d.dump request.catalogue request.tree request.root request.monitor).2.1.outputs rest

/-- A dump changes nothing but that the sink takes what was gathered, also if the walk failed or was
stopped. -/
theorem dump_sink (d : Dumper) (request : Request β) :
    (d.dump request.catalogue request.tree request.root request.monitor).2.1 =
      { d with sink := d.sink.put (d.output request) } := (dump_eq rfl).2

/-- However the dumps of a list end, the dumper carries what each of them has put out, one after the
other. -/
theorem Carries.dumpAll (h : d.Carries settings sink metadata data)
    (requests : List (Request β)) : (d.dumpAll requests).2.Carries settings sink metadata
      (data ++ (d.outputs requests).flatten) := by
  induction requests generalizing d data with
  | nil => simpa [Dumper.dumpAll, outputs] using h
  | cons request rest ih =>
    have hone := dump_sink d request
    have hnext := ih (h.write (by rw [hone]) (by rw [hone]) (by rw [hone]) (by rw [hone]) :
      (d.dump request.catalogue request.tree request.root request.monitor).2.1.Carries settings
        sink metadata (data ++ d.output request))
    rwa [List.append_assoc] at hnext

/-! ### What stands in the buffer -/

/-- From where the dumper was opened stand the header, the metadata and the data, and behind these
what was there before. -/
theorem Carries.remaining (h : d.Carries settings sink metadata data) :
    (Source.ofBytes d.sink.bytes sink.position).remaining =
      (headerFor settings metadata).toBytes ++ (metadata ++ (data ++ sink.bytes.drop
        (sink.position + (FileHeader.byteSize + (metadata.length + data.length))))) := by
  rw [h.sink_eq, Sink.remaining_put]
  simp only [List.append_assoc, List.length_append, FileHeader.length_toBytes]

/-- A stream is opened in a buffer with any contents and at any position, if there is room for its
header and its metadata, as there always is without a limit. Then blocks are dumped, some written,
some passed over, some stopped in the middle, some refused. Whether the dumper is finished or dropped
in the end, the sink comes back as the last dump has left it: before the stream and behind it is what
was there before, with zeros in a gap, the position is where the stream ends, and whoever opens the
stream finds the header and the metadata that it tells of. -/
theorem finish_of_dumpAll {settings : Settings} (hvalid : settings.validate = .ok ())
    (sink : Sink) (metadata : Bytes) :
    ((∃ d, create sink settings metadata = .ok d) ↔ metadata.length < 2 ^ 32 ∧
        sink.HasRoom (FileHeader.byteSize + metadata.length)) ∧
      ∀ d, create sink settings metadata = .ok d → ∀ requests : List (Request β),
        let last := (d.dumpAll requests).2
        let stream := d.header.toBytes ++ metadata ++ (d.outputs requests).flatten
        last.finish = (.ok (), last.sink) ∧ last.drop = last.sink ∧
          last.sink.bytes = sink.bytes.take sink.position ++
            List.replicate (sink.position - sink.bytes.length) 0 ++ stream ++
              sink.bytes.drop (sink.position + stream.length) ∧
          last.sink.position = sink.position + stream.length ∧
          d.header.metadataSize.toNat = metadata.length ∧
          ∃ l, Loader.create (Source.ofBytes last.sink.bytes sink.position) settings = .ok l ∧
            l.header = d.header ∧ l.header.isValid ∧ l.metadata = metadata := by
  refine ⟨create_eq_ok_iff hvalid, ?_⟩
  intro d hcreate requests last stream
  obtain ⟨hmeta, hroom⟩ := (create_eq_ok_iff hvalid).mp ⟨d, hcreate⟩
  obtain ⟨opened, hagain, hopened⟩ := create_eq_ok hvalid hmeta hroom
  cases hcreate.symm.trans hagain
  have hcarries := hopened.dumpAll requests
  rw [List.nil_append] at hcarries
  have hstamp : last.stampHeader = (.ok (), last) :=
    hcarries.stampHeader fun limit hl => (Nat.le_add_right _ _).trans (hroom limit hl)
  obtain ⟨hbytes, hposition⟩ := hcarries.bytes
  have hstream : (headerFor settings metadata).toBytes ++
      (metadata ++ (d.outputs requests).flatten) = stream := by
    rw [← hopened.header_eq, ← List.append_assoc]
  rw [hstream] at hbytes hposition
  have hsize : d.header.metadataSize.toNat = metadata.length := by
    rw [hopened.header_eq]
    exact Value.toNat_ofNat_of_lt hmeta
  obtain ⟨l, hload, hheader, hmetadata, -, -⟩ :=
    Loader.create_eq_ok hvalid hmeta hcarries.remaining
  refine ⟨finish_of_stampHeader hstamp, ?_, hbytes, hposition, hsize, l, hload,
    hheader.trans hopened.header_eq.symm, ?_, hmetadata⟩
  · rw [Dumper.drop, hstamp]
  · rw [hheader]
    simp [headerFor, FileHeader.isValid, FileHeader.ofSubProfile]

/-- Into a gap behind the end of a buffer a shelf is dumped, but the walk is stopped after one block,
then a block that there is not, then the shelf again, and then a library that is passed over. -/
theorem finish_of_dumpAll_shelf :
    ∃ d, create ⟨[1, 2, 3], 5, none⟩ Settings.defaults [7, 8] = .ok d ∧
      let passed := Site.bareShelf.perform (.create "Library")
      let requests : List (Request Stock) :=
        [⟨Site.shelf.catalogue, Site.shelf.tree, ⟨0, 0⟩, Monitor.upTo 1⟩,
          ⟨Site.shelf.catalogue, Site.shelf.tree, ⟨9, 0⟩, Monitor.always⟩,
          ⟨Site.shelf.catalogue, Site.shelf.tree, ⟨0, 0⟩, Monitor.always⟩,
          ⟨passed.catalogue, passed.tree, ⟨0, 0⟩, Monitor.always⟩]
      let last := (d.dumpAll requests).2
      (d.dumpAll requests).1 = [.ok .canceled, .error (.codec (.tree (.staleBlock ⟨9, 0⟩))),
          .ok .success, .ok .skipped] ∧
        last.finish = (.ok (), last.sink) ∧ last.drop = last.sink ∧
        last.sink.bytes.take 5 = [1, 2, 3, 0, 0] ∧
        ∃ l, Loader.create (Source.ofBytes last.sink.bytes 5) Settings.defaults = .ok l ∧
          l.metadata = [7, 8] := by
  obtain ⟨hopens, hcloses⟩ := finish_of_dumpAll (β := Stock)
    (show Settings.defaults.validate = .ok () by decide) ⟨[1, 2, 3], 5, none⟩ [7, 8]
  obtain ⟨d, hcreate⟩ := hopens.mpr ⟨by decide, Sink.hasRoom_of_limit rfl _⟩
  refine ⟨d, hcreate, ?_⟩
  intro passed requests last
  obtain ⟨hfinish, hdrop, hbytes, -, -, l, hload, -, -, hmetadata⟩ := hcloses d hcreate requests
  refine ⟨?_, hfinish, hdrop, ?_, l, hload, hmetadata⟩
  · cases hcreate
    decide +kernel
  · rw [hbytes]
    rfl

end Dumper

end BlockForest
