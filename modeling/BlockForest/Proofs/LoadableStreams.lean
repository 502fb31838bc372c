import Mathlib
import BlockForest.Proofs.TruncatedStreams
import BlockForest.Proofs.InflateReports

/-!
# Which streams are loaded

Reading goes forward in one buffer: whatever is read from `Source.ofBytes bytes position`, whole or
cut short, leaves `Source.ofBytes bytes` at another position (`Source.readExact_ofBytes`,
`Source.readUpTo_ofBytes`), and so does a walk of the codec (`Inflate.over_node`). So where a loader
stands is told by a position.

Opening a stream takes the header and, if it is one of this format, the metadata that it declares
(`Loader.create_ofBytes`). The header alone decides what becomes of the loads: it is refused for its
signature, its version or its encoding, in this order, and then nothing at all is touched; or each
load is the walk of the codec from where the one before it has stopped (`Loader.loads_eq`).
-/

set_option autoImplicit false

namespace BlockForest

variable {β : Type}

/-! ### Reading in one buffer -/

namespace Source

variable {bytes : Bytes} {position : Nat}

/-- To skip bytes is to move the position. -/
theorem skip_ofBytes (n : Nat) : (ofBytes bytes position).skip n = ofBytes bytes (position + n) :=
  eq_ofBytes _

/-- Where a read has failed, the position is the end of the buffer. -/
theorem toEnd_ofBytes : (ofBytes bytes position).toEnd = ofBytes bytes bytes.length :=
  eq_ofBytes _

/-- So many bytes are read from a buffer if they are left, and the position moves behind them. -/
theorem readExact_ofBytes {n : Nat} (h : n ≤ (bytes.drop position).length) :
    (ofBytes bytes position).readExact n =
      (some ((bytes.drop position).take n), ofBytes bytes (position + n)) := by
  have hsplit := Bytes.splitExact?_eq_some_iff.mpr
    ⟨(List.take_append_drop n (bytes.drop position)).symm, List.length_take_of_le h⟩
  unfold readExact
  rw [remaining_ofBytes, hsplit, ← skip_ofBytes]

/-- If fewer bytes are left, none are read, and the position is the end of the buffer. -/
theorem readExact_ofBytes_cut {n : Nat} (h : (bytes.drop position).length < n) :
    (ofBytes bytes position).readExact n = (none, ofBytes bytes bytes.length) := by
  rw [readExact_of_short h, toEnd_ofBytes]

/-- A blob is read as far as the buffer goes, and the position moves behind what was read. -/
theorem readUpTo_ofBytes (n : Nat) :
    (ofBytes bytes position).readUpTo n = ((bytes.drop position).take n,
      ofBytes bytes (position + ((bytes.drop position).take n).length)) := by
  unfold readUpTo
  simp only [remaining_ofBytes, skip_ofBytes]

/-- A source that reads in a buffer. -/
def Over (bytes : Bytes) (source : Source) : Prop := source = ofBytes bytes source.position

/-- A buffer that is read from a position on reads in itself. -/
theorem over_ofBytes (bytes : Bytes) (position : Nat) : (ofBytes bytes position).Over bytes := rfl

variable {source : Source}

/-- Reading a record of fixed size stays in the buffer, also if it is cut short. -/
theorem Over.readExact (h : source.Over bytes) (n : Nat) : (source.readExact n).2.Over bytes := by
  rw [h]
  rcases Nat.lt_or_ge (bytes.drop source.position).length n with hcut | hwhole
  · rw [readExact_ofBytes_cut hcut]
    exact over_ofBytes _ _
  · rw [readExact_ofBytes hwhole]
    exact over_ofBytes _ _

/-- Reading a blob stays in the buffer. -/
theorem Over.readUpTo (h : source.Over bytes) (n : Nat) : (source.readUpTo n).2.Over bytes := by
  rw [h, readUpTo_ofBytes]
  exact over_ofBytes _ _

end Source

namespace Inflate

variable {bytes : Bytes}

/-- Reading the record of a block stays in the buffer, wherever it fails. -/
theorem over_readRecord {source : Source} (h : source.Over bytes) (settings : Settings)
    (catalogue : Catalogue β) (registry : RegistryRef) :
    (readRecord settings catalogue registry source).2.Over bytes := by
  have hheader : (NodeHeader.read source).2.Over bytes := by
    have hexact := h.readExact NodeHeader.byteSize
    unfold NodeHeader.read
    split
    · next heq => rwa [heq] at hexact
    · next heq => rwa [heq] at hexact
  rw [readRecord_buffer]
  split
  · next heq => rwa [heq] at hheader
  · next header behind heq =>
    rw [heq] at hheader
    split
    · exact hheader
    · split
      · exact hheader
      · simp only
        split
        · exact hheader.readUpTo _
        · exact hheader.readUpTo _

variable [Payload β]
  {readBlock : Intake Source β → Except CodecError InflateStatus × Intake Source β}

/-- By induction on their number, reading children stays in the buffer. -/
theorem over_children
    (hread : ∀ i, i.source.Over bytes → (readBlock i).2.source.Over bytes) (library : BlockId)
    (count : Nat) {i : Intake Source β} (h : i.source.Over bytes) :
    (children readBlock library count i).2.source.Over bytes := by
  induction count generalizing i with
  | zero => exact h
  | succ count ih =>
    have hblock := hread i h
    unfold children
    split
    · next heq => rwa [heq] at hblock
    · next heq => rwa [heq] at hblock
    · next child i₁ heq =>
      rw [heq] at hblock
      have hadopt := (adoptChild_frame i₁ library child).1
      split
      · next heq =>
        rw [heq] at hadopt
        exact hadopt ▸ hblock
      · next heq =>
        rw [heq] at hadopt
        exact ih (hadopt ▸ hblock)

/-- Whatever becomes of a block, reading what belongs to it stays in the buffer. -/
theorem over_build (hread : ∀ i, i.source.Over bytes → (readBlock i).2.source.Over bytes)
    (record : Record β) {i : Intake Source β} (h : i.source.Over bytes) :
    (build readBlock record i).2.source.Over bytes := by
  generalize hmade : i.site.createFrom record.ref record.entry = made
  have hfill : (fill readBlock record made.1 { i with site := made.2 }).2.source.Over bytes := by
    unfold fill
    split
    · exact h
    · simp only
      split
      · exact h
      · exact over_children hread _ _ h
  unfold build
  simp only [hmade]
  split
  · next heq => rwa [heq] at hfill
  · next heq =>
    rw [heq] at hfill
    exact hfill

/-- However a walk ends, it stops somewhere in the buffer that it reads. -/
theorem over_node (settings : Settings) (total levels : Nat) {i : Intake Source β}
    (h : i.source.Over bytes) :
    (node settings total levels i).2.source.Over bytes := by
  induction levels generalizing i with
  | zero =>
    unfold node
    simp only [Source.position_eq]
    split
    · exact h
    · exact h
  | succ levels ih =>
    have hrecord := over_readRecord h settings i.site.catalogue i.site.tree.registry
    unfold node
    simp only [Source.position_eq]
    split
    · exact h
    · split
      · next heq => rwa [heq] at hrecord
      · next record source heq =>
        rw [heq] at hrecord
        exact over_build (fun _ hi => ih hi) record hrecord

/-- So a walk of the codec stays in the buffer, however it ends. -/
theorem over_inflate {source : Source} (h : source.Over bytes) (settings : Settings)
    (s : Site β) (monitor : Monitor) :
    (inflate settings s source monitor).2.source.Over bytes := by
  rw [(inflate_eq_node settings s source monitor).2.2]
  exact over_node settings source.length settings.maxDepth h

end Inflate

/-! ### Opening -/

namespace FileHeader

/-- The header that stands at a position of a buffer. -/
def ofBuffer (bytes : Bytes) (position : Nat) : FileHeader :=
  ofBytes ((bytes.drop position).take byteSize)

variable {bytes : Bytes} {position : Nat}

/-- A header is read from a buffer that reaches behind it. -/
theorem read_ofBuffer (h : position + byteSize ≤ bytes.length) :
    read (Source.ofBytes bytes position) =
      (some (ofBuffer bytes position), Source.ofBytes bytes (position + byteSize)) := by
  have hwhole : byteSize ≤ (bytes.drop position).length := by
    rw [List.length_drop]
    omega
  rw [read, Source.readExact_ofBytes hwhole]
  rfl

/-- A buffer that ends within a header gives none, and is used up. -/
theorem read_ofBuffer_cut (h : ¬ position + byteSize ≤ bytes.length) :
    read (Source.ofBytes bytes position) = (none, Source.ofBytes bytes bytes.length) := by
  have hcut : (bytes.drop position).length < byteSize := by
    rw [List.length_drop]
    rw [byteSize] at h ⊢
    omega
  rw [read, Source.readExact_ofBytes_cut hcut]

end FileHeader

namespace Loader

variable {settings : Settings} {bytes : Bytes} {position : Nat}

/-- The loader of a stream that stands at a position of a buffer: it has taken the header and so many
bytes of metadata. -/
def behind (settings : Settings) (bytes : Bytes) (position count : Nat) : Loader where
  source := Source.ofBytes bytes (position + FileHeader.byteSize + count)
  header := FileHeader.ofBuffer bytes position
  metadata := (bytes.drop (position + FileHeader.byteSize)).take count
  settings := settings

/-- How many bytes of metadata are taken: those that the header declares, if the stream is of this
format. -/
def declared (header : FileHeader) : Nat :=
  if header.signature = streamSignature then header.metadataSize.toNat else 0

/-- What opening a stream in a buffer comes to, with all refusals: whether the header and the
declared metadata lie within the buffer decides it. -/
theorem create_ofBytes (hvalid : settings.validate = .ok ()) (bytes : Bytes) (position : Nat) :
    create (Source.ofBytes bytes position) settings =
      if position + FileHeader.byteSize + declared (FileHeader.ofBuffer bytes position) ≤
        bytes.length then
        .ok (behind settings bytes position (declared (FileHeader.ofBuffer bytes position)))
      else if position + FileHeader.byteSize ≤ bytes.length then .error (.buffer .metadataCut)
      else .error (.buffer .headerCut) := by
  unfold create
  rw [hvalid]
  by_cases hhead : position + FileHeader.byteSize ≤ bytes.length
  · simp only [FileHeader.read_ofBuffer hhead, if_pos hhead]
    generalize hheader : FileHeader.ofBuffer bytes position = header
    by_cases hsigned : header.signature = streamSignature
    · have hvalidHeader : header.isValid = true := by simpa [FileHeader.isValid] using hsigned
      have hlength : (((bytes.drop (position + FileHeader.byteSize)).take
          header.metadataSize.toNat).length = header.metadataSize.toNat) ↔
          position + FileHeader.byteSize + header.metadataSize.toNat ≤ bytes.length := by
        rw [List.length_take, List.length_drop]
        omega
      simp only [hvalidHeader, Bool.not_true, Bool.false_eq_true, if_false,
        Source.readUpTo_ofBytes, hlength, declared, if_pos hsigned]
      split
      · next hwhole => rw [hlength.mpr hwhole, behind, hheader]
      · rfl
    · have hforeign : header.isValid = false := by simpa [FileHeader.isValid] using hsigned
      simp only [hforeign, Bool.not_false, if_true, declared, if_neg hsigned, Nat.add_zero,
        if_pos hhead, behind, hheader, List.take_zero]
  · simp only [FileHeader.read_ofBuffer_cut hhead, if_neg hhead]
    rw [if_neg (by omega)]

/-- A stream is opened exactly if its header and the declared metadata lie within the buffer, and
then the loader stands behind them. -/
theorem create_eq_ok_iff (hvalid : settings.validate = .ok ()) {l : Loader} :
    create (Source.ofBytes bytes position) settings = .ok l ↔
      position + FileHeader.byteSize + declared (FileHeader.ofBuffer bytes position) ≤
          bytes.length ∧
        l = behind settings bytes position (declared (FileHeader.ofBuffer bytes position)) := by
  rw [create_ofBytes hvalid]
  split
  · next hwhole =>
    rw [Except.ok.injEq, eq_comm]
    exact (and_iff_right hwhole).symm
  · next hshort =>
    refine ⟨fun h => ?_, fun h => absurd h.1 hshort⟩
    split at h
    · cases h
    · cases h

/-- A loader stands behind the metadata that it has taken. -/
theorem length_metadata_behind {count : Nat}
    (h : position + FileHeader.byteSize + count ≤ bytes.length) :
    (behind settings bytes position count).metadata.length = count := by
  rw [behind, List.length_take, List.length_drop]
  omega

/-! ### Loading -/

/-- Why a stream is refused: for the first of its signature, its version and its encoding that is
not the known one. -/
inductive Refused (header : FileHeader) : StreamError → Prop
  | signature : header.signature ≠ streamSignature →
      Refused header (.invalidSignature header.signature)
  | version : header.signature = streamSignature →
      header.formatVersion ≠ StreamVersion.v1.word →
      Refused header (.unsupportedVersion header.formatVersion)
  | encoding : header.signature = streamSignature →
      header.formatVersion = StreamVersion.v1.word →
      header.hostEncodingVersion ≠ Value.encodingVersion →
      Refused header (.unsupportedEncoding header.hostEncodingVersion)

section Loading

variable [Payload β]

/-- What a load is asked for: a tree as it is then, and who watches. -/
structure Call (β : Type) where
  site : Site β
  monitor : Monitor

/-- Loads again and again, whatever the answers are. -/
def loads (l : Loader) : List (Call β) → List (Except StreamError InflateStatus × Loaded β)
  | [] => []
  | call :: rest =>
    let out := l.load call.site call.monitor
    out :: out.2.loader.loads rest

/-- The codec, run from a position of a buffer on, and again from where it has stopped. -/
def walks (settings : Settings) (bytes : Bytes) :
    Nat → List (Call β) → List (Except CodecError InflateStatus × Intake Source β)
  | _, [] => []
  | position, call :: rest =>
    let out := inflate settings call.site (Source.ofBytes bytes position) call.monitor
    out :: walks settings bytes out.2.source.position rest

/-- What a walk of the codec answers and leaves behind, as a load. -/
def passOn (l : Loader) (out : Except CodecError InflateStatus × Intake Source β) :
    Except StreamError InflateStatus × Loaded β :=
  (out.1.mapError .codec,
    { loader := { l with source := out.2.source }, site := out.2.site, monitor := out.2.monitor })

variable {l : Loader}

/-- A load of a stream that is let through is a walk of the codec from where the loader stands. -/
theorem load_of_check (h : check l.header = .ok ()) (s : Site β) (monitor : Monitor) :
    l.load s monitor = l.passOn (inflate l.settings s l.source monitor) := by
  unfold load
  rw [h]
  cases inflate l.settings s l.source monitor with
  | mk answer i =>
    cases answer with
    | ok status => rfl
    | error e => rfl

/-- Each load is the walk of the codec from where the one before it has stopped. -/
theorem loads_eq (h : check l.header = .ok ()) (hover : l.source.Over bytes)
    (calls : List (Call β)) :
    l.loads calls = (walks l.settings bytes l.source.position calls).map l.passOn := by
  induction calls generalizing l with
  | nil => rfl
  | cons call rest ih =>
    have hstops := Inflate.over_inflate hover l.settings call.site call.monitor
    rw [loads, walks, List.map_cons, ← hover]
    simp only [load_of_check h]
    refine congrArg (List.cons _) ?_
    exact ih (l := { l with source := _ }) h hstops

/-- A stream that is refused once is refused whenever it is to be loaded, and nothing is touched. -/
theorem loads_of_refused {e : StreamError} (h : check l.header = .error e)
    (calls : List (Call β)) :
    l.loads calls = calls.map fun call => (.error e, ⟨l, call.site, call.monitor⟩) := by
  induction calls with
  | nil => rfl
  | cons call rest ih =>
    have hload : l.load call.site call.monitor = (.error e, ⟨l, call.site, call.monitor⟩) := by
      unfold load
      rw [h]
    rw [loads, List.map_cons]
    simp only [hload, ih]

omit [Payload β] in
/-- The check refuses a header for the first thing that is wrong with it, and for no other
reason. -/
theorem check_eq_error_iff {header : FileHeader} {e : StreamError} :
    check header = .error e ↔ Refused header e := by
  have hversion : header.version?.isNone = true ↔ header.formatVersion ≠ StreamVersion.v1.word := by
    unfold FileHeader.version? StreamVersion.ofWord? StreamVersion.word
    split
    · simp [*]
    · simp [*]
  unfold check FileHeader.isValid
  simp only [hversion, Bool.not_eq_true', beq_eq_false_iff_ne]
  constructor
  · intro h
    split at h
    · next hs =>
      cases h
      exact .signature hs
    · next hs =>
      have hsigned := Classical.not_not.mp hs
      split at h
      · next hv =>
        cases h
        exact .version hsigned hv
      · next hv =>
        split at h
        · next he =>
          cases h
          exact .encoding hsigned (Classical.not_not.mp hv) he
        · cases h
  · intro h
    cases h with
    | signature hs => rw [if_pos hs]
    | version hs hv => rw [if_neg (not_not_intro hs), if_pos hv]
    | encoding hs hv he =>
      rw [if_neg (not_not_intro hs), if_neg (not_not_intro hv), if_pos he]

omit [Payload β] in
/-- The check lets a header through exactly if there is no reason to refuse it. -/
theorem check_eq_ok_iff {header : FileHeader} :
    check header = .ok () ↔ ∀ e, ¬ Refused header e := by
  simp only [← check_eq_error_iff]
  cases check header with
  | ok _ => exact ⟨fun _ _ => nofun, fun _ => rfl⟩
  | error e => exact ⟨nofun, fun h => absurd rfl (h e)⟩

/-- A stream is opened at any position of any buffer where a header stands and, if that is one of
this format, the metadata that it declares. Its header is looked at in every load, whatever stands
behind it. If it is refused, tree, catalogue, watcher and source are what they were. If it is not,
the first load is the walk of the codec from behind the metadata, and each other one is its walk from
where the one before it has stopped, whatever came of that. -/
theorem loads_of_create {settings : Settings} (hvalid : settings.validate = .ok ())
    (bytes : Bytes) (position : Nat) :
    let header := FileHeader.ofBuffer bytes position
    let start := position + FileHeader.byteSize
    ((∃ l, create (Source.ofBytes bytes position) settings = .ok l) ↔
        start ≤ bytes.length ∧ (header.signature = streamSignature →
          start + header.metadataSize.toNat ≤ bytes.length)) ∧
      ∀ l, create (Source.ofBytes bytes position) settings = .ok l →
        l.header = header ∧
        (header.signature ≠ streamSignature → l.metadata = []) ∧
        (header.signature = streamSignature →
          l.metadata = (bytes.drop start).take header.metadataSize.toNat ∧
            l.metadata.length = header.metadataSize.toNat) ∧
        l.source = Source.ofBytes bytes (start + l.metadata.length) ∧
        ∀ calls : List (Call β),
          (∀ e, Refused header e →
            l.loads calls = calls.map fun call => (.error e, ⟨l, call.site, call.monitor⟩)) ∧
          ((∀ e, ¬ Refused header e) → l.loads calls =
            (walks settings bytes (start + l.metadata.length) calls).map l.passOn) := by
  intro header start
  have hcreate : ∀ l, create (Source.ofBytes bytes position) settings = .ok l ↔
      start + declared header ≤ bytes.length ∧
        l = behind settings bytes position (declared header) := fun _ => create_eq_ok_iff hvalid
  refine ⟨?_, fun l hl => ?_⟩
  · simp only [hcreate, exists_and_left, exists_eq, and_true]
    unfold declared
    split
    · next hsigned =>
      exact ⟨fun h => ⟨by omega, fun _ => h⟩, fun h => h.2 hsigned⟩
    · next hforeign =>
      exact ⟨fun h => ⟨h, fun hsigned => absurd hsigned hforeign⟩, fun h => h.1⟩
  · obtain ⟨hwhole, hl⟩ := (hcreate l).mp hl
    have hlength : l.metadata.length = declared header := by
      rw [hl]
      exact length_metadata_behind hwhole
    have hsource : l.source = Source.ofBytes bytes (start + l.metadata.length) := by
      rw [hlength, hl]
      rfl
    have hheader : l.header = header := by rw [hl]; rfl
    have hmetadata : l.metadata = (bytes.drop start).take (declared header) := by rw [hl]; rfl
    refine ⟨hheader, fun hforeign => ?_, fun hsigned => ?_, hsource, fun calls =>
      ⟨fun e he => ?_, fun hknown => ?_⟩⟩
    · rw [hmetadata, declared, if_neg hforeign, List.take_zero]
    · have hdeclared : declared header = header.metadataSize.toNat := if_pos hsigned
      exact ⟨hdeclared ▸ hmetadata, hlength.trans hdeclared⟩
    · exact loads_of_refused (check_eq_error_iff.mpr (hheader ▸ he)) calls
    -- From here on it matters where the loader stands, and nothing else of it.
    · have hcheck : check l.header = .ok () := check_eq_ok_iff.mpr (hheader ▸ hknown)
      have hover : l.source.Over bytes := hsource ▸ Source.over_ofBytes bytes _
      have hloads := loads_eq hcheck hover calls
      have hsettings : l.settings = settings := by rw [hl]; rfl
      rwa [hsettings, hsource] at hloads

/-- Two streams that differ in their headers alone, both with a shelf behind the metadata: the one of
another version, which is of another encoding, too, is refused for its version, and from the other
one the shelf is read. -/
theorem loads_of_create_shelf :
    let stream (header : FileHeader) : Bytes := 9 :: (header.toBytes ++ [7, 8] ++ Site.shelfBytes)
    let known := Dumper.headerFor Settings.defaults [7, 8]
    let unknown := { known with formatVersion := 2, hostEncodingVersion := 9 }
    let call : Call Stock := ⟨Site.bareShelf, Monitor.always⟩
    (∃ l, create (Source.ofBytes (stream unknown) 1) Settings.defaults = .ok l ∧
        l.metadata = [7, 8] ∧ l.loads [call, call] =
          [(.error (.unsupportedVersion 2), ⟨l, call.site, call.monitor⟩),
            (.error (.unsupportedVersion 2), ⟨l, call.site, call.monitor⟩)]) ∧
      ∃ l, create (Source.ofBytes (stream known) 1) Settings.defaults = .ok l ∧
        (l.loads [call, call]).map Prod.fst =
          [.ok (.success ⟨0, 0⟩), .error (.codec (.buffer .headerCut))] := by
  intro stream known unknown call
  have hvalid : Settings.defaults.validate = .ok () := by decide
  constructor
  · obtain ⟨hopens, hloads⟩ := loads_of_create (β := Stock) hvalid (stream unknown) 1
    obtain ⟨l, hl⟩ := hopens.mpr ⟨by decide +kernel, fun _ => by decide +kernel⟩
    obtain ⟨-, -, hmetadata, -, hcalls⟩ := hloads l hl
    refine ⟨l, hl, ?_, ?_⟩
    · exact (hmetadata (by decide +kernel)).1.trans (by decide +kernel)
    · exact (hcalls [call, call]).1 _ (check_eq_error_iff.mp (by decide +kernel))
  · obtain ⟨hopens, hloads⟩ := loads_of_create (β := Stock) hvalid (stream known) 1
    obtain ⟨l, hl⟩ := hopens.mpr ⟨by decide +kernel, fun _ => by decide +kernel⟩
    obtain ⟨-, -, hmetadata, -, hcalls⟩ := hloads l hl
    have hlength := (hmetadata (by decide +kernel)).2
    have hknown : ∀ e, ¬ Refused (FileHeader.ofBuffer (stream known) 1) e :=
      check_eq_ok_iff.mp (by decide +kernel)
    refine ⟨l, hl, ?_⟩
    have hanswers : Prod.fst ∘ l.passOn =
        fun out : Except CodecError InflateStatus × Intake Source Stock => out.1.mapError .codec := rfl
    rw [(hcalls [call, call]).2 hknown, hlength, List.map_map, hanswers]
    decide +kernel

end Loading

end Loader

end BlockForest
