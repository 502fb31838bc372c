import Mathlib
import BlockForest.Proofs.DumpLoadRoundTrip
import BlockForest.Proofs.ValueNesting

/-!
# Bytes that are cut off

Whoever reads a first part of a value or of a stream is told that more was expected, and never
anything else.

For values this follows from two properties of the reader. If it succeeds, it has not looked at what
stands behind (`Value.Local`), and if it complains of something it has seen, it would have done so
whatever stood behind (`Value.Steadfast`). So of a part of an encoding it can neither make a value
nor complain of anything but its end.

For streams the walk is followed along the blueprint of the whole stream (`Inflate.starves_node`).
The cut falls into a header, into properties, or behind both. There the walk has come to the
children (`Ready.reach_children`), and takes in those that are whole until it meets the one that is
cut. No other check is in its way, since what it has read until then is well formed.
-/

set_option autoImplicit false

namespace BlockForest

variable {β κ : Type}

/-- So many bytes cannot be split off exactly if there are fewer. -/
theorem Bytes.splitExact?_eq_none_iff {α : Type} {n : Nat} {xs : List α} :
    splitExact? n xs = none ↔ xs.length < n := by
  constructor
  · intro hnone
    by_contra hnot
    have hsplit := splitExact?_eq_some_iff.mpr
      ⟨(List.take_append_drop n xs).symm, List.length_take_of_le (Nat.not_lt.mp hnot)⟩
    rw [hnone] at hsplit
    cases hsplit
  · intro hlt
    refine Option.eq_none_iff_forall_not_mem.mpr ?_
    rintro ⟨taken, rest⟩ hsplit
    obtain ⟨rfl, rfl⟩ := splitExact?_eq_some_iff.mp hsplit
    rw [List.length_append] at hlt
    omega

/-- A record that is cut short uses the buffer up. -/
theorem Source.readExact_of_short {source : Source} {n : Nat} (h : source.remaining.length < n) :
    source.readExact n = (none, source.toEnd) := by
  unfold readExact
  rw [Bytes.splitExact?_eq_none_iff.mpr h]

/-! ### Values -/

namespace Value

/-- The reader complains of what it has seen, whatever stands behind, or else of bytes that are
missing. -/
def Steadfast {α : Type} (read : Bytes → Reading α) : Prop :=
  ∀ input e rest, read input = (.error e, rest) →
    (∃ needed available, e = .truncated needed available ∧ available < needed) ∨
      ∀ more, (read (input ++ more)).1 = .error e

/-- A read of so many bytes complains only of bytes that are missing. -/
theorem steadfast_readExact (n : Nat) : Steadfast (readExact n) := by
  intro input e rest h
  unfold readExact at h
  split at h
  · cases h
  · next hnone =>
    cases h
    exact .inl ⟨n, input.length, rfl, Bytes.splitExact?_eq_none_iff.mp hnone⟩

/-- Two readers one after the other. -/
theorem Steadfast.andThen {α γ : Type} {read : Bytes → Reading α} {next : α → Bytes → Reading γ}
    (hl : Local read) (hr : Steadfast read) (hn : ∀ a, Steadfast (next a)) :
    Steadfast fun input => (read input).andThen next := by
  intro input e rest h
  simp only at h
  match hread : read input with
  | (.error e', left) =>
    rw [hread] at h
    cases h
    refine (hr input e rest hread).imp_right fun hall more => ?_
    exact fst_andThen_of_error (hall more)
  | (.ok a, left) =>
    rw [hread] at h
    obtain ⟨used, rfl, hused⟩ := hl input a left hread
    refine (hn a left e rest h).imp_right fun hall more => ?_
    simp only [List.append_assoc, hused]
    exact hall more

/-- A reader that always answers never complains. -/
theorem steadfast_ok {α : Type} (a : α) : Steadfast fun input => (.ok a, input) := by
  intro input e rest h
  cases h

/-- A reader that always complains does so whatever stands behind. -/
theorem steadfast_error {α : Type} (e : DecodeError) :
    Steadfast fun input => ((.error e, input) : Reading α) := by
  intro input e' rest h
  cases h
  exact .inr fun _ => rfl

/-- To change the answer of a steadfast reader does not change its complaints. -/
theorem Steadfast.map {α γ : Type} {read : Bytes → Reading α} (hl : Local read)
    (hr : Steadfast read) (f : α → γ) : Steadfast fun input => (read input).map f :=
  hr.andThen hl fun a => steadfast_ok (f a)

/-- A blob that is cut complains of missing bytes, in the count or behind it. -/
theorem steadfast_decodeBlob : Steadfast decodeBlob :=
  (steadfast_readExact 4).andThen (local_readExact 4) fun word =>
    steadfast_readExact (Bytes.toWord32 word).toNat

/-- Whether bytes are a text does not depend on what stands behind. -/
theorem steadfast_decodeText (bytes : Bytes) : Steadfast (decodeText bytes) := by
  unfold decodeText
  cases Bytes.toString? bytes with
  | none => exact steadfast_error .invalidUtf8
  | some s => exact steadfast_ok (Value.string s)

/-- The contents of a value other than a list are read by a steadfast reader, whatever the kind. -/
theorem steadfast_decodeScalar (kind : Kind) : Steadfast (decodeScalar kind) := by
  cases kind with
  | bool => exact (steadfast_readExact 1).map (local_readExact 1) _
  | int => exact (steadfast_readExact 4).map (local_readExact 4) _
  | uint => exact (steadfast_readExact 4).map (local_readExact 4) _
  | long => exact (steadfast_readExact 8).map (local_readExact 8) _
  | ulong => exact (steadfast_readExact 8).map (local_readExact 8) _
  | double => exact (steadfast_readExact 8).map (local_readExact 8) _
  | string => exact steadfast_decodeBlob.andThen local_decodeBlob steadfast_decodeText
  | bytes => exact steadfast_decodeBlob.map local_decodeBlob _
  | list => exact steadfast_error .tooDeep

/-- A tag that is missing is a missing byte, and an unknown one stays unknown. -/
theorem steadfast_decodeKind : Steadfast decodeKind := by
  refine (steadfast_readExact 1).andThen (local_readExact 1) fun bytes => ?_
  cases Kind.ofTag? (bytes.headD 0) with
  | none => exact steadfast_error _
  | some kind => exact steadfast_ok kind

/-- If one item is read by a steadfast reader, so are items in a row. By induction on their
number. -/
theorem steadfast_decodeItems {item : Bytes → Reading Value} (hl : Local item)
    (hi : Steadfast item) (count : Nat) : Steadfast (decodeItems item count) := by
  induction count with
  | zero => exact steadfast_ok []
  | succ count ih => exact hi.andThen hl fun v => ih.map (local_decodeItems hl count) _

/-- By induction on the levels that are left, values are read by a steadfast reader. -/
theorem steadfast_decodeNested (levels : Nat) : Steadfast (decodeNested levels) := by
  induction levels with
  | zero => exact steadfast_decodeKind.andThen local_decodeKind steadfast_decodeScalar
  | succ levels ih =>
    refine steadfast_decodeKind.andThen local_decodeKind fun kind => ?_
    cases kind with
    | list =>
      have hitems := local_decodeNested levels
      exact (steadfast_readExact 4).andThen (local_readExact 4) fun word =>
        (steadfast_decodeItems hitems ih (Bytes.toWord32 word).toNat).map
          (local_decodeItems hitems (Bytes.toWord32 word).toNat) Value.list
    | _ => exact steadfast_decodeScalar _

/-- Where something was to be read up to the end, a first part is not enough. -/
theorem truncated_of_cut {α : Type} {read : Bytes → Reading α} (hl : Local read)
    (hs : Steadfast read) {cut more : Bytes} {a : α} (h : read (cut ++ more) = (.ok a, []))
    (hmore : more ≠ []) :
    ∃ needed available, available < needed ∧
      (read cut).1 = .error (.truncated needed available) := by
  match hread : read cut with
  | (.ok a', left) =>
    obtain ⟨used, rfl, hused⟩ := hl cut a' left hread
    rw [List.append_assoc, hused] at h
    exact absurd (List.append_eq_nil_iff.mp (congrArg Prod.snd h)).2 hmore
  | (.error e, left) =>
    rcases hs cut e left hread with ⟨needed, available, rfl, hlt⟩ | hall
    · exact ⟨needed, available, hlt, rfl⟩
    · have hfail := hall more
      rw [h] at hfail
      cases hfail

/-- Of an encoding that is cut anywhere the reader says that it is, as long as it would read the
whole: the lengths in it fit into words, and its lists are nested at most 64 deep. -/
theorem decode_of_cut {v : Value} (hm : v.Measured) (hn : v.nesting ≤ 64) {cut : Bytes}
    (hcut : cut <+: v.encode) (hne : cut ≠ v.encode) :
    ∃ needed available, available < needed ∧
      (decode cut).1 = .error (.truncated needed available) := by
  obtain ⟨more, hmore⟩ := hcut
  have hwhole : decode (cut ++ more) = (.ok v, []) := by
    have := decodeNested_encode v 64 [] hn hm
    rwa [List.append_nil, ← hmore] at this
  refine truncated_of_cut local_decode (steadfast_decodeNested maxNesting) hwhole ?_
  rintro rfl
  exact hne (by rw [← hmore, List.append_nil])

/-- A text that is cut inside its second character, in a list, is no invalid text. -/
theorem decode_of_cut_text :
    let v := list [.bool false, .string "aé"]
    let cut := v.encode.dropLast
    cut.getLast? = some 0xc3 ∧
      ∃ needed available, available < needed ∧
        (decode cut).1 = .error (.truncated needed available) := by
  intro v cut
  have hmeasured : v.Measured :=
    ⟨by decide, trivial, (by decide : "aé".utf8ByteSize < 2 ^ 32), trivial⟩
  have hshort : cut ≠ v.encode := by
    intro heq
    have := congrArg List.length heq
    rw [List.length_dropLast, length_encode] at this
    exact absurd this (by decide)
  exact ⟨by decide +kernel, decode_of_cut hmeasured (by decide) (List.dropLast_prefix _) hshort⟩

end Value

/-! ### Streams -/

/-- A cut falls inside the first of two pieces or behind it. -/
theorem append_cases_of_cut {cut more first second : Bytes} (h : cut ++ more = first ++ second) :
    (∃ left, left ≠ [] ∧ cut ++ left = first) ∨
      ∃ cut', cut = first ++ cut' ∧ cut' ++ more = second := by
  rcases List.append_eq_append_iff.mp h with ⟨left, hfirst, hrest⟩ | ⟨cut', hcut, hsecond⟩
  · by_cases hleft : left = []
    · rw [hleft, List.append_nil] at hfirst
      rw [hleft, List.nil_append] at hrest
      exact .inr ⟨[], by rw [List.append_nil, hfirst], hrest⟩
    · exact .inl ⟨left, hleft, hfirst.symm⟩
  · exact .inr ⟨cut', hcut, hsecond.symm⟩

/-- A part that leaves something out is shorter than the whole. -/
theorem length_lt_of_cut {cut left whole : Bytes} (h : cut ++ left = whole) (hleft : left ≠ []) :
    cut.length < whole.length := by
  have := List.length_pos_of_ne_nil hleft
  rw [← h, List.length_append]
  omega

/-- The buffer ends inside a header or inside properties. -/
def CodecError.IsCut (e : CodecError) : Prop := e = .buffer .headerCut ∨ e = .buffer .payloadCut

namespace Inflate

open Site

variable {settings : Settings} {total : Nat} {type? : UInt32 → Option (BlockType β)}

/-- A record that is cut is not read for that reason. -/
theorem readRecord_of_cut {catalogue : Catalogue β} {registry : RegistryRef} {source : Source}
    {header : NodeHeader} {found : EntryRef × Entry β} {data more : Bytes}
    (hsmall : header.size ≤ settings.maxPayloadSize)
    (hfound : catalogue.findId registry header.blockType = some found)
    (hwhole : data.length = header.size.toNat)
    (hcut : source.remaining ++ more = header.toBytes ++ data) (hmore : more ≠ []) :
    ∃ e, (readRecord settings catalogue registry source).1 = .error e ∧ e.IsCut := by
  rw [readRecord_buffer]
  rcases append_cases_of_cut hcut with ⟨left, hshort, hleft⟩ | ⟨cut, hfront, hdata⟩
  · have hlt := length_lt_of_cut hleft hshort
    rw [NodeHeader.length_toBytes] at hlt
    have hnone : NodeHeader.read source = (none, source.toEnd) := by
      unfold NodeHeader.read
      rw [Source.readExact_of_short hlt]
    simp only [hnone]
    exact ⟨_, rfl, .inl rfl⟩
  · have hlt := length_lt_of_cut hdata hmore
    obtain ⟨hhead, hleft⟩ := Source.passes_skip hfront
    have hread := NodeHeader.read_eq_some_iff.mpr hhead
    have hshort : (cut.take header.size.toNat).length ≠ header.size.toNat := by
      rw [List.length_take]
      omega
    simp only [hread, UInt32.not_lt.mpr hsmall, if_false, hfound, Source.readUpTo, hleft,
      hshort]
    exact ⟨_, rfl, .inr rfl⟩

variable [Payload β]

/-- The reader says of each first part of a block that is well formed at a depth that it is cut. -/
def Starves (settings : Settings) (type? : UInt32 → Option (BlockType β)) (depth : Nat)
    (readBlock : Intake Source β → Except CodecError InflateStatus × Intake Source β) : Prop :=
  ∀ i plan whole more, Ready type? i → WellFormed settings type? depth plan whole →
    i.source.remaining ++ more = whole → more ≠ [] → ∃ e, (readBlock i).1 = .error e ∧ e.IsCut

variable {depth levels : Nat}
  {readBlock : Intake Source β → Except CodecError InflateStatus × Intake Source β}

/-- Children are taken in up to the one that is cut. -/
theorem Parses.starves_children (hp : Parses settings type? depth levels readBlock)
    (hs : Starves settings type? depth readBlock) (hu : Unmarked type?) {s : Site β}
    {type : BlockType β} {payload : β} {library : BlockId}
    (hmark : ¬ type.defaultFlags.contains Flags.beingDeleted)
    (hlib : Payload.isLibrary type.initial) {plans : List (Blueprint β)} {i : Intake Source β}
    (hi : Ready type? i) {kids : List (Blueprint β)}
    (hg : Growing s i.site levels (.block type payload kids) library) {whole more : Bytes}
    (hw : WellFormedAll settings type? depth payload plans whole)
    (hwhole : i.source.remaining ++ more = whole) (hmore : more ≠ []) :
    ∃ e, (children readBlock library plans.length i).1 = .error e ∧ e.IsCut := by
  induction plans generalizing i kids whole with
  | nil =>
    cases hw
    exact absurd (List.append_eq_nil_iff.mp hwhole).2 hmore
  | cons plan plans ih =>
    cases hw with
    | @cons _ _ _ _ first used hplan haccepted hrest =>
      rw [List.length_cons]
      rcases append_cases_of_cut hwhole with ⟨left, hleft, hfirst⟩ | ⟨cut, hcut, hused⟩
      · obtain ⟨e, he, hise⟩ := hs i plan first left hi hplan hfirst hleft
        refine ⟨e, ?_, hise⟩
        rw [Inflate.children]
        split
        · next heq =>
          rw [heq] at he
          exact he
        · next heq =>
          rw [heq] at he
          cases he
        · next heq =>
          rw [heq] at he
          cases he
      · obtain ⟨i', hstep, hi', hg', -, rfl⟩ :=
          hp.next_child hu hmark hlib hi hg hplan haccepted hcut plans.length
        rw [hstep]
        exact ih hi' hg' hrest hused

/-- A record that cannot be read is the end of the walk. -/
theorem fst_node_of_readRecord {i : Intake Source β} (hgo : i.monitor.answer i.monitor.polls)
    {e : CodecError}
    (h : (readRecord settings i.site.catalogue i.site.tree.registry i.source).1 = .error e) :
    (node settings total (levels + 1) i).1 = .error e := by
  have hpoll : i.monitor.poll.1 = true := hgo
  rw [node]
  simp only [hpoll, Bool.not_true, Bool.false_eq_true, if_false, Source.position_eq]
  split
  · next heq =>
    rw [heq] at h
    cases h
    rfl
  · next heq =>
    rw [heq] at h
    cases h

/-- At every depth down to the limit, the reader runs out of bytes on a first part of what is well
formed. -/
theorem starves_node (hu : Unmarked type?) (settings : Settings) (total levels : Nat) {depth : Nat}
    (hdepth : depth + levels = settings.maxDepth) :
    Starves settings type? depth (node settings total levels) := by
  induction levels generalizing depth with
  | zero =>
    intro i plan whole more _ hw
    cases hw with
    | block hshallow => omega
  | succ levels ih =>
    intro i plan whole more hi hw hwhole hmore
    have hbelow : depth + 1 + levels = settings.maxDepth := by omega
    cases hw with
    | @block _ header type payload kids data below _ hsmall htype hsize hpairs hroom hcount
        hkids =>
      -- The cut lies in the record of this block or in the children behind it.
      rcases append_cases_of_cut hwhole with ⟨left, hleft, hcut⟩ | ⟨cut, hcut, hbehind⟩
      · obtain ⟨found, hfound, -⟩ :=
          Option.map_eq_some_iff.mp (hi.types header.blockType type htype)
        obtain ⟨e, he, hise⟩ := readRecord_of_cut hsmall hfound hsize hcut hleft
        exact ⟨e, fst_node_of_readRecord (hi.willing _) he, hise⟩
      · obtain ⟨library, i', hready, hgrowing, -, rfl, -, hfails⟩ :=
          hi.reach_children levels hsmall htype hsize hpairs hroom hcut
        have hlib : Payload.isLibrary type.initial := by
          refine hroom.resolve_left fun hzero => ?_
          rw [hzero] at hcount
          obtain rfl := List.eq_nil_of_length_eq_zero hcount
          cases hkids
          exact hmore (List.append_eq_nil_iff.mp hbehind).2
        obtain ⟨e, he, hise⟩ := (parses_node hu settings total levels hbelow).starves_children
          (ih hbelow) hu (hu _ _ htype) hlib hready hgrowing hkids hbehind hmore
        rw [hcount] at he
        exact ⟨e, hfails e he, hise⟩

end Inflate

namespace Site

variable [Payload β] {kind : β → κ} {s t : Site β}

/-- What was written of a block and then cut off anywhere is never read. The reader says that the
buffer ends inside a header or inside properties, and leaves all blocks as they were and all
counts. -/
theorem isCut_of_inflate_cut (hk : Kinds kind) (ht : Reached Any t) (settings : Settings)
    {root : BlockId} (hconvey : t.Conveyable kind s root) {limit : Option Nat}
    {watcher watcher' : Monitor} {sink : Sink}
    (hdeflate : deflate settings s.catalogue s.tree root (Sink.empty limit) watcher =
      (.ok .success, sink, watcher'))
    {source : Source} (hcut : source.remaining <+: sink.bytes)
    (hne : source.remaining ≠ sink.bytes) {monitor : Monitor} (hgo : ∀ n, monitor.answer n) :
    let r := inflate settings t source monitor
    (∃ e, r.1 = .error e ∧ e.IsCut) ∧ (∀ id, r.2.site.tree.node? id = t.tree.node? id) ∧
      r.2.site.tree.size = t.tree.size ∧
        ∀ ref, r.2.site.catalogue.entryAt? ref = t.catalogue.entryAt? ref := by
  intro r
  obtain ⟨o, hnode, hbytes⟩ := node_of_deflate hdeflate
  obtain ⟨plan, used, -, hplan, hused⟩ := hconvey.leads hk ht.consistent hnode
  have hsink : sink.bytes = used := by
    rw [hbytes, hused]
    rfl
  obtain ⟨more, hmore⟩ := hcut
  have hstarves := Inflate.starves_node t.unmarked_unmarkedType? settings source.length settings.maxDepth
    (Nat.zero_add settings.maxDepth)
  have hmissing : more ≠ [] := by
    rintro rfl
    exact hne (by rw [← hmore, List.append_nil])
  obtain ⟨e, he, hise⟩ := hstarves ⟨t, source, monitor⟩ plan used more (ht.ready source hgo) hplan
    (hmore.trans hsink) hmissing
  have hfail : r.1 = .error e := (Inflate.inflate_eq_node settings t source monitor).1.trans he
  have hrestored := restored_of_inflate_buffer ht.orderly settings source monitor fun root hroot => by
    rw [hfail] at hroot
    cases hroot
  exact ⟨⟨e, hfail, hise⟩, hrestored.node?, hrestored.size_eq ht.orderly, hrestored.entryAt?⟩

/-- The stream of the shelf ends between the library and the leaf, and the library is not kept. -/
theorem isCut_of_inflate_cut_shelf :
    let source := Source.ofBytes (shelfBytes.take 16) 0
    let r := inflate Settings.defaults bareShelf source Monitor.always
    source.remaining.length = 16 ∧ 16 < shelfBytes.length ∧
      (∃ e, r.1 = .error e ∧ e.IsCut) ∧ (∀ id, r.2.site.tree.node? id = none) ∧
        r.2.site.tree.size = 0 := by
  intro source r
  have hdeflate : (deflate Settings.defaults shelf.catalogue shelf.tree ⟨0, 0⟩ (Sink.empty none)
      Monitor.always).1 = .ok .success := by decide +kernel
  have hlength : 16 < shelfBytes.length := by decide +kernel
  have hcut : source.remaining.length = 16 := List.length_take_of_le hlength.le
  obtain ⟨hfail, hnode, hsize, -⟩ := isCut_of_inflate_cut StockType.kinds reached_bareShelf
    Settings.defaults (conveyable_shelf fun _ _ _ hw => hw) (Prod.ext hdeflate rfl)
    (show source.remaining <+: shelfBytes from List.take_prefix 16 shelfBytes)
    (fun heq => absurd (congrArg List.length heq) (hcut.trans_lt hlength).ne)
    (fun _ => rfl : ∀ n, Monitor.always.answer n)
  refine ⟨hcut, hlength, hfail, fun id => ?_, hsize⟩
  rw [hnode]
  exact Tree.node?_empty 0 id

end Site

end BlockForest
