import Mathlib
import BlockForest.Proofs.DeflateReports

/-!
# What is reported while blocks are read

A walk that reads reports where each block starts, before it reads it, and where it ended, if it
found all of them. Records stand one after the other in a stream, each behind the header and the
data of the one before it, whatever library they belong to. `Source.Starts` are the positions at
which they start, and the walk reports these (`Inflate.told_node`): a header takes room, so each
position is greater than the one before, and none lies beyond the end of the buffer.

Together with the reports of a walk that writes (`Site.tallied_deflate`) this is all that a watcher
is told.
-/

set_option autoImplicit false

namespace BlockForest

variable {β : Type}

namespace Source

/-! ### Records in a row -/

/-- From the first source to the second one stand whole records, each a header with the data that it
announces. They start at these positions. -/
inductive Lined : Source → List Nat → Source → Prop
  | nil (a : Source) : Lined a [] a
  | cons {a b c : Source} {header : NodeHeader} {data : Bytes} {starts : List Nat}
      (whole : data.length = header.size.toNat) (record : a.Passes b (header.toBytes ++ data))
      (more : Lined b starts c) : Lined a (a.position :: starts) c

/-- From a source on, records start at these positions. What stands at the last one need not be a
whole record. -/
inductive Starts : Source → List Nat → Prop
  | nil (a : Source) : Starts a []
  | last (a : Source) : Starts a [a.position]
  | cons {a b : Source} {header : NodeHeader} {data : Bytes} {starts : List Nat}
      (whole : data.length = header.size.toNat) (record : a.Passes b (header.toBytes ++ data))
      (more : Starts b starts) : Starts a (a.position :: starts)

/-- The position lies within the buffer. -/
def Inside (a : Source) : Prop := a.position + a.remaining.length = a.length

variable {a b c : Source} {begun more : List Nat}

/-- A position up to the end of the bytes lies inside. -/
theorem inside_ofBytes {bytes : Bytes} {position : Nat} (h : position ≤ bytes.length) :
    (ofBytes bytes position).Inside := by
  simp only [Inside, ofBytes, length, List.length_drop]
  omega

/-- Reading goes on inside of the buffer, since what is read was left. -/
theorem Passes.inside {used : Bytes} (h : a.Passes b used) (ha : a.Inside) : b.Inside := by
  have hlength := congrArg List.length h.remaining
  rw [List.length_append] at hlength
  rw [Inside, h.position, h.length, ← ha, hlength, Nat.add_assoc]

/-- Records in a row can be followed by more of them. -/
theorem Lined.append (h : Lined a begun b) (h' : Lined b more c) : Lined a (begun ++ more) c := by
  induction h with
  | nil => exact h'
  | cons whole record _ ih => exact .cons whole record (ih h')

/-- Behind whole records more records may start. -/
theorem Lined.starts_append (h : Lined a begun b) (h' : Starts b more) :
    Starts a (begun ++ more) := by
  induction h with
  | nil => exact h'
  | cons whole record _ ih => exact .cons whole record (ih h')

/-- Whole records start where they stand. -/
theorem Lined.starts (h : Lined a begun b) : Starts a begun := by
  simpa using h.starts_append (.nil b)

/-- A header takes room, so records start behind one another. -/
theorem Starts.increasing (h : Starts a begun) (ha : a.Inside) :
    begun.Pairwise (· < ·) ∧ ∀ p ∈ begun, a.position ≤ p ∧ p ≤ a.length := by
  have hwithin : ∀ {a : Source}, a.Inside → a.position ≤ a.length := by
    intro a ha
    rw [← ha]
    exact Nat.le_add_right _ _
  induction h with
  | nil => exact ⟨.nil, by simp⟩
  | last a => exact ⟨List.pairwise_singleton _ _, by simpa using hwithin ha⟩
  | @cons a b header data starts _ record _ ih =>
    obtain ⟨hsorted, hbounds⟩ := ih (record.inside ha)
    have hbehind : a.position < b.position := by
      rw [record.position, List.length_append, header.length_toBytes, NodeHeader.byteSize]
      omega
    refine ⟨List.pairwise_cons.mpr ⟨fun p hp => ?_, hsorted⟩, List.forall_mem_cons.mpr
      ⟨⟨le_rfl, hwithin ha⟩, fun p hp => ?_⟩⟩
    · exact hbehind.trans_le (hbounds p hp).1
    · rw [← record.length]
      exact ⟨hbehind.le.trans (hbounds p hp).1, (hbounds p hp).2⟩

end Source

namespace Inflate

variable [Payload β] {total : Nat} {i j : Intake Source β}
  {r r' : Except CodecError InflateStatus × Intake Source β} {begun more : List Nat}

/-! ### The walk -/

/-- Between two states of a walk whole records were read. The monitor agreed to each of them and was
told where it starts, out of a total. -/
structure Advances (total : Nat) (i j : Intake Source β) (begun : List Nat) : Prop where
  lined : i.source.Lined begun j.source
  polls : j.monitor.polls = i.monitor.polls + begun.length
  reports : j.monitor.reports = i.monitor.reports ++ begun.map fun p => (p, total)

/-- However a walk ended, the monitor was told where each record starts that it agreed to. If the
walk did not fail, these are whole. -/
structure Told (total : Nat) (i : Intake Source β)
    (r : Except CodecError InflateStatus × Intake Source β) (begun : List Nat) : Prop where
  starts : i.source.Starts begun
  lined : (∀ e, r.1 ≠ .error e) → i.source.Lined begun r.2.source
  agreed : r.1 ≠ .ok .canceled → r.2.monitor.polls = i.monitor.polls + begun.length
  refused : r.1 = .ok .canceled → r.2.monitor.polls = i.monitor.polls + begun.length + 1
  reports : r.2.monitor.reports = i.monitor.reports ++ begun.map fun p => (p, total)

omit [Payload β] in
/-- Where nothing is read, nothing is polled and nothing reported. -/
theorem advances_refl (total : Nat) (i : Intake Source β) : Advances total i i [] :=
  ⟨.nil _, rfl, (List.append_nil _).symm⟩

omit [Payload β] in
/-- A walk that found its blocks has advanced over whole records. -/
theorem Told.advances {root : BlockId} (h : Told total i (.ok (.success root), j) begun) :
    Advances total i j begun := ⟨h.lined (by simp), h.agreed (by simp), h.reports⟩

omit [Payload β] in
/-- A walk that ends after an advance, other than by being stopped, has told what was told during
the advance. -/
theorem Advances.told (h : Advances total i j begun) (hr : r.1 ≠ .ok .canceled)
    (hs : (∀ e, r.1 ≠ .error e) → r.2.source = j.source) (hm : r.2.monitor = j.monitor) :
    Told total i r begun where
  starts := h.lined.starts
  lined hne := by
    rw [hs hne]
    exact h.lined
  agreed _ := by rw [hm, h.polls]
  refused hcanceled := absurd hcanceled hr
  reports := by rw [hm, h.reports]

omit [Payload β] in
/-- What was read before was told before. -/
theorem Told.behind (h : Advances total i j begun) (h' : Told total j r more) :
    Told total i r (begun ++ more) := by
  refine ⟨h.lined.starts_append h'.starts, fun hne => h.lined.append (h'.lined hne), fun hne => ?_,
    fun hcanceled => ?_, ?_⟩
  · rw [h'.agreed hne, h.polls, List.length_append, Nat.add_assoc]
  · rw [h'.refused hcanceled, h.polls, List.length_append]
    omega
  · rw [h'.reports, h.reports, List.map_append, List.append_assoc]

omit [Payload β] in
/-- What a walk does to its site in the end is not told. -/
theorem Told.congr (h : Told total i r begun) (hs : r'.2.source = r.2.source)
    (hm : r'.2.monitor = r.2.monitor) (he : ∀ e, r.1 = .error e → r'.1 = .error e)
    (hc : r'.1 = .ok .canceled ↔ r.1 = .ok .canceled) : Told total i r' begun := by
  obtain ⟨starts, lined, agreed, refused, reports⟩ := h
  rw [← hm] at agreed refused reports
  rw [← hs] at lined
  exact ⟨starts, fun hne => lined fun e hr => hne e (he e hr), fun hne => agreed (mt hc.mpr hne),
    fun hcanceled => refused (hc.mp hcanceled), reports⟩

/-- Adopting a child leaves source and monitor alone, whether or not it succeeds. -/
theorem adoptChild_frame (i : Intake Source β) (library child : BlockId) :
    (adoptChild i library child).2.source = i.source ∧
      (adoptChild i library child).2.monitor = i.monitor := by
  unfold adoptChild
  split <;> exact ⟨rfl, rfl⟩

variable {readBlock : Intake Source β → Except CodecError InflateStatus × Intake Source β}

/-- By induction on the number of children, what is told is told for one child after the other, up
to the first that fails. -/
theorem told_children (hread : ∀ i, ∃ begun, Told total i (readBlock i) begun) (library : BlockId)
    (count : Nat) (i : Intake Source β) :
    ∃ begun, Told total i (children readBlock library count i) begun := by
  induction count generalizing i with
  | zero => exact ⟨[], (advances_refl total i).told (by simp [children]) (fun _ => rfl) rfl⟩
  | succ count ih =>
    obtain ⟨begun, hfirst⟩ := hread i
    unfold children
    split
    · next e i₁ heq => exact ⟨begun, heq ▸ hfirst⟩
    · next i₁ heq => exact ⟨begun, heq ▸ hfirst⟩
    · next child i₁ heq =>
      rw [heq] at hfirst
      have hadvance := hfirst.advances
      obtain ⟨hsource, hmonitor⟩ := adoptChild_frame i₁ library child
      split
      · next e i₂ hadopt =>
        rw [hadopt] at hsource hmonitor
        exact ⟨begun, hadvance.told (by simp) (fun _ => hsource) hmonitor⟩
      · next i₂ hadopt =>
        rw [hadopt] at hsource hmonitor
        obtain ⟨more, hmore⟩ := ih i₂
        refine ⟨begun ++ more, .behind ⟨?_, ?_, ?_⟩ hmore⟩
        · exact hsource ▸ hadvance.lined
        · exact hmonitor ▸ hadvance.polls
        · exact hmonitor ▸ hadvance.reports

/-- Behind the record of a block, what is told are the records below it. -/
theorem told_fill (hread : ∀ i, ∃ begun, Told total i (readBlock i) begun) (record : Record β)
    (id : BlockId) (i : Intake Source β) :
    ∃ begun, Told total i (fill readBlock record id i) begun := by
  unfold fill
  split
  · exact ⟨[], (advances_refl total i).told (by simp) (fun _ => rfl) rfl⟩
  · next payload _ =>
    simp only
    split
    · exact ⟨[], (advances_refl total i).told (by simp) (fun _ => rfl) rfl⟩
    · obtain ⟨begun, h⟩ := told_children hread id record.header.childCount.toNat
        { i with site := i.site.setPayload id payload }
      exact ⟨begun, h.starts, h.lined, h.agreed, h.refused, h.reports⟩

omit [Payload β] in
/-- Where the monitor does not agree, it is told nothing. -/
theorem told_refused (total : Nat) (i : Intake Source β) :
    Told total i (.ok .canceled, { i with monitor := i.monitor.poll.2 }) [] where
  starts := .nil _
  lined _ := .nil _
  agreed hne := absurd rfl hne
  refused _ := rfl
  reports := (List.append_nil _).symm

omit [Payload β] in
/-- Where it agrees, it is told the position, even if nothing can be read there. -/
theorem told_failed (total : Nat) (i : Intake Source β) (e : CodecError) (source : Source) :
    Told total i (.error e, { i with
      source := source
      monitor := i.monitor.poll.2.report i.source.position total }) [i.source.position] where
  starts := .last _
  lined hne := absurd rfl (hne e)
  agreed _ := rfl
  refused h := by cases h
  reports := rfl

/-- The walk tells where each block starts before it reads it. -/
theorem told_node (settings : Settings) (total levels : Nat) (i : Intake Source β) :
    ∃ begun, Told total i (node settings total levels i) begun := by
  induction levels generalizing i with
  | zero =>
    unfold node
    simp only
    split
    · exact ⟨[], told_refused total i⟩
    · exact ⟨_, told_failed total i _ i.source⟩
  | succ levels ih =>
    by_cases hgo : i.monitor.answer i.monitor.polls
    · cases hrecord : readRecord settings i.site.catalogue i.site.tree.registry i.source with
      | mk result source =>
        cases result with
        | error e =>
          have hpoll : i.monitor.poll.1 = true := hgo
          unfold node
          simp only [hpoll, Bool.not_true, Bool.false_eq_true, if_false, Source.position_eq, hrecord]
          exact ⟨_, told_failed total i e source⟩
        | ok record =>
          obtain ⟨-, -, hwhole, hpasses⟩ := readRecord_eq_ok_iff.mp hrecord
          have hopened : Advances total i (opened total i record source) [i.source.position] :=
            ⟨.cons hwhole hpasses (.nil _), rfl, rfl⟩
          obtain ⟨more, hmore⟩ := told_fill ih record
            (i.site.createFrom record.ref record.entry).1 (opened total i record source)
          have htold := Told.behind hopened hmore
          refine ⟨i.source.position :: more, ?_⟩
          -- Only a block that was filled is returned; otherwise it is destroyed, which reports nothing.
          rw [node_eq_of_readRecord total levels hgo hrecord]
          split
          · next kept i₁ hfill =>
            rw [hfill] at htold
            exact htold.congr rfl rfl (fun _ h => by cases h) (by simp)
          · next outcome i₁ _ hfill =>
            rw [hfill] at htold
            exact htold.congr rfl rfl (fun _ h => h) .rfl
    · have hpoll : i.monitor.poll.1 = false := by simpa [Monitor.poll] using hgo
      unfold node
      simp only [hpoll, Bool.not_false, if_true]
      exact ⟨[], told_refused total i⟩

end Inflate

namespace Site

variable [Payload β] {s : Site β}

/-- What the watcher of a walk that reads was told: where each record starts that it agreed to, one
after the other, and where the walk ended if it found all blocks. -/
structure Paced (source : Source) (watcher : Monitor) (begun told : List Nat)
    (r : Except CodecError InflateStatus × Intake Source β) : Prop where
  starts : source.Starts begun
  agreed : r.1 ≠ .ok .canceled → r.2.monitor.polls = watcher.polls + begun.length
  refused : r.1 = .ok .canceled → r.2.monitor.polls = watcher.polls + begun.length + 1
  /-- All records are whole, and the source stands behind the last one. -/
  finished : ∀ root, r.1 = .ok (.success root) →
    source.Lined begun r.2.source ∧ told = begun ++ [r.2.source.position]
  stopped : (∀ root, r.1 ≠ .ok (.success root)) → told = begun
  reports : r.2.monitor.reports = watcher.reports ++ told.map fun p => (p, source.length)
  increasing : told.Pairwise (· < ·)
  bounded : ∀ p ∈ told, source.position ≤ p ∧ p ≤ source.length

/-- From within a buffer the reports of a walk are paced, however it ends: records start behind one
another, and the end of the last one is told only if all were found. -/
theorem paced_inflate (settings : Settings) (s : Site β) {source : Source} (hs : source.Inside)
    (watcher : Monitor) :
    ∃ begun told, Paced source watcher begun told (inflate settings s source watcher) := by
  obtain ⟨begun, h⟩ := Inflate.told_node settings source.length settings.maxDepth
    ⟨s, source, watcher⟩
  unfold inflate
  simp only [source.measure_eq]
  split
  · next root i heq =>
    rw [heq] at h
    have hlined := h.lined (by simp)
    obtain ⟨hsorted, hbounds⟩ := (hlined.starts_append (.last _)).increasing hs
    refine ⟨begun, begun ++ [i.source.position], h.starts, h.agreed, h.refused,
      fun _ _ => ⟨hlined, rfl⟩, fun hne => absurd rfl (hne root), ?_, hsorted, hbounds⟩
    show i.monitor.reports ++ [(i.source.position, source.length)] = _
    rw [h.reports, List.map_append, List.append_assoc]
    rfl
  · next outcome i hnot heq =>
    rw [heq] at h
    obtain ⟨hsorted, hbounds⟩ := h.starts.increasing hs
    exact ⟨begun, begun, h.starts, h.agreed, h.refused, fun root hroot => absurd hroot (hnot root),
      fun _ => rfl, h.reports, hsorted, hbounds⟩

/-- However a walk ends, what its watcher was told is true. One that writes tells the numbers of the
records that it has written, out of the number of blocks in the subtree. One that reads tells where
the blocks start, out of the length of the buffer, and these positions increase. -/
theorem reported_of_reached (h : Reached Guarded s) (settings : Settings) (watcher : Monitor) :
    (∀ root sink, ∃ written cut, s.Tallied root sink watcher written cut
      (deflate settings s.catalogue s.tree root sink watcher)) ∧
    ∀ (bytes : Bytes) (position : Nat), position ≤ bytes.length →
      let source := Source.ofBytes bytes position
      ∃ begun told, Paced source watcher begun told (inflate settings s source watcher) :=
  ⟨fun root sink => tallied_deflate h.sound.forest h.consistent settings root sink watcher,
    fun _ _ hinside => paced_inflate settings s (Source.inside_ofBytes hinside) watcher⟩

/-- Two of the three blocks of the shelf are written. When they are read, their headers stand next
to each other. -/
theorem reported_of_reached_crowdedShelf :
    let write := deflate Settings.defaults crowdedShelf.catalogue crowdedShelf.tree ⟨0, 0⟩
      (Sink.empty none) Monitor.always
    let source := Source.ofBytes shelfBytes 0
    let read := inflate Settings.defaults crowdedShelf source Monitor.always
    (∃ written cut, crowdedShelf.Tallied ⟨0, 0⟩ (Sink.empty none) Monitor.always written cut write ∧
      written.length = 2) ∧ crowdedShelf.wholeOf ⟨0, 0⟩ = 3 ∧
    ∃ begun told, Paced source Monitor.always begun told read ∧
      told = [0, 16, shelfBytes.length] := by
  intro write source read
  obtain ⟨hwrites, hreads⟩ := reported_of_reached reached_crowdedShelf Settings.defaults
    Monitor.always
  obtain ⟨written, cut, htallied⟩ := hwrites ⟨0, 0⟩ (Sink.empty none)
  obtain ⟨begun, told, hpaced⟩ := hreads shelfBytes 0 (Nat.zero_le _)
  refine ⟨⟨written, cut, htallied, ?_⟩, by decide +kernel, begun, told, hpaced, ?_⟩
  · have hlength : write.2.2.reports.length = 2 := by decide +kernel
    rw [htallied.reports] at hlength
    simpa [Monitor.always, Monitor.of] using hlength
  · have hread : read.2.monitor.reports.map Prod.fst = [0, 16, shelfBytes.length] := by
      decide +kernel
    rw [hpaced.reports] at hread
    simpa [Monitor.always, Monitor.of, Function.comp_def] using hread

end Site

end BlockForest
