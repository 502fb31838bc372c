import Mathlib
import BlockForest.Proofs.InflatedSubtree
import BlockForest.Stock.Types

/-!
# What is left in a tree when reading blocks fails

The walk keeps `Sprouted` for the block it works at, however the steps inside it end, and if it fails
or is stopped it has destroyed what it made: it `Leaves` a whole new subtree or the site as it was.
This does not depend on the source, which may fail at every call.

There is one exception, outside the walk. When the subtree is complete, the source is asked once more
where it stands, for the last report, and if it fails then, nothing destroys the subtree any more
(`Inflate.Strands`). The caller has an error and no name of a block, and the blocks stay in the tree
and are counted. `unchanged_iff_of_failed_inflate` says that this is the only failure that leaves
something behind, and what it leaves. A buffer can always say where it stands, so a stream in a buffer
leaves nothing (`restored_of_inflate_buffer`).
-/

set_option autoImplicit false

namespace BlockForest

variable {σ β : Type} [Payload β]

namespace Inflate

open Site

variable {s s' : Site β} {readBlock : Intake σ β → Except CodecError InflateStatus × Intake σ β}

/-! ### The walk -/

/-- How a walk that reads a block leaves the site: with a new subtree, or as it was. -/
def Leaves (s : Site β) (levels : Nat) (r : Except CodecError InflateStatus × Intake σ β) : Prop :=
  (∀ root, r.1 = .ok (.success root) → ∃ k, levels = k + 1 ∧ Sprouted s r.2.site k root) ∧
    ((∀ root, r.1 ≠ .ok (.success root)) → Restored s r.2.site)

omit [Payload β] in
/-- A walk that has not touched the site has left it as it was. -/
theorem Idle.leaves {r : Except CodecError InflateStatus × Intake σ β} (h : Idle s r)
    (levels : Nat) : Leaves s levels r := by
  refine ⟨fun root hroot => absurd hroot (h.failed root), fun _ => ?_⟩
  rw [h.site]
  exact .refl s

/-- A child that the library refuses is destroyed again. -/
theorem sprouted_adoptChild {levels : Nat} {library child : BlockId} {i : Intake σ β}
    (h : Sprouted s s' (levels + 1) library) (h' : Sprouted s' i.site levels child) :
    Sprouted s (adoptChild i library child).2.site (levels + 1) library := by
  unfold adoptChild
  by_cases ha : Attachable i.site.tree library child
  · rw [add_of_attachable ha]
    exact h.graft h' ha.isLibrary
  · obtain ⟨e, hadd⟩ := add_of_not_attachable ha
    rw [hadd]
    exact h.restore h'.discard

/-- While its children are read, the block stands in the tree with those that are complete. -/
theorem sprouted_children {levels : Nat}
    (hread : ∀ i : Intake σ β, i.site.tree.Orderly → Leaves i.site levels (readBlock i))
    (ho : s.tree.Orderly) {library : BlockId} (count : Nat) {i : Intake σ β}
    (h : Sprouted s i.site levels library) :
    Sprouted s (children readBlock library count i).2.site levels library := by
  induction count generalizing i with
  | zero => exact h
  | succ count ih =>
    have hleaves := hread i (h.lasting.orderly ho)
    unfold Inflate.children
    cases hr : readBlock i with
    | mk result i' =>
      rw [hr] at hleaves
      cases result with
      | error e => exact h.restore (hleaves.2 (by simp))
      | ok status =>
        cases status with
        | canceled => exact h.restore (hleaves.2 (by simp))
        | success child =>
          obtain ⟨k, rfl, hchild⟩ := hleaves.1 child rfl
          -- Attached or refused, the child is no subtree of its own any more.
          have hadopt := sprouted_adoptChild h hchild
          cases ha : adoptChild i' library child with
          | mk outcome i'' =>
            rw [ha] at hadopt
            simp only [ha]
            cases outcome with
            | error e => exact hadopt
            | ok _ => exact ih hadopt

/-- Whether or not a block can be filled, it is the only new subtree up to then. -/
theorem sprouted_fill {levels : Nat}
    (hread : ∀ i : Intake σ β, i.site.tree.Orderly → Leaves i.site levels (readBlock i))
    (ho : s.tree.Orderly) (record : Record β) {id : BlockId} {i : Intake σ β}
    (h : Sprouted s i.site levels id) :
    Sprouted s (fill readBlock record id i).2.site levels id := by
  unfold fill
  split
  · exact h
  · simp only
    split
    · exact h.setPayload _
    · exact sprouted_children hread ho _ (h.setPayload _)

/-- A block that is made for a record stays if it is complete, and is destroyed otherwise. -/
theorem leaves_build {levels : Nat}
    (hread : ∀ i : Intake σ β, i.site.tree.Orderly → Leaves i.site levels (readBlock i))
    (record : Record β) (i : Intake σ β) (ho : i.site.tree.Orderly) :
    Leaves i.site (levels + 1) (build readBlock record i) := by
  have hmade := sprouted_createFrom ho levels record.ref record.entry
  unfold build
  generalize i.site.createFrom record.ref record.entry = made at hmade ⊢
  have hfilled := sprouted_fill hread ho record (i := { i with site := made.2 }) hmade
  simp only
  split
  · next heq =>
    rw [heq] at hfilled
    refine ⟨fun root hroot => ⟨levels, rfl, ?_⟩, fun hnot => absurd rfl (hnot made.1)⟩
    cases hroot
    exact hfilled
  · next outcome i' hnot heq =>
    rw [heq] at hfilled
    exact ⟨fun root hroot => absurd hroot (hnot root), fun _ => hfilled.discard⟩

variable [ByteSource σ]

/-- A walk makes a whole subtree or leaves the site as it was. -/
theorem leaves_node (settings : Settings) (total levels : Nat) (i : Intake σ β)
    (ho : i.site.tree.Orderly) : Leaves i.site levels (node settings total levels i) := by
  induction levels generalizing i with
  | zero =>
    rcases node_cases settings total 0 i with hidle | ⟨_, _, _, _, hlevels, -⟩
    · exact hidle.leaves 0
    · cases hlevels
  | succ levels ih =>
    rcases node_cases settings total (levels + 1) i with
      hidle | ⟨left, record, source, monitor, hlevels, -, hbuild⟩
    · exact hidle.leaves _
    · cases hlevels
      rw [hbuild]
      exact leaves_build ih record ⟨i.site, source, monitor⟩ ho

/-! ### What every step of a walk does -/

/-- What each change of a site by a walk that reads blocks does, and two changes one after the other
as well. A block is destroyed only if it was read last and belongs to no library. -/
structure Steps (R : Site β → Site β → Prop) : Prop where
  refl : ∀ s, R s s
  trans : ∀ {a b c}, R a b → R b c → R a c
  createFrom : ∀ {s : Site β} (ref : EntryRef) (entry : Entry β), s.tree.Orderly →
    R s (s.createFrom ref entry).2
  setPayload : ∀ (s : Site β) (id : BlockId) (payload : β), R s (s.setPayload id payload)
  attach : ∀ {s : Site β} {library child : BlockId}, Attachable s.tree library child →
    R s (s.attach library child (s.tree.children library).length)
  discard : ∀ {s s' : Site β} {levels : Nat} {root : BlockId}, Sprouted s s' levels root →
    R s' (s'.destroy root).2

variable {R : Site β → Site β → Prop}

omit [ByteSource σ] in
/-- A child that was read is attached, or destroyed if the library refuses it. -/
theorem Steps.adoptChild (hk : Steps R) {levels : Nat} {library child : BlockId} {i : Intake σ β}
    (h : Sprouted s i.site levels child) : R i.site (adoptChild i library child).2.site := by
  unfold Inflate.adoptChild
  by_cases ha : Attachable i.site.tree library child
  · rw [add_of_attachable ha]
    exact hk.attach ha
  · obtain ⟨e, hadd⟩ := add_of_not_attachable ha
    rw [hadd]
    exact hk.discard h

omit [ByteSource σ] in
/-- By induction on the number of children: each is read, and adopted if that went well. -/
theorem Steps.children (hk : Steps R) {levels : Nat}
    (hread : ∀ i : Intake σ β, i.site.tree.Orderly → Leaves i.site levels (readBlock i))
    (hstep : ∀ i : Intake σ β, i.site.tree.Orderly → R i.site (readBlock i).2.site)
    (ho : s.tree.Orderly) {library : BlockId} (count : Nat) {i : Intake σ β}
    (h : Sprouted s i.site levels library) :
    R i.site (children readBlock library count i).2.site := by
  induction count generalizing i with
  | zero => exact hk.refl _
  | succ count ih =>
    have hleaves := hread i (h.lasting.orderly ho)
    have hkid := hstep i (h.lasting.orderly ho)
    unfold Inflate.children
    cases hr : readBlock i with
    | mk result i' =>
      rw [hr] at hleaves hkid
      cases result with
      | error e => exact hkid
      | ok status =>
        cases status with
        | canceled => exact hkid
        | success child =>
          obtain ⟨k, rfl, hchild⟩ := hleaves.1 child rfl
          have hadopt := sprouted_adoptChild h hchild
          have hadopted : R i'.site (Inflate.adoptChild i' library child).2.site :=
            hk.adoptChild hchild
          cases ha : Inflate.adoptChild i' library child with
          | mk outcome i'' =>
            rw [ha] at hadopt hadopted
            simp only [ha]
            cases outcome with
            | error e => exact hk.trans hkid hadopted
            | ok _ => exact hk.trans (hk.trans hkid hadopted) (ih hadopt)

omit [ByteSource σ] in
/-- A block is made, gets its payload and its children, and is destroyed if one of them fails. -/
theorem Steps.build (hk : Steps R) {levels : Nat}
    (hread : ∀ i : Intake σ β, i.site.tree.Orderly → Leaves i.site levels (readBlock i))
    (hstep : ∀ i : Intake σ β, i.site.tree.Orderly → R i.site (readBlock i).2.site)
    (record : Record β) (i : Intake σ β) (ho : i.site.tree.Orderly) :
    R i.site (build readBlock record i).2.site := by
  have hmade := sprouted_createFrom ho levels record.ref record.entry
  have hcreated := hk.createFrom record.ref record.entry ho
  unfold Inflate.build
  generalize i.site.createFrom record.ref record.entry = made at hmade hcreated ⊢
  have hsprouted := sprouted_fill hread ho record (i := { i with site := made.2 }) hmade
  have hfilled : R made.2 (fill readBlock record made.1 { i with site := made.2 }).2.site := by
    unfold fill
    split
    · exact hk.refl _
    · next payload _ =>
      have hset := hk.setPayload made.2 made.1 payload
      simp only
      split
      · exact hset
      · exact hk.trans hset (hk.children hread hstep ho _
          (i := { i with site := made.2.setPayload made.1 payload }) (hmade.setPayload payload))
  simp only
  split
  · next heq =>
    rw [heq] at hfilled
    exact hk.trans hcreated hfilled
  · next heq =>
    rw [heq] at hfilled hsprouted
    exact hk.trans (hk.trans hcreated hfilled) (hk.discard hsprouted)

/-- By induction on the levels: what each step does is done by the walk. -/
theorem Steps.node (hk : Steps R) (settings : Settings) (total levels : Nat) (i : Intake σ β)
    (ho : i.site.tree.Orderly) : R i.site (node settings total levels i).2.site := by
  induction levels generalizing i with
  | zero =>
    rcases node_cases settings total 0 i with hidle | ⟨_, _, _, _, hlevels, -⟩
    · rw [hidle.site]
      exact hk.refl _
    · cases hlevels
  | succ levels ih =>
    rcases node_cases settings total (levels + 1) i with
      hidle | ⟨left, record, source, monitor, hlevels, -, hbuild⟩
    · rw [hidle.site]
      exact hk.refl _
    · cases hlevels
      rw [hbuild]
      exact hk.build (leaves_node settings total levels) ih record ⟨i.site, source, monitor⟩ ho

/-- What each step does is done by reading a stream, from whatever source and however it ends. -/
theorem Steps.inflate (hk : Steps R) (ho : s.tree.Orderly) (settings : Settings) (source : σ)
    (monitor : Monitor) : R s (inflate settings s source monitor).2.site := by
  rcases inflate_cases settings s source monitor with hidle | ⟨total, opened, -, hsite, -⟩
  · rw [hidle.site]
    exact hk.refl s
  · rw [hsite]
    exact hk.node settings total settings.maxDepth ⟨s, opened, monitor⟩ ho

/-! ### Blocks that are stranded -/

variable {settings : Settings} {source : σ} {monitor : Monitor} {root : BlockId} {e : BufferError}

/-- A stranded block stands in the tree with all that is below it. -/
theorem Strands.sprouted (h : Strands settings s source monitor root e) (ho : s.tree.Orderly) :
    ∃ levels, Sprouted s (inflate settings s source monitor).2.site levels root := by
  obtain ⟨-, total, opened, hroot, hsite⟩ := h.outcome
  obtain ⟨levels, -, hsprouted⟩ :=
    (leaves_node settings _ settings.maxDepth ⟨s, opened, monitor⟩ ho).1 root hroot
  exact ⟨levels, hsite ▸ hsprouted⟩

omit [ByteSource σ] in
/-- A buffer never fails when it is asked where it stands. -/
theorem not_strands_buffer {buffer : Source} : ¬ Strands settings s buffer monitor root e := by
  rintro ⟨total, opened, -, -, hfails⟩
  cases hfails

end Inflate

namespace Site

open Inflate

variable [ByteSource σ] {s : Site β}

/-- A stream that is read to its end leaves a new subtree under the name that the caller is given. -/
theorem sprouted_of_inflate (ho : s.tree.Orderly) (settings : Settings) (source : σ)
    (monitor : Monitor) {root : BlockId}
    (hroot : (inflate settings s source monitor).1 = .ok (.success root)) :
    ∃ levels, Sprouted s (inflate settings s source monitor).2.site levels root := by
  rcases inflate_cases settings s source monitor with
    hidle | ⟨total, opened, -, hsite, houtcome | ⟨_, e, -, hfail⟩⟩
  · exact absurd hroot (hidle.failed root)
  · rw [houtcome] at hroot
    obtain ⟨levels, -, hsprouted⟩ :=
      (leaves_node settings _ settings.maxDepth ⟨s, opened, monitor⟩ ho).1 root hroot
    exact ⟨levels, hsite ▸ hsprouted⟩
  · rw [hfail] at hroot
    cases hroot

/-- A walk that fails or is stopped leaves no trace in the tree and in the counts of the catalogue,
if no block is stranded. -/
theorem restored_of_inflate (ho : s.tree.Orderly) (settings : Settings) (source : σ)
    (monitor : Monitor)
    (hfail : ∀ root, (inflate settings s source monitor).1 ≠ .ok (.success root))
    (hkept : ∀ root e, ¬ Strands settings s source monitor root e) :
    Restored s (inflate settings s source monitor).2.site := by
  rcases inflate_cases settings s source monitor with
    hidle | ⟨total, opened, -, hsite, houtcome | ⟨root, e, hstrands, -⟩⟩
  · rw [hidle.site]
    exact .refl s
  · rw [houtcome] at hfail
    rw [hsite]
    exact (leaves_node settings _ settings.maxDepth ⟨s, opened, monitor⟩ ho).2 hfail
  · exact absurd hstrands (hkept root e)

omit [ByteSource σ] in
/-- A stream in a buffer that is not read to its end, for whatever reason, leaves no trace. -/
theorem restored_of_inflate_buffer (ho : s.tree.Orderly) (settings : Settings) (buffer : Source)
    (monitor : Monitor)
    (hfail : ∀ root, (inflate settings s buffer monitor).1 ≠ .ok (.success root)) :
    Restored s (inflate settings s buffer monitor).2.site :=
  restored_of_inflate ho settings buffer monitor hfail fun _ _ => not_strands_buffer

/-- In every site that is reached, a stream that is refused or given up leaves all blocks as they
were, with everything that is known of them, and all counts, whatever the source is and at whichever
call it fails, exactly if no block is stranded. A stranded block stays, with all that is below it, as
a new subtree that belongs to no library: these blocks are alive and counted, though the caller is
told of an error. -/
theorem unchanged_iff_of_failed_inflate (h : Reached Any s) (settings : Settings) (source : σ)
    (monitor : Monitor)
    (hfail : ∀ root, (inflate settings s source monitor).1 ≠ .ok (.success root)) :
    let r := inflate settings s source monitor
    let s' := r.2.site
    ((∀ id, s'.tree.node? id = s.tree.node? id) ∧ s'.tree.size = s.tree.size ∧
        (∀ ref, s'.catalogue.entryAt? ref = s.catalogue.entryAt? ref) ↔
      ∀ root e, ¬ Strands settings s source monitor root e) ∧
    ∀ root e, Strands settings s source monitor root e →
      r.1 = .error (.buffer e) ∧ ∃ levels, Sprouted s s' levels root ∧
        s'.tree.size = s.tree.size + (s'.tree.listing levels root).length := by
  intro r s'
  refine ⟨⟨?_, fun hkept => ?_⟩, fun root e hstrands => ?_⟩
  · -- A stranded block is alive, and was not before.
    rintro ⟨hsame, -, -⟩ root e hstrands
    obtain ⟨levels, hsprouted⟩ := hstrands.sprouted h.orderly
    have hroot := Tree.mem_listing_self (t := s'.tree) levels root
    have halive := hsprouted.upright.alive root hroot
    rw [Tree.contains, hsame] at halive
    exact hsprouted.not_contains hroot halive
  · have hrestored := restored_of_inflate h.orderly settings source monitor hfail hkept
    exact ⟨hrestored.node?, hrestored.size_eq h.orderly, hrestored.entryAt?⟩
  · obtain ⟨levels, hsprouted⟩ := hstrands.sprouted h.orderly
    exact ⟨hstrands.outcome.1, levels, hsprouted, hsprouted.size_eq h.orderly⟩

end Site

/-! ### A source that fails -/

/-- A buffer whose calls fail one by one: `fault n` is the text with which call number `n` fails, if
it does. -/
structure Unsteady where
  buffer : Source
  /-- How many calls there were. -/
  calls : Nat
  fault : Nat → Option String

namespace Unsteady

/-- Asks the buffer, unless this call fails. -/
def call {α : Type} (u : Unsteady) (ask : Source → Except BufferError α × Source) :
    Except BufferError α × Unsteady :=
  match u.fault u.calls with
  | some text => (.error (.failed text), { u with calls := u.calls + 1 })
  | none => ((ask u.buffer).1, { u with buffer := (ask u.buffer).2, calls := u.calls + 1 })

instance : ByteSource Unsteady where
  position u := u.call ByteSource.position
  seekEnd u := u.call ByteSource.seekEnd
  seekTo u position := u.call (ByteSource.seekTo · position)
  readExact u n := u.call (ByteSource.readExact · n)
  readUpTo u n := u.call (ByteSource.readUpTo · n)

/-- A library with a leaf, in a source that fails at one call. -/
def shelf (failing : Nat) : Unsteady where
  buffer := .ofBytes ([0, 0, 0, 0] ++ Bytes.ofWord32 (nameHash "Library") ++
    [0, 0, 0, 0, 1, 0, 0, 0] ++ [0, 0, 0, 0] ++ Bytes.ofWord32 (nameHash "Leaf") ++
      [0, 0, 0, 0, 0, 0, 0, 0]) 0
  calls := 0
  fault n := if n = failing then some "device not ready" else none

end Unsteady

namespace Site

/-- A tree whose registry knows libraries and leaves. -/
def bareShelf : Site Stock :=
  { start 0 with
    catalogue := ((Catalogue.empty.perform .addRegistry).perform
      (.register 0 StockType.library.blockType)).perform
        (.register 0 StockType.leaf.blockType) }

/-- It has no blocks yet, whatever is allowed. -/
theorem reached_bareShelf {allowed : Site Stock → Op Stock → Prop} : Reached allowed bareShelf :=
  (((Reached.start 0).elsewhere .addRegistry).elsewhere
    (.register 0 StockType.library.blockType)).elsewhere (.register 0 StockType.leaf.blockType)

/-- The source fails when it is asked where the leaf starts. The library is not kept. -/
theorem unchanged_iff_of_failed_inflate_leaf :
    let r := inflate Settings.defaults bareShelf (Unsteady.shelf 6) Monitor.always
    r.1 = .error (.buffer (.failed "device not ready")) ∧
      (∀ id, r.2.site.tree.node? id = none) ∧ r.2.site.tree.size = 0 ∧
        (r.2.site.catalogue.entryAt? 0).map Entry.instances = some 0 := by
  intro r
  have hfailed : r.1 = .error (.buffer (.failed "device not ready")) := by decide +kernel
  have hnot : ∀ root, r.1 ≠ .ok (.success root) := by
    intro root
    rw [hfailed]
    simp
  obtain ⟨hiff, hstranded⟩ := unchanged_iff_of_failed_inflate reached_bareShelf
    Settings.defaults (Unsteady.shelf 6) Monitor.always hnot
  -- A stranded library would be counted, but the tree is empty.
  have hkept : ∀ root e,
      ¬ Inflate.Strands Settings.defaults bareShelf (Unsteady.shelf 6) Monitor.always root e := by
    intro root e hstrands
    obtain ⟨-, levels, -, hcount⟩ := hstranded root e hstrands
    have hempty : r.2.site.tree.size = 0 := by decide +kernel
    have hlisted := List.length_pos_of_mem
      (Tree.mem_listing_self (t := r.2.site.tree) levels root)
    exact absurd (hcount.symm.trans hempty) (Nat.ne_of_gt (Nat.add_pos_right _ hlisted))
  obtain ⟨hnode, hsize, hentry⟩ := hiff.mpr hkept
  refine ⟨hfailed, fun id => ?_, hsize, ?_⟩
  · rw [hnode]
    exact Tree.node?_empty 0 id
  · rw [hentry]
    decide +kernel

/-- The source fails when it is asked where the walk has ended. The caller is told so, and the
library and the leaf stay in the tree and are counted. -/
theorem not_unchanged_of_stranded :
    let r := inflate Settings.defaults bareShelf (Unsteady.shelf 9) Monitor.always
    let s' := r.2.site
    Reached Any bareShelf ∧ r.1 = .error (.buffer (.failed "device not ready")) ∧
      bareShelf.tree.size = 0 ∧ s'.tree.size = 2 ∧
      s'.tree.contains ⟨0, 0⟩ ∧ s'.tree.parent? ⟨0, 0⟩ = none ∧ s'.tree.children ⟨0, 0⟩ = [⟨1, 0⟩] ∧
      (∀ ref < 2, (bareShelf.catalogue.entryAt? ref).map Entry.instances = some 0 ∧
        (s'.catalogue.entryAt? ref).map Entry.instances = some 1) :=
  ⟨reached_bareShelf, by decide +kernel⟩

end Site

end BlockForest
