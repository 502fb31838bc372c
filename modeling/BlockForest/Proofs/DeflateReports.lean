import Mathlib
import BlockForest.Proofs.StoppedDeflate
import BlockForest.Proofs.TreeTraversal

/-!
# What is reported while blocks are written

A walk that writes counts the records it has written and reports each count, out of the number of
all blocks of the subtree. `Deflate.Tally` keeps the count beside the bytes: so many records were
written, so many reports were sent. The walk goes along a route (`Deflate.route`), and whatever
ends it, it has written the records of the first blocks of the route. Only a sink that is full
leaves a part of the next one behind (`Deflate.tracked_node`).

A route is a part of the subtree in its order, so no more records are written than there are blocks.
-/

set_option autoImplicit false

namespace BlockForest

variable {β : Type}

namespace Deflate

variable {s : Site β} {settings : Settings} {total : Nat} {o o₁ o' : Outflow}

/-! ### The route -/

/-- The blocks that a walk down so many levels writes if nothing stops it. -/
def route (t : Tree β) : Nat → BlockId → List BlockId
  | 0, _ => []
  | levels + 1, id =>
    if t.isSerializable id then id :: (writtenChildren t id).flatMap (route t levels) else []

/-- A route leads through a part of the subtree, in its order. -/
theorem route_sublist {t : Tree β} (levels : Nat) {depth : Nat} {id : BlockId}
    (hw : t.Within depth id) : (route t levels id).Sublist (t.listing depth id) := by
  induction levels generalizing depth id with
  | zero => exact List.nil_sublist _
  | succ levels ih =>
    rw [route]
    split
    · cases depth with
      | zero =>
        have hnone : t.children id = [] := hw
        rw [writtenChildren, hnone]
        exact List.Sublist.refl _
      | succ depth =>
        have hkept : ((writtenChildren t id).flatMap (route t levels)).Sublist
            ((t.children id).flatMap (route t levels)) := List.filter_sublist.flatMap _
        exact (hkept.trans (.flatMap_right _ fun child hc => ih (hw child hc))).cons_cons id
    · exact List.nil_sublist _

/-! ### Counting -/

/-- Between two states of a walk the records of these blocks were written, and then so many bytes
more. Each record was counted and reported. -/
structure Tally (s : Site β) (total : Nat) (written : List BlockId) (cut : Bytes)
    (o o' : Outflow) : Prop where
  bytes : o'.outlet.bytes = o.outlet.bytes ++ written.flatMap s.record ++ cut
  done : o'.done = o.done + written.length
  reports : o'.monitor.reports = o.monitor.reports ++
    (List.range written.length).map fun k => (o.done + k + 1, total)

/-- To ask whether to go on writes nothing and reports nothing, so it counts as a tally of no
records. -/
theorem Tally.polled (s : Site β) (total : Nat) (o : Outflow) : Tally s total [] [] o (polled o) :=
  ⟨by simp [Deflate.polled], rfl, by simp [Deflate.polled, Monitor.poll]⟩

/-- Records that are counted one after the other are counted together, if the first walk cut none
off. -/
theorem Tally.trans {written more : List BlockId} {cut : Bytes} (h : Tally s total written [] o o₁)
    (h' : Tally s total more cut o₁ o') : Tally s total (written ++ more) cut o o' where
  bytes := by
    rw [h'.bytes, h.bytes, List.append_nil, List.flatMap_append, ← List.append_assoc]
  done := by rw [h'.done, h.done, List.length_append, Nat.add_assoc]
  reports := by
    rw [h'.reports, h.reports, h.done, List.length_append, List.range_add, List.map_append,
      List.map_map, List.append_assoc]
    simp only [Function.comp_def, Nat.add_assoc]

/-! ### One record -/

/-- What is written is there in the end, or the first bytes of it are and the sink is full. -/
theorem write_cases (o : Outflow) (data : Bytes) :
    (∃ outlet : Outlet, o.write data = (.ok (), { o with outlet := outlet }) ∧
        outlet.bytes = o.outlet.bytes ++ data) ∨
      ∃ (outlet : Outlet) (cut : Bytes),
        o.write data = (.error (.buffer .sinkFull), { o with outlet := outlet }) ∧
          cut <+: data ∧ cut.length < data.length ∧ outlet.bytes = o.outlet.bytes ++ cut := by
  unfold Outflow.write Outlet.write
  cases hroom : o.outlet.room with
  | none => exact .inl ⟨_, rfl, by simp [Outlet.bytes]⟩
  | some room =>
    by_cases hfits : data.length ≤ room
    · simp only [hfits, if_true]
      exact .inl ⟨_, rfl, by simp [Outlet.bytes]⟩
    · simp only [hfits, if_false]
      refine .inr ⟨_, data.take room, rfl, List.take_prefix _ _, ?_, by simp [Outlet.bytes]⟩
      rw [List.length_take]
      omega

/-- The record of a block is its header with its data behind it. -/
theorem record_eq (hc : s.catalogue.Consistent) {id : BlockId} {block : Node β} {entry : Entry β}
    (hblock : s.tree.node? id = some block)
    (hentry : block.entry.bind s.catalogue.entryAt? = some entry) :
    let data := (pairs entry block.payload).flatMap encodePair
    s.record id = (header entry data (pairs entry block.payload).length
      (writtenChildren s.tree id).length).toBytes ++ data := by
  intro data
  obtain ⟨ref, -, href⟩ := Option.bind_eq_some_iff.mp hentry
  obtain ⟨hfaithful, hproperties⟩ := PropertyTable.faithful_of_build (hc.table ref entry href)
  rw [toBytes_header, Site.record, Site.contents?_of_node? hblock, hentry,
    show data = _ from data_eq_flatMap_encodeStored hfaithful hproperties block.payload,
    length_pairs_eq hfaithful hproperties]
  rfl

/-- A record is written whole and counted, or it is too long and nothing is written, or the sink
has no room for all of it. -/
theorem writeRecord_cases (settings : Settings) (total : Nat) (o : Outflow) {id : BlockId}
    {entry : Entry β} {payload : β} {childCount : Nat}
    (hrecord : s.record id = (header entry ((pairs entry payload).flatMap encodePair)
      (pairs entry payload).length childCount).toBytes ++
        (pairs entry payload).flatMap encodePair) :
    (∃ o', writeRecord settings entry payload childCount total o = (.ok (), o') ∧
        Tally s total [id] [] o o') ∨
      (∃ e, writeRecord settings entry payload childCount total o = (.error e, o) ∧
        e ≠ .buffer .sinkFull) ∨
      ∃ o' cut, writeRecord settings entry payload childCount total o =
          (.error (.buffer .sinkFull), o') ∧ cut <+: s.record id ∧
        cut.length < (s.record id).length ∧ Tally s total [] cut o o' := by
  rw [hrecord]
  unfold writeRecord
  simp only
  generalize (pairs entry payload).flatMap encodePair = data at hrecord ⊢
  generalize (header entry data (pairs entry payload).length childCount).toBytes = head at *
  by_cases hlarge : settings.maxPayloadSize.toNat < data.length
  · rw [if_pos hlarge]
    exact .inr (.inl ⟨_, rfl, by simp⟩)
  · rw [if_neg hlarge]
    obtain ⟨outlet, hhead, hbytes⟩ | ⟨outlet, cut, hhead, hpart, hless, hbytes⟩ :=
      write_cases o head
    · obtain ⟨outlet', hrest, hbytes'⟩ | ⟨outlet', cut, hrest, hpart, hless, hbytes'⟩ :=
        write_cases { o with outlet := outlet } data
      · simp only [hhead, hrest]
        refine .inl ⟨_, rfl, ?_, rfl, rfl⟩
        show outlet'.bytes = _
        rw [hbytes', hbytes, List.flatMap_singleton, hrecord, List.append_nil, List.append_assoc]
      · simp only [hhead, hrest]
        refine .inr (.inr ⟨_, head ++ cut, rfl, (List.prefix_append_right_inj head).mpr hpart, ?_,
          ?_, rfl, by simp⟩)
        · simpa using hless
        · show outlet'.bytes = _
          rw [hbytes', hbytes, List.flatMap_nil, List.append_nil, List.append_assoc]
    · simp only [hhead]
      refine .inr (.inr ⟨_, cut, rfl, hpart.trans (List.prefix_append head data), ?_, ?_, rfl,
        by simp⟩)
      · rw [List.length_append]
        omega
      · show outlet.bytes = _
        rw [hbytes, List.flatMap_nil, List.append_nil]

/-! ### The walk along the route -/

/-- How far a walk along a route comes: to its end, to a block where it stops, or to one whose
record does not fit into the sink. -/
inductive Tracked (s : Site β) (total : Nat) (ids : List BlockId) (o : Outflow) :
    Except CodecError DeflateStatus × Outflow → Prop
  | whole {o' : Outflow} (tally : Tally s total ids [] o o') :
      Tracked s total ids o (.ok .success, o')
  | short {written rest : List BlockId} {result : Except CodecError DeflateStatus} {o' : Outflow}
      (stopped : result ≠ .ok .success) (room : result ≠ .error (.buffer .sinkFull))
      (split : ids = written ++ rest) (tally : Tally s total written [] o o') :
      Tracked s total ids o (result, o')
  | full {written rest : List BlockId} {id : BlockId} {cut : Bytes} {o' : Outflow}
      (split : ids = written ++ id :: rest) (part : cut <+: s.record id)
      (less : cut.length < (s.record id).length) (tally : Tally s total written cut o o') :
      Tracked s total ids o (.error (.buffer .sinkFull), o')

variable {written ids more : List BlockId} {result : Except CodecError DeflateStatus}
  {out : Except CodecError DeflateStatus × Outflow}

/-- What was written before counts too. -/
theorem Tracked.behind (h : Tally s total written [] o o₁) (h' : Tracked s total ids o₁ out) :
    Tracked s total (written ++ ids) o out := by
  cases h' with
  | whole tally => exact .whole (h.trans tally)
  | short stopped room split tally =>
    exact .short stopped room (by rw [split, List.append_assoc]) (h.trans tally)
  | full split part less tally =>
    exact .full (by rw [split, List.append_assoc]) part less (h.trans tally)

/-- A walk that has stopped comes no further on a longer route. -/
theorem Tracked.append (h : Tracked s total ids o (result, o')) (hne : result ≠ .ok .success)
    (more : List BlockId) : Tracked s total (ids ++ more) o (result, o') := by
  cases h with
  | whole => exact absurd rfl hne
  | short stopped room split tally =>
    exact .short stopped room (by rw [split, List.append_assoc]) tally
  | full split part less tally =>
    exact .full (by rw [split, List.append_assoc, List.cons_append]) part less tally

/-- A walk that ends at a block it does not write. -/
theorem Tracked.none (stopped : result ≠ .ok .success)
    (room : result ≠ .error (.buffer .sinkFull)) (ids : List BlockId) :
    Tracked s total ids o (result, polled o) :=
  .short stopped room (List.nil_append ids).symm (.polled s total o)

/-- Blocks that are written one after the other are written along their routes. -/
theorem tracked_each {write : Outflow → BlockId → Except CodecError DeflateStatus × Outflow}
    {way : BlockId → List BlockId}
    (hwrite : ∀ id ∈ ids, ∀ o, Tracked s total (way id) o (write o id))
    (hskip : ∀ id ∈ ids, ∀ o o', write o id ≠ (.ok .skipped, o')) :
    Tracked s total (ids.flatMap way) o (each write o ids) := by
  induction ids generalizing o with
  | nil => exact .whole ⟨by simp, rfl, by simp⟩
  | cons id ids ih =>
    have hfirst := hwrite id List.mem_cons_self o
    rw [List.flatMap_cons]
    unfold each
    split
    · next e o₁ hid =>
      rw [hid] at hfirst
      exact hfirst.append (by simp) _
    · next o₁ hid =>
      rw [hid] at hfirst
      exact hfirst.append (by simp) _
    · next status o₁ hnot hid =>
      rw [hid] at hfirst
      cases hfirst with
      | whole tally =>
        exact .behind tally (ih (fun x hx => hwrite x (List.mem_cons_of_mem _ hx))
          fun x hx => hskip x (List.mem_cons_of_mem _ hx))
      | short stopped =>
        cases status with
        | success => exact absurd rfl stopped
        | skipped => exact absurd hid (hskip id List.mem_cons_self o o₁)
        | canceled => exact absurd rfl hnot

/-- However a walk ends, it has come along the route so far. -/
theorem tracked_node (hc : s.catalogue.Consistent) (settings : Settings) (total levels : Nat)
    (o : Outflow) (id : BlockId) : Tracked s total (route s.tree levels id) o
      (node settings s.catalogue s.tree total levels o id) := by
  induction levels generalizing o id with
  | zero =>
    unfold node
    simp only
    split
    · exact .none (by simp) (by simp) _
    · split
      · exact .none (by simp) (by simp) _
      · split
        · exact .none (by simp) (by simp) _
        · exact .none (by simp) (by simp) _
  | succ levels ih =>
    unfold node
    simp only
    split
    · exact .none (by simp) (by simp) _
    · split
      · exact .none (by simp) (by simp) _
      · next block hblock =>
        split
        · exact .none (by simp) (by simp) _
        · next hwritten =>
          rw [route, if_pos (by simpa using hwritten)]
          split
          · exact .none (by simp) (by simp) _
          · next entry hentry =>
            have hrecord := record_eq hc hblock hentry
            obtain ⟨o₁, hdone, htally⟩ | ⟨e, hlarge, hne⟩ |
                ⟨o₁, cut, hfull, hpart, hless, htally⟩ :=
              writeRecord_cases settings total (polled o) hrecord
            · have hpolled := Tally.polled s total o
              unfold polled at hdone hpolled htally
              simp only [hdone]
              refine .behind (hpolled.trans htally) (tracked_each (fun child _ o => ih o child) ?_)
              -- A child is skipped only if it cannot be written, and those were sorted out before.
              intro child hmem o o' hskipped
              exact not_serializable_of_skipped hskipped (List.mem_filter.mp hmem).2
            · unfold polled at hlarge
              simp only [hlarge]
              exact .none (by simp) (by simpa using hne) _
            · have hpolled := Tally.polled s total o
              unfold polled at hfull hpolled htally
              simp only [hfull]
              exact .full (List.nil_append _).symm hpart hless (hpolled.trans htally)

end Deflate

namespace Site

variable {s : Site β} {root : BlockId}

/-- The number of blocks of a subtree, written or not. A name that is stale counts as a block. -/
def wholeOf (s : Site β) (root : BlockId) : Nat := (s.tree.descendants root).tail.length + 1

/-- What became of a walk that writes: these records are in the sink, and behind them so many bytes
of another one, and the watcher was told the number of records after each. -/
structure Tallied (s : Site β) (root : BlockId) (sink : Sink) (watcher : Monitor)
    (written : List BlockId) (cut : Bytes)
    (out : Except CodecError DeflateStatus × Sink × Monitor) : Prop where
  put : out.2.1 = sink.put (written.flatMap s.record ++ cut)
  ordered : written.Sublist (s.tree.descendants root)
  /-- Only a sink that is full takes a part of a record. -/
  whole : out.1 ≠ .error (.buffer .sinkFull) → cut = []
  full : out.1 = .error (.buffer .sinkFull) → ∃ id,
    (written ++ [id]).Sublist (s.tree.descendants root) ∧ cut <+: s.record id ∧
      cut.length < (s.record id).length
  reports : out.2.2.reports = watcher.reports ++
    (List.range written.length).map fun k => (k + 1, s.wholeOf root)
  bounded : written.length ≤ s.wholeOf root
  complete : out.1 = .ok .success →
    (written.length = s.wholeOf root ↔ ∀ id ∈ s.tree.descendants root, id ∈ written)

/-- A walk that writes goes through some of the descendants, in the same order, so it writes no
block twice. -/
theorem route_sublist_descendants (h : s.tree.Forest) (levels : Nat) (root : BlockId) :
    (Deflate.route s.tree levels root).Sublist (s.tree.descendants root) := by
  by_cases hroot : s.tree.contains root
  · rw [Tree.descendants, if_pos hroot]
    exact Deflate.route_sublist levels (h.within root)
  · have hnot : ¬ s.tree.isSerializable root :=
      fun hwritten => hroot (Tree.contains_of_serializable hwritten)
    cases levels with
    | zero => exact List.nil_sublist _
    | succ levels =>
      rw [Deflate.route, if_neg hnot]
      exact List.nil_sublist _

/-- Where there is a block, the whole is the number of its descendants with itself. -/
theorem wholeOf_eq (hroot : s.tree.contains root) :
    s.wholeOf root = (s.tree.descendants root).length := by
  have hmem : 0 < (s.tree.descendants root).length := by
    rw [Tree.descendants, if_pos hroot]
    exact List.length_pos_of_mem (Tree.mem_listing_self _ root)
  rw [wholeOf, List.length_tail]
  omega

/-- As many blocks as there are were written exactly if each of them was. -/
theorem length_eq_wholeOf_iff (h : s.tree.Forest) (hroot : s.tree.contains root)
    {written : List BlockId} (hsub : written.Sublist (s.tree.descendants root)) :
    written.length = s.wholeOf root ↔ ∀ id ∈ s.tree.descendants root, id ∈ written := by
  rw [wholeOf_eq hroot]
  constructor
  · intro hlength id hid
    rwa [hsub.eq_of_length hlength]
  · intro hall
    exact le_antisymm hsub.length_le
      (List.subperm_of_subset (h.nodup_descendants root) hall).length_le

/-- What a walk from the top has put into its sink and reported. -/
theorem put_of_tally {total : Nat} {sink : Sink} {watcher : Monitor} {written : List BlockId}
    {cut : Bytes} {o : Outflow}
    (h : Deflate.Tally s total written cut ⟨sink.outlet, watcher, 0⟩ o) :
    sink.receive o.outlet = sink.put (written.flatMap s.record ++ cut) ∧
      o.monitor.reports = watcher.reports ++
        (List.range written.length).map fun k => (k + 1, total) := by
  constructor
  · rw [Sink.receive, h.bytes]
    rfl
  · rw [h.reports]
    simp only [Nat.zero_add]

/-- However a walk that writes ends, the reports are the numbers of the records in the sink. -/
theorem tallied_deflate (h : s.tree.Forest) (hc : s.catalogue.Consistent) (settings : Settings)
    (root : BlockId) (sink : Sink) (watcher : Monitor) :
    ∃ written cut, s.Tallied root sink watcher written cut
      (deflate settings s.catalogue s.tree root sink watcher) := by
  have hroute := route_sublist_descendants h settings.maxDepth root
  have hwhole : s.tree.totalSize root + 1 = s.wholeOf root := by
    rw [Tree.totalSize_eq, wholeOf, List.length_tail]
  have hlength : (s.tree.descendants root).length ≤ s.wholeOf root := by
    rw [wholeOf, List.length_tail]
    omega
  have hlive : (deflate settings s.catalogue s.tree root sink watcher).1 = .ok .success →
      s.tree.contains root := by
    intro hsuccess
    obtain ⟨o, hnode, -⟩ := deflate_eq_ok_iff.mp (Prod.ext hsuccess rfl)
    exact Tree.contains_of_serializable (Deflate.node_eq_success_iff.mp hnode).2.1
  have hwalk := Deflate.tracked_node hc settings (s.tree.totalSize root + 1) settings.maxDepth
    ⟨sink.outlet, watcher, 0⟩ root
  unfold deflate at hlive ⊢
  generalize Deflate.node settings s.catalogue s.tree (s.tree.totalSize root + 1)
    settings.maxDepth ⟨sink.outlet, watcher, 0⟩ root = out at hwalk hlive ⊢
  rw [hwhole] at hwalk
  cases hwalk with
  | whole tally =>
    obtain ⟨hput, hreports⟩ := put_of_tally tally
    exact ⟨_, [], hput, hroute, fun _ => rfl, by simp, hreports, hroute.length_le.trans hlength,
      fun hsuccess => length_eq_wholeOf_iff h (hlive hsuccess) hroute⟩
  | @short written rest result o' stopped room split tally =>
    obtain ⟨hput, hreports⟩ := put_of_tally tally
    rw [split] at hroute
    have hsub := (List.sublist_append_left written rest).trans hroute
    exact ⟨written, [], hput, hsub, fun _ => rfl, fun hfull => absurd hfull room, hreports,
      hsub.length_le.trans hlength, fun hsuccess => absurd hsuccess stopped⟩
  | @full written rest id cut o' split part less tally =>
    obtain ⟨hput, hreports⟩ := put_of_tally tally
    rw [split, List.append_cons] at hroute
    have hnext := (List.sublist_append_left (written ++ [id]) rest).trans hroute
    have hsub := (List.sublist_append_left written [id]).trans hnext
    exact ⟨written, cut, hput, hsub, fun hnot => absurd rfl hnot, fun _ => ⟨id, hnext, part, less⟩,
      hreports, hsub.length_le.trans hlength, fun hsuccess => by cases hsuccess⟩

end Site

end BlockForest
