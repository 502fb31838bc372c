import Mathlib
import BlockForest.Proofs.WrittenExcerpt

/-!
# What a walk has written when it stops

A walk that writes blocks goes through a list: the blocks that are written with a root, each with
its depth, in the order of the walk down (`Tree.Itinerary`). At each of them it asks whether to go
on, meets an obstacle or none, and writes one record. `Deflate.Walks` is this walk along the list,
one step after the other, and `Deflate.walks_node` says that the walk down the tree is nothing else.

So it is enough to look at the list. A monitor that agrees so many times, and an obstacle at some
place, both end the walk; whichever is met first decides how it ends, and the monitor does where
they meet (`Deflate.Walks.ends`). Nothing is written of the block at which the walk ends, for all
checks come before the first byte of a record.
-/

set_option autoImplicit false

namespace BlockForest

variable {β : Type}

/-! ### The blocks that are visited -/

/-- A block that a walk comes to, and how deep it stands below the root. -/
structure Visit where
  id : BlockId
  depth : Nat
deriving DecidableEq

/-- What a walk comes to from a block: its children that are written, one level below. -/
def Tree.visitsBelow (t : Tree β) (v : Visit) : List Visit :=
  (Deflate.writtenChildren t v.id).map fun child => ⟨child, v.depth + 1⟩

/-- The list goes through a block and all that is written with it: first the block, then each child
that is written, with what is written below it. -/
inductive Tree.Itinerary (t : Tree β) : Visit → List Visit → Prop
  | visit {v : Visit} {walks : List (List Visit)} :
      List.Forall₂ (Itinerary t) (t.visitsBelow v) walks → Itinerary t v (v :: walks.flatten)

/-- If each element determines its partner, a list determines the list of partners. -/
theorem forall₂_determined {α γ : Type} {R : α → γ → Prop} {as : List α}
    (h : ∀ a ∈ as, ∃ c, ∀ other, R a other ↔ other = c) :
    ∃ cs, ∀ others, List.Forall₂ R as others ↔ others = cs := by
  induction as with
  | nil => exact ⟨[], fun others => List.forall₂_nil_left_iff⟩
  | cons a as ih =>
    obtain ⟨c, hc⟩ := h a List.mem_cons_self
    obtain ⟨cs, hcs⟩ := ih fun x hx => h x (List.mem_cons_of_mem _ hx)
    refine ⟨c :: cs, fun others => ?_⟩
    rw [List.forall₂_cons_left_iff]
    constructor
    · rintro ⟨b, bs, hb, hbs, rfl⟩
      rw [(hc b).mp hb, (hcs bs).mp hbs]
    · rintro rfl
      exact ⟨c, cs, (hc c).mpr rfl, (hcs cs).mpr rfl, rfl⟩

namespace Tree

variable {t : Tree β}

/-- A block that takes part in serialization is alive. -/
theorem contains_of_serializable {id : BlockId} (h : t.isSerializable id) : t.contains id := by
  unfold isSerializable checkFlag flags at h
  unfold contains
  cases hn : t.node? id with
  | none =>
    have hempty : Flags.empty.contains Flags.serializable = false := by decide
    rw [hn, Option.elim_none, hempty] at h
    cases h
  | some block => rfl

/-- If there is one itinerary for each child that is written, there is one for the block. -/
theorem itinerary_of_below {v : Visit}
    (h : ∀ w ∈ t.visitsBelow v, ∃ visits, ∀ other, t.Itinerary w other ↔ other = visits) :
    ∃ visits, ∀ other, t.Itinerary v other ↔ other = visits := by
  obtain ⟨walks, hwalks⟩ := forall₂_determined h
  refine ⟨v :: walks.flatten, fun other => ⟨?_, ?_⟩⟩
  · rintro ⟨hother⟩
    rw [(hwalks _).mp hother]
  · rintro rfl
    exact .visit ((hwalks walks).mpr rfl)

/-- A subtree with so many levels is gone through in one way. -/
theorem itinerary_of_within {levels : Nat} {v : Visit} (hw : t.Within levels v.id) :
    ∃ visits, ∀ other, t.Itinerary v other ↔ other = visits := by
  induction levels generalizing v with
  | zero =>
    have hnone : t.children v.id = [] := hw
    refine itinerary_of_below fun w hmem => ?_
    rw [visitsBelow, Deflate.writtenChildren, hnone] at hmem
    exact absurd hmem List.not_mem_nil
  | succ levels ih =>
    refine itinerary_of_below fun w hmem => ?_
    obtain ⟨child, hchild, rfl⟩ := List.mem_map.mp hmem
    exact ih (hw child (List.mem_filter.mp hchild).1)

end Tree

/-! ### Records and obstacles -/

namespace Site

/-- The name of the type of a block and the values that are stored of it, unless the type has no
entry. -/
def contents? (s : Site β) (id : BlockId) : Option (String × List (Property β × Value)) :=
  (s.typeOf? id).bind fun type =>
    (s.tree.payload? id).map fun payload => (type.name, type.storedValues payload)

/-- The record of a block: four words, of which the second is the identifier of its type and the
others are the length of its properties, their number and the number of the children that are
written; and then the properties. -/
def record (s : Site β) (id : BlockId) : Bytes :=
  (s.contents? id).elim [] fun (name, values) =>
    Bytes.ofWord32 (UInt32.ofNat (values.flatMap encodeStored).length)
      ++ Bytes.ofWord32 (nameHash name) ++ Bytes.ofWord32 (UInt32.ofNat values.length)
      ++ Bytes.ofWord32 (UInt32.ofNat (Deflate.writtenChildren s.tree id).length)
      ++ values.flatMap encodeStored

/-- Why a block cannot be written where it stands: it is nested too deep, its type has no entry, or
its properties are too long. -/
def obstacle? (s : Site β) (settings : Settings) (v : Visit) : Option CodecError :=
  if settings.maxDepth ≤ v.depth then some (.depthExceeded settings.maxDepth)
  else
    match s.contents? v.id with
    | none => some (.unregistered v.id)
    | some (_, values) =>
      if settings.maxPayloadSize.toNat < (values.flatMap encodeStored).length then
        some (.payloadTooLarge (values.flatMap encodeStored).length settings.maxPayloadSize)
      else none

variable {s : Site β}

/-- What is stored of a live block is told by its entry. -/
theorem contents?_of_node? {id : BlockId} {block : Node β} (h : s.tree.node? id = some block) :
    s.contents? id = (block.entry.bind s.catalogue.entryAt?).map fun entry =>
      (entry.name, entry.type.storedValues block.payload) := by
  have hmade : s.tree.entryRef? id = block.entry := by
    rw [Tree.entryRef?, h]
    rfl
  have hheld : s.tree.payload? id = some block.payload := by
    rw [Tree.payload?, h]
    rfl
  rw [contents?, typeOf?, hmade, hheld]
  cases block.entry.bind s.catalogue.entryAt? <;> rfl

end Site

namespace Deflate

variable {s : Site β} {settings : Settings} {total : Nat} {o o' : Outflow}

/-! ### One block -/

/-- Data were written as if nothing limited the sink, and the monitor was asked once. -/
structure Wrote (o o' : Outflow) (data : Bytes) : Prop where
  bytes : o'.outlet.bytes = o.outlet.bytes ++ data
  room : o'.outlet.room = none
  answer : o'.monitor.answer = o.monitor.answer
  polls : o'.monitor.polls = o.monitor.polls + 1

/-- The walk after its monitor was asked. -/
def polled (o : Outflow) : Outflow := { o with monitor := o.monitor.poll.2 }

/-- A sink without a limit takes all data. -/
theorem write_of_room (h : o.outlet.room = none) (data : Bytes) :
    o.write data = (.ok (), { o with outlet := ⟨none, data :: o.outlet.pieces⟩ }) := by
  unfold Outflow.write Outlet.write
  rw [h]

/-- Where nothing limits the sink, a record is written unless its properties are too long. -/
theorem writeRecord_of_room (childCount total : Nat) (h : o.outlet.room = none) {entry : Entry β}
    {payload : β} (hsmall : ((pairs entry payload).flatMap encodePair).length ≤
      settings.maxPayloadSize.toNat) :
    ∃ o', writeRecord settings entry payload childCount total (polled o) = (.ok (), o') ∧
      o'.outlet.room = none ∧ o'.monitor.answer = o.monitor.answer ∧
        o'.monitor.polls = o.monitor.polls + 1 := by
  have hpolled : (polled o).outlet.room = none := h
  unfold writeRecord
  simp only [if_neg (Nat.not_lt.mpr hsmall), write_of_room hpolled]
  rw [write_of_room rfl]
  exact ⟨_, rfl, rfl, rfl, rfl⟩

/-- Where the monitor does not agree, the block is not looked at. -/
theorem node_of_refused (h : ¬ o.monitor.poll.1) (levels : Nat) (id : BlockId) :
    node settings s.catalogue s.tree total levels o id = (.ok .canceled, polled o) := by
  unfold node
  simp only [h, Bool.not_false, if_true]
  rfl

/-- A walk that may go on either ends at an obstacle, without writing anything of the block, or
writes the record of the block and goes on to its children. -/
theorem node_step (hc : s.catalogue.Consistent) (total : Nat) (hroom : o.outlet.room = none)
    (hpoll : o.monitor.poll.1) {levels : Nat} {v : Visit} (hv : s.tree.isSerializable v.id)
    (hdepth : v.depth + levels = settings.maxDepth) :
    (∃ e, s.obstacle? settings v = some e ∧
        node settings s.catalogue s.tree total levels o v.id = (.error e, polled o)) ∨
      (s.obstacle? settings v = none ∧ ∃ left o', levels = left + 1 ∧
        Wrote o o' (s.record v.id) ∧ node settings s.catalogue s.tree total levels o v.id =
          each (node settings s.catalogue s.tree total left) o' (writtenChildren s.tree v.id)) := by
  obtain ⟨block, hblock⟩ := Option.isSome_iff_exists.mp (Tree.contains_of_serializable hv)
  -- The walk makes its checks in the order in which the obstacles are listed.
  unfold node Site.obstacle?
  simp only [hpoll, hblock, hv, Bool.not_true, Bool.false_eq_true, if_false]
  cases levels with
  | zero =>
    left
    rw [if_pos (by omega)]
    exact ⟨_, rfl, rfl⟩
  | succ levels =>
    rw [if_neg (by omega), Site.contents?_of_node? hblock]
    cases hentry : block.entry.bind s.catalogue.entryAt? with
    | none =>
      left
      exact ⟨_, rfl, rfl⟩
    | some entry =>
      obtain ⟨ref, -, href⟩ := Option.bind_eq_some_iff.mp hentry
      obtain ⟨hfaithful, hproperties⟩ := PropertyTable.faithful_of_build (hc.table ref entry href)
      have hdata := data_eq_flatMap_encodeStored hfaithful hproperties block.payload
      simp only [Option.map_some, ← hdata]
      by_cases hlarge : settings.maxPayloadSize.toNat <
          ((pairs entry block.payload).flatMap encodePair).length
      · left
        refine ⟨_, if_pos hlarge, ?_⟩
        simp only [writeRecord, if_pos hlarge]
        rfl
      · right
        obtain ⟨o', hwrite, hroom', hanswer, hpolls⟩ := writeRecord_of_room
          (writtenChildren s.tree v.id).length total hroom (Nat.not_lt.mp hlarge)
        refine ⟨if_neg hlarge, levels, o', rfl, ⟨?_, hroom', hanswer, hpolls⟩, ?_⟩
        · rw [(bytes_of_writeRecord hwrite).2, toBytes_header, Site.record,
            Site.contents?_of_node? hblock, hentry, hdata, length_pairs_eq hfaithful hproperties]
          rfl
        · unfold polled at hwrite
          simp only [hwrite]

/-! ### The walk along the list -/

/-- A walk along a list, and how it ends. -/
inductive Walks (s : Site β) (settings : Settings) :
    Outflow → List Visit → Except CodecError DeflateStatus × Outflow → Prop
  | done (o : Outflow) : Walks s settings o [] (.ok .success, o)
  | canceled {o : Outflow} {v : Visit} {visits : List Visit} (refused : ¬ o.monitor.poll.1) :
      Walks s settings o (v :: visits) (.ok .canceled, polled o)
  | failed {o : Outflow} {v : Visit} {visits : List Visit} {e : CodecError}
      (agreed : o.monitor.poll.1) (obstacle : s.obstacle? settings v = some e) :
      Walks s settings o (v :: visits) (.error e, polled o)
  | written {o o' : Outflow} {v : Visit} {visits : List Visit}
      {out : Except CodecError DeflateStatus × Outflow} (agreed : o.monitor.poll.1)
      (clear : s.obstacle? settings v = none) (wrote : Wrote o o' (s.record v.id))
      (further : Walks s settings o' visits out) : Walks s settings o (v :: visits) out

variable {visits more : List Visit} {result : Except CodecError DeflateStatus}
  {out : Except CodecError DeflateStatus × Outflow}

/-- A walk along a list never passes over it. -/
theorem Walks.ne_skipped (h : Walks s settings o visits out) : out.1 ≠ .ok .skipped := by
  induction h with
  | done => simp
  | canceled => simp
  | failed => simp
  | written _ _ _ _ ih => exact ih

/-- A walk does not bring a limit to a sink that has none. -/
theorem Walks.room (h : Walks s settings o visits out) (hroom : o.outlet.room = none) :
    out.2.outlet.room = none := by
  induction h with
  | done => exact hroom
  | canceled => exact hroom
  | failed => exact hroom
  | written _ _ wrote _ ih => exact ih wrote.room

/-- A walk that succeeds goes on along what follows in the list. -/
theorem Walks.append (h : Walks s settings o visits (.ok .success, o'))
    (hmore : Walks s settings o' more out) : Walks s settings o (visits ++ more) out := by
  generalize hout : (Except.ok DeflateStatus.success, o') = before at h
  induction h with
  | done =>
    cases hout
    exact hmore
  | canceled => cases hout
  | failed => cases hout
  | written agreed clear wrote _ ih => exact .written agreed clear wrote (ih hout)

/-- A walk that does not succeed has nothing to do with what follows in the list. -/
theorem Walks.append_of_ne (h : Walks s settings o visits out) (hne : out.1 ≠ .ok .success)
    (more : List Visit) : Walks s settings o (visits ++ more) out := by
  induction h with
  | done => exact absurd rfl hne
  | canceled refused => exact .canceled refused
  | failed agreed obstacle => exact .failed agreed obstacle
  | written agreed clear wrote _ ih => exact .written agreed clear wrote (ih hne)

/-- Blocks that are written one after the other are a walk along all that is written with them. -/
theorem walks_each {write : Outflow → BlockId → Except CodecError DeflateStatus × Outflow}
    {R : BlockId → List Visit → Prop} {ids : List BlockId} {walks : List (List Visit)}
    (hwalks : List.Forall₂ R ids walks)
    (hwrite : ∀ id ∈ ids, ∀ visits, R id visits → ∀ o : Outflow, o.outlet.room = none →
      Walks s settings o visits (write o id)) (hroom : o.outlet.room = none) :
    Walks s settings o walks.flatten (each write o ids) := by
  induction hwalks generalizing o with
  | nil => exact .done o
  | @cons id visits ids walks hfirst _ ih =>
    have hwalk := hwrite id List.mem_cons_self visits hfirst o hroom
    rw [List.flatten_cons]
    unfold each
    split
    · next e o₁ hid =>
      rw [hid] at hwalk
      exact hwalk.append_of_ne (by simp) _
    · next o₁ hid =>
      rw [hid] at hwalk
      exact hwalk.append_of_ne (by simp) _
    · next status o₁ hnot hid =>
      rw [hid] at hwalk
      cases status with
      | success =>
        exact hwalk.append (ih (fun x hx => hwrite x (List.mem_cons_of_mem _ hx))
          (hwalk.room hroom))
      | skipped => exact absurd rfl hwalk.ne_skipped
      | canceled => exact absurd rfl hnot

/-- The walk down the tree is the walk along the list of the blocks that are written. -/
theorem walks_node (hc : s.catalogue.Consistent) (total levels : Nat) {v : Visit}
    (hv : s.tree.isSerializable v.id) (hdepth : v.depth + levels = settings.maxDepth)
    (hvisits : s.tree.Itinerary v visits) (hroom : o.outlet.room = none) :
    Walks s settings o visits (node settings s.catalogue s.tree total levels o v.id) := by
  -- That a level is left comes out of the step only, so the levels are not split here.
  induction levels using Nat.strong_induction_on generalizing v visits o with
  | _ levels ih =>
    obtain ⟨hbelow⟩ := hvisits
    by_cases hpoll : o.monitor.poll.1
    · obtain ⟨e, he, hnode⟩ | ⟨hclear, left, o', rfl, hwrote, hnode⟩ :=
        node_step hc total hroom hpoll hv hdepth
      · rw [hnode]
        exact .failed hpoll he
      · rw [hnode]
        refine .written hpoll hclear hwrote
          (walks_each (List.forall₂_map_left_iff.mp hbelow) ?_ hwrote.room)
        intro child hmem visits hvisits o hroom
        have hdeeper : v.depth + 1 + left = settings.maxDepth := by omega
        exact ih left left.lt_succ_self (v := ⟨child, v.depth + 1⟩) (List.mem_filter.mp hmem).2
          hdeeper hvisits hroom
    · rw [node_of_refused hpoll]
      exact .canceled hpoll

/-! ### How a walk ends -/

/-- The position of the first block of a list that meets an obstacle. If none does, this is the
length of the list. -/
def firstObstacle (s : Site β) (settings : Settings) (visits : List Visit) : Nat :=
  visits.findIdx fun v => (s.obstacle? settings v).isSome

/-- How a walk along a list ends if its monitor agrees so many times and then no more. It comes to
the blocks that it writes and, if there are more, to the next one, and asks once at each. It writes
the blocks before the first obstacle as far as the monitor agrees, each with its whole record. -/
structure Ends (s : Site β) (settings : Settings) (visits : List Visit) (agreed asked : Nat)
    (data : Bytes) (result : Except CodecError DeflateStatus) : Prop where
  asked_eq : asked = (visits.take (min agreed (firstObstacle s settings visits) + 1)).length
  data_eq : data = (visits.take (min agreed (firstObstacle s settings visits))).flatMap
    fun v => s.record v.id
  success_iff : result = .ok .success ↔
    visits.length ≤ agreed ∧ ∀ v ∈ visits, s.obstacle? settings v = none
  canceled_iff : result = .ok .canceled ↔
    agreed < visits.length ∧ agreed ≤ firstObstacle s settings visits
  error_iff : ∀ e, result = .error e ↔ firstObstacle s settings visits < agreed ∧
    ∃ v, visits[firstObstacle s settings visits]? = some v ∧ s.obstacle? settings v = some e

variable {v : Visit} {e : CodecError}

/-- If the first block meets an obstacle, it is the first to do so. -/
theorem firstObstacle_cons_of_some (h : s.obstacle? settings v = some e) (visits : List Visit) :
    firstObstacle s settings (v :: visits) = 0 := by
  rw [firstObstacle, List.findIdx_cons, h]
  rfl

/-- If the first block meets none, the first obstacle is one further on than among the others. -/
theorem firstObstacle_cons_of_none (h : s.obstacle? settings v = none) (visits : List Visit) :
    firstObstacle s settings (v :: visits) = firstObstacle s settings visits + 1 := by
  rw [firstObstacle, List.findIdx_cons, h]
  rfl

/-- A walk along no blocks ends well and asks nothing. -/
theorem ends_done (agreed : Nat) : Ends s settings [] agreed 0 [] (.ok .success) := by
  constructor <;> simp

/-- If the monitor agrees no more, the walk asks once and is canceled before the next block. -/
theorem ends_canceled (v : Visit) (visits : List Visit) :
    Ends s settings (v :: visits) 0 1 [] (.ok .canceled) := by
  constructor <;> simp

/-- If it agrees and the block meets an obstacle, the walk has asked once and fails without having
written it. -/
theorem ends_failed (h : s.obstacle? settings v = some e) (visits : List Visit) (agreed : Nat) :
    Ends s settings (v :: visits) (agreed + 1) 1 [] (.error e) := by
  constructor <;> simp [firstObstacle_cons_of_some h, h]

/-- If it agrees and the block meets no obstacle, its record is written, and the rest of the walk
ends as it does. -/
theorem Ends.cons {agreed asked : Nat} {data : Bytes}
    (hends : Ends s settings visits agreed asked data result)
    (h : s.obstacle? settings v = none) :
    Ends s settings (v :: visits) (agreed + 1) (asked + 1) (s.record v.id ++ data) result := by
  obtain ⟨hasked, hdata, hsuccess, hcanceled, herror⟩ := hends
  have hfirst := firstObstacle_cons_of_none h visits
  constructor
  · rw [hfirst, hasked, Nat.add_min_add_right, List.take_succ_cons, List.length_cons]
  · rw [hfirst, hdata, Nat.add_min_add_right, List.take_succ_cons, List.flatMap_cons]
  · rw [hsuccess, List.length_cons, Nat.add_le_add_iff_right, List.forall_mem_cons]
    simp only [h, true_and]
  · rw [hcanceled, hfirst, List.length_cons, Nat.add_lt_add_iff_right, Nat.add_le_add_iff_right]
  · intro e
    rw [herror, hfirst, List.getElem?_cons_succ, Nat.add_lt_add_iff_right]

/-- The end of a walk is where the monitor agrees no more or an obstacle is met. -/
theorem Walks.ends (h : Walks s settings o visits out) {agreed : Nat}
    (hyes : ∀ n < agreed, o.monitor.answer (o.monitor.polls + n))
    (hno : ¬ o.monitor.answer (o.monitor.polls + agreed)) :
    ∃ asked data, Ends s settings visits agreed asked data out.1 ∧
      out.2.monitor.polls = o.monitor.polls + asked ∧
        out.2.outlet.bytes = o.outlet.bytes ++ data := by
  induction h generalizing agreed with
  | done => exact ⟨0, [], ends_done agreed, rfl, (List.append_nil _).symm⟩
  | @canceled o v visits hrefused =>
    obtain rfl : agreed = 0 := by
      by_contra hpos
      exact hrefused (hyes 0 (Nat.pos_of_ne_zero hpos))
    exact ⟨1, [], ends_canceled v visits, rfl, (List.append_nil _).symm⟩
  | @failed o v visits e hagreed hobstacle =>
    cases agreed with
    | zero => exact absurd hagreed hno
    | succ agreed =>
      exact ⟨1, [], ends_failed hobstacle visits agreed, rfl, (List.append_nil _).symm⟩
  | @written o o' v visits out hagreed hclear hwrote _ ih =>
    cases agreed with
    | zero => exact absurd hagreed hno
    | succ agreed =>
      have hnext : ∀ n, o'.monitor.answer (o'.monitor.polls + n) =
          o.monitor.answer (o.monitor.polls + (n + 1)) := by
        intro n
        rw [hwrote.answer, hwrote.polls, Nat.add_assoc, Nat.add_comm 1 n]
      obtain ⟨asked, data, hends, hpolls, hbytes⟩ := ih
        (fun n hn => hnext n ▸ hyes (n + 1) (Nat.succ_lt_succ hn)) (hnext agreed ▸ hno)
      refine ⟨asked + 1, s.record v.id ++ data, hends.cons hclear, ?_, ?_⟩
      · rw [hpolls, hwrote.polls, Nat.add_assoc, Nat.add_comm 1 asked]
      · rw [hbytes, hwrote.bytes, List.append_assoc]

end Deflate

namespace Site

variable {s : Site β} [Payload β]

/-- The blocks that are written with a root stand in one order, each at a depth. If the monitor
agrees so many times and then no more, a walk that is not limited by its sink has asked once for
each block it came to, and has put into the sink the records of all blocks before the end of the
monitor's agreement and before the first obstacle. It succeeds if the monitor agrees to all blocks
and none meets an obstacle, it is canceled if the monitor stops it before an obstacle does, or where
one would, and otherwise the error is that of the first obstacle. -/
theorem ends_of_deflate (hs : Reached Guarded s) (settings : Settings) {root : BlockId}
    (hroot : s.tree.isSerializable root) {sink : Sink} (hsink : sink.limit = none)
    {watcher : Monitor} {agreed : Nat}
    (hyes : ∀ n < agreed, watcher.answer (watcher.polls + n))
    (hno : ¬ watcher.answer (watcher.polls + agreed)) :
    ∃ visits, (∀ other, s.tree.Itinerary ⟨root, 0⟩ other ↔ other = visits) ∧
      let (result, sink', watcher') := deflate settings s.catalogue s.tree root sink watcher
      ∃ asked data, Deflate.Ends s settings visits agreed asked data result ∧
        watcher'.polls = watcher.polls + asked ∧ sink' = sink.put data := by
  have hwithin := (hs.sound.forest.upright (Tree.contains_of_serializable hroot)).within
  obtain ⟨visits, hvisits⟩ := Tree.itinerary_of_within (v := ⟨root, 0⟩) hwithin
  refine ⟨visits, hvisits, ?_⟩
  have hroom : sink.outlet.room = none := by
    rw [Sink.outlet, hsink]
    rfl
  have hwalks := Deflate.walks_node (s := s) (o := ⟨sink.outlet, watcher, 0⟩) hs.consistent
    (s.tree.totalSize root + 1) settings.maxDepth (v := ⟨root, 0⟩) hroot
    (Nat.zero_add settings.maxDepth) ((hvisits visits).mpr rfl) hroom
  obtain ⟨asked, data, hends, hpolls, hbytes⟩ := hwalks.ends hyes hno
  refine ⟨asked, data, hends, hpolls, ?_⟩
  exact congrArg sink.put hbytes

/-- The shelf is walked from the library to the leaf. -/
theorem itinerary_shelf :
    shelf.tree.Itinerary ⟨⟨0, 0⟩, 0⟩ [⟨⟨0, 0⟩, 0⟩, ⟨⟨1, 0⟩, 1⟩] := by
  have hlibrary : shelf.tree.visitsBelow ⟨⟨0, 0⟩, 0⟩ = [⟨⟨1, 0⟩, 1⟩] := by decide +kernel
  have hleaf : shelf.tree.visitsBelow ⟨⟨1, 0⟩, 1⟩ = [] := by decide +kernel
  have hbelow : shelf.tree.Itinerary ⟨⟨1, 0⟩, 1⟩
      (⟨⟨1, 0⟩, 1⟩ :: ([] : List (List Visit)).flatten) := .visit (hleaf ▸ .nil)
  have hroot : shelf.tree.Itinerary ⟨⟨0, 0⟩, 0⟩ (⟨⟨0, 0⟩, 0⟩ :: [[⟨⟨1, 0⟩, 1⟩]].flatten) :=
    .visit (hlibrary ▸ .cons hbelow .nil)
  exact hroot

/-- Only one level is allowed, so the leaf on the shelf cannot be written. If the monitor does not
agree to it the walk is canceled, and otherwise it fails. In both cases the record of the library
was written. -/
theorem ends_of_deflate_shelf :
    let shallow := { Settings.defaults with maxDepth := 1 }
    let write := fun agreed =>
      deflate shallow shelf.catalogue shelf.tree ⟨0, 0⟩ (Sink.empty none) (Monitor.upTo agreed)
    let sink := (Sink.empty none).put (shelf.record ⟨0, 0⟩)
    ((write 1).1 = .ok .canceled ∧ (write 1).2.1 = sink) ∧
      (write 2).1 = .error (.depthExceeded 1) ∧ (write 2).2.1 = sink := by
  intro shallow write sink
  have hroot : shelf.tree.isSerializable ⟨0, 0⟩ := by decide +kernel
  have hends : ∀ agreed, ∃ asked data, Deflate.Ends shelf shallow
      [⟨⟨0, 0⟩, 0⟩, ⟨⟨1, 0⟩, 1⟩] agreed asked data (write agreed).1 ∧
        (write agreed).2.1 = (Sink.empty none).put data := by
    intro agreed
    have hyes : ∀ n < agreed, (Monitor.upTo agreed).answer ((Monitor.upTo agreed).polls + n) := by
      simp [Monitor.upTo, Monitor.of]
    have hno : ¬ (Monitor.upTo agreed).answer ((Monitor.upTo agreed).polls + agreed) := by
      simp [Monitor.upTo, Monitor.of]
    obtain ⟨visits, hvisits, asked, data, hends, -, hsink⟩ := ends_of_deflate
      reached_shelf.guarded shallow hroot (show (Sink.empty none).limit = none from rfl) hyes hno
    rw [← (hvisits _).mp itinerary_shelf] at hends
    exact ⟨asked, data, hends, hsink⟩
  have hfirst : Deflate.firstObstacle shelf shallow [⟨⟨0, 0⟩, 0⟩, ⟨⟨1, 0⟩, 1⟩] = 1 := by
    decide +kernel
  have hobstacle : shelf.obstacle? shallow ⟨⟨1, 0⟩, 1⟩ = some (.depthExceeded 1) := rfl
  obtain ⟨_, data, hstopped, hdata⟩ := hends 1
  obtain ⟨_, data', hfailed, hdata'⟩ := hends 2
  refine ⟨⟨hstopped.canceled_iff.mpr (by simp [hfirst]), ?_⟩,
    (hfailed.error_iff _).mpr (by simp [hfirst, hobstacle]), ?_⟩
  · rw [hdata, hstopped.data_eq, hfirst]
    exact congrArg _ (List.append_nil _)
  · rw [hdata', hfailed.data_eq, hfirst]
    exact congrArg _ (List.append_nil _)

end Site

end BlockForest
