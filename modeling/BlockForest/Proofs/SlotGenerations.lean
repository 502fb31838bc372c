import Mathlib
import BlockForest.Proofs.FailedInflate

/-!
# Which names slots have given out

A block gets the number of its slot and the generation of the slot for a name, and the generation
counts, modulo 2^32, how many blocks have left the slot. So a name comes back only when so many
blocks have left the slot that the count has gone round. To say this of a run one has to know what
happened in it: a `Passage` is a block that comes or one that leaves, and `Tree.Chronicle` lists the
passages between two trees, where all else that is done keeps the tenancy of the slots. Each
operation has such a list (`Tree.Chronicle.perform`), and `Site.Recorded` puts them together for a
run.

What is known of the slots can be read off the list (`Tracked`): who is in a slot, and how many have
left it. The list itself is `Lawful`, which means that each name is the one that the slot had to
give out at the time, and that it was given out when nobody was in the slot.
-/

set_option autoImplicit false

namespace BlockForest

variable {β : Type}

/-- A block comes into a slot, or it leaves one. -/
inductive Passage where
  | came (id : BlockId)
  | left (id : BlockId)

namespace Passage

/-- Whether a block leaves this slot. -/
def empties (index : Nat) : Passage → Bool
  | .came _ => false
  | .left id => id.index == index

/-- Who is in a slot after a passage. -/
def settle (index : Nat) (before : Option BlockId) : Passage → Option BlockId
  | .came id => if id.index = index then some id else before
  | .left id => if id.index = index then none else before

end Passage

/-- How many blocks have left a slot. -/
def departures (log : List Passage) (index : Nat) : Nat := log.countP (Passage.empties index)

/-- Who is in a slot in the end, if nobody was at first. -/
def resident (log : List Passage) (index : Nat) : Option BlockId :=
  log.foldl (Passage.settle index) none

/-- The name as one number tells the generation and the slot, if the number of the slot fits into
its lower half. -/
theorem BlockId.toNat_runtimeId {id : BlockId} (h : id.index < 2 ^ 32) :
    id.runtimeId.toNat = id.generation.toNat * 2 ^ 32 + id.index := by
  have hg := id.generation.toNat_lt
  have hshift : id.generation.toNat <<< 32 % 2 ^ 64 = id.generation.toNat <<< 32 := by
    rw [Nat.shiftLeft_eq]
    exact Nat.mod_eq_of_lt (by omega)
  have hindex : (UInt64.ofNat id.index).toNat = id.index := by
    rw [UInt64.toNat_ofNat', Nat.mod_eq_of_lt (by omega)]
  rw [runtimeId, UInt64.toNat_or, UInt64.toNat_shiftLeft, UInt32.toNat_toUInt64, hindex]
  show id.generation.toNat <<< 32 % 2 ^ 64 ||| id.index = _
  rw [hshift, ← Nat.shiftLeft_add_eq_or_of_lt h, Nat.shiftLeft_eq]

/-- The number that a name is packed into determines the name, as long as the index takes 32
bits. -/
theorem BlockId.eq_of_runtimeId {a b : BlockId} (ha : a.index < 2 ^ 32) (hb : b.index < 2 ^ 32)
    (h : a.runtimeId = b.runtimeId) : a = b := by
  have hnat := congrArg UInt64.toNat h
  rw [toNat_runtimeId ha, toNat_runtimeId hb] at hnat
  obtain ⟨i, g⟩ := a
  obtain ⟨j, k⟩ := b
  simp only at ha hb hnat
  have hg : g = k := UInt32.toNat_inj.mp (by omega)
  have hi : i = j := by omega
  rw [hg, hi]

section Log

variable {log a b c : List Passage} {id : BlockId} {index : Nat} {p q : Passage}

/-- Departures of two parts of a log add up. -/
theorem departures_append (a b : List Passage) (index : Nat) :
    departures (a ++ b) index = departures a index + departures b index := List.countP_append

/-- Who comes into a slot does not leave one. -/
@[simp] theorem departures_came (id : BlockId) (index : Nat) :
    departures [.came id] index = 0 := rfl

/-- Who leaves a slot adds one departure to it and none to the others. -/
@[simp] theorem departures_left (id : BlockId) (index : Nat) :
    departures [.left id] index = if id.index = index then 1 else 0 := by
  by_cases hi : id.index = index
  · simp [departures, Passage.empties, hi]
  · simp [departures, Passage.empties, hi]

/-- Who is in a slot after one more passage depends on who was in it before. -/
@[simp] theorem resident_concat (log : List Passage) (p : Passage) (index : Nat) :
    resident (log ++ [p]) index = p.settle index (resident log index) := by
  rw [resident, List.foldl_append]
  rfl

/-- Where a list with one more item can be cut. -/
theorem concat_eq_append_cons {α : Type} {l a b : List α} {p q : α}
    (h : l ++ [p] = a ++ q :: b) :
    (b = [] ∧ a = l ∧ q = p) ∨ ∃ b', b = b' ++ [p] ∧ l = a ++ q :: b' := by
  rcases List.eq_nil_or_concat b with rfl | ⟨b', r, rfl⟩
  · obtain ⟨rfl, hp⟩ := List.append_inj' h rfl
    cases hp
    exact .inl ⟨rfl, rfl, rfl⟩
  · rw [List.concat_eq_append, ← List.cons_append, ← List.append_assoc] at h
    obtain ⟨rfl, hp⟩ := List.append_inj' h rfl
    cases hp
    exact .inr ⟨b', List.concat_eq_append .., rfl⟩

/-- As long as nobody leaves a slot, it is not empty again. -/
theorem resident_isSome (h : (resident a index).isSome) (hb : departures b index = 0) :
    (resident (a ++ b) index).isSome := by
  induction b using List.reverseRecOn with
  | nil => rwa [List.append_nil]
  | append_singleton b p ih =>
    rw [departures_append] at hb
    have hbefore := ih (by omega)
    rw [← List.append_assoc, resident_concat]
    cases p with
    | came id =>
      rw [Passage.settle]
      split
      · rfl
      · exact hbefore
    | left id =>
      have hne : id.index ≠ index := by
        intro heq
        rw [departures_left, if_pos heq] at hb
        omega
      rwa [Passage.settle, if_neg hne]

/-- Each block that comes gets the name that its slot has to give out, while nobody is in it, and
whoever leaves has been there. -/
structure Lawful (log : List Passage) : Prop where
  came : ∀ a id b, log = a ++ .came id :: b →
    resident a id.index = none ∧ id.generation = UInt32.ofNat (departures a id.index)
  left : ∀ a id b, log = a ++ .left id :: b →
    resident a id.index = some id ∧ id.generation = UInt32.ofNat (departures a id.index)

/-- A log without passages is lawful. -/
theorem lawful_nil : Lawful [] where
  came a id b h := by simp at h
  left a id b h := by simp at h

/-- A log stays lawful if a block comes into a slot where nobody is, under the generation that the
departures give. -/
theorem Lawful.concat_came (h : Lawful log) (hout : resident log id.index = none)
    (hg : id.generation = UInt32.ofNat (departures log id.index)) :
    Lawful (log ++ [.came id]) where
  came a other b heq := by
    rcases concat_eq_append_cons heq with ⟨-, rfl, hp⟩ | ⟨b', -, hlog⟩
    · cases hp
      exact ⟨hout, hg⟩
    · exact h.came a other b' hlog
  left a other b heq := by
    rcases concat_eq_append_cons heq with ⟨-, -, hp⟩ | ⟨b', -, hlog⟩
    · cases hp
    · exact h.left a other b' hlog

/-- A log stays lawful if the block that is in a slot leaves it. -/
theorem Lawful.concat_left (h : Lawful log) (hin : resident log id.index = some id)
    (hg : id.generation = UInt32.ofNat (departures log id.index)) :
    Lawful (log ++ [.left id]) where
  came a other b heq := by
    rcases concat_eq_append_cons heq with ⟨-, -, hp⟩ | ⟨b', -, hlog⟩
    · cases hp
    · exact h.came a other b' hlog
  left a other b heq := by
    rcases concat_eq_append_cons heq with ⟨-, rfl, hp⟩ | ⟨b', -, hlog⟩
    · cases hp
      exact ⟨hin, hg⟩
    · exact h.left a other b' hlog

/-- Two numbers denoted by one word differ by whole rounds. -/
theorem exists_rounds {m n : Nat} (hn : n ≠ 0) (h : UInt32.ofNat m = UInt32.ofNat (m + n)) :
    ∃ rounds, 0 < rounds ∧ n = rounds * 2 ^ 32 := by
  have hmod := congrArg UInt32.toNat h
  rw [UInt32.toNat_ofNat', UInt32.toNat_ofNat'] at hmod
  obtain ⟨rounds, hrounds⟩ : 2 ^ 32 ∣ n := by
    have := (Nat.modEq_iff_dvd' (Nat.le_add_right m n)).mp hmod
    rwa [Nat.add_sub_cancel_left] at this
  refine ⟨rounds, Nat.pos_of_ne_zero ?_, by rw [hrounds, Nat.mul_comm]⟩
  rintro rfl
  exact hn hrounds

/-- A block that comes after `b` has the name of someone who was in the slot before only if the
generations have gone round in between. -/
theorem Lawful.rounds (h : Lawful (a ++ b ++ .came id :: c)) (hin : resident a id.index = some id)
    (hg : id.generation = UInt32.ofNat (departures a id.index)) :
    ∃ rounds, 0 < rounds ∧ departures b id.index = rounds * 2 ^ 32 := by
  obtain ⟨hout, hcame⟩ := h.came (a ++ b) id c rfl
  rw [departures_append, hg] at hcame
  refine exists_rounds ?_ hcame
  intro hzero
  have hstay := resident_isSome (hin ▸ rfl : (resident a id.index).isSome) hzero
  rw [hout] at hstay
  cases hstay

end Log

/-! ### Slots and the list of passages -/

namespace Tree

variable {t t' u v : Tree β} {log : List Passage} {id : BlockId}

/-- A tenancy that stays the same has the same slot at each index. -/
theorem SameTenancy.getElem? (h : t.SameTenancy t') (index : Nat) :
    (t'.slots[index]?).map Slot.tenancy = (t.slots[index]?).map Slot.tenancy := by
  have hmap := congrArg (fun tenancies : Array (UInt32 × Bool) => tenancies[index]?) h.slots
  simpa using hmap

/-- A tenancy that stays the same has as many slots. -/
theorem SameTenancy.size_slots (h : t.SameTenancy t') : t'.slots.size = t.slots.size := by
  have hsize := congrArg Array.size h.slots
  rwa [Array.size_map, Array.size_map] at hsize

/-- Who is in a slot can be read off its tenancy. -/
theorem tenant?_eq_tenancy (t : Tree β) (index : Nat) :
    t.tenant? index = ((t.slots[index]?).map Slot.tenancy).bind fun tenancy =>
      if tenancy.2 then some ⟨index, tenancy.1⟩ else none := by
  rw [tenant?, Option.bind_map]
  congr 1
  funext slot
  cases hn : slot.node <;> simp [Slot.tenancy, hn]

/-- A tenancy that stays the same has the same tenants. -/
theorem SameTenancy.tenant? (h : t.SameTenancy t') (index : Nat) :
    t'.tenant? index = t.tenant? index := by
  rw [tenant?_eq_tenancy, tenant?_eq_tenancy, h.getElem?]

/-- That a slot is vacant can be read off its tenancy as well. -/
theorem vacant_iff (t : Tree β) (index : Nat) :
    (∃ slot, t.slots[index]? = some slot ∧ slot.node = none) ↔
      ∃ generation, (t.slots[index]?).map Slot.tenancy = some (generation, false) := by
  cases t.slots[index]? with
  | none => simp
  | some slot => simp [Slot.tenancy]

/-- Slots with the same tenancy are as orderly. -/
theorem SameTenancy.orderly (h : t.SameTenancy t') (ho : t.Orderly) : t'.Orderly where
  free_nodup := h.free ▸ ho.free_nodup
  mem_free index := by
    rw [h.free, vacant_iff, h.getElem?, ← vacant_iff]
    exact ho.mem_free index
  size_eq := by
    have htenants : t'.tenants = t.tenants := by
      rw [tenants, h.size_slots, funext h.tenant?, tenants]
    rw [h.size, htenants]
    exact ho.size_eq

/-- Trees with the same slots, free list and size have the same tenancy. -/
theorem sameTenancy_of_eq (hs : t'.slots = t.slots) (hf : t'.free = t.free)
    (hz : t'.size = t.size) : t.SameTenancy t' := ⟨by rw [hs], hf, hz⟩

/-- A live block is the tenant of its slot. -/
theorem tenant?_of_contains (hid : t.contains id) : t.tenant? id.index = some id :=
  tenant?_eq_some_iff.mpr ⟨rfl, hid⟩

/-- A new block is the tenant of its slot, and the others have theirs. -/
theorem tenant?_alloc (ho : t.Orderly) (node : Node β) (index : Nat) :
    (t.alloc node).2.tenant? index =
      if (t.alloc node).1.index = index then some (t.alloc node).1 else t.tenant? index := by
  ext id
  rw [tenant?_eq_some_iff, contains_alloc ho]
  split_ifs with hi
  · rw [Option.some.injEq]
    constructor
    · rintro ⟨hid, rfl | hold⟩
      · rfl
      · have hnew : (t.alloc node).2.contains (t.alloc node).1 :=
          (contains_alloc ho node _).mpr (.inl rfl)
        have hid' := (contains_alloc ho node id).mpr (.inr hold)
        have h₁ := tenant?_eq_some_iff.mpr ⟨hi, hnew⟩
        have h₂ := tenant?_eq_some_iff.mpr ⟨hid, hid'⟩
        rw [h₁] at h₂
        exact Option.some.inj h₂
    · rintro rfl
      exact ⟨hi, .inl rfl⟩
  · rw [tenant?_eq_some_iff]
    constructor
    · rintro ⟨hid, rfl | hold⟩
      · exact absurd hid hi
      · exact ⟨hid, hold⟩
    · rintro ⟨hid, hold⟩
      exact ⟨hid, .inr hold⟩

/-- A slot that is emptied has no tenant, and the others have theirs. -/
theorem tenant?_vacate (hid : t.contains id) (index : Nat) :
    (t.vacate id).tenant? index = if id.index = index then none else t.tenant? index := by
  ext other
  rw [tenant?_eq_some_iff, contains, node?_vacate hid]
  split_ifs with ho hi hi
  · simp
  · subst ho
    simp [hi, tenant?_eq_some_iff]
  · simp only [iff_false, not_and]
    rintro rfl hother
    obtain ⟨nodeA, hA⟩ := Option.isSome_iff_exists.mp hid
    obtain ⟨nodeB, hB⟩ := Option.isSome_iff_exists.mp hother
    exact ho (eq_of_index_eq hB hA hi.symm)
  · rw [tenant?_eq_some_iff]
    rfl

/-- What the list of passages tells of the slots, for a tree that was empty at first. -/
structure Tracked (log : List Passage) (t : Tree β) : Prop where
  orderly : t.Orderly
  lawful : Lawful log
  tenant? : ∀ index, t.tenant? index = resident log index
  generation : ∀ index slot, t.slots[index]? = some slot →
    slot.generation = UInt32.ofNat (departures log index)
  untouched : ∀ index, t.slots.size ≤ index → departures log index = 0
  placed : ∀ id, .came id ∈ log → id.index < t.slots.size

/-- A tree without slots is tracked by a log without passages. -/
theorem tracked_empty (registry : RegistryRef) : Tracked [] (empty registry : Tree β) where
  orderly := orderly_empty registry
  lawful := lawful_nil
  tenant? _ := rfl
  generation index slot h := by simp [empty] at h
  untouched _ _ := rfl
  placed _ h := by simp at h

/-- What leaves the tenancy alone needs no entry in the log. -/
theorem Tracked.quiet (h : Tracked log t) (hs : t.SameTenancy t') : Tracked log t' where
  orderly := hs.orderly h.orderly
  lawful := h.lawful
  tenant? index := (hs.tenant? index).trans (h.tenant? index)
  generation index slot hslot := by
    have hold := hs.getElem? index
    rw [hslot] at hold
    obtain ⟨slot', hslot', heq⟩ := Option.map_eq_some_iff.mp hold.symm
    have hg : slot'.generation = slot.generation := congrArg Prod.fst heq
    rw [← hg]
    exact h.generation index slot' hslot'
  untouched index hi := h.untouched index (hs.size_slots ▸ hi)
  placed id hid := hs.size_slots ▸ h.placed id hid

/-- A block that is alive has the generation of its slot. -/
theorem Tracked.generation_eq (h : Tracked log t) (hid : t.contains id) :
    id.generation = UInt32.ofNat (departures log id.index) := by
  obtain ⟨node, hn⟩ := Option.isSome_iff_exists.mp hid
  exact h.generation id.index _ (node?_eq_some_iff.mp hn)

/-- The log knows each live block as the one that is in its slot. -/
theorem Tracked.resident_eq (h : Tracked log t) (hid : t.contains id) :
    resident log id.index = some id := by
  rw [← h.tenant?]
  exact tenant?_of_contains hid

/-- The name of a new block, and the slots afterwards. -/
theorem Tracked.slot_alloc (h : Tracked log t) (node : Node β) :
    (t.alloc node).1.generation = UInt32.ofNat (departures log (t.alloc node).1.index) ∧
      (∀ index slot, (t.alloc node).2.slots[index]? = some slot →
        slot.generation = UInt32.ofNat (departures log index)) ∧
      t.slots.size ≤ (t.alloc node).2.slots.size := by
  rcases alloc_cases h.orderly node with ⟨index, free, slot, -, hs, -, ha⟩ | ⟨-, ha⟩
  · rw [ha]
    have hlt : index < t.slots.size := (Array.getElem?_eq_some_iff.mp hs).1
    refine ⟨h.generation index slot hs, fun other slot' hslot => ?_, by simp⟩
    by_cases hi : index = other
    · subst hi
      simp only [Array.getElem?_setIfInBounds_self_of_lt hlt, Option.some.injEq] at hslot
      rw [← hslot]
      exact h.generation index slot hs
    · simp only [Array.getElem?_setIfInBounds_ne hi] at hslot
      exact h.generation other slot' hslot
  · rw [ha]
    have hnone : (0 : UInt32) = UInt32.ofNat (departures log t.slots.size) := by
      rw [h.untouched _ le_rfl]
      rfl
    refine ⟨hnone, fun other slot' hslot => ?_, by simp⟩
    simp only [Array.getElem?_push] at hslot
    split_ifs at hslot with hi
    · cases hslot
      rw [hi]
      exact hnone
    · exact h.generation other slot' hslot

/-- When a block comes, the log that tracks the tree gets one more passage. -/
theorem Tracked.came (h : Tracked log t) (node : Node β) :
    Tracked (log ++ [.came (t.alloc node).1]) (t.alloc node).2 := by
  obtain ⟨hg, hslots, hsize⟩ := h.slot_alloc node
  have hout : resident log (t.alloc node).1.index = none := by
    rw [← h.tenant?, Option.eq_none_iff_forall_ne_some]
    intro id hid
    obtain ⟨hi, hold⟩ := tenant?_eq_some_iff.mp hid
    have hboth := tenant?_alloc h.orderly node id.index
    rw [if_pos hi.symm,
      tenant?_of_contains ((contains_alloc h.orderly node id).mpr (.inr hold))] at hboth
    have hfresh := node?_alloc_fresh h.orderly node
    rw [← Option.some.inj hboth] at hfresh
    rw [contains, hfresh] at hold
    cases hold
  refine ⟨h.orderly.alloc node, h.lawful.concat_came hout hg, ?_, ?_, ?_, ?_⟩
  · intro index
    rw [tenant?_alloc h.orderly, resident_concat, h.tenant?]
    rfl
  · intro index slot hslot
    rw [departures_append, departures_came, Nat.add_zero]
    exact hslots index slot hslot
  · intro index hi
    rw [departures_append, departures_came, h.untouched index (hsize.trans hi)]
  · intro id hid
    rcases List.mem_append.mp hid with hid | hid
    · exact (h.placed id hid).trans_le hsize
    · cases List.mem_singleton.mp hid
      have hnew : (t.alloc node).2.contains (t.alloc node).1 :=
        (contains_alloc h.orderly node _).mpr (.inl rfl)
      obtain ⟨node', hn⟩ := Option.isSome_iff_exists.mp hnew
      exact index_lt_of_node? hn

/-- When a block leaves, the log that tracks the tree gets one more passage. -/
theorem Tracked.left (h : Tracked log t) (hid : t.contains id) :
    Tracked (log ++ [.left id]) (t.vacate id) := by
  have hg := h.generation_eq hid
  obtain ⟨node, hn⟩ := Option.isSome_iff_exists.mp hid
  have hlt := index_lt_of_node? hn
  refine ⟨h.orderly.vacate hid, h.lawful.concat_left (h.resident_eq hid) hg, ?_, ?_, ?_, ?_⟩
  · intro index
    rw [tenant?_vacate hid, resident_concat, h.tenant?]
    rfl
  · intro index slot hslot
    rw [departures_append, departures_left]
    by_cases hi : id.index = index
    · subst hi
      simp only [vacate, Array.getElem?_setIfInBounds_self_of_lt hlt, Option.some.injEq] at hslot
      rw [← hslot, if_pos rfl, hg, UInt32.ofNat_add]
      rfl
    · simp only [vacate, Array.getElem?_setIfInBounds_ne hi] at hslot
      rw [if_neg hi]
      exact h.generation index slot hslot
  · intro index hi
    simp only [vacate, Array.size_setIfInBounds] at hi
    rw [departures_append, departures_left, if_neg (by omega), h.untouched index hi]
  · intro other hother
    have hold : .came other ∈ log := by simpa using hother
    simpa [vacate] using h.placed other hold

/-- From one tree to another: blocks come into the tree and leave it, in the order of the list, and
all else that is done keeps the tenancy of the slots. -/
inductive Chronicle (t : Tree β) : List Passage → Tree β → Prop
  | start : Chronicle t [] t
  | quiet {log : List Passage} {u v : Tree β} :
      Chronicle t log u → u.SameTenancy v → Chronicle t log v
  | came {log : List Passage} {u : Tree β} (node : Node β) :
      Chronicle t log u → Chronicle t (log ++ [.came (u.alloc node).1]) (u.alloc node).2
  | left {log : List Passage} {u : Tree β} {id : BlockId} :
      Chronicle t log u → u.contains id → Chronicle t (log ++ [.left id]) (u.vacate id)

/-- By induction on a chronicle, a log that tracked the tree before it tracks it afterwards with the
new passages. -/
theorem Chronicle.tracked {before : List Passage} (h : Chronicle t log u)
    (ht : Tracked before t) : Tracked (before ++ log) u := by
  induction h with
  | start => rwa [List.append_nil]
  | quiet _ hs ih => exact ih.quiet hs
  | came node _ ih =>
    rw [← List.append_assoc]
    exact ih.came node
  | left _ hid ih =>
    rw [← List.append_assoc]
    exact ih.left hid

/-- Who is alive can be read off the slot and the list of passages. -/
theorem Tracked.contains_iff (h : Tracked log t) (id : BlockId) :
    t.contains id ↔ (∃ slot, t.slots[id.index]? = some slot ∧ slot.node.isSome) ∧
      id.generation.toNat = departures log id.index % 2 ^ 32 := by
  constructor
  · intro hid
    obtain ⟨node, hn⟩ := Option.isSome_iff_exists.mp hid
    refine ⟨⟨_, node?_eq_some_iff.mp hn, rfl⟩, ?_⟩
    rw [h.generation_eq hid, UInt32.toNat_ofNat']
  · rintro ⟨⟨⟨generation, tenant⟩, hslot, hsome⟩, hg⟩
    obtain ⟨node, rfl⟩ := Option.isSome_iff_exists.mp hsome
    have heq : generation = id.generation := by
      rw [← UInt32.toNat_inj, hg, ← UInt32.toNat_ofNat']
      exact congrArg UInt32.toNat (h.generation id.index _ hslot)
    rw [heq] at hslot
    exact contains_of_node? (node?_eq_some_iff.mpr hslot)

/-- While less than all generations of a slot have been used, whoever left it stays away. -/
theorem Tracked.not_contains_of_left (h : Tracked log t) (hleft : .left id ∈ log)
    (hfew : departures log id.index < 2 ^ 32) : ¬ t.contains id := by
  intro hid
  obtain ⟨a, b, rfl⟩ := List.append_of_mem hleft
  have hthen := congrArg UInt32.toNat (h.lawful.left a id b rfl).2
  have hnow := ((h.contains_iff id).mp hid).2
  rw [← List.singleton_append, ← List.append_assoc] at hfew hnow
  rw [departures_append, departures_append, departures_left, if_pos rfl] at hfew hnow
  rw [UInt32.toNat_ofNat'] at hthen
  omega

/-- A block that comes in the course of some changes has a name that was not in use before them,
unless the generations of its slot have gone round. -/
theorem Tracked.not_contains_of_came {chunk : List Passage} (h : Tracked log t)
    (hlawful : Lawful (log ++ chunk)) (hcame : .came id ∈ chunk)
    (hfew : departures chunk id.index < 2 ^ 32) : ¬ t.contains id := by
  intro hid
  obtain ⟨a, b, rfl⟩ := List.append_of_mem hcame
  rw [← List.append_assoc] at hlawful
  obtain ⟨rounds, hpos, hrounds⟩ := hlawful.rounds (h.resident_eq hid) (h.generation_eq hid)
  rw [departures_append, hrounds] at hfew
  omega

end Tree

namespace Site

variable {s : Site β} {allowed : Site β → Op β → Prop} {log : List Passage}

/-- No operation does anything to the slots but what a list of passages tells. -/
theorem tended_chronicle [Payload β] (t : Tree β) :
    Tended fun s : Site β => ∃ log, t.Chronicle log s.tree where
  work := fun ⟨log, h⟩ hr => ⟨log, h.quiet hr.tenancy⟩
  surrender {s} id := fun ⟨log, h⟩ => by
    rcases surrender_cases s id with heq | ⟨node, hn, heq⟩
    · rw [heq]
      exact ⟨log, h⟩
    · rw [heq]
      exact ⟨_, h.left (Tree.contains_of_node? hn)⟩
  place _ _ _ _ _ := fun ⟨_, h⟩ => ⟨_, h.came _⟩
  createFrom _ _ _ := fun ⟨_, h⟩ => ⟨_, h.came _⟩
  reclaim {s} id := fun ⟨log, h⟩ => by
    unfold Site.reclaim
    split
    · next hcheck =>
      obtain ⟨node, hn, -⟩ := node?_of_checkReclaim hcheck
      exact ⟨_, h.left (Tree.contains_of_node? hn)⟩
    · exact ⟨log, h⟩
  audience hs hf hz _ := fun ⟨log, h⟩ => ⟨log, h.quiet (Tree.sameTenancy_of_eq hs hf hz)⟩

variable [Payload β]

/-- Every operation is a chronicle of passages, however it ends. -/
theorem exists_chronicle (s : Site β) (op : Op β) :
    ∃ chunk, s.tree.Chronicle chunk (s.perform op).tree :=
  (tended_chronicle s.tree).perform ⟨[], .start⟩ fun _ _ _ _ => ⟨_, Tree.Chronicle.start.came _⟩

/-- The sites that are reached, with the blocks that came and left on the way. -/
inductive Recorded (allowed : Site β → Op β → Prop) : Site β → List Passage → Prop
  | start (registry : RegistryRef) : Recorded allowed (start registry) []
  | perform {s : Site β} {op : Op β} {before chunk : List Passage} : Recorded allowed s before →
      allowed s op → s.tree.Chronicle chunk (s.perform op).tree →
      Recorded allowed (s.perform op) (before ++ chunk)
  | elsewhere {s : Site β} {log : List Passage} (op : Catalogue.Op β) : Recorded allowed s log →
      Recorded allowed { s with catalogue := s.catalogue.perform op } log

/-- Every site that is reached is reached with a record of its passages. -/
theorem Reached.recorded (h : Reached allowed s) : ∃ log, Recorded allowed s log := by
  induction h with
  | start registry => exact ⟨[], .start registry⟩
  | @perform s op _ hop ih =>
    obtain ⟨log, hlog⟩ := ih
    obtain ⟨chunk, hchunk⟩ := exists_chronicle s op
    exact ⟨log ++ chunk, hlog.perform hop hchunk⟩
  | elsewhere op _ ih =>
    obtain ⟨log, hlog⟩ := ih
    exact ⟨log, hlog.elsewhere op⟩

/-- By induction on the run, the record of a site tracks its slots. -/
theorem Recorded.tracked (h : Recorded allowed s log) : Tree.Tracked log s.tree := by
  induction h with
  | start registry => exact Tree.tracked_empty registry
  | perform _ _ hchunk ih => exact hchunk.tracked ih
  | elsewhere _ _ ih => exact ih

/-- The name that an operation hands out for a new block. -/
def granted (s : Site β) : Op β → Option BlockId
  | .create name => (s.create name).1.toOption
  | .createByName name => (s.createByName name).1
  | .createFrom ref => (s.catalogue.entryAt? ref).map fun entry => (s.createFrom ref entry).1
  | .insertSystem payload => some (s.insertSystem payload).1
  | .adopt payload => some (s.adopt payload).1
  | @Op.inflate _ _ _ settings source monitor =>
    match (BlockForest.inflate settings s source monitor).1 with
    | .ok (.success root) => some root
    | _ => none
  | _ => none

variable {op : Op β} {id : BlockId}

/-- The name of a new block was not alive before, and is afterwards. -/
theorem place_fresh (ho : s.tree.Orderly) (payload : β) (entry : Option EntryRef)
    (ownership : Ownership) (flags : Flags) :
    ¬ s.tree.contains (s.place payload entry ownership flags).1 ∧
      (s.place payload entry ownership flags).2.tree.contains
        (s.place payload entry ownership flags).1 := by
  refine ⟨?_, (Tree.contains_alloc ho _ _).mpr (.inl rfl)⟩
  show ¬ s.tree.contains (s.tree.alloc _).1
  rw [Tree.contains, Tree.node?_alloc_fresh ho]
  exact Bool.false_ne_true

/-- The same holds of a block that is made by the name of its type. -/
theorem createByName_fresh (ho : s.tree.Orderly) {name : String}
    (hid : (s.createByName name).1 = some id) :
    ¬ s.tree.contains id ∧ (s.createByName name).2.tree.contains id := by
  unfold createByName at hid ⊢
  cases hf : s.catalogue.findName s.tree.registry name with
  | none => simp [hf] at hid
  | some found =>
    simp only [hf, Option.some.injEq] at hid ⊢
    subst hid
    exact place_fresh ho _ _ _ _

/-- A name that is handed out was not in use before, and is in use afterwards. -/
theorem fresh_of_granted (ho : s.tree.Orderly) (hid : s.granted op = some id) :
    ¬ s.tree.contains id ∧ (s.perform op).tree.contains id := by
  cases op with
  | create name =>
    have hsame : (s.create name).1.toOption = (s.createByName name).1 ∧
        (s.create name).2 = (s.createByName name).2 := by
      unfold create
      split
      · next heq => exact ⟨congrArg Prod.fst heq.symm, congrArg Prod.snd heq.symm⟩
      · next heq => exact ⟨congrArg Prod.fst heq.symm, congrArg Prod.snd heq.symm⟩
    rw [perform, hsame.2]
    exact createByName_fresh ho (hsame.1.symm.trans hid)
  | createByName name => exact createByName_fresh ho hid
  | createFrom ref =>
    obtain ⟨entry, he, rfl⟩ := Option.map_eq_some_iff.mp hid
    rw [perform, he]
    exact place_fresh ho _ _ _ _
  | insertSystem payload =>
    cases hid
    exact place_fresh ho _ _ _ _
  | adopt payload =>
    cases hid
    exact place_fresh ho _ _ _ _
  | inflate settings source monitor =>
    have hroot : (BlockForest.inflate settings s source monitor).1 = .ok (.success id) := by
      simp only [granted] at hid
      split at hid
      · next heq =>
        cases hid
        exact heq
      · cases hid
    obtain ⟨levels, hsprouted⟩ := sprouted_of_inflate ho settings source monitor hroot
    have hmem := Tree.mem_listing_self
      (t := (BlockForest.inflate settings s source monitor).2.site.tree) levels id
    exact ⟨hsprouted.not_contains hmem, hsprouted.upright.alive id hmem⟩
  | _ => cases hid

/-- In every run the free list is that of the empty slots and the size the number of the others. A
name is in use if there is a block in its slot and the generation is the number of blocks that have
left it, which counts round at 2^32. What is handed out for a new block was not in use before the
call, and the same name is given out twice by a slot only if so many blocks have left it in between
that the count has gone round; before that, no name of a block that left is in use again. The
numbers of different names differ. -/
theorem tenancy_of_reached (h : Reached allowed s) :
    (∃ log, Recorded allowed s log) ∧ ∀ log, Recorded allowed s log →
      s.tree.free.Nodup ∧
      (∀ index, index ∈ s.tree.free ↔ ∃ slot, s.tree.slots[index]? = some slot ∧
        slot.node = none) ∧
      s.tree.size = (s.tree.slots.toList.countP fun slot => slot.node.isSome) ∧
      (∀ id, s.tree.contains id ↔
        (∃ slot, s.tree.slots[id.index]? = some slot ∧ slot.node.isSome) ∧
          id.generation.toNat = departures log id.index % 2 ^ 32) ∧
      (∀ op id, allowed s op → s.granted op = some id →
        ¬ s.tree.contains id ∧ (s.perform op).tree.contains id) ∧
      (∀ op chunk id, allowed s op → s.tree.Chronicle chunk (s.perform op).tree →
        .came id ∈ chunk → departures chunk id.index < 2 ^ 32 → ¬ s.tree.contains id) ∧
      (∀ a b c id, log = a ++ .came id :: (b ++ .came id :: c) →
        ∃ rounds, 0 < rounds ∧ departures b id.index = rounds * 2 ^ 32) ∧
      (∀ id, .left id ∈ log → departures log id.index < 2 ^ 32 → ¬ s.tree.contains id) ∧
      (s.tree.slots.size < 2 ^ 32 → ∀ a b, .came a ∈ log → .came b ∈ log →
        a.runtimeId = b.runtimeId → a = b) := by
  refine ⟨h.recorded, fun log hlog => ?_⟩
  have ht := hlog.tracked
  refine ⟨ht.orderly.free_nodup, ht.orderly.mem_free, ht.orderly.size_eq_countP,
    ht.contains_iff, fun op id _ => fresh_of_granted ht.orderly, ?_, ?_,
    fun id => ht.not_contains_of_left, ?_⟩
  · intro op chunk id _ hchunk
    exact ht.not_contains_of_came (hchunk.tracked ht).lawful
  · rintro a b c id rfl
    -- Cut the log behind the first arrival: from there on the slot is counted until it comes again.
    have hsplit : a ++ .came id :: (b ++ .came id :: c) =
        (a ++ [.came id]) ++ b ++ .came id :: c := by simp
    have hlawful := ht.lawful
    obtain ⟨-, hg⟩ := hlawful.came a id _ rfl
    rw [hsplit] at hlawful
    refine hlawful.rounds ?_ ?_
    · rw [resident_concat, Passage.settle, if_pos rfl]
    · rw [departures_append, departures_came, Nat.add_zero, hg]
  · intro hfew a b ha hb
    exact BlockId.eq_of_runtimeId ((ht.placed a ha).trans hfew) ((ht.placed b hb).trans hfew)

/-- A slot that has been left once gives out its second name. -/
theorem tenancy_of_reached_again :
    let s : Site Stock := ((((start 0).perform (.insertSystem .library)).perform
      (.destroy ⟨0, 0⟩)).perform (.insertSystem .library))
    ∃ log, Recorded Guarded s log ∧ departures log 0 % 2 ^ 32 = 1 ∧ ¬ s.tree.contains ⟨0, 0⟩ ∧
      s.tree.free = [] ∧ s.granted (.adopt .library) = some ⟨1, 0⟩ ∧
        ¬ s.tree.contains ⟨1, 0⟩ := by
  intro s
  have hreached : Reached Guarded s :=
    .perform (.perform (.perform (.start 0) trivial) trivial) trivial
  obtain ⟨⟨log, hlog⟩, hall⟩ := tenancy_of_reached hreached
  obtain ⟨-, -, -, hcontains, hgranted, -⟩ := hall log hlog
  have halive : s.tree.contains ⟨0, 1⟩ := by decide
  have hone := ((hcontains ⟨0, 1⟩).mp halive).2
  refine ⟨log, hlog, hone.symm, ?_, by decide, by decide, ?_⟩
  · intro hstale
    have hzero := ((hcontains ⟨0, 0⟩).mp hstale).2
    exact absurd (hzero.trans hone.symm) (by decide)
  · exact (hgranted (.adopt .library) ⟨1, 0⟩ trivial (by decide)).1

end Site

end BlockForest
