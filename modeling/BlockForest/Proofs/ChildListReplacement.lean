import Mathlib
import BlockForest.Proofs.ForestInvariant
import BlockForest.Proofs.BlockLocalChanges

/-!
# Another list of children

Insertion, removal, exchange and move all come to the same: one library gets another list of
children. `Relisted` says what becomes of every block then. Blocks of the new list belong to
the library and have the index of their place, blocks that were in the old list only are
detached, and nothing else of any block changes. A forest stays a forest as long as the new
list names no block twice and takes in no block from elsewhere that is attached or stands above
the library.
-/

set_option autoImplicit false

namespace BlockForest

variable {β : Type}

/-- A block after the list of children of a library was replaced. -/
def Node.relist (library : BlockId) (old new : List BlockId) (id : BlockId) (node : Node β) :
    Node β :=
  { node with
    index := if id ∈ new then some (new.idxOf id) else if id ∈ old then none else node.index
    parent := if id ∈ new then some library else if id ∈ old then none else node.parent
    children := if id = library then node.children.map fun _ => new else node.children }

namespace Tree

/-- The second tree is the first one with another list of children of a library. -/
def Relisted (t t' : Tree β) (library : BlockId) (new : List BlockId) : Prop :=
  ∀ id, t'.node? id = (t.node? id).map (Node.relist library (t.children library) new id)

variable {t t' : Tree β} {library : BlockId} {new : List BlockId}

namespace Relisted

variable (hr : Relisted t t' library new)

include hr

/-- The library has the new children, and every other block has those it had. -/
theorem children_eq (hlib : t.isLibrary library) (id : BlockId) :
    t'.children id = if id = library then new else t.children id := by
  unfold children
  rw [hr id]
  by_cases hid : id = library
  · subst hid
    unfold isLibrary at hlib
    cases hn : t.node? id with
    | none => simp [hn] at hlib
    | some node =>
      cases hc : node.children with
      | none => simp [hn, hc] at hlib
      | some cs => simp [Node.relist, hc]
  · cases hn : t.node? id with
    | none => simp [hid]
    | some node => simp [Node.relist, hid]

/-- New children belong to the library, former ones to none, and all others where they belonged. -/
theorem parent?_eq {id : BlockId} (hid : id ∈ new → t.contains id) :
    t'.parent? id =
      if id ∈ new then some library
      else if id ∈ t.children library then none else t.parent? id := by
  unfold parent?
  rw [hr id]
  cases hn : t.node? id with
  | none =>
    have hnew : id ∉ new := fun hnew => by simpa [contains, hn] using hid hnew
    simp [hnew]
  | some node => rfl

/-- New children have their position in the new list as index, former ones have none, and all others
keep theirs. -/
theorem index?_eq {id : BlockId} (hid : id ∈ new → t.contains id) :
    t'.index? id =
      if id ∈ new then some (new.idxOf id)
      else if id ∈ t.children library then none else t.index? id := by
  unfold index?
  rw [hr id]
  cases hn : t.node? id with
  | none =>
    have hnew : id ∉ new := fun hnew => by simpa [contains, hn] using hid hnew
    simp [hnew]
  | some node => rfl

end Relisted

/-- The new list takes in detached blocks only, and none that stands above the library. -/
structure Admissible (t : Tree β) (library : BlockId) (new : List BlockId) : Prop where
  isLibrary : t.isLibrary library
  nodup : new.Nodup
  taken : ∀ id ∈ new, id ∉ t.children library →
    t.contains id ∧ t.parent? id = none ∧ ¬ t.Above id library

section

variable (h : t.Forest) (hadm : Admissible t library new) (hr : Relisted t t' library new)

include h hadm

/-- A child of an admissible list is alive. -/
theorem Admissible.contains {id : BlockId} (hid : id ∈ new) : t.contains id := by
  by_cases hold : id ∈ t.children library
  · exact contains_of_parent? (h.mem_children_iff.mp hold)
  · exact (hadm.taken id hid hold).1

/-- Neither list names a block above the library. -/
theorem Admissible.not_above {id : BlockId} (ha : t.Above id library) :
    id ∉ new ∧ id ∉ t.children library := by
  have hold : id ∉ t.children library := by
    intro hmem
    obtain ⟨d, hd⟩ := h.grounded library
    obtain ⟨e, he, hlt⟩ := ha.rises hd
    have hup := he.unique (Rises.up (h.mem_children_iff.mp hmem) hd)
    rcases hlt with rfl | hlt
    · have := hd.unique he
      omega
    · omega
  exact ⟨fun hnew => (hadm.taken id hnew hold).2.2 ha, hold⟩

include hr

/-- Where each block belongs when the new list is admissible, since its members are alive then. -/
theorem Admissible.parent?_eq (id : BlockId) :
    t'.parent? id =
      if id ∈ new then some library
      else if id ∈ t.children library then none else t.parent? id :=
  hr.parent?_eq (hadm.contains h)

/-- A block below which the library stands is not taken in, so it is as far below the top as
before. -/
theorem Admissible.rises_above {id : BlockId} {d : Nat} (ha : t.Above id library)
    (hd : t.Rises id d) : t'.Rises id d := by
  have habove : ∀ z, t.Above z id → t.Above z library := fun z hz => hz.trans ha
  clear ha
  induction hd with
  | @top b hp =>
    obtain ⟨hnew, hold⟩ := hadm.not_above h (habove b (Above.refl b))
    apply Rises.top
    rw [hadm.parent?_eq h hr, if_neg hnew, if_neg hold]
    exact hp
  | @up b p d hp _ ih =>
    obtain ⟨hnew, hold⟩ := hadm.not_above h (habove b (Above.refl b))
    refine Rises.up ?_ (ih fun z hz => habove z (Above.up hp hz))
    rw [hadm.parent?_eq h hr, if_neg hnew, if_neg hold]
    exact hp

/-- No block loses its way to the top. A child that is taken in stands as deep as the library and
one more. -/
theorem Admissible.grounded {id : BlockId} {d : Nat} (hd : t.Rises id d) :
    ∃ e, t'.Rises id e := by
  obtain ⟨f, hf⟩ := h.grounded library
  have hlib := hadm.rises_above h hr (Above.refl library) hf
  induction hd with
  | @top b hp =>
    have hpar := hadm.parent?_eq h hr b
    by_cases hnew : b ∈ new
    · rw [if_pos hnew] at hpar
      exact ⟨f + 1, Rises.up hpar hlib⟩
    · rw [if_neg hnew, hp, ite_self] at hpar
      exact ⟨0, Rises.top hpar⟩
  | @up b p d hp hd ih =>
    have hpar := hadm.parent?_eq h hr b
    by_cases hnew : b ∈ new
    · rw [if_pos hnew] at hpar
      exact ⟨f + 1, Rises.up hpar hlib⟩
    · rw [if_neg hnew] at hpar
      by_cases hold : b ∈ t.children library
      · rw [if_pos hold] at hpar
        exact ⟨0, Rises.top hpar⟩
      · rw [if_neg hold, hp] at hpar
        obtain ⟨e, he⟩ := ih
        exact ⟨e + 1, Rises.up hpar he⟩

/-- A library of a forest may get any admissible list of children. -/
theorem Forest.relist : t'.Forest := by
  -- A block of another library is in neither list: each block has one library at most.
  have hother : ∀ other id, other ≠ library → t.parent? id = some other →
      id ∉ new ∧ id ∉ t.children library := by
    intro other id hne hp
    have hold : id ∉ t.children library := by
      intro hmem
      rw [h.mem_children_iff, hp] at hmem
      cases hmem
      exact hne rfl
    refine ⟨fun hnew => ?_, hold⟩
    rw [(hadm.taken id hnew hold).2.1] at hp
    cases hp
  have hparent := hadm.parent?_eq h hr
  have hindex : ∀ id, t'.index? id = _ := fun id => hr.index?_eq (hadm.contains h)
  refine ⟨?_, ?_, ?_, ?_⟩
  · intro other index id hid
    rw [hr.children_eq hadm.isLibrary] at hid
    rw [hparent, hindex]
    by_cases ho : other = library
    · subst ho
      rw [if_pos rfl] at hid
      have hmem := List.mem_of_getElem? hid
      rw [if_pos hmem, if_pos hmem]
      obtain ⟨hlt, hget⟩ := List.getElem?_eq_some_iff.mp hid
      refine ⟨rfl, ?_⟩
      rw [← hget, hadm.nodup.idxOf_getElem]
    · rw [if_neg ho] at hid
      obtain ⟨hp, hi⟩ := h.child other index id hid
      obtain ⟨hnew, hold⟩ := hother other id ho hp
      rw [if_neg hnew, if_neg hnew, if_neg hold, if_neg hold]
      exact ⟨hp, hi⟩
  · intro id other hp
    rw [hparent] at hp
    rw [hr.children_eq hadm.isLibrary]
    by_cases hnew : id ∈ new
    · rw [if_pos hnew] at hp
      cases hp
      rwa [if_pos rfl]
    · rw [if_neg hnew] at hp
      by_cases hold : id ∈ t.children library
      · rw [if_pos hold] at hp
        cases hp
      · rw [if_neg hold] at hp
        have hmem := h.listed id other hp
        rw [if_neg]
        · exact hmem
        · rintro rfl
          exact hold hmem
  · intro id
    rw [hparent, hindex]
    by_cases hnew : id ∈ new
    · simp [hnew]
    · by_cases hold : id ∈ t.children library
      · simp [hnew, hold]
      · simpa [hnew, hold] using h.indexed id
  · intro id
    obtain ⟨d, hd⟩ := h.grounded id
    exact hadm.grounded h hr hd

end

end Tree

end BlockForest
