import Mathlib
import BlockForest.Proofs.ReachedSites

/-!
# Rearrangements and the lists they act on

A call that inserts, removes, exchanges or moves blocks changes two things only: child lists, and
the links of blocks to their libraries. `Rearrangement.apply` says what each call does to the
lists, with the tree left out of account: a library has a list of names, and a call takes names
out of lists and puts them in. `rearranged_run` says that a call which succeeds does exactly that.

The links need no equations of their own. A tree that is reached is a forest before the call and
after it, and in a forest the lists determine the libraries and indexes of all blocks
(`Tree.Forest.links_of_lists`). All that is left of a block is compared by `Node.placeless`.
-/

set_option autoImplicit false

namespace BlockForest

variable {β : Type}

/-- The names of the children of each library, in order. -/
abbrev ChildLists := BlockId → List BlockId

namespace ChildLists

/-- A list with a block put in at a position, and the blocks from there on behind it. -/
def put (children : List BlockId) (index : Nat) (block : BlockId) : List BlockId :=
  children.take index ++ block :: children.drop index

/-- The lists after a block was taken out, wherever it stood. -/
def without (lists : ChildLists) (block : BlockId) : ChildLists := fun library =>
  (lists library).erase block

variable {children : List BlockId} {index : Nat} {block : BlockId}

/-- Within the list, putting a block in at a position is the insertion of the library of lists. -/
theorem put_eq_insertIdx (h : index ≤ children.length) :
    put children index block = children.insertIdx index block := by
  apply List.ext_getElem?
  intro i
  rw [List.getElem?_insertIdx, put, List.getElem?_append, List.length_take, min_eq_left h]
  by_cases hlt : i < index
  · simp [hlt]
  · obtain ⟨k, rfl⟩ := Nat.exists_eq_add_of_le (Nat.not_lt.mp hlt)
    cases k with
    | zero => simp [h]
    | succ k => simp

/-- The block stands where it was put. -/
theorem getElem?_put (h : index ≤ children.length) :
    (put children index block)[index]? = some block := by
  rw [put_eq_insertIdx h, List.getElem?_insertIdx_self, if_pos h]

/-- Put behind the last child, a block is appended. -/
theorem put_length (children : List BlockId) (block : BlockId) :
    put children children.length block = children ++ [block] := by
  rw [put_eq_insertIdx le_rfl, List.insertIdx_length_self]

end ChildLists

open ChildLists (put without put_eq_insertIdx)

/-- A call that changes the places of blocks. -/
inductive Rearrangement where
  | insert (library block : BlockId) (index : Nat)
  | add (library block : BlockId)
  | remove (library block : BlockId)
  | detach (block : BlockId)
  | swap (library a b : BlockId)
  | moveTo (library block : BlockId) (target : Nat)
  | reparentAt (block library : BlockId) (index : Nat)
  | reparent (block library : BlockId)

namespace Rearrangement

/-- What a call makes of the lists. -/
def apply (lists : ChildLists) : Rearrangement → ChildLists
  | insert library block index => Function.update lists library (put (lists library) index block)
  | add library block => Function.update lists library (lists library ++ [block])
  | remove library block => Function.update lists library ((lists library).erase block)
  | detach block => without lists block
  | swap library a b => Function.update lists library ((lists library).map (Equiv.swap a b))
  | moveTo library block target =>
    Function.update lists library (put ((lists library).erase block) target block)
  | reparentAt block library index =>
    let rest := without lists block
    Function.update rest library (put (rest library) index block)
  | reparent block library =>
    let rest := without lists block
    Function.update rest library (rest library ++ [block])

/-- The place that a call asks for. -/
def place? : Rearrangement → Option (BlockId × BlockId × Nat)
  | insert library block index => some (library, block, index)
  | moveTo library block target => some (library, block, target)
  | reparentAt block library index => some (library, block, index)
  | _ => none

/-- A call as an operation on a site. -/
def op : Rearrangement → Site.Op β
  | insert library block index => .insert library block index
  | add library block => .add library block
  | remove library block => .remove library block
  | detach block => .detach block
  | swap library a b => .swap library a b
  | moveTo library block target => .moveTo library block target
  | reparentAt block library index => .reparentAt block library index
  | reparent block library => .reparent block library

variable [Payload β]

/-- Carries out a call. -/
def run (s : Site β) : Rearrangement → Except TreeError Unit × Site β
  | insert library block index => s.insert library block index
  | add library block => s.add library block
  | remove library block => s.remove library block
  | detach block => s.detach block
  | swap library a b => s.swap library a b
  | moveTo library block target => s.moveTo library block target
  | reparentAt block library index => s.reparentAt block library index
  | reparent block library => s.reparent block library

/-- A rearrangement that is performed as an operation is the call itself. -/
theorem perform_op (c : Rearrangement) (s : Site β) : s.perform c.op = (c.run s).2 := by
  cases c <;> rfl

omit [Payload β] in
/-- No rearrangement sets a mark by hand. -/
theorem guarded_op (c : Rearrangement) (s : Site β) : Site.Guarded s c.op := by
  cases c <;> trivial

/-- Whether or not it succeeds, a rearrangement keeps a tree sound. -/
theorem sound_run {s : Site β} (h : s.tree.Sound) (c : Rearrangement) :
    (c.run s).2.tree.Sound := by
  rw [← perform_op]
  exact Site.sound_perform h (c.guarded_op s)

end Rearrangement

/-! ### Links and lists -/

/-- All of a block but its links. Of a child list nothing is left but that there is one. -/
def Node.placeless (node : Node β) : Node β :=
  { node with index := none, parent := none, children := node.children.map fun _ => [] }

namespace Tree

variable {t t' : Tree β}

/-- In a forest a block that stands in no list has no index. -/
theorem Forest.index?_eq_none (h : t.Forest) {id : BlockId}
    (hid : ∀ library, id ∉ t.children library) : t.index? id = none := by
  cases hp : t.parent? id with
  | some library => exact absurd (h.listed id library hp) (hid library)
  | none =>
    have hindex := h.indexed id
    rw [hp] at hindex
    simpa using hindex

/-- In a forest the links of a block can be read off the lists: if they agree on the list that the
block stands in, it has the same library and the same index. -/
theorem Forest.links_of_lists (h : t.Forest) (h' : t'.Forest) {id : BlockId}
    (hsame : ∀ library, id ∈ t.children library ∨ id ∈ t'.children library →
      t'.children library = t.children library) :
    t'.parent? id = t.parent? id ∧ t'.index? id = t.index? id := by
  by_cases hid : ∃ library, id ∈ t.children library
  · obtain ⟨library, hmem⟩ := hid
    have hlist := hsame library (Or.inl hmem)
    have hmem' : id ∈ t'.children library := hlist ▸ hmem
    rw [h.mem_children_iff.mp hmem, h'.mem_children_iff.mp hmem', h.index_eq hmem,
      h'.index_eq hmem', hlist]
    exact ⟨rfl, rfl⟩
  · have hout : ∀ library, id ∉ t.children library := fun library hmem => hid ⟨library, hmem⟩
    have hout' : ∀ library, id ∉ t'.children library := fun library hmem =>
      hout library (hsame library (Or.inr hmem) ▸ hmem)
    have hdetached : ∀ {u : Tree β}, u.Forest → (∀ library, id ∉ u.children library) →
        u.parent? id = none := fun hu hnot =>
      Option.eq_none_iff_forall_ne_some.mpr fun library hp => hnot library (hu.listed id library hp)
    rw [h.index?_eq_none hout, h'.index?_eq_none hout', hdetached h hout, hdetached h' hout']
    exact ⟨rfl, rfl⟩

/-- A child is in the list of its library alone. -/
theorem Forest.without_eq_update (h : t.Forest) {library block : BlockId}
    (hp : t.parent? block = some library) :
    without t.children block =
      Function.update t.children library ((t.children library).erase block) := by
  funext other
  rw [Function.update_apply, without]
  split
  · next heq => rw [heq]
  · next hne =>
    apply List.erase_of_not_mem
    intro hmem
    rw [h.mem_children_iff, hp, Option.some.injEq] at hmem
    exact hne hmem.symm

/-- A block that belongs to no library is in no list, so there is nothing to take out. -/
theorem Forest.without_eq_self (h : t.Forest) {block : BlockId} (hp : t.parent? block = none) :
    without t.children block = t.children := by
  funext other
  apply List.erase_of_not_mem
  intro hmem
  rw [h.mem_children_iff, hp] at hmem
  cases hmem

/-- The children that are left without a block are one less if it is one of them. -/
theorem Forest.length_without (h : t.Forest) (library block : BlockId) :
    (without t.children block library).length =
      if t.parent? block = some library then (t.children library).length - 1
      else (t.children library).length := by
  rw [without]
  split
  · next hp => rw [List.length_erase_of_mem (h.mem_children_iff.mpr hp)]
  · next hp => rw [List.erase_of_not_mem (mt h.mem_children_iff.mp hp)]

/-- What is left of a block without its links is not touched by another list of children. -/
theorem Relisted.map_placeless_eq {library : BlockId} {new : List BlockId}
    (hr : t.Relisted t' library new) (id : BlockId) :
    (t'.node? id).map Node.placeless = (t.node? id).map Node.placeless := by
  rw [hr id, Option.map_map]
  congr 1
  funext node
  have hlist : (node.relist library (t.children library) new id).children.map (fun _ => []) =
      node.children.map fun _ => ([] : List BlockId) := by
    by_cases hid : id = library
    · cases hc : node.children <;> simp [Node.relist, hid, hc]
    · simp [Node.relist, hid]
  rw [Function.comp_apply, Node.placeless, Node.placeless, hlist]
  rfl

end Tree

/-! ### What a call does -/

/-- The second site is the first one with other child lists. -/
structure Site.Rearranged (s s' : Site β) (lists : ChildLists) : Prop where
  children : s'.tree.children = lists
  placeless : ∀ id, (s'.tree.node? id).map Node.placeless = (s.tree.node? id).map Node.placeless
  catalogue : s'.catalogue = s.catalogue

namespace Site

variable {s s' s'' : Site β} {library block : BlockId}

/-- Where nothing is done, the lists are what they are. -/
theorem Rearranged.refl (s : Site β) : Rearranged s s s.tree.children :=
  ⟨rfl, fun _ => rfl, rfl⟩

/-- Two rearrangements in a row lead to the lists of the second one. -/
theorem Rearranged.trans {lists lists' : ChildLists} (h : Rearranged s s' lists)
    (h' : Rearranged s' s'' lists') : Rearranged s s'' lists' where
  children := h'.children
  placeless id := (h'.placeless id).trans (h.placeless id)
  catalogue := h'.catalogue.trans h.catalogue

/-- Another list for one library is a rearrangement, if no block comes or goes. -/
theorem Rearranged.of_relisted {new : List BlockId} (hlib : s.tree.isLibrary library)
    (hr : s.tree.Relisted s'.tree library new) (hw : Reworked s s') :
    Rearranged s s' (Function.update s.tree.children library new) where
  children := by
    funext id
    rw [hr.children_eq hlib, Function.update_apply]
  placeless := hr.map_placeless_eq
  catalogue := hw.catalogue

/-- A removal that succeeds takes the block out of the list that it was in. -/
theorem rearranged_remove (h : s.tree.Sound) (hok : (s.remove library block).1 = .ok ()) :
    block ∈ s.tree.children library ∧
      Rearranged s (s.remove library block).2
        (Function.update s.tree.children library ((s.tree.children library).erase block)) := by
  unfold remove at hok ⊢
  cases hpos : positionOf s.tree library block with
  | error e => simp [hpos] at hok
  | ok index =>
    have hindex := getElem?_of_positionOf hpos
    have hmem := List.mem_of_getElem? hindex
    have hidx := idxOf_eq_of_getElem? (h.forest.nodup_children library) hindex
    rw [List.erase_eq_eraseIdx_of_idxOf hidx]
    exact ⟨hmem, .of_relisted (Tree.isLibrary_of_mem_children hmem)
      (relisted_unlink h.forest hindex)
      (reworked_unlink s library block index).toReworked⟩

/-- A block that is asked for has the parent that the tree has for it. -/
theorem parent?_of_require {t : Tree β} {node : Node β} (h : t.require block = .ok node) :
    t.parent? block = node.parent := Tree.parent?_of_node? (require_eq_ok_iff.mp h)

/-- Detaching takes a block out of whatever list it is in. -/
theorem rearranged_detach (h : s.tree.Sound) (hok : (s.detach block).1 = .ok ()) :
    Rearranged s (s.detach block).2 (without s.tree.children block) := by
  unfold detach at hok ⊢
  cases hreq : s.tree.require block with
  | error e => simp [hreq] at hok
  | ok node =>
    have hparent := parent?_of_require hreq
    cases hp : node.parent with
    | none =>
      rw [hp] at hparent
      simp only [hp]
      rw [h.forest.without_eq_self hparent]
      exact .refl s
    | some library =>
      rw [hp] at hparent
      simp only [hreq, hp] at hok ⊢
      rw [h.forest.without_eq_update hparent]
      exact (rearranged_remove h hok).2

/-- Two children that trade places trade their names, since no name stands in the list twice. -/
theorem exchanged_eq_map {children : List BlockId} (hnd : children.Nodup) {a b : BlockId}
    {first second : Nat} (ha : children[first]? = some a) (hb : children[second]? = some b) :
    exchanged children a b first second = children.map (Equiv.swap a b) := by
  have hpos : ∀ {i : Nat} {id : BlockId}, children[i]? = some id → children.idxOf id = i :=
    fun hi => idxOf_eq_of_getElem? hnd hi
  obtain ⟨hfirst, -⟩ := List.getElem?_eq_some_iff.mp ha
  obtain ⟨hsecond, -⟩ := List.getElem?_eq_some_iff.mp hb
  apply List.ext_getElem?
  intro i
  rw [exchanged, List.getElem?_map, List.getElem?_set, List.length_set, List.getElem?_set]
  by_cases hi₂ : second = i
  · subst hi₂
    rw [if_pos rfl, if_pos hsecond, hb, Option.map_some, Equiv.swap_apply_right]
  · rw [if_neg hi₂]
    by_cases hi₁ : first = i
    · subst hi₁
      rw [if_pos rfl, if_pos hfirst, ha, Option.map_some, Equiv.swap_apply_left]
    · rw [if_neg hi₁]
      cases hid : children[i]? with
      | none => rfl
      | some id =>
        have hneA : id ≠ a := fun heq => hi₁ ((hpos ha).symm.trans (heq ▸ hpos hid))
        have hneB : id ≠ b := fun heq => hi₂ ((hpos hb).symm.trans (heq ▸ hpos hid))
        rw [Option.map_some, Equiv.swap_apply_of_ne_of_ne hneA hneB]

/-- An exchange that succeeds renames the two blocks into each other in their list. -/
theorem rearranged_swap (h : s.tree.Sound) {a b : BlockId}
    (hok : (s.swap library a b).1 = .ok ()) :
    Rearranged s (s.swap library a b).2
      (Function.update s.tree.children library
        ((s.tree.children library).map (Equiv.swap a b))) := by
  unfold swap at hok ⊢
  split at hok
  · cases hok
  · cases hok
  · next first second ha hb =>
    have hfirst := getElem?_of_positionOf ha
    have hsecond := getElem?_of_positionOf hb
    rw [← exchanged_eq_map (h.forest.nodup_children library) hfirst hsecond]
    exact .of_relisted (Tree.isLibrary_of_mem_children (List.mem_of_getElem? hfirst))
      (relisted_exchange h.forest hfirst hsecond) (reworked_exchange s library a b first second).toReworked

/-- A move that succeeds takes the block out and puts it back at the target, which lies within the
shorter list. -/
theorem rearranged_moveTo (h : s.tree.Sound) {target : Nat}
    (hok : (s.moveTo library block target).1 = .ok ()) :
    target ≤ ((s.tree.children library).erase block).length ∧
      Rearranged s (s.moveTo library block target).2
        (Function.update s.tree.children library
          (put ((s.tree.children library).erase block) target block)) := by
  unfold moveTo at hok ⊢
  cases hpos : positionOf s.tree library block with
  | error e => simp [hpos] at hok
  | ok source =>
    have hsource := getElem?_of_positionOf hpos
    have hmem := List.mem_of_getElem? hsource
    have hidx := idxOf_eq_of_getElem? (h.forest.nodup_children library) hsource
    obtain ⟨hlt, hget⟩ := List.getElem?_eq_some_iff.mp hsource
    have hlen := List.length_erase_of_mem hmem
    simp only [hpos] at hok ⊢
    by_cases hbound : s.tree.childCount library ≤ target
    · simp [hbound] at hok
    · have ht : target < (s.tree.children library).length := Nat.not_le.mp hbound
      have hle : target ≤ ((s.tree.children library).erase block).length := by omega
      refine ⟨hle, ?_⟩
      rw [if_neg hbound, put_eq_insertIdx hle, List.erase_eq_eraseIdx_of_idxOf hidx]
      by_cases hsame : source = target
      · -- A block that stands there already is taken out and put back.
        subst hsame
        rw [if_pos rfl, ← hget, List.insertIdx_eraseIdx_getElem, Function.update_eq_self]
        exact .refl s
      · rw [if_neg hsame]
        exact .of_relisted (Tree.isLibrary_of_mem_children hmem)
          (relisted_shift h.forest hsource ht)
          (reworked_shift s library block source target).toReworked

variable [Payload β]

/-- An insertion that succeeds puts the block in at an index that lies within the list. -/
theorem rearranged_insert (h : s.tree.Sound) {index : Nat}
    (hok : (s.insert library block index).1 = .ok ()) :
    index ≤ (s.tree.children library).length ∧
      Rearranged s (s.insert library block index).2
        (Function.update s.tree.children library
          (put (s.tree.children library) index block)) := by
  unfold insert at hok ⊢
  cases hcheck : checkInsertion s.tree library block index with
  | error e => simp [hcheck] at hok
  | ok =>
    obtain ⟨ha, hi⟩ := checkInsertion_eq_ok_iff.mp hcheck
    have hne : block ≠ library := by
      rintro rfl
      exact ha.apart
        ((h.forest.mem_ancestors (Tree.contains_of_isLibrary ha.isLibrary)).mpr (.refl block))
    rw [put_eq_insertIdx hi]
    exact ⟨hi, .of_relisted ha.isLibrary
      (relisted_attach h.forest ha.isLibrary ha.contains ha.detached hne hi)
      (reworked_attach s library block index).toReworked⟩

/-- To add a block appends it to the list. -/
theorem rearranged_add (h : s.tree.Sound) (hok : (s.add library block).1 = .ok ()) :
    Rearranged s (s.add library block).2
      (Function.update s.tree.children library (s.tree.children library ++ [block])) := by
  unfold add at hok ⊢
  cases hreq : s.tree.requireLibrary library with
  | error e => simp [hreq] at hok
  | ok children =>
    obtain ⟨-, rfl⟩ := requireLibrary_eq_ok_iff.mp hreq
    simp only [hreq] at hok ⊢
    rw [← ChildLists.put_length]
    exact (rearranged_insert h hok).2

/-- The check for a move answers with the library that the block is to leave. -/
theorem parent?_of_checkReparent {t : Tree β} {index : Nat} {parent : Option BlockId}
    (h : checkReparent t block library index = .ok parent) : t.parent? block = parent := by
  unfold checkReparent at h
  split at h
  · cases h
  · next node hreq =>
    rw [parent?_of_require hreq]
    split at h
    · cases h
    · next children _ =>
      -- The bound of the position depends on where the block is; it does not matter here.
      generalize (if node.parent = some library then children.length - 1 else children.length) =
        length at h
      by_cases hlt : length < index
      · simp [hlt] at h
      · simp only [hlt, if_false] at h
        split at h
        · exact Except.ok.inj h
        · cases h

/-- The block is taken out of its library, if it has one, before it is put into the other, so the
position counts among the blocks that are left. -/
theorem rearranged_reparentAt (h : s.tree.Sound) {index : Nat}
    (hok : (s.reparentAt block library index).1 = .ok ()) :
    index ≤ (without s.tree.children block library).length ∧
      Rearranged s (s.reparentAt block library index).2
        (Function.update (without s.tree.children block) library
          (put (without s.tree.children block library) index block)) := by
  unfold reparentAt at hok ⊢
  cases hcheck : checkReparent s.tree block library index with
  | error e => simp [hcheck] at hok
  | ok parent =>
    have hparent := parent?_of_checkReparent hcheck
    cases parent with
    | none =>
      simp only [hcheck] at hok ⊢
      rw [h.forest.without_eq_self hparent]
      exact rearranged_insert h hok
    | some old =>
      have hsound := relists_sound.remove h old block
      have hremoved : (s.remove old block).1 = .ok () → _ := rearranged_remove h
      simp only [hcheck] at hok ⊢
      generalize s.remove old block = r at hok hsound hremoved ⊢
      obtain ⟨outcome, s₁⟩ := r
      cases outcome with
      | error e => cases hok
      | ok =>
        obtain ⟨-, hr⟩ := hremoved rfl
        obtain ⟨hi, hput⟩ := rearranged_insert hsound hok
        rw [hr.children, ← h.forest.without_eq_update hparent] at hi hput
        exact ⟨hi, hr.trans hput⟩

/-- To reparent a block takes it out of its list and appends it to the other one. -/
theorem rearranged_reparent (h : s.tree.Sound) (hok : (s.reparent block library).1 = .ok ()) :
    Rearranged s (s.reparent block library).2
      (Function.update (without s.tree.children block) library
        (without s.tree.children block library ++ [block])) := by
  unfold reparent at hok ⊢
  cases hreq : s.tree.requireLibrary library with
  | error e => simp [hreq] at hok
  | ok children =>
    obtain ⟨-, rfl⟩ := requireLibrary_eq_ok_iff.mp hreq
    simp only [hreq] at hok ⊢
    rw [← h.forest.length_without] at hok ⊢
    rw [← ChildLists.put_length]
    exact (rearranged_reparentAt h hok).2

/-- A call that succeeds does to the child lists what it does to the lists alone, a block that was
sent to a position stands there, and nothing but links is changed. -/
theorem rearranged_run (h : s.tree.Sound) (c : Rearrangement) (hok : (c.run s).1 = .ok ()) :
    Rearranged s (c.run s).2 (c.apply s.tree.children) ∧
      ∀ library block index, c.place? = some (library, block, index) →
        (c.apply s.tree.children library)[index]? = some block := by
  have hput : ∀ (lists : ChildLists) (library block : BlockId) (children : List BlockId)
      (index : Nat),
      index ≤ children.length →
        (Function.update lists library (put children index block) library)[index]? =
          some block := by
    intro lists library block children index hi
    rw [Function.update_self, ChildLists.getElem?_put hi]
  cases c with
  | insert library block index =>
    obtain ⟨hi, hr⟩ := rearranged_insert h hok
    refine ⟨hr, ?_⟩
    rintro _ _ _ ⟨⟩
    exact hput _ _ _ _ _ hi
  | add library block => exact ⟨rearranged_add h hok, nofun⟩
  | remove library block => exact ⟨(rearranged_remove h hok).2, nofun⟩
  | detach block => exact ⟨rearranged_detach h hok, nofun⟩
  | swap library a b => exact ⟨rearranged_swap h hok, nofun⟩
  | moveTo library block target =>
    obtain ⟨hi, hr⟩ := rearranged_moveTo h hok
    refine ⟨hr, ?_⟩
    rintro _ _ _ ⟨⟩
    exact hput _ _ _ _ _ hi
  | reparentAt block library index =>
    obtain ⟨hi, hr⟩ := rearranged_reparentAt h hok
    refine ⟨hr, ?_⟩
    rintro _ _ _ ⟨⟩
    exact hput _ _ _ _ _ hi
  | reparent block library => exact ⟨rearranged_reparent h hok, nofun⟩

/-- Every call that succeeds does to the child lists what it does to the lists alone. A block that
was sent to a position stands there; links follow the lists, and blocks whose lists did not
change keep theirs; no block comes or goes, and nothing of a block but its links changes. -/
theorem children_of_rearranged (h : Reached Guarded s) (c : Rearrangement)
    (hok : (c.run s).1 = .ok ()) :
    let t := s.tree
    let t' := (c.run s).2.tree
    let lists := c.apply t.children
    (∀ id, t'.children id = lists id) ∧
      (∀ library block index, c.place? = some (library, block, index) →
        (lists library)[index]? = some block) ∧
      (∀ id library, t'.parent? id = some library ↔ id ∈ lists library) ∧
      (∀ id library index, (lists library)[index]? = some id → t'.index? id = some index) ∧
      (∀ id, (∀ library, id ∉ lists library) → t'.index? id = none) ∧
      (∀ id, (∀ library, id ∈ t.children library ∨ id ∈ lists library →
          lists library = t.children library) →
        t'.parent? id = t.parent? id ∧ t'.index? id = t.index? id) ∧
      (∀ id, (t'.node? id).map Node.placeless = (t.node? id).map Node.placeless) ∧
      (∀ id, t'.contains id = t.contains id) ∧
      (c.run s).2.catalogue = s.catalogue := by
  intro t t' lists
  obtain ⟨hr, hplace⟩ := rearranged_run h.sound c hok
  have hlists : ∀ library, t'.children library = lists library := congrFun hr.children
  have hforest := h.sound.forest
  have hforest' : t'.Forest := (c.sound_run h.sound).forest
  refine ⟨hlists, hplace, ?_, ?_, ?_, ?_, hr.placeless, ?_, hr.catalogue⟩
  · intro id library
    rw [← hlists]
    exact hforest'.mem_children_iff.symm
  · intro id library index hid
    rw [← hlists] at hid
    exact (hforest'.child library index id hid).2
  · intro id hid
    exact hforest'.index?_eq_none fun library => hlists library ▸ hid library
  · intro id hsame
    apply hforest.links_of_lists hforest'
    intro library
    rw [hlists]
    exact hsame library
  · intro id
    have hnode := congrArg Option.isSome (hr.placeless id)
    rwa [Option.isSome_map, Option.isSome_map] at hnode

/-- Of three folders in a library the first is sent behind the others. -/
theorem children_of_rearranged_folders :
    let folder : Stock := .folder ⟨"", false⟩
    let s : Site Stock := ((((((start 0).perform (.adopt .library)).perform
      (.adopt folder)).perform (.adopt folder)).perform (.adopt folder)).perform
        (.add ⟨0, 0⟩ ⟨1, 0⟩)).perform (.add ⟨0, 0⟩ ⟨2, 0⟩) |>.perform (.add ⟨0, 0⟩ ⟨3, 0⟩)
    let c : Rearrangement := .reparentAt ⟨1, 0⟩ ⟨0, 0⟩ 2
    (c.run s).1 = .ok () ∧ s.tree.children ⟨0, 0⟩ = [⟨1, 0⟩, ⟨2, 0⟩, ⟨3, 0⟩] ∧
      (c.run s).2.tree.children ⟨0, 0⟩ = [⟨2, 0⟩, ⟨3, 0⟩, ⟨1, 0⟩] ∧
      (c.run s).2.tree.index? ⟨3, 0⟩ = some 1 := by
  intro folder s c
  have hreached : Reached Guarded s :=
    .perform (.perform (.perform (.perform (.perform (.perform (.perform (.start 0) trivial)
      trivial) trivial) trivial) trivial) trivial) trivial
  have hok : (c.run s).1 = .ok () := by decide
  have hbefore : s.tree.children ⟨0, 0⟩ = [⟨1, 0⟩, ⟨2, 0⟩, ⟨3, 0⟩] := by decide
  obtain ⟨hchildren, -, -, hindex, -⟩ := children_of_rearranged hreached c hok
  have hafter : c.apply s.tree.children ⟨0, 0⟩ = [⟨2, 0⟩, ⟨3, 0⟩, ⟨1, 0⟩] := by
    show put ((s.tree.children ⟨0, 0⟩).erase ⟨1, 0⟩) 2 ⟨1, 0⟩ = _
    rw [hbefore]
    decide
  refine ⟨hok, hbefore, (hchildren _).trans hafter, hindex _ ⟨0, 0⟩ 1 ?_⟩
  rw [hafter]
  rfl

end Site

end BlockForest
