import Mathlib
import BlockForest.Proofs.RegisteredEntries
import BlockForest.Workspace
import BlockForest.Stock.Types

/-!
# Counters over whole runs

In a run any number of trees work over one catalogue, and blocks are also made by the entries
themselves and handed back to them. `Workspace.Reached` is what comes about, together with the
number of blocks that were made of each entry and not yet handed back. Between two steps an entry
counts these and the blocks of all trees that it made (`Workspace.Settled`): for the step that a
tree makes, the others are what is elsewhere, and the balance of its site is the balance of all.

So an entry can be taken out of its registry exactly if nothing of it is left anywhere, and if
blocks are made of registered entries only, their entries stay where they are.
-/

set_option autoImplicit false

namespace BlockForest

variable {β : Type}

namespace KeyMap

variable {κ α : Type} [DecidableEq κ] {m : KeyMap κ α} {key : κ}

/-- A number summed up over all items. -/
def total (m : KeyMap κ α) (f : α → Nat) : Nat := (m.entries.map fun e => f e.2).sum

/-- An item that is inserted adds its own number to those of the other keys. -/
theorem total_insert (m : KeyMap κ α) (key : κ) (item : α) (f : α → Nat) :
    (m.insert key item).total f = f item + (m.erase key).total f := rfl

/-- The item of a key is one among all. -/
theorem total_eq_add (h : m.keys.Nodup) {item : α} (hget : m.get? key = some item)
    (f : α → Nat) : m.total f = f item + (m.erase key).total f := by
  obtain ⟨entries⟩ := m
  unfold total erase
  unfold get? at hget
  unfold keys at h
  simp only at *
  induction entries with
  | nil => cases hget
  | cons e entries ih =>
    obtain ⟨k, a⟩ := e
    obtain ⟨hnot, hnd⟩ := List.nodup_cons.mp h
    by_cases hk : k = key
    · subst hk
      have hrest : (entries.filter fun e => decide (e.1 ≠ k)) = entries := by
        rw [List.filter_eq_self]
        exact fun e he => decide_eq_true fun heq => hnot (List.mem_map.mpr ⟨e, he, heq⟩)
      rw [List.lookup_cons_self, Option.some.injEq] at hget
      rw [List.filter_cons_of_neg (by simp), hrest, List.map_cons, List.sum_cons, hget]
    · have hb : (key == k) = false := by simpa using fun heq : key = k => hk heq.symm
      rw [List.lookup_cons, hb] at hget
      rw [List.filter_cons_of_pos (by simpa using hk), List.map_cons, List.sum_cons, ih hnd hget,
        List.map_cons, List.sum_cons]
      omega

end KeyMap

/-! ### Changes of the catalogue -/

namespace Catalogue

variable {c : Catalogue β}

/-- A change that makes no block and takes none back. -/
def Op.Administrative : Op β → Prop
  | .countUp _ => False
  | .release _ => False
  | _ => True

/-- A change of an entry that keeps its count keeps all counts. -/
theorem instances_modifyEntry_of_eq (c : Catalogue β) (ref : EntryRef) {f : Entry β → Entry β}
    (hf : ∀ e, (f e).instances = e.instances) :
    (c.modifyEntry ref f).instances = c.instances := by
  funext other
  rw [instances_modifyEntry, instances]
  cases c.entryAt? other with
  | none => rfl
  | some e => simp [hf]

/-- A new entry counts nothing, and no other counter is touched. -/
theorem instances_perform {op : Op β} (hop : op.Administrative) :
    (c.perform op).instances = c.instances := by
  cases op with
  | addRegistry => rfl
  | addEntry type => exact funext (elim_addEntry (fun _ _ h => (fresh_of h).1) c type)
  | register r type => exact funext (elim_register (fun _ _ h => (fresh_of h).1) c r type)
  | unregister r name =>
    show (c.unregister r name).2.instances = c.instances
    unfold unregister
    split
    · rfl
    · split
      · rfl
      · exact instances_modifyEntry_of_eq c _ fun _ => rfl
  | attachExtension ref x =>
    refine instances_modifyEntry_of_eq c ref fun e => ?_
    unfold Entry.attachExtension
    split <;> rfl
  | detachExtension ref x => exact instances_modifyEntry_of_eq c ref fun _ => rfl
  | countUp ref => exact hop.elim
  | release ref => exact hop.elim

/-- An entry that counts a block stays in its registry. -/
theorem Registers.perform {r : RegistryRef} {ref : EntryRef} (h : c.Registers r ref)
    (hcount : 0 < c.instances ref) {op : Op β} (hop : op.Administrative) :
    (c.perform op).Registers r ref := by
  cases op with
  | addRegistry => exact h.addRegistry
  | addEntry type =>
    refine h.of_registries ?_
    show (c.addEntry type).2.registries = c.registries
    unfold addEntry
    split <;> rfl
  | register r' type => exact h.register r' type
  | unregister r' name => exact h.unregister hcount r' name
  | attachExtension ref' x => exact h.of_registries (registries_modifyEntry c ref' _)
  | detachExtension ref' x => exact h.of_registries (registries_modifyEntry c ref' _)
  | countUp ref' => exact hop.elim
  | release ref' => exact hop.elim

end Catalogue

/-! ### Runs -/

namespace Workspace

/-- How many blocks of all trees an entry counts. -/
def headcount (w : Workspace β) (ref : EntryRef) : Nat := w.trees.total fun t => t.headcount ref

/-- What holds of a workspace between two steps. -/
structure Settled (w : Workspace β) (loose : EntryRef → Nat) : Prop where
  consistent : w.catalogue.Consistent
  keys : w.trees.keys.Nodup
  orderly : ∀ name t, w.trees.get? name = some t → t.Orderly
  count : ∀ ref, w.catalogue.instances ref = w.headcount ref + loose ref

/-- What an entry counts apart from the blocks of one tree. -/
def elsewhere (w : Workspace β) (loose : EntryRef → Nat) (name : String) (ref : EntryRef) : Nat :=
  (w.trees.erase name).total (fun t => t.headcount ref) + loose ref

variable {w : Workspace β} {loose : EntryRef → Nat} {name : String} {t : Tree β}

/-- A tree that was dropped is found no more, and the others are found as before. -/
theorem get?_dropTree (w : Workspace β) (name other : String) :
    (w.dropTree name).2.trees.get? other =
      if other = name then none else w.trees.get? other := by
  unfold dropTree
  split
  · exact KeyMap.get?_erase w.trees name other
  · next hnone =>
    split
    · next heq => rw [heq, hnone]
    · rfl

/-- A workspace without trees and types is settled. -/
theorem settled_empty : (empty : Workspace β).Settled fun _ => 0 where
  consistent := Catalogue.consistent_empty
  keys := List.nodup_nil
  orderly := nofun
  count _ := rfl

namespace Settled

variable (h : w.Settled loose)

include h

/-- For one tree the blocks of the others are elsewhere. -/
theorem balanced (hget : w.trees.get? name = some t) :
    Site.Balanced (w.elsewhere loose name) (w.site t) where
  orderly := h.orderly name t hget
  count ref := by
    have hsplit := KeyMap.total_eq_add h.keys hget fun t => t.headcount ref
    have hcount := h.count ref
    rw [headcount, hsplit, Nat.add_assoc] at hcount
    exact hcount

/-- A tree may be put back after work on it, if its site is balanced against all that lies
elsewhere. -/
theorem keep {s : Site β} (hc : s.catalogue.Consistent)
    (hb : Site.Balanced (w.elsewhere loose name) s) : (w.keep name s).Settled loose where
  consistent := hc
  keys := KeyMap.nodup_insert h.keys name s.tree
  orderly other t hget := by
    rw [Workspace.keep, KeyMap.get?_insert] at hget
    split at hget
    · cases hget
      exact hb.orderly
    · exact h.orderly other t hget
  count ref := by
    show s.catalogue.instances ref =
      (w.trees.insert name s.tree).total (fun t => t.headcount ref) + loose ref
    rw [KeyMap.total_insert, Nat.add_assoc]
    exact hb.count ref

/-- Dropping a tree releases its blocks, and the rest is settled without it. -/
theorem dropTree (name : String) : (w.dropTree name).2.Settled loose := by
  unfold Workspace.dropTree
  split
  · next t hget =>
    refine ⟨h.consistent.recounted (Site.recounted_dropTree _ t), KeyMap.nodup_erase h.keys name,
      fun other t' hget' => ?_, (h.balanced hget).dropTree⟩
    rw [KeyMap.get?_erase] at hget'
    split at hget'
    · cases hget'
    · exact h.orderly other t' hget'
  · exact h

/-- A new tree has no blocks, and the one that it replaces is dropped. -/
theorem newTree (name : String) (registry : RegistryRef) :
    (w.newTree name registry).Settled loose := by
  have hdrop := h.dropTree name
  have hgone : name ∉ (w.dropTree name).2.trees.keys := by
    rw [← KeyMap.get?_eq_none_iff, get?_dropTree, if_pos rfl]
  refine hdrop.keep (s := ⟨(w.dropTree name).2.catalogue, Tree.empty registry, #[]⟩)
    hdrop.consistent ⟨Tree.orderly_empty registry, fun ref => ?_⟩
  rw [Tree.headcount_empty, Nat.zero_add, elsewhere, KeyMap.erase_of_not_mem hgone]
  exact hdrop.count ref

/-- A change of the catalogue that makes no block and takes none back leaves the counts as they
are. -/
theorem administer {op : Catalogue.Op β} (hop : op.Administrative) :
    ({ w with catalogue := w.catalogue.perform op } : Workspace β).Settled loose where
  consistent := h.consistent.perform op
  keys := h.keys
  orderly := h.orderly
  count ref := by
    rw [Catalogue.instances_perform hop]
    exact h.count ref

/-- A block that is made outside of all trees is loose, and counted. -/
theorem make {ref : EntryRef} {entry : Entry β} (he : w.catalogue.entryAt? ref = some entry) :
    ({ w with catalogue := w.catalogue.countUp ref } : Workspace β).Settled
      (Function.update loose ref (loose ref + 1)) where
  consistent := h.consistent.recounted (Catalogue.recounted_countUp _ ref)
  keys := h.keys
  orderly := h.orderly
  count other := by
    have hcount := h.count other
    show (w.catalogue.countUp ref).instances other = w.headcount other + _
    rw [Catalogue.instances_countUp he, Function.update_apply]
    split
    · next heq =>
      rw [heq] at hcount ⊢
      omega
    · omega

/-- A loose block that is handed back is neither. -/
theorem handBack {ref : EntryRef} (hpos : 0 < loose ref) :
    ({ w with catalogue := w.catalogue.release ref } : Workspace β).Settled
      (Function.update loose ref (loose ref - 1)) where
  consistent := h.consistent.recounted (Catalogue.recounted_release _ ref)
  keys := h.keys
  orderly := h.orderly
  count other := by
    have hcount := h.count other
    have hless := w.catalogue.instances_elim_release (some ref) other
    rw [Option.elim_some] at hless
    show (w.catalogue.release ref).instances other = w.headcount other + _
    rw [hless, Function.update_apply]
    by_cases ho : other = ref
    · rw [ho] at hcount ⊢
      rw [if_pos rfl, if_pos rfl]
      omega
    · rw [if_neg ho, if_neg fun heq => ho (Option.some.inj heq).symm]
      exact hcount

/-- Every operation on a tree keeps the workspace settled. -/
theorem work [Payload β] (hget : w.trees.get? name = some t) (op : Site.Op β) :
    (w.keep name ((w.site t).perform op)).Settled loose :=
  h.keep (h.consistent.recounted (Site.lasting_perform (w.site t) op).catalogue)
    ((h.balanced hget).perform op).1

end Settled

variable [Payload β]

/-- The workspaces that are reached, with the number of blocks that were made of each entry
outside of trees and are not handed back yet. -/
inductive Reached (allowed : Site β → Site.Op β → Prop) :
    Workspace β → (EntryRef → Nat) → Prop
  | start : Reached allowed empty fun _ => 0
  | administer {w : Workspace β} {loose : EntryRef → Nat} (op : Catalogue.Op β) :
      op.Administrative → Reached allowed w loose →
      Reached allowed { w with catalogue := w.catalogue.perform op } loose
  | newTree {w : Workspace β} {loose : EntryRef → Nat} (name : String)
      (registry : RegistryRef) : Reached allowed w loose →
      Reached allowed (w.newTree name registry) loose
  | dropTree {w : Workspace β} {loose : EntryRef → Nat} (name : String) :
      Reached allowed w loose → Reached allowed (w.dropTree name).2 loose
  | work {w : Workspace β} {loose : EntryRef → Nat} {name : String} {t : Tree β}
      {op : Site.Op β} : w.trees.get? name = some t → allowed (w.site t) op →
      Reached allowed w loose →
      Reached allowed (w.keep name ((w.site t).perform op)) loose
  | make {w : Workspace β} {loose : EntryRef → Nat} {ref : EntryRef} {entry : Entry β} :
      w.catalogue.entryAt? ref = some entry → Reached allowed w loose →
      Reached allowed { w with catalogue := w.catalogue.countUp ref }
        (Function.update loose ref (loose ref + 1))
  | handBack {w : Workspace β} {loose : EntryRef → Nat} {ref : EntryRef} :
      0 < loose ref → Reached allowed w loose →
      Reached allowed { w with catalogue := w.catalogue.release ref }
        (Function.update loose ref (loose ref - 1))

variable {allowed : Site β → Site.Op β → Prop}

/-- By induction on the run, every workspace that comes about is settled. -/
theorem Reached.settled (h : Reached allowed w loose) : w.Settled loose := by
  induction h with
  | start => exact settled_empty
  | administer op hop _ ih => exact ih.administer hop
  | newTree name registry _ ih => exact ih.newTree name registry
  | dropTree name _ ih => exact ih.dropTree name
  | work hget _ _ ih => exact ih.work hget _
  | make he _ ih => exact ih.make he
  | handBack hpos _ ih => exact ih.handBack hpos

/-- In every tree the blocks are of registered entries. -/
def Vouched (w : Workspace β) : Prop := ∀ name t, w.trees.get? name = some t → (w.site t).Vouched

omit [Payload β] in
/-- Counting other blocks has no influence on what is registered. -/
theorem Vouched.recounted (h : w.Vouched) {w' : Workspace β}
    (hc : Catalogue.Recounted w.catalogue w'.catalogue)
    (hsub : ∀ name t, w'.trees.get? name = some t → w.trees.get? name = some t) : w'.Vouched := by
  intro name t hget
  have hl : Site.Lasting (w.site t) (w'.site t) := (Site.Lasting.refl _).recount hc
  exact (h name t (hsub name t hget)).mono hl fun _ _ hn => hn

omit [Payload β] in
/-- Dropping a tree takes nobody out of a registry. -/
theorem Vouched.dropTree (h : w.Vouched) (name : String) : (w.dropTree name).2.Vouched := by
  have hsub : ∀ other t, (w.dropTree name).2.trees.get? other = some t →
      w.trees.get? other = some t := by
    intro other t hget
    rw [get?_dropTree] at hget
    split at hget
    · cases hget
    · exact hget
  refine h.recounted ?_ hsub
  unfold Workspace.dropTree
  split
  · exact Site.recounted_dropTree _ _
  · exact .refl _

omit [Payload β] in
/-- A tree whose blocks are vouched for may be put back. -/
theorem Vouched.keep (h : w.Vouched) {s : Site β} (hs : s.Vouched)
    (hc : Catalogue.Recounted w.catalogue s.catalogue) (name : String) :
    (w.keep name s).Vouched := by
  have hothers : (⟨s.catalogue, w.trees⟩ : Workspace β).Vouched :=
    h.recounted hc fun _ _ hget => hget
  intro other t hget
  rw [Workspace.keep, KeyMap.get?_insert] at hget
  split at hget
  · cases hget
    exact hs
  · exact hothers other t hget

omit [Payload β] in
/-- An entry that counts a block is not unregistered, so a change of the catalogue leaves all blocks
vouched for. -/
theorem Vouched.administer (h : w.Vouched) (hs : w.Settled loose) {op : Catalogue.Op β}
    (hop : op.Administrative) :
    ({ w with catalogue := w.catalogue.perform op } : Workspace β).Vouched := by
  intro name t hget id entry hn
  obtain ⟨ref, rfl, hreg⟩ := h name t hget id entry hn
  -- The block itself is counted.
  obtain ⟨node, hnode, hholder⟩ := Option.map_eq_some_iff.mp hn
  change t.node? id = some node at hnode
  rw [Node.holder, Prod.mk.injEq] at hholder
  have hcounted : (w.site t).tree.Counts ref id := by
    refine (Tree.counts_iff_of_node? hnode).mpr ?_
    rw [Node.countedBy?, if_pos hholder.1, hholder.2]
  exact ⟨ref, rfl, hreg.perform ((hs.balanced hget).pos hcounted) hop⟩

/-- By induction on the run, if blocks are made of registered entries only, all of them are vouched
for. -/
theorem Reached.vouched (h : Reached Site.FromRegistry w loose) : w.Vouched := by
  induction h with
  | start => exact nofun
  | administer op hop hw ih => exact ih.administer hw.settled hop
  | newTree name registry hw ih =>
    exact (ih.dropTree name).keep (s := ⟨_, Tree.empty registry, #[]⟩)
      (fun id entry hn => by simp at hn) (.refl _) name
  | dropTree name hw ih => exact ih.dropTree name
  | @work w loose name t op hget hop hw ih =>
    have hsettled := hw.settled
    have hregistered : (w.site t).Registered :=
      ⟨hsettled.consistent, hsettled.orderly name t hget, ih name t hget⟩
    exact ih.keep (hregistered.perform hop).vouched
      (Site.lasting_perform (w.site t) op).catalogue name
  | @make w loose ref entry he hw ih =>
    exact ih.recounted (Catalogue.recounted_countUp _ ref) fun _ _ hget => hget
  | @handBack w loose ref hpos hw ih =>
    exact ih.recounted (Catalogue.recounted_release _ ref) fun _ _ hget => hget

/-- After any run every entry counts exactly the blocks it made that are in a tree, and those that
were made of it outside of trees and are not handed back. No counter is asked to go below zero: a
tree that works, and one that is dropped, gives a block back only to an entry that counts one. So
an entry can be taken out of a registry if and only if nothing of it is left. If blocks are made
of registered entries only, the entry of each block that is owned by one is found in the registry
of its tree, by its name and by the identifier of its type. -/
theorem counted_of_reached (h : Reached Site.Any w loose) :
    (∀ ref entry, w.catalogue.entryAt? ref = some entry →
        entry.instances = w.headcount ref + loose ref) ∧
      (∀ name t, w.trees.get? name = some t →
        (∀ op, Relation.ReflTransGen Site.Turnover (w.site t) ((w.site t).perform op)) ∧
        ∀ before slot after ref, t.slots.toList = before ++ slot :: after →
          slot.node.bind Node.countedBy? = some ref →
            0 < (before.foldl Site.releaseSlot w.catalogue).instances ref) ∧
      (∀ ref, 0 < loose ref → 0 < w.catalogue.instances ref) ∧
      (∀ r name ref entry, w.catalogue.findName r name = some (ref, entry) →
        ((w.catalogue.unregister r name).1 = .ok () ↔ w.headcount ref + loose ref = 0)) ∧
      (Reached Site.FromRegistry w loose → ∀ name t, w.trees.get? name = some t →
        ∀ id node, t.node? id = some node → node.ownership = .registryOwned →
          ∃ ref entry, node.entry = some ref ∧
            w.catalogue.findName t.registry entry.name = some (ref, entry) ∧
            w.catalogue.findId t.registry entry.typeId = some (ref, entry)) := by
  have hs := h.settled
  refine ⟨?_, ?_, ?_, ?_, ?_⟩
  · intro ref entry he
    rw [← Catalogue.instances_of_entryAt? he]
    exact hs.count ref
  · intro name t hget
    have hb := hs.balanced hget
    exact ⟨fun op => (hb.perform op).2, fun _ _ _ _ hslots hc => hb.pos_of_split hslots hc⟩
  · intro ref hpos
    have hcount := hs.count ref
    omega
  · intro r name ref entry hf
    rw [Catalogue.unregister_eq_ok_iff hf, hs.count]
  · intro hfrom name t hget id node hn hown
    have hholder : (t.node? id).map Node.holder = some (.registryOwned, node.entry) := by
      rw [hn, Option.map_some, Node.holder, hown]
    obtain ⟨ref, hentry, hreg⟩ := hfrom.vouched name t hget id node.entry hholder
    obtain ⟨entry, -, hname, hid⟩ := hreg.find hs.consistent
    exact ⟨ref, entry, hentry, hname, hid⟩

/-- Two trees share a registry, and each has a library of its; another one is not in a tree. -/
theorem counted_of_reached_libraries :
    let w₀ : Workspace Stock := { (empty : Workspace Stock) with
      catalogue := ((empty : Workspace Stock).catalogue.perform .addRegistry).perform
        (.register 0 StockType.library.blockType) }
    let w₁ := (w₀.newTree "a" 0).newTree "b" 0
    let create : Site.Op Stock := .create "Library"
    let w₂ := w₁.keep "a" ((w₁.site (Tree.empty 0)).perform create)
    let w₃ := w₂.keep "b" ((w₂.site (Tree.empty 0)).perform create)
    let w : Workspace Stock := { w₃ with catalogue := w₃.catalogue.countUp 0 }
    ∃ entry, w.catalogue.findName 0 "Library" = some (0, entry) ∧ entry.instances = 3 ∧
      (w.catalogue.unregister 0 "Library").1 ≠ .ok () := by
  intro w₀ w₁ create w₂ w₃ w
  have h₀ : Reached Site.Any w₀ fun _ => 0 :=
    .administer (.register 0 StockType.library.blockType) trivial
      (.administer .addRegistry trivial .start)
  have h₁ : Reached Site.Any w₁ fun _ => 0 := .newTree "b" 0 (.newTree "a" 0 h₀)
  have h₂ : Reached Site.Any w₂ fun _ => 0 := .work (t := Tree.empty 0) rfl trivial h₁
  have h₃ : Reached Site.Any w₃ fun _ => 0 := .work (t := Tree.empty 0) rfl trivial h₂
  have hsome : (w₃.catalogue.entryAt? 0).isSome := by decide +kernel
  obtain ⟨made, hmade⟩ := Option.isSome_iff_exists.mp hsome
  have h : Reached Site.Any w (Function.update (fun _ => 0) 0 1) := .make hmade h₃
  obtain ⟨hcount, -, -, hunregister, -⟩ := counted_of_reached h
  have hheads : w.headcount 0 = 2 := by decide +kernel
  have hfound : (w.catalogue.findName 0 "Library").map Prod.fst = some 0 := by decide +kernel
  obtain ⟨⟨ref, entry⟩, hf, heq⟩ := Option.map_eq_some_iff.mp hfound
  cases heq
  refine ⟨entry, hf, ?_, ?_⟩
  · rw [hcount 0 entry (Catalogue.entryAt?_of_findName hf).2, hheads, Function.update_self]
  · intro hok
    have hzero := (hunregister 0 "Library" 0 entry hf).mp hok
    rw [hheads] at hzero
    omega

end Workspace

end BlockForest
