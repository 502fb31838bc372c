import Mathlib
import BlockForest.Proofs.ReachedSites

/-!
# The new subtree in a tree that blocks are read into

While a block is read, it stands with the children read so far in a tree that is otherwise as
it was. `Sprouted` says so: the subtree is new, each of its blocks is counted by the entry that
made it, and no other block and no other count differs. A new block is such a subtree, it remains
one when it gets another payload (`Sprouted.setPayload`) and when it takes in a child that was read
after it (`Sprouted.graft`), and destroying it brings back exactly what was there before, which is
`Restored` (`Sprouted.discard`). The tree need not be a forest for this; its slots have to be in
order.
-/

set_option autoImplicit false

namespace BlockForest

variable {β : Type}

/-- Two options that look the same through a map lead on to the same. -/
theorem bind_eq_of_map_eq {α γ : Type} {o o' : Option α} {f : α → Option γ}
    (h : o.map f = o'.map f) : o.bind f = o'.bind f := by
  have hjoin := congrArg Option.join h
  simpa only [Option.join, Option.bind_map, Function.id_comp] using hjoin

namespace Tree

variable {t t' : Tree β}

/-- One tree is the other one with a block added behind the children of a library. -/
structure Grafted (t t' : Tree β) (library kid : BlockId) : Prop where
  children : ∀ id, t'.children id =
    if id = library then t.children library ++ [kid] else t.children id
  contains : ∀ id, t'.contains id = t.contains id
  parent? : ∀ id, t'.parent? id = if id = kid then some library else t.parent? id

/-- The subtree of a child, be it an old one or the new one, has the links it had. -/
theorem Grafted.upright_child {library kid child : BlockId} {levels : Nat}
    (hg : Grafted t t' library kid) (hlib : t.Upright (levels + 1) library)
    (hkid : t.Upright levels kid)
    (hdis : ∀ id ∈ t.listing (levels + 1) library, id ∉ t.listing levels kid)
    (hchild : child ∈ t.children library ∨ child = kid) :
    t'.Upright levels child ∧ t'.listing levels child = t.listing levels child := by
  have hold : t.Upright levels child := by
    rcases hchild with hc | rfl
    · exact hlib.child hc
    · exact hkid
  have hlibOut : library ∉ t.listing levels child := by
    rcases hchild with hc | rfl
    · intro hin
      exact hlib.root_not_mem (List.mem_flatMap.mpr ⟨child, hc, hin⟩)
    · exact hdis library (mem_listing_self _ _)
  have hsame : ∀ id ∈ t.listing levels child, t'.children id = t.children id := by
    intro id hid
    rw [hg.children, if_neg]
    rintro rfl
    exact hlibOut hid
  refine ⟨hold.congr hsame (fun id _ => hg.contains id) ?_, listing_congr hsame⟩
  intro id hid
  rw [hg.parent?, if_neg]
  rintro rfl
  rcases hchild with hc | rfl
  · exact hdis id (mem_listing_child hc (mem_listing_of_under hid)) (mem_listing_self _ _)
  · exact hold.not_mem_under hid

/-- A subtree that takes in another one is still one that can be walked down, and the new blocks
are met last. -/
theorem Grafted.upright {library kid : BlockId} {levels : Nat} (hg : Grafted t t' library kid)
    (hlib : t.Upright (levels + 1) library) (hkid : t.Upright levels kid)
    (hdis : ∀ id ∈ t.listing (levels + 1) library, id ∉ t.listing levels kid) :
    t'.Upright (levels + 1) library ∧
      t'.listing (levels + 1) library =
        t.listing (levels + 1) library ++ t.listing levels kid := by
  have hup : ∀ child, child ∈ t.children library ∨ child = kid →
      t'.Upright levels child ∧ t'.listing levels child = t.listing levels child :=
    fun _ hchild => hg.upright_child hlib hkid hdis hchild
  have hnew : t'.children library = t.children library ++ [kid] := by
    rw [hg.children, if_pos rfl]
  have hmem : ∀ child ∈ t'.children library, child ∈ t.children library ∨ child = kid := by
    intro child hc
    rw [hnew, List.mem_append, List.mem_singleton] at hc
    exact hc
  have hlist : t'.listing (levels + 1) library =
      t.listing (levels + 1) library ++ t.listing levels kid := by
    have hkids : (t.children library).flatMap (t'.listing levels) =
        (t.children library).flatMap (t.listing levels) :=
      List.flatMap_congr fun child hc => (hup child (Or.inl hc)).2
    rw [listing_succ, listing_succ, below, below, hnew, List.flatMap_append, hkids,
      List.flatMap_singleton, (hup kid (Or.inr rfl)).2, List.cons_append]
  refine ⟨⟨?_, ?_, ?_, ?_⟩, hlist⟩
  · intro child hc
    exact (hup child (hmem child hc)).1.within
  · rw [hlist]
    refine List.nodup_append.mpr ⟨hlib.nodup, hkid.nodup, ?_⟩
    rintro a ha b hb rfl
    exact hdis a ha hb
  · intro id hid
    rw [hlist, List.mem_append] at hid
    rw [hg.contains]
    rcases hid with hid | hid
    · exact hlib.alive id hid
    · exact hkid.alive id hid
  · intro id hid child hc
    rw [listing_succ, List.mem_cons] at hid
    rcases hid with rfl | hid
    -- Old children know the library already, and the new one does since it was grafted.
    · rcases hmem child hc with hold | rfl
      · rw [hg.parent?, if_neg]
        · exact hlib.linked id (mem_listing_self _ _) child hold
        · rintro rfl
          exact hdis child (mem_listing_child hold (mem_listing_self _ _)) (mem_listing_self _ _)
      · rw [hg.parent?, if_pos rfl]
    · obtain ⟨first, hfirst, hid⟩ := List.mem_flatMap.mp hid
      exact (hup first (hmem first hfirst)).1.linked id hid child hc

end Tree

namespace Site

variable {s s' s'' s₁ s₂ s₃ : Site β}

/-- An entry with further blocks alive. -/
def recount (t : Tree β) (ref : EntryRef) (ids : List BlockId) (entry : Entry β) : Entry β :=
  { entry with instances := entry.instances + t.tally ref ids }

/-- The second site is the first one with a new subtree that belongs to no library. -/
structure Sprouted (s s' : Site β) (levels : Nat) (root : BlockId) : Prop where
  upright : s'.tree.Upright levels root
  detached : s'.tree.parent? root = none ∧ s'.tree.index? root = none
  fresh : ∀ id ∈ s'.tree.listing levels root, s.tree.node? id = none
  frame : ∀ id, id ∉ s'.tree.listing levels root → s'.tree.node? id = s.tree.node? id
  owned : ∀ id ∈ s'.tree.listing levels root, s'.tree.ownership? id = some .registryOwned
  entryAt? : ∀ ref, s'.catalogue.entryAt? ref = (s.catalogue.entryAt? ref).map
    (recount s'.tree ref (s'.tree.listing levels root))
  lasting : Lasting s s'

/-- The blocks of a new subtree were not there before. -/
theorem Sprouted.not_contains {levels : Nat} {root id : BlockId} (h : Sprouted s s' levels root)
    (hid : id ∈ s'.tree.listing levels root) : ¬ s.tree.contains id := by
  rw [Tree.contains, h.fresh id hid]
  exact Bool.false_ne_true

/-- Blocks that were there before are what they were. -/
theorem Sprouted.node?_of_contains {levels : Nat} {root id : BlockId}
    (h : Sprouted s s' levels root) (hid : s.tree.contains id) :
    s'.tree.node? id = s.tree.node? id :=
  h.frame id fun hmem => h.not_contains hmem hid

/-- The size of the tree grows by the number of new blocks. -/
theorem Sprouted.size_eq {levels : Nat} {root : BlockId} (h : Sprouted s s' levels root)
    (ho : s.tree.Orderly) :
    s'.tree.size = s.tree.size + (s'.tree.listing levels root).length := by
  refine ((h.lasting.orderly ho).size_add_of_gone ho h.upright.nodup h.upright.alive
    fun id => ?_).symm
  by_cases hid : id ∈ s'.tree.listing levels root
  · simp [hid, h.not_contains hid]
  · rw [Tree.contains, Tree.contains, h.frame id hid]
    simp [hid]

/-- The second site has the blocks of the first one and the same counts. -/
structure Restored (s s' : Site β) : Prop where
  node? : ∀ id, s'.tree.node? id = s.tree.node? id
  entryAt? : ∀ ref, s'.catalogue.entryAt? ref = s.catalogue.entryAt? ref
  lasting : Lasting s s'

/-- A site that was not touched is restored. -/
theorem Restored.refl (s : Site β) : Restored s s := ⟨fun _ => rfl, fun _ => rfl, .refl s⟩

/-- Where the same blocks are alive, there are as many of them. -/
theorem Restored.size_eq (h : Restored s s') (ho : s.tree.Orderly) : s'.tree.size = s.tree.size := by
  apply ho.size_eq_of_alive (h.lasting.orderly ho)
  intro id
  rw [Tree.contains, h.node?, Tree.contains]

/-- A new subtree that is destroyed leaves nothing behind. -/
theorem Sprouted.discard {levels : Nat} {root : BlockId} (h : Sprouted s s' levels root) :
    Restored s (s'.destroy root).2 := by
  have hrazed := razed_destroy h.upright h.detached.1 h.detached.2
  refine ⟨fun id => ?_, fun ref => ?_, h.lasting.trans hrazed.lasting⟩
  · rw [hrazed.node?]
    by_cases hid : id ∈ s'.tree.listing levels root
    · rw [if_pos hid, h.fresh id hid]
      have hown := h.owned id hid
      unfold Tree.ownership? at hown
      obtain ⟨node, hn, hreg⟩ := Option.map_eq_some_iff.mp hown
      rw [hn, Option.bind_some, Node.remains, if_neg]
      rw [hreg]
      decide
    · rw [if_neg hid, h.frame id hid]
  · rw [hrazed.entryAt?, h.entryAt?, Option.map_map]
    have hback : discount s'.tree ref (s'.tree.listing levels root) ∘
        recount s'.tree ref (s'.tree.listing levels root) = id := by
      funext e
      simp only [Function.comp_apply, discount, recount, Nat.add_sub_cancel, id_eq]
    rw [hback, Option.map_id_fun, id_eq]

/-- What comes after a step that left nothing behind can start from before it. -/
theorem Sprouted.restore {levels : Nat} {root : BlockId} (h : Sprouted s s₁ levels root)
    (hr : Restored s₁ s₂) : Sprouted s s₂ levels root := by
  have hlist : s₂.tree.listing levels root = s₁.tree.listing levels root :=
    Tree.listing_eq_of_node?_eq fun id _ => hr.node? id
  refine ⟨h.upright.of_node?_eq fun id _ => hr.node? id, ?_, ?_, ?_, ?_, ?_,
    h.lasting.trans hr.lasting⟩
  · unfold Tree.parent? Tree.index?
    rw [hr.node?]
    exact h.detached
  · rw [hlist]
    exact h.fresh
  · intro id hid
    rw [hlist] at hid
    rw [hr.node?, h.frame id hid]
  · rw [hlist]
    intro id hid
    unfold Tree.ownership?
    rw [hr.node?]
    exact h.owned id hid
  · intro ref
    have htally : s₂.tree.tally ref (s₁.tree.listing levels root) =
        s₁.tree.tally ref (s₁.tree.listing levels root) :=
      Tree.tally_congr (fun id _ => hr.node? id) ref
    rw [hr.entryAt?, h.entryAt?, hlist]
    unfold recount
    rw [htally]

/-! ### A new block -/

/-- A block as it is made by an entry. -/
def madeBy [Payload β] (ref : EntryRef) (entry : Entry β) : Node β where
  payload := entry.type.initial
  entry := some ref
  ownership := .registryOwned
  flags := entry.type.defaultFlags.union Flags.allocated
  name := ""
  index := none
  parent := none
  children := if Payload.isLibrary entry.type.initial then some [] else none
  frozen := false

/-- After a block was made, it is found under its new name, and all others are as they were. -/
theorem node?_createFrom [Payload β] (ho : s.tree.Orderly) (ref : EntryRef) (entry : Entry β)
    (id : BlockId) :
    (s.createFrom ref entry).2.tree.node? id =
      if id = (s.createFrom ref entry).1 then some (madeBy ref entry) else s.tree.node? id :=
  Tree.node?_alloc ho _ id

/-- The name of a new block was not in use. -/
theorem node?_createFrom_fresh [Payload β] (ho : s.tree.Orderly) (ref : EntryRef)
    (entry : Entry β) : s.tree.node? (s.createFrom ref entry).1 = none :=
  Tree.node?_alloc_fresh ho _

/-- A block that was just made is a new subtree by itself, of any number of levels. -/
theorem sprouted_createFrom [Payload β] (ho : s.tree.Orderly) (levels : Nat) (ref : EntryRef)
    (entry : Entry β) :
    Sprouted s (s.createFrom ref entry).2 levels (s.createFrom ref entry).1 := by
  have hnode := node?_createFrom ho ref entry
  have hfresh := node?_createFrom_fresh ho ref entry
  have hlasting := lasting_createFrom s ref entry
  have hcat : (s.createFrom ref entry).2.catalogue = s.catalogue.countUp ref := rfl
  generalize s.createFrom ref entry = made at hnode hfresh hlasting hcat ⊢
  obtain ⟨root, s'⟩ := made
  have hroot : s'.tree.node? root = some (madeBy ref entry) := by
    rw [hnode, if_pos rfl]
  have hc : s'.tree.children root = [] := by
    rw [Tree.children_of_node? hroot, madeBy]
    split <;> rfl
  have hlist := Tree.listing_of_childless hc levels
  refine ⟨.of_childless hc (Tree.contains_of_node? hroot) levels, ?_, ?_, ?_, ?_, ?_, hlasting⟩
  · rw [Tree.parent?_of_node? hroot, Tree.index?_of_node? hroot]
    exact ⟨rfl, rfl⟩
  · intro id hid
    rw [hlist, List.mem_singleton] at hid
    rw [hid]
    exact hfresh
  · intro id hid
    rw [hlist, List.mem_singleton] at hid
    rw [hnode, if_neg hid]
  · intro id hid
    rw [hlist, List.mem_singleton] at hid
    rw [hid, Tree.ownership?, hroot]
    rfl
  · intro other
    show s'.catalogue.entryAt? other = _
    rw [hcat, Catalogue.countUp, Catalogue.entryAt?_modifyEntry, hlist]
    congr 1
    funext e
    have hcount : (s'.tree.node? root).bind Node.countedBy? = some ref := by
      rw [hroot]
      rfl
    unfold recount Tree.tally
    rw [List.countP_singleton, hcount]
    by_cases hor : other = ref
    · simp [hor, Entry.countUp]
    · have hro : ref ≠ other := fun h => hor h.symm
      simp [hor, hro]

/-! ### A block takes in a child -/

/-- Who is added behind the children of a library changes the list, the library it belongs to
and its position, and nothing else changes. -/
theorem node?_attach_last {library block : BlockId} {node : Node β}
    (hn : s.tree.node? library = some node) {children : List BlockId}
    (hc : node.children = some children) (hne : block ≠ library) (id : BlockId) :
    (s.attach library block children.length).tree.node? id =
      if id = library then some { node with children := some (children ++ [block]) }
      else if id = block then
        (s.tree.node? block).map fun node =>
          { node with index := some children.length, parent := some library }
      else s.tree.node? id := by
  have hnode : ∀ id, (((s.notify (.addingBlock library children.length)).modifyChildren library
      fun cs => cs.insertIdx children.length block).setParent block (some library)).tree.node? id =
        if id = library then some { node with children := some (children ++ [block]) }
        else if id = block then
          (s.tree.node? block).map fun node => { node with parent := some library }
        else s.tree.node? id := by
    intro id
    rw [node?_setParent, node?_modifyChildren, tree_notify, Option.map_map]
    by_cases hlib : id = library
    · subst hlib
      have hnb : ¬ id = block := fun h => hne h.symm
      simp [hn, hc, hnb]
    · by_cases hb : id = block
      · subst hb
        simp [hlib, Function.comp_def]
      · simp [hlib, hb, Function.comp_def]
  have hchildren : (((s.notify (.addingBlock library children.length)).modifyChildren library
      fun cs => cs.insertIdx children.length block).setParent block (some library)).tree.children
        library = children ++ [block] := by
    unfold Tree.children
    rw [hnode, if_pos rfl]
    rfl
  unfold attach
  simp only [tree_notify, tree_notifySubtree]
  rw [reindex, hchildren, List.drop_left]
  show (setIndex _ block (some children.length)).tree.node? id = _
  rw [node?_setIndex, hnode]
  by_cases hlib : id = library
  · subst hlib
    have hnb : ¬ id = block := fun h => hne h.symm
    simp [hnb]
  · by_cases hb : id = block
    · subst hb
      simp [hlib, Function.comp_def]
    · simp [hlib, hb]

/-- Attaching a block behind the last child of a library grafts it there. -/
theorem grafted_attach {library block : BlockId} (hlib : s.tree.isLibrary library)
    (hblock : s.tree.contains block) (hne : block ≠ library) :
    s.tree.Grafted (s.attach library block (s.tree.children library).length).tree library
      block := by
  obtain ⟨node, hn, hc⟩ := Tree.exists_node_of_isLibrary hlib
  obtain ⟨blockNode, hb⟩ := Option.isSome_iff_exists.mp hblock
  have hnode := node?_attach_last hn hc hne
  refine ⟨fun id => ?_, fun id => (reworked_attach s library block _).contains id, fun id => ?_⟩
  · by_cases hid : id = library
    · subst hid
      have hid := hnode id
      rw [if_pos rfl] at hid
      rw [if_pos rfl, Tree.children_of_node? hid]
      rfl
    · rw [if_neg hid]
      by_cases hidb : id = block
      · subst hidb
        have hid := hnode id
        rw [if_neg hne, if_pos rfl, hb] at hid
        rw [Tree.children_of_node? hid, Tree.children_of_node? hb]
      · rw [Tree.children, hnode, if_neg hid, if_neg hidb]
        rfl
  · by_cases hidb : id = block
    · subst hidb
      have hid := hnode id
      rw [if_neg hne, if_pos rfl, hb] at hid
      rw [if_pos rfl, Tree.parent?_of_node? hid]
    · rw [if_neg hidb]
      by_cases hid : id = library
      · subst hid
        have hid := hnode id
        rw [if_pos rfl] at hid
        rw [Tree.parent?_of_node? hid, Tree.parent?_of_node? hn]
      · unfold Tree.parent?
        rw [hnode, if_neg hid, if_neg hidb]

/-- What neither depends on the place of a block nor on what is in its list of children is left as
it was by an attachment. -/
theorem map_node?_attach_last {γ : Type} {library block : BlockId}
    (hlib : s.tree.isLibrary library) (hne : block ≠ library) (f : Node β → γ)
    (hkids : ∀ (n : Node β) cs cs', n.children = some cs →
      f { n with children := some cs' } = f n)
    (hplace : ∀ (n : Node β) i p, f { n with index := i, parent := p } = f n) (id : BlockId) :
    ((s.attach library block (s.tree.children library).length).tree.node? id).map f =
      (s.tree.node? id).map f := by
  obtain ⟨node, hn, hc⟩ := Tree.exists_node_of_isLibrary hlib
  rw [node?_attach_last hn hc hne]
  by_cases hid : id = library
  · rw [if_pos hid, hid, hn, Option.map_some, Option.map_some, hkids node _ _ hc]
  · rw [if_neg hid]
    by_cases hidb : id = block
    · rw [if_pos hidb, hidb, Option.map_map]
      exact congrArg (fun g => Option.map g (s.tree.node? block))
        (funext fun n => hplace n _ _)
    · rw [if_neg hidb]

/-- What is read later is apart from what was read before. -/
theorem Sprouted.apart {m n : Nat} {library kid : BlockId} (h : Sprouted s s₁ m library)
    (h' : Sprouted s₁ s₂ n kid) {id : BlockId} (hid : id ∈ s₁.tree.listing m library) :
    id ∉ s₂.tree.listing n kid :=
  fun hin => h'.not_contains hin (h.upright.alive id hid)

/-- A new block takes in a subtree that was read after it. -/
theorem Sprouted.graft {levels : Nat} {library kid : BlockId}
    (h : Sprouted s s₁ (levels + 1) library) (h' : Sprouted s₁ s₂ levels kid)
    (hlib : s₂.tree.isLibrary library) :
    Sprouted s (s₂.attach library kid (s₂.tree.children library).length) (levels + 1)
      library := by
  have hdis : ∀ id ∈ s₁.tree.listing (levels + 1) library,
      id ∉ s₂.tree.listing levels kid := fun id hid => h.apart h' hid
  have hkeep : ∀ id ∈ s₁.tree.listing (levels + 1) library,
      s₂.tree.node? id = s₁.tree.node? id := fun id hid => h'.frame id (hdis id hid)
  have hold := Tree.listing_eq_of_node?_eq hkeep
  have hroot := Tree.mem_listing_self (t := s₁.tree) (levels + 1) library
  have hkidMet := Tree.mem_listing_self (t := s₂.tree) levels kid
  have hne : kid ≠ library := by
    rintro rfl
    exact hdis kid hroot hkidMet
  have hgraft := grafted_attach hlib (h'.upright.alive kid hkidMet) hne
  obtain ⟨node, hn, hc⟩ := Tree.exists_node_of_isLibrary hlib
  have hnode := node?_attach_last hn hc hne
  have hwork := reworked_attach s₂ library kid (s₂.tree.children library).length
  -- Entries and owners are not what an attachment changes.
  have hown : ∀ id, (s₂.attach library kid (s₂.tree.children library).length).tree.ownership? id =
      s₂.tree.ownership? id :=
    map_node?_attach_last hlib hne Node.ownership (fun _ _ _ _ => rfl) fun _ _ _ => rfl
  have hcounted := map_node?_attach_last hlib hne Node.countedBy? (fun _ _ _ _ => rfl)
    fun _ _ _ => rfl
  generalize s₂.attach library kid (s₂.tree.children library).length = s₃
    at hgraft hnode hwork hown hcounted ⊢
  obtain ⟨hup, hlist⟩ := hgraft.upright (h.upright.of_node?_eq hkeep) h'.upright
    (fun id hid => hdis id (hold ▸ hid))
  rw [hold] at hlist
  have htally : ∀ ref ids, s₃.tree.tally ref ids = s₂.tree.tally ref ids := fun ref ids =>
    Tree.tally_congr_of_countedBy? (fun id _ => bind_eq_of_map_eq (hcounted id)) ref
  refine ⟨hup, ?_, ?_, ?_, ?_, ?_, (h.lasting.trans h'.lasting).trans hwork.lasting⟩
  · have hlibNode := hnode library
    rw [if_pos rfl] at hlibNode
    rw [Tree.parent?_of_node? hlibNode, Tree.index?_of_node? hlibNode]
    rw [hkeep library hroot] at hn
    have hfree := h.detached
    rwa [Tree.parent?_of_node? hn, Tree.index?_of_node? hn] at hfree
  · intro id hid
    rw [hlist, List.mem_append] at hid
    rcases hid with hid | hid
    · exact h.fresh id hid
    · by_cases hmet : id ∈ s₁.tree.listing (levels + 1) library
      · exact h.fresh id hmet
      · rw [← h.frame id hmet]
        exact h'.fresh id hid
  · intro id hid
    rw [hlist, List.mem_append, not_or] at hid
    have hidLib : id ≠ library := by
      rintro rfl
      exact hid.1 hroot
    have hidKid : id ≠ kid := by
      rintro rfl
      exact hid.2 hkidMet
    rw [hnode, if_neg hidLib, if_neg hidKid, h'.frame id hid.2, h.frame id hid.1]
  · intro id hid
    rw [hlist, List.mem_append] at hid
    rw [hown]
    rcases hid with hid | hid
    · unfold Tree.ownership?
      rw [hkeep id hid]
      exact h.owned id hid
    · exact h'.owned id hid
  · intro ref
    have hfirst : s₂.tree.tally ref (s₁.tree.listing (levels + 1) library) =
        s₁.tree.tally ref (s₁.tree.listing (levels + 1) library) := Tree.tally_congr hkeep ref
    rw [hwork.catalogue, h'.entryAt?, h.entryAt?, hlist, Option.map_map]
    congr 1
    funext e
    simp only [Function.comp_apply, recount, Tree.tally_append, htally, hfirst, Nat.add_assoc]

/-- What does not depend on the payload of a block is left as it was by another payload. -/
theorem map_node?_setPayload {γ : Type} (root : BlockId) (payload : β) (f : Node β → γ)
    (hf : ∀ (n : Node β) p, f { n with payload := p } = f n) (id : BlockId) :
    ((s.setPayload root payload).tree.node? id).map f = (s.tree.node? id).map f := by
  unfold Site.setPayload
  rw [node?_modify]
  by_cases hid : id = root
  · rw [if_pos hid, hid, Option.map_map]
    exact congrArg (fun g => Option.map g (s.tree.node? root)) (funext fun n => hf n payload)
  · rw [if_neg hid]

/-- Another payload for the new block makes no difference. -/
theorem Sprouted.setPayload {levels : Nat} {root : BlockId} (h : Sprouted s s₁ levels root)
    (payload : β) : Sprouted s (s₁.setPayload root payload) levels root := by
  have hchildren : ∀ id, (s₁.setPayload root payload).tree.children id = s₁.tree.children id :=
    fun id => congrArg (Option.getD · []) (bind_eq_of_map_eq
      (map_node?_setPayload root payload Node.children (fun _ _ => rfl) id))
  have hparent : ∀ id, (s₁.setPayload root payload).tree.parent? id = s₁.tree.parent? id :=
    fun id => bind_eq_of_map_eq
      (map_node?_setPayload root payload Node.parent (fun _ _ => rfl) id)
  have hindex : ∀ id, (s₁.setPayload root payload).tree.index? id = s₁.tree.index? id :=
    fun id => bind_eq_of_map_eq
      (map_node?_setPayload root payload Node.index (fun _ _ => rfl) id)
  have hown : ∀ id, (s₁.setPayload root payload).tree.ownership? id = s₁.tree.ownership? id :=
    map_node?_setPayload root payload Node.ownership fun _ _ => rfl
  have htally : ∀ ref ids, (s₁.setPayload root payload).tree.tally ref ids =
      s₁.tree.tally ref ids := fun ref ids =>
    Tree.tally_congr_of_countedBy? (fun id _ => bind_eq_of_map_eq
      (map_node?_setPayload root payload Node.countedBy? (fun _ _ => rfl) id)) ref
  have hwork : ReworkedInPlace s₁ (s₁.setPayload root payload) := reworked_modify s₁ root _
  have hother : ∀ id, id ≠ root →
      (s₁.setPayload root payload).tree.node? id = s₁.tree.node? id := by
    intro id hid
    unfold Site.setPayload
    rw [node?_modify, if_neg hid]
  generalize s₁.setPayload root payload = s₂ at *
  have hlist : s₂.tree.listing levels root = s₁.tree.listing levels root :=
    Tree.listing_congr fun id _ => hchildren id
  refine ⟨h.upright.congr (fun id _ => hchildren id) (fun id _ => hwork.contains id)
    fun id _ => hparent id, ⟨(hparent root).trans h.detached.1, (hindex root).trans h.detached.2⟩,
    hlist ▸ h.fresh, ?_, ?_, ?_, h.lasting.trans hwork.lasting⟩
  · intro id hid
    rw [hlist] at hid
    have hne : id ≠ root := by
      rintro rfl
      exact hid (Tree.mem_listing_self _ _)
    rw [hother id hne, h.frame id hid]
  · intro id hid
    rw [hlist] at hid
    exact (hown id).trans (h.owned id hid)
  · intro ref
    rw [hwork.catalogue, h.entryAt?, hlist]
    unfold recount
    rw [htally]

end Site

end BlockForest
