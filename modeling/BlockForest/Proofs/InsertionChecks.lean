import Mathlib
import BlockForest.Proofs.TreeTraversal

/-!
# Which insertions are legal

The check in front of an insertion asks for one thing after the other and complains about the first
that is not so. `Tree.requirements` lists these things with their complaints, and `Verdict` says
what it means to be answered by such a list.

The last but one is looked after by a loop that goes from the library upwards (`Tree.Meets`). It
ends because the links of a forest do. What it keeps out are the blocks that would stand below
themselves: one more link closes a way around exactly if it leads back to a block above
(`Tree.Forest.looped_iff`).
-/

set_option autoImplicit false

namespace BlockForest

variable {β : Type}

namespace Tree

variable {t : Tree β} {library block : BlockId}

/-! ### The way up -/

/-- The loop that looks for a block from a place upwards ends with this answer. -/
inductive Meets (t : Tree β) (block : BlockId) : Option BlockId → Bool → Prop
  | top : Meets t block none false
  | met : Meets t block (some block) true
  | further {current : BlockId} {found : Bool} (other : current ≠ block)
      (up : Meets t block (t.parent? current) found) : Meets t block (some current) found

/-- The loop answers yes exactly if the block stands above the place where it started. -/
theorem Meets.eq_true_iff {place : Option BlockId} {found : Bool}
    (h : t.Meets block place found) : found = true ↔ ∃ id ∈ place, t.Above block id := by
  induction h with
  | top => simp
  | met => simpa using Above.refl block
  | @further current found other up ih =>
    rw [ih]
    constructor
    · rintro ⟨parent, hp, habove⟩
      exact ⟨current, rfl, .up hp habove⟩
    · rintro ⟨id, hid, habove⟩
      cases hid
      cases habove with
      | refl => exact absurd rfl other
      | up hp habove => exact ⟨_, hp, habove⟩

/-- The loop ends, since each turn climbs a link and a block has so many of them only. -/
theorem Rises.exists_meets {id : BlockId} {d : Nat} (h : t.Rises id d) (block : BlockId) :
    ∃ found, t.Meets block (some id) found := by
  induction h with
  | @top id hp =>
    by_cases hid : id = block
    · exact ⟨true, hid ▸ .met⟩
    · exact ⟨false, .further hid (hp ▸ .top)⟩
  | @up id p d hp _ ih =>
    by_cases hid : id = block
    · exact ⟨true, hid ▸ .met⟩
    · obtain ⟨found, hfound⟩ := ih
      exact ⟨found, .further hid (hp ▸ hfound)⟩

/-- Where the loop ends it has the right answer. -/
theorem Meets.eq_true_iff_above {id : BlockId} {found : Bool} (h : t.Meets block (some id) found) :
    found = true ↔ t.Above block id := by
  rw [h.eq_true_iff]
  simp

/-! ### Ways around -/

/-- The second block is a child of the first one. -/
def Holds (t : Tree β) (library child : BlockId) : Prop := child ∈ t.children library

/-- A way down from a block leads back to it. -/
def Looped (t : Tree β) : Prop := ∃ id, Relation.TransGen t.Holds id id

/-- In a forest a block stands above another one exactly if there is a way down to it. -/
theorem Forest.above_iff (h : t.Forest) {a id : BlockId} :
    t.Above a id ↔ Relation.ReflTransGen t.Holds a id := by
  constructor
  · intro habove
    induction habove with
    | refl => exact .refl
    | up hp _ ih => exact ih.tail (h.mem_children_iff.mpr hp)
  · intro hway
    induction hway with
    | refl => exact .refl _
    | tail _ hc ih => exact .up (h.mem_children_iff.mp hc) ih

/-- The ways through a tree with one more link use it or do not. -/
theorem reflTransGen_of_link {t' : Tree β}
    (hlink : ∀ a id, t'.Holds a id → t.Holds a id ∨ a = library ∧ id = block) {a id : BlockId}
    (h : Relation.ReflTransGen t'.Holds a id) : Relation.ReflTransGen t.Holds a id ∨
      Relation.ReflTransGen t.Holds a library ∧ Relation.ReflTransGen t.Holds block id := by
  induction h using Relation.ReflTransGen.head_induction_on with
  | refl => exact .inl .refl
  | head hfirst _ ih =>
    rcases hlink _ _ hfirst with hold | ⟨rfl, rfl⟩
    · exact ih.imp (.head hold) (.imp_left (.head hold))
    · exact .inr ⟨.refl, ih.elim (fun hdown => hdown) And.right⟩

/-- One more link closes a way around exactly if it leads back up. -/
theorem Forest.looped_iff (h : t.Forest) {t' : Tree β}
    (hlink : ∀ a id, t'.Holds a id ↔ t.Holds a id ∨ a = library ∧ id = block) :
    t'.Looped ↔ t.Above block library := by
  constructor
  · rintro ⟨id, hround⟩
    obtain ⟨child, hfirst, hback⟩ := Relation.TransGen.head'_iff.mp hround
    have hsplit := reflTransGen_of_link (fun a id => (hlink a id).mp) hback
    rcases (hlink _ _).mp hfirst with hold | ⟨rfl, rfl⟩
    · rcases hsplit with hback | ⟨hup, hdown⟩
      · -- Without the new link nothing leads back.
        have hsame := h.above_antisymm (h.above_iff.mpr hback) (h.above_iff.mpr (.single hold))
        subst hsame
        exact absurd hold (h.not_mem_children_self child)
      · exact h.above_iff.mpr ((hdown.tail hold).trans hup)
    · exact h.above_iff.mpr (hsplit.elim (fun hup => hup) And.left)
  · intro habove
    have hdown := Relation.ReflTransGen.mono (fun a id hold => (hlink a id).mpr (.inl hold))
      _ _ (h.above_iff.mp habove)
    exact ⟨block, .tail' hdown ((hlink library block).mpr (.inr ⟨rfl, rfl⟩))⟩

end Tree

/-! ### What is asked for -/

/-- The first thing that was asked for and is not so has this complaint. -/
def Refuses (asked : List (Prop × TreeError)) (e : TreeError) : Prop :=
  ∃ before p after, asked = before ++ (p, e) :: after ∧ (∀ a ∈ before, a.1) ∧ ¬ p

/-- The answer after one thing after the other was asked for. -/
structure Verdict (asked : List (Prop × TreeError)) (answer : Except TreeError Unit) : Prop where
  ok : answer = .ok () ↔ ∀ a ∈ asked, a.1
  error : ∀ e, answer = .error e ↔ Refuses asked e

/-- The first complaint is that of the first requirement if it is not met, and else that of the
others. -/
theorem refuses_cons_iff {p : Prop} {e e' : TreeError} {asked : List (Prop × TreeError)} :
    Refuses ((p, e) :: asked) e' ↔ ¬ p ∧ e = e' ∨ p ∧ Refuses asked e' := by
  constructor
  · rintro ⟨_ | ⟨a, before⟩, q, after, hsplit, hbefore, hq⟩
    · cases hsplit
      exact .inl ⟨hq, rfl⟩
    · cases hsplit
      obtain ⟨hp, hbefore⟩ := List.forall_mem_cons.mp hbefore
      exact .inr ⟨hp, before, q, after, rfl, hbefore, hq⟩
  · rintro (⟨hp, rfl⟩ | ⟨hp, before, q, after, rfl, hbefore, hq⟩)
    · exact ⟨[], p, asked, rfl, List.forall_mem_nil _, hp⟩
    · exact ⟨(p, e) :: before, q, after, rfl, List.forall_mem_cons.mpr ⟨hp, hbefore⟩, hq⟩

/-- Where nothing is asked for, the answer is that all is well. -/
theorem Verdict.nil : Verdict [] (.ok ()) where
  ok := by simp
  error e := by simp [Refuses]

/-- Once something is asked for that is not so, nothing else matters. -/
theorem Verdict.cons {p : Prop} {e : TreeError} {asked : List (Prop × TreeError)}
    {answer : Except TreeError Unit} (hno : ¬ p → answer = .error e)
    (hyes : p → Verdict asked answer) : Verdict ((p, e) :: asked) answer := by
  by_cases hp : p
  · refine ⟨?_, fun e' => ?_⟩
    · rw [(hyes hp).ok, List.forall_mem_cons, and_iff_right hp]
    · rw [(hyes hp).error, refuses_cons_iff, and_iff_right hp, or_iff_right fun h => h.1 hp]
  · rw [hno hp]
    refine ⟨?_, fun e' => ?_⟩
    · rw [List.forall_mem_cons]
      simp [hp]
    · rw [refuses_cons_iff]
      simp [hp]

/-- What is asked for before a block is inserted into a library at a position. -/
def Tree.requirements [Payload β] (t : Tree β) (library block : BlockId) (index : Nat) :
    List (Prop × TreeError) :=
  [(t.contains library, .staleBlock library),
    (t.isLibrary library, .notALibrary library),
    (t.contains block, .staleBlock block),
    (t.parent? block = none, .alreadyAttached block),
    (index ≤ t.childCount library, .indexOutOfBounds index (t.childCount library)),
    (¬ t.isBeingDeleted library, .beingDeleted library),
    (¬ t.isBeingDeleted block, .beingDeleted block),
    (¬ t.Above block library, .cycleDetected library block),
    (∃ p ∈ t.payload? library, ∃ q ∈ t.payload? block, Payload.accepts p q,
      .rejected library block)]

namespace Site

section

variable {s : Site β} {library block : BlockId} {index : Nat}

/-- After an insertion the library has its children with the block at the index, and all other lists
are as before. -/
theorem children_attach (s : Site β) (hlib : s.tree.isLibrary library) (block : BlockId)
    (index : Nat) (id : BlockId) :
    (s.attach library block index).tree.children id =
      if id = library then (s.tree.children library).insertIdx index block
      else s.tree.children id := by
  unfold attach
  simp only [tree_notify, tree_notifySubtree, children_reindex, children_setParent]
  rw [children_modifyChildren, tree_notify]
  simp only [hlib, and_true]

/-- An insertion makes the block a child of the library and leaves the other children. -/
theorem holds_attach (hlib : s.tree.isLibrary library) (hi : index ≤ s.tree.childCount library)
    (a id : BlockId) : (s.attach library block index).tree.Holds a id ↔
      s.tree.Holds a id ∨ a = library ∧ id = block := by
  unfold Tree.Holds
  rw [children_attach s hlib]
  by_cases ha : a = library
  · subst ha
    rw [if_pos rfl, List.mem_insertIdx hi]
    simp [or_comm]
  · rw [if_neg ha]
    simp [ha]

end

variable [Payload β] {s : Site β} {t : Tree β} {library block : BlockId} {index : Nat}

/-- In a forest the libraries above a library are all looked at. -/
theorem verdict_checkCompatible (h : t.Forest) {libraryNode node : Node β}
    (hl : t.node? library = some libraryNode) (hn : t.node? block = some node) :
    Verdict [(¬ t.isBeingDeleted library, .beingDeleted library),
      (¬ t.isBeingDeleted block, .beingDeleted block),
      (¬ t.Above block library, .cycleDetected library block),
      (∃ p ∈ t.payload? library, ∃ q ∈ t.payload? block, Payload.accepts p q,
        .rejected library block)] (checkCompatible t library block) := by
  have habove : (t.ancestors library).contains block ↔ t.Above block library := by
    rw [List.contains_iff_mem, h.mem_ancestors (Tree.contains_of_node? hl)]
  have haccepts : (∃ p ∈ t.payload? library, ∃ q ∈ t.payload? block, Payload.accepts p q) ↔
      Payload.accepts libraryNode.payload node.payload := by
    simp [Tree.payload?, hl, hn]
  unfold checkCompatible
  rw [require_eq_ok_iff.mpr hl, require_eq_ok_iff.mpr hn, Tree.isBeingDeleted_of_node? hl,
    Tree.isBeingDeleted_of_node? hn, ← habove, haccepts]
  refine .cons (fun hmark => if_pos (not_not.mp hmark)) fun hmark => ?_
  dsimp only
  rw [if_neg hmark]
  refine .cons (fun hmark' => if_pos (not_not.mp hmark')) fun hmark' => ?_
  rw [if_neg hmark']
  refine .cons (fun hup => if_pos (not_not.mp hup)) fun hup => ?_
  rw [if_neg hup]
  refine .cons (fun hrefused => if_pos (by simpa using hrefused)) fun haccepted => ?_
  rw [if_neg (by simpa using haccepted)]
  exact .nil

/-- An insertion is answered by its list of requirements. -/
theorem verdict_checkInsertion (h : t.Forest) (library block : BlockId) (index : Nat) :
    Verdict (t.requirements library block index) (checkInsertion t library block index) := by
  unfold checkInsertion Tree.requireLibrary Tree.require
  refine .cons (fun hstale => ?_) fun hlive => ?_
  · have hnone : t.node? library = none := by simpa [Tree.contains] using hstale
    simp [hnone]
  obtain ⟨libraryNode, hl⟩ := Option.isSome_iff_exists.mp hlive
  simp only [hl]
  refine .cons (fun hleaf => ?_) fun hlib => ?_
  · have hnone : libraryNode.children = none := by simpa [Tree.isLibrary, hl] using hleaf
    simp [hnone]
  obtain ⟨children, hc⟩ : ∃ children, libraryNode.children = some children := by
    simpa [Tree.isLibrary, hl, Option.isSome_iff_exists] using hlib
  have hcount : t.childCount library = children.length := by
    rw [Tree.childCount, Tree.children_of_node? hl, hc, Option.getD_some]
  simp only [hc]
  refine .cons (fun hstale => ?_) fun hlive => ?_
  · have hnone : t.node? block = none := by simpa [Tree.contains] using hstale
    simp [hnone]
  obtain ⟨node, hn⟩ := Option.isSome_iff_exists.mp hlive
  simp only [hn]
  rw [Tree.parent?_of_node? hn, hcount]
  refine .cons (fun hattached => if_pos (Option.isSome_iff_ne_none.mpr hattached)) fun hfree => ?_
  rw [if_neg (by simp [hfree])]
  refine .cons (fun hbound => if_pos (Nat.not_le.mp hbound)) fun hbound => ?_
  rw [if_neg (Nat.not_lt.mpr hbound)]
  exact verdict_checkCompatible h hl hn

/-- What an insertion does with a block, and the loop that looks for the block above the library. -/
structure Judged (s : Site β) (library block : BlockId) (index : Nat) : Prop where
  /-- All that is asked for has to be so, and the complaint is about the first thing that is not. -/
  verdict : Verdict (s.tree.requirements library block index) (s.insert library block index).1
  /-- The loop ends. -/
  ends : ∃ found, s.tree.Meets block (some library) found
  finds : ∀ found, s.tree.Meets block (some library) found →
    (found = true ↔ s.tree.Above block library)
  /-- It finds the block if the insertion would put a block below itself. -/
  looped : s.tree.isLibrary library → index ≤ s.tree.childCount library →
    ∀ found, s.tree.Meets block (some library) found →
      (found = true ↔ (s.attach library block index).tree.Looped)

/-- Whatever site is reached, an insertion succeeds exactly if it is legal. -/
theorem judged_of_reached (h : Reached Guarded s) (library block : BlockId) (index : Nat) :
    Judged s library block index where
  verdict := by
    have hverdict := verdict_checkInsertion h.sound.forest library block index
    have hanswer : (s.insert library block index).1 =
        checkInsertion s.tree library block index := by
      unfold insert
      cases checkInsertion s.tree library block index <;> rfl
    rwa [hanswer]
  ends := by
    obtain ⟨d, hd⟩ := h.sound.forest.grounded library
    exact hd.exists_meets block
  finds _ hfound := hfound.eq_true_iff_above
  looped hlib hi found hfound := by
    rw [hfound.eq_true_iff_above, h.sound.forest.looped_iff (holds_attach hlib hi)]

/-- The folder would have to hold the library that it stands in. A leaf it may hold. -/
theorem judged_of_reached_branch :
    (branch.insert ⟨1, 0⟩ ⟨0, 0⟩ 0).1 = .error (.cycleDetected ⟨1, 0⟩ ⟨0, 0⟩) ∧
      branch.tree.Meets ⟨0, 0⟩ (some ⟨1, 0⟩) true ∧
      (branch.attach ⟨1, 0⟩ ⟨0, 0⟩ 0).tree.Looped ∧
      (cuttings.insert ⟨1, 0⟩ ⟨2, 0⟩ 0).1 = .ok () := by
  have hall := judged_of_reached reached_branch ⟨1, 0⟩ ⟨0, 0⟩ 0
  have hup : branch.tree.Above ⟨0, 0⟩ ⟨1, 0⟩ := .up (by decide +kernel) (.refl _)
  obtain ⟨found, hmeets⟩ := hall.ends
  obtain rfl := (hall.finds found hmeets).mpr hup
  refine ⟨?_, hmeets, (hall.looped ?_ ?_ true hmeets).mp rfl, ?_⟩
  · refine (hall.verdict.error _).mpr
      ⟨(branch.tree.requirements ⟨1, 0⟩ ⟨0, 0⟩ 0).take 7, _, _, rfl, ?_, not_not.mpr hup⟩
    simp only [Tree.requirements, List.take, List.forall_mem_cons]
    refine ⟨?_, ?_, ?_, ?_, ?_, ?_, ?_, List.forall_mem_nil _⟩
    all_goals decide +kernel
  · decide +kernel
  · decide +kernel
  · refine (judged_of_reached reached_cuttings ⟨1, 0⟩ ⟨2, 0⟩ 0).verdict.ok.mpr ?_
    have hapart : ¬ cuttings.tree.Above ⟨2, 0⟩ ⟨1, 0⟩ := by
      intro habove
      have hfree : cuttings.tree.parent? ⟨1, 0⟩ = none := by decide +kernel
      cases habove with
      | up hp _ =>
        rw [hfree] at hp
        cases hp
    simp only [Tree.requirements, List.forall_mem_cons]
    refine ⟨?_, ?_, ?_, ?_, ?_, ?_, ?_, hapart, ⟨_, rfl, _, rfl, rfl⟩, List.forall_mem_nil _⟩
    all_goals decide +kernel

end Site

end BlockForest
