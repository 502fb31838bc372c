import Mathlib
import BlockForest.Proofs.TypeRegistration
import BlockForest.Proofs.SlotGenerations
import BlockForest.Stock.Types

/-!
# Extensions over a whole run

What is done to the extensions of one entry is a list of deeds: one is attached, one is detached,
or all are dropped when the type is taken out of its registry. Attaching what is there already is a
deed as well, but it has no effect. From the list one can read off what is `Attached` in the end,
and since when (`AttachedAt`); the extensions of the entry are the `Roll` of it.

Two extensions are told apart by their numbers, so a deed is about a number, and names play no part
in it. A run of a catalogue has such a list for each of its entries (`Catalogue.deeds`), to which an
operation adds one deed at most, and the entry meets with it (`Catalogue.Meets`).
-/

set_option autoImplicit false

namespace BlockForest

variable {β : Type}

namespace Entry

/-- What is done to the extensions of an entry. -/
inductive Deed where
  | attach (x : Extension)
  | detach (x : Extension)
  /-- All of them are dropped. -/
  | drop

/-- Whether a deed takes the extension with a number away. -/
def Deed.Removes (number : Nat) : Deed → Prop
  | attach _ => False
  | detach x => x.number = number
  | drop => True

/-- The entry after a deed. -/
def meet (e : Entry β) : Deed → Entry β
  | .attach x => (e.attachExtension x).2
  | .detach x => (e.detachExtension x).2
  | .drop => e.clearExtensions

/-- The extension with a number was attached, and nothing has taken it away since. -/
def Attached (deeds : List Deed) (number : Nat) : Prop :=
  ∃ before x after, deeds = before ++ .attach x :: after ∧ x.number = number ∧
    ∀ d ∈ after, ¬ d.Removes number

/-- An extension was attached at a time when it was not there, and nothing has taken it away
since. -/
def AttachedAt (deeds : List Deed) (time : Nat) (x : Extension) : Prop :=
  ∃ before after, deeds = before ++ .attach x :: after ∧ before.length = time ∧
    ¬ Attached before x.number ∧ ∀ d ∈ after, ¬ d.Removes x.number

/-- The list of all that is attached, in the order of the times since when it is. -/
def Roll (deeds : List Deed) (xs : List Extension) : Prop :=
  ∃ roll : List (Nat × Extension), roll.map Prod.snd = xs ∧
    roll.Pairwise (fun a b => a.1 < b.1) ∧ ∀ time x, (time, x) ∈ roll ↔ AttachedAt deeds time x

section Deeds

variable {deeds : List Deed} {d : Deed} {number time : Nat} {x y : Extension}

/-! ### One more deed -/

/-- Before anything was done no extension is attached. -/
theorem not_attached_nil : ¬ Attached [] number := by
  rintro ⟨before, x, after, h, -⟩
  simp at h

/-- Before anything was done no extension was attached at any time. -/
theorem not_attachedAt_nil : ¬ AttachedAt [] time x := by
  rintro ⟨before, after, h, -⟩
  simp at h

/-- After one more deed an extension is attached if the deed attaches it, or if it was attached and
the deed does not remove it. -/
theorem attached_concat : Attached (deeds ++ [d]) number ↔
    ¬ d.Removes number ∧ (Attached deeds number ∨ ∃ x, d = .attach x ∧ x.number = number) := by
  constructor
  · rintro ⟨before, x, after, heq, hx, hafter⟩
    rcases concat_eq_append_cons heq with ⟨-, -, rfl⟩ | ⟨after', rfl, rfl⟩
    · exact ⟨id, .inr ⟨x, rfl, hx⟩⟩
    · obtain ⟨hafter', hlast⟩ := List.forall_mem_append.mp hafter
      exact ⟨hlast d List.mem_cons_self, .inl ⟨before, x, after', rfl, hx, hafter'⟩⟩
  · rintro ⟨hkeep, ⟨before, x, after, rfl, hx, hafter⟩ | ⟨x, rfl, hx⟩⟩
    · exact ⟨before, x, after ++ [d], by simp, hx,
        List.forall_mem_append.mpr ⟨hafter, List.forall_mem_singleton.mpr hkeep⟩⟩
    · exact ⟨deeds, x, [], rfl, hx, nofun⟩

/-- The time of an extension is kept until it is removed. A deed that attaches what is there already
does not count. -/
theorem attachedAt_concat : AttachedAt (deeds ++ [d]) time x ↔
    (AttachedAt deeds time x ∧ ¬ d.Removes x.number) ∨
      (d = .attach x ∧ time = deeds.length ∧ ¬ Attached deeds x.number) := by
  constructor
  · rintro ⟨before, after, heq, htime, hnew, hafter⟩
    rcases concat_eq_append_cons heq with ⟨-, rfl, rfl⟩ | ⟨after', rfl, rfl⟩
    · exact .inr ⟨rfl, htime.symm, hnew⟩
    · obtain ⟨hafter', hlast⟩ := List.forall_mem_append.mp hafter
      exact .inl ⟨⟨before, after', rfl, htime, hnew, hafter'⟩, hlast d List.mem_cons_self⟩
  · rintro (⟨⟨before, after, rfl, htime, hnew, hafter⟩, hkeep⟩ | ⟨rfl, rfl, hnew⟩)
    · exact ⟨before, after ++ [d], by simp, htime, hnew,
        List.forall_mem_append.mpr ⟨hafter, List.forall_mem_singleton.mpr hkeep⟩⟩
    · exact ⟨deeds, [], rfl, rfl, hnew, nofun⟩

/-! ### What is attached, and since when -/

/-- What was attached at some time is attached. -/
theorem AttachedAt.attached (h : AttachedAt deeds time x) : Attached deeds x.number := by
  obtain ⟨before, after, heq, -, -, hafter⟩ := h
  exact ⟨before, x, after, heq, rfl, hafter⟩

/-- The time of an extension lies within the run. -/
theorem AttachedAt.lt (h : AttachedAt deeds time x) : time < deeds.length := by
  obtain ⟨before, after, rfl, rfl, -⟩ := h
  simp

/-- Whatever is attached is so since some time. -/
theorem Attached.since (h : Attached deeds number) :
    ∃ time x, AttachedAt deeds time x ∧ x.number = number := by
  induction deeds using List.reverseRecOn with
  | nil => exact absurd h not_attached_nil
  | append_singleton deeds d ih =>
    obtain ⟨hkeep, hbefore⟩ := attached_concat.mp h
    -- an attachment of what is there already is not the one that counts
    by_cases hold : Attached deeds number
    · obtain ⟨time, x, hat, rfl⟩ := ih hold
      exact ⟨time, x, attachedAt_concat.mpr (.inl ⟨hat, hkeep⟩), rfl⟩
    · obtain ⟨x, rfl, rfl⟩ := hbefore.resolve_left hold
      exact ⟨deeds.length, x, attachedAt_concat.mpr (.inr ⟨rfl, rfl, hold⟩), rfl⟩

/-- An extension is attached since one time only: later it was there already. -/
theorem AttachedAt.unique {time' : Nat} (h : AttachedAt deeds time x)
    (h' : AttachedAt deeds time' y) (heq : x.number = y.number) : time = time' := by
  induction deeds using List.reverseRecOn with
  | nil => exact absurd h not_attachedAt_nil
  | append_singleton deeds d ih =>
    rcases attachedAt_concat.mp h with ⟨hold, -⟩ | ⟨-, htime, hnew⟩
    · rcases attachedAt_concat.mp h' with ⟨hold', -⟩ | ⟨-, -, hnew'⟩
      · exact ih hold hold'
      · exact absurd (heq ▸ hold.attached) hnew'
    · rcases attachedAt_concat.mp h' with ⟨hold', -⟩ | ⟨-, htime', -⟩
      · exact absurd (heq ▸ hold'.attached) hnew
      · exact htime.trans htime'.symm

/-! ### The roll -/

variable {xs : List Extension}

/-- Before anything was done the roll is empty. -/
theorem roll_nil : Roll [] [] :=
  ⟨[], rfl, .nil, fun _ _ => ⟨nofun, fun h => absurd h not_attachedAt_nil⟩⟩

namespace Roll

variable (h : Roll deeds xs)

include h

/-- A number is on the roll exactly if it is attached. -/
theorem exists_number_iff : (∃ y ∈ xs, y.number = number) ↔ Attached deeds number := by
  obtain ⟨roll, rfl, -, hmem⟩ := h
  constructor
  · rintro ⟨y, hy, rfl⟩
    obtain ⟨⟨time, x⟩, hx, rfl⟩ := List.mem_map.mp hy
    exact ((hmem time x).mp hx).attached
  · intro hattached
    obtain ⟨time, x, hat, rfl⟩ := hattached.since
    exact ⟨x, List.mem_map_of_mem ((hmem time x).mpr hat), rfl⟩

/-- No number is on the roll twice. -/
theorem nodup : (xs.map Extension.number).Nodup := by
  obtain ⟨roll, rfl, hsorted, hmem⟩ := h
  rw [List.map_map, List.Nodup, List.pairwise_map]
  refine hsorted.imp_of_mem ?_
  rintro ⟨time, x⟩ ⟨time', y⟩ hx hy hlt heq
  have := ((hmem time x).mp hx).unique ((hmem time' y).mp hy) heq
  simp only at hlt
  omega

/-- A list of deeds has one roll only: what is on it and in which order can be told from them. -/
theorem unique {ys : List Extension} (h' : Roll deeds ys) : xs = ys := by
  obtain ⟨roll, rfl, hsorted, hmem⟩ := h
  obtain ⟨roll', rfl, hsorted', hmem'⟩ := h'
  have : Std.Irrefl fun a b : Nat × Extension => a.1 < b.1 := ⟨fun a => Nat.lt_irrefl a.1⟩
  have : Std.Antisymm fun a b : Nat × Extension => a.1 < b.1 :=
    ⟨fun a b hab hba => absurd hba (Nat.lt_asymm hab)⟩
  rw [hsorted.eq_of_mem_iff hsorted' fun ⟨time, x⟩ => (hmem time x).trans (hmem' time x).symm]

/-- What is there already keeps its place. -/
theorem attach_again (hthere : Attached deeds x.number) : Roll (deeds ++ [.attach x]) xs := by
  obtain ⟨roll, hxs, hsorted, hmem⟩ := h
  refine ⟨roll, hxs, hsorted, fun time y => ?_⟩
  rw [hmem, attachedAt_concat]
  constructor
  · exact fun hat => .inl ⟨hat, id⟩
  · rintro (⟨hat, -⟩ | ⟨heq, -, hnew⟩)
    · exact hat
    · cases heq
      exact absurd hthere hnew

/-- What is new comes last. -/
theorem attach_new (hnew : ¬ Attached deeds x.number) :
    Roll (deeds ++ [.attach x]) (xs ++ [x]) := by
  obtain ⟨roll, rfl, hsorted, hmem⟩ := h
  refine ⟨roll ++ [(deeds.length, x)], by simp, ?_, fun time y => ?_⟩
  · refine List.pairwise_append.mpr ⟨hsorted, List.pairwise_singleton .., ?_⟩
    rintro ⟨time, y⟩ hy last hlast
    rw [List.mem_singleton.mp hlast]
    exact ((hmem time y).mp hy).lt
  · rw [List.mem_append, hmem, List.mem_singleton, Prod.mk.injEq, attachedAt_concat]
    constructor
    · rintro (hat | ⟨rfl, rfl⟩)
      · exact .inl ⟨hat, id⟩
      · exact .inr ⟨rfl, rfl, hnew⟩
    · rintro (⟨hat, -⟩ | ⟨heq, htime, -⟩)
      · exact .inl hat
      · cases heq
        exact .inr ⟨htime, rfl⟩

/-- To detach an extension takes its number off the roll and keeps the order of the others. -/
theorem detach (x : Extension) :
    Roll (deeds ++ [.detach x]) (xs.filter fun y => y.number ≠ x.number) := by
  obtain ⟨roll, rfl, hsorted, hmem⟩ := h
  refine ⟨roll.filter fun item => item.2.number ≠ x.number, by rw [List.filter_map]; rfl,
    hsorted.filter _, fun time y => ?_⟩
  rw [List.mem_filter, hmem, attachedAt_concat, decide_eq_true_iff]
  constructor
  · rintro ⟨hat, hne⟩
    exact .inl ⟨hat, fun heq => hne heq.symm⟩
  · rintro (⟨hat, hkeep⟩ | ⟨heq, -⟩)
    · exact ⟨hat, fun heq => hkeep heq.symm⟩
    · cases heq

omit h in
/-- When a type leaves its registry, its roll is empty. -/
theorem drop (deeds : List Deed) : Roll (deeds ++ [.drop]) [] := by
  refine ⟨[], rfl, .nil, fun time y => ⟨nofun, fun hat => ?_⟩⟩
  rcases attachedAt_concat.mp hat with ⟨-, hkeep⟩ | ⟨heq, -⟩
  · exact absurd trivial hkeep
  · cases heq

end Roll

variable {e : Entry β}

/-- An entry has an extension exactly if one with this number is on its list. -/
theorem hasExtension_iff (e : Entry β) (x : Extension) :
    e.hasExtension x = true ↔ ∃ y ∈ e.extensions, y.number = x.number := by
  simp [hasExtension]

/-- A deed leaves an entry with the roll of the longer list. -/
theorem Roll.meet (h : Roll deeds e.extensions) (d : Deed) :
    Roll (deeds ++ [d]) (e.meet d).extensions := by
  cases d with
  | attach x =>
    have hthere := (e.hasExtension_iff x).trans h.exists_number_iff
    rw [Entry.meet, attachExtension]
    split
    · next hhas => exact h.attach_again (hthere.mp hhas)
    · next hhas => exact h.attach_new (mt hthere.mpr hhas)
  | detach x => exact h.detach x
  | drop => exact .drop deeds

/-! ### What the entry answers -/

/-- Attaching answers yes exactly if the number was not attached. -/
theorem attachExtension_eq_true_iff (h : Roll deeds e.extensions) (x : Extension) :
    (e.attachExtension x).1 = true ↔ ¬ Attached deeds x.number := by
  have hthere := (e.hasExtension_iff x).trans h.exists_number_iff
  rw [← hthere, attachExtension]
  split
  · next hhas => simp [hhas]
  · next hhas => simp [hhas]

/-- Detaching answers yes exactly if the number was attached. -/
theorem detachExtension_eq_true_iff (h : Roll deeds e.extensions) (x : Extension) :
    (e.detachExtension x).1 = true ↔ Attached deeds x.number := by
  rw [← h.exists_number_iff, detachExtension, bne_iff_ne]
  refine not_iff_comm.mp ?_
  rw [List.length_filter_eq_length_iff]
  simp

end Deeds

end Entry

namespace Catalogue

open Entry

variable {c : Catalogue β} {ref : EntryRef}

/-- The extensions of the entry at a place. -/
def extensionsAt (c : Catalogue β) (ref : EntryRef) : List Extension :=
  (c.entryAt? ref).elim [] Entry.extensions

/-- What an operation does to the extensions of one entry, if anything. A type that stays in its
registry keeps its extensions. -/
def deed? (c : Catalogue β) (ref : EntryRef) : Op β → Option Deed
  | .attachExtension other x =>
    if other = ref ∧ (c.entryAt? ref).isSome then some (.attach x) else none
  | .detachExtension other x =>
    if other = ref ∧ (c.entryAt? ref).isSome then some (.detach x) else none
  | .unregister r name =>
    if c.lookupName r name = some ref ∧ (c.unregister r name).1 = .ok () then some .drop else none
  | _ => none

/-- What is done to the extensions of one entry in a run. -/
def deeds (ref : EntryRef) : Catalogue β → List (Op β) → List Deed
  | _, [] => []
  | c, op :: ops => (c.deed? ref op).toList ++ deeds ref (c.perform op) ops

/-- What one more operation does comes last in the history. -/
theorem deeds_concat (c : Catalogue β) (ref : EntryRef) (ops : List (Op β)) (op : Op β) :
    deeds ref c (ops ++ [op]) =
      deeds ref c ops ++ ((ops.foldl perform c).deed? ref op).toList := by
  induction ops generalizing c with
  | nil => simp [deeds]
  | cons first ops ih => rw [List.cons_append, deeds, ih, deeds, List.foldl_cons, List.append_assoc]

/-! ### One operation -/

/-- A change of an entry that keeps its extensions keeps the extensions of every entry. -/
theorem extensionsAt_modifyEntry {other : EntryRef} {f : Entry β → Entry β}
    (hf : other = ref → ∀ e, (f e).extensions = e.extensions) :
    (c.modifyEntry other f).extensionsAt ref = c.extensionsAt ref := by
  rw [extensionsAt, entryAt?_modifyEntry, extensionsAt]
  cases c.entryAt? ref with
  | none => rfl
  | some e =>
    rw [Option.map_some, Option.elim_some, Option.elim_some]
    split
    · next heq => exact hf heq.symm e
    · rfl

/-- A change either does nothing to the extensions of an entry, or the entry is there and meets with
the deed. -/
def Meets (c c' : Catalogue β) (ref : EntryRef) (deed? : Option Deed) : Prop :=
  (deed? = none ∧ c'.extensionsAt ref = c.extensionsAt ref) ∨
    ∃ d entry, deed? = some d ∧ c.entryAt? ref = some entry ∧
      c'.entryAt? ref = some (entry.meet d)

/-- When a deed is done to an entry, this entry meets with it, and the others meet with nothing. -/
theorem meets_modifyEntry (c : Catalogue β) (ref other : EntryRef) (d : Deed) :
    c.Meets (c.modifyEntry other fun e => e.meet d) ref
      (if other = ref ∧ (c.entryAt? ref).isSome then some d else none) := by
  by_cases hother : other = ref
  · cases he : c.entryAt? ref with
    | none =>
      refine .inl ⟨if_neg (by simp), ?_⟩
      rw [extensionsAt, extensionsAt, entryAt?_modifyEntry, he]
      rfl
    | some entry =>
      refine .inr ⟨d, entry, if_pos ⟨hother, rfl⟩, he, ?_⟩
      rw [entryAt?_modifyEntry, he, Option.map_some, if_pos hother.symm]
  · exact .inl ⟨if_neg fun h => hother h.1, extensionsAt_modifyEntry fun h => absurd h hother⟩

/-- To unregister a type drops the extensions of its entry if it succeeds, and does nothing to them
if it does not. -/
theorem meets_unregister (c : Catalogue β) (ref : EntryRef) (r : RegistryRef) (name : String) :
    c.Meets (c.unregister r name).2 ref
      (if c.lookupName r name = some ref ∧ (c.unregister r name).1 = .ok () then some .drop
        else none) := by
  unfold unregister
  split
  · exact .inl ⟨if_neg nofun, rfl⟩
  · next other entry hfound =>
    obtain ⟨hlook, he⟩ := entryAt?_of_findName hfound
    split
    · exact .inl ⟨if_neg nofun, rfl⟩
    · by_cases hother : other = ref
      · subst hother
        refine .inr ⟨.drop, entry, if_pos ⟨hlook, rfl⟩, he, ?_⟩
        show (c.modifyEntry other Entry.clearExtensions).entryAt? other = _
        rw [entryAt?_modifyEntry, he, Option.map_some, if_pos rfl]
        rfl
      -- the type of another entry is taken out
      · refine .inl ⟨if_neg fun h => hother ?_, ?_⟩
        · rw [hlook] at h
          exact Option.some.inj h.1
        · exact extensionsAt_modifyEntry (c := c) fun h => absurd h hother

/-- Whatever an operation is, it does to the extensions of an entry what the history says of it. -/
theorem meets_perform (c : Catalogue β) (ref : EntryRef) (op : Op β) :
    c.Meets (c.perform op) ref (c.deed? ref op) := by
  cases op with
  | addRegistry => exact .inl ⟨rfl, rfl⟩
  | addEntry type => exact .inl ⟨rfl, elim_addEntry (fun _ _ h => (fresh_of h).2) c type ref⟩
  | register r type => exact .inl ⟨rfl, elim_register (fun _ _ h => (fresh_of h).2) c r type ref⟩
  | unregister r name => exact meets_unregister c ref r name
  | attachExtension other x => exact meets_modifyEntry c ref other (.attach x)
  | detachExtension other x => exact meets_modifyEntry c ref other (.detach x)
  | countUp other => exact .inl ⟨rfl, extensionsAt_modifyEntry fun _ _ => rfl⟩
  | release other => exact .inl ⟨rfl, extensionsAt_modifyEntry fun _ _ => rfl⟩

/-! ### Runs -/

/-- The extensions of an entry are at all times the roll of what was done to them. -/
theorem roll_run (ops : List (Op β)) (ref : EntryRef) :
    Roll (deeds ref empty ops) ((run ops).extensionsAt ref) := by
  induction ops using List.reverseRecOn with
  | nil => exact roll_nil
  | append_singleton ops op ih =>
    have hrun : run (ops ++ [op]) = (run ops).perform op := List.foldl_concat ..
    rw [deeds_concat, hrun]
    change Roll (_ ++ ((run ops).deed? ref op).toList) _
    rcases meets_perform (run ops) ref op with ⟨hnone, hkept⟩ | ⟨d, entry, hsome, he, he'⟩
    · rwa [hnone, hkept, Option.toList_none, List.append_nil]
    · rw [extensionsAt, he] at ih
      rw [hsome, extensionsAt, he']
      exact ih.meet d

/-- After any run the extensions of an entry are those that were attached and not detached or
dropped since, each once, in the order in which they came to be there. An extension is attached
exactly if it was not there and detached exactly if it was, and then no other is, whatever its name.
Those of one name are found in the same order, the first of them by the name alone. When the type is
taken out of its registry none is left, and where that is refused all are. -/
theorem extensions_of_run (ops : List (Op β)) {ref : EntryRef} {entry : Entry β}
    (he : (run ops).entryAt? ref = some entry) :
    (∀ xs, Roll (deeds ref empty ops) xs ↔ xs = entry.extensions) ∧
      (entry.extensions.map Extension.number).Nodup ∧
      (∀ x, (entry.attachExtension x).1 = true ↔ ¬ Attached (deeds ref empty ops) x.number) ∧
      (∀ x, ((entry.detachExtension x).1 = true ↔ Attached (deeds ref empty ops) x.number) ∧
        (entry.detachExtension x).2.extensions.Sublist entry.extensions ∧
        ∀ y, y ∈ (entry.detachExtension x).2.extensions ↔
          y ∈ entry.extensions ∧ y.number ≠ x.number) ∧
      (∀ name, entry.extension? name = (entry.extensionsNamed name).head? ∧
        (entry.extensionsNamed name).Sublist entry.extensions ∧
        ∀ x, x ∈ entry.extensionsNamed name ↔ x ∈ entry.extensions ∧ x.name = name) ∧
      ∀ r name, (run ops).lookupName r name = some ref →
        (((run ops).unregister r name).1 = .ok () →
          ((run ops).unregister r name).2.extensionsAt ref = []) ∧
        ∀ e, ((run ops).unregister r name).1 = .error e →
          ((run ops).unregister r name).2.entryAt? ref = some entry := by
  have hroll := roll_run ops ref
  rw [extensionsAt, he, Option.elim_some] at hroll
  refine ⟨fun xs => ⟨fun h => h.unique hroll, fun h => h ▸ hroll⟩, hroll.nodup,
    attachExtension_eq_true_iff hroll, fun x => ?_, fun name => ?_,
    fun r name hlook => ⟨fun hok => ?_, fun e herror => ?_⟩⟩
  · refine ⟨detachExtension_eq_true_iff hroll x, List.filter_sublist, fun y => ?_⟩
    rw [detachExtension, List.mem_filter, decide_eq_true_iff]
  · refine ⟨List.head?_filter.symm, List.filter_sublist, fun x => ?_⟩
    rw [extensionsNamed, List.mem_filter, decide_eq_true_iff]
  · rcases meets_unregister (run ops) ref r name with ⟨hnone, -⟩ | ⟨d, other, hsome, -, he'⟩
    · rw [if_pos ⟨hlook, hok⟩] at hnone
      cases hnone
    · rw [if_pos ⟨hlook, hok⟩] at hsome
      cases hsome
      rw [extensionsAt, he']
      rfl
  · rw [unregister_unchanged herror, he]

/-- Two extensions of one name. One of them is attached twice, which changes nothing, and when it is
detached and attached again it has gone behind the others. The type stays registered while a block
of it is alive, and so its entry keeps them all. -/
theorem extensions_of_run_palettes :
    let warm : Extension := ⟨1, "palette"⟩
    let cold : Extension := ⟨2, "palette"⟩
    let exporter : Extension := ⟨3, "export"⟩
    let ops : List (Op Stock) := [.addRegistry, .register 0 StockType.gauge.blockType,
      .attachExtension 0 warm, .attachExtension 0 cold, .attachExtension 0 exporter,
      .attachExtension 0 warm, .detachExtension 0 warm, .attachExtension 0 warm, .countUp 0,
      .unregister 0 "Gauge"]
    ∃ entry, (run ops).entryAt? 0 = some entry ∧ entry.extension? "palette" = some cold ∧
      Roll (deeds 0 empty ops) [cold, exporter, warm] ∧
      Attached (deeds 0 empty ops) warm.number ∧ (entry.attachExtension warm).1 = false ∧
      ((run ops).unregister 0 "Gauge").2.entryAt? 0 = some entry := by
  intro warm cold exporter ops
  have hlist : ((run ops).entryAt? 0).map Entry.extensions = some [cold, exporter, warm] := by
    decide +kernel
  obtain ⟨entry, he, hextensions⟩ := Option.map_eq_some_iff.mp hlist
  obtain ⟨hroll, -, hattach, hdetach, hnamed, hunregister⟩ := extensions_of_run ops he
  have hwarm : Attached (deeds 0 empty ops) warm.number := by
    rw [← (hdetach warm).1, detachExtension, hextensions]
    rfl
  refine ⟨entry, he, ?_, (hroll _).mpr hextensions.symm, hwarm, ?_, ?_⟩
  · rw [(hnamed "palette").1, extensionsNamed, hextensions]
    decide
  · rw [← Bool.not_eq_true, hattach]
    exact not_not.mpr hwarm
  · have hlook : (run ops).lookupName 0 "Gauge" = some 0 := by decide +kernel
    exact (hunregister 0 "Gauge" hlook).2 (.instancesAlive "Gauge" 1) (by decide +kernel)

end Catalogue

end BlockForest
