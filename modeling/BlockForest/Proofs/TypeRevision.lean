import Mathlib
import BlockForest.Proofs.ReadingConditions

/-!
# Streams and revised types

A stream that was written with the types of one registry is read with those of another one, where
each type has the name of the old one but may have more properties, in another order. If the new
types take over what the old ones have stored, the stream is read, and each block has the stored
values under their names and the defaults of the new type otherwise (`Site.Revised`). If a property
was stored that the new type lacks, reading ends at the first one of this sort, unless it has ended
before.

Both follow from `Inflate.settles_node`, which knows how reading ends from the conditions of what
was written. In the first case all of them are met (`Site.met_conditions`): what a new type makes
out of stored values is of its kind, so it has room for the same children as before. In the second
case the condition on the missing property is among them.
-/

set_option autoImplicit false

namespace BlockForest

variable {β κ : Type}

/-- What stands on the right of a list of pairs has something on its left. -/
theorem exists_of_mem_right {α γ : Type} {R : α → γ → Prop} {as : List α} {bs : List γ}
    (h : List.Forall₂ R as bs) {b : γ} (hb : b ∈ bs) : ∃ a ∈ as, R a b := by
  induction h with
  | nil => cases hb
  | cons hab _ ih =>
    rcases List.mem_cons.mp hb with rfl | hb
    · exact ⟨_, List.mem_cons_self, hab⟩
    · obtain ⟨a, ha, hr⟩ := ih hb
      exact ⟨a, List.mem_cons_of_mem _ ha, hr⟩

/-- Of the properties that are asked for and are missing there is a first one. -/
theorem Condition.exists_first_missing {cs : List (Condition β)}
    (h : ∃ type name, .listed type name ∈ cs ∧ type.property? (nameHash name) = none) :
    ∃ before type name after, cs = before ++ .listed type name :: after ∧
      type.property? (nameHash name) = none ∧
      ∀ type name, .listed type name ∈ before → type.property? (nameHash name) ≠ none := by
  classical
  obtain ⟨type, name, hmem, hmissing⟩ := h
  obtain ⟨c, hfind⟩ := Option.isSome_iff_exists.mp (List.find?_isSome
    (p := fun c : Condition β => decide (∃ type name, c = .listed type name ∧
      type.property? (nameHash name) = none)) |>.mpr
        ⟨_, hmem, decide_eq_true ⟨type, name, rfl, hmissing⟩⟩)
  obtain ⟨hc, before, after, rfl, hbefore⟩ := List.find?_eq_some_iff_append.mp hfind
  obtain ⟨type, name, rfl, hmissing⟩ := of_decide_eq_true hc
  refine ⟨before, type, name, after, rfl, hmissing, fun type name hin hnone => ?_⟩
  have hclean := hbefore _ hin
  rw [Bool.not_eq_true', decide_eq_false_iff_not] at hclean
  exact hclean ⟨type, name, rfl, hnone⟩

namespace BlockType

/-- For each stored value it is asked whether the type lists its property. -/
theorem listed_mem_valueConditions {type : BlockType β} (payload : β)
    {values : List (String × Value)} {v : String × Value} (hv : v ∈ values) :
    .listed type v.1 ∈ type.valueConditions payload values := by
  induction values generalizing payload with
  | nil => cases hv
  | cons x rest ih =>
    rw [valueConditions]
    rcases List.mem_cons.mp hv with rfl | hv
    · exact List.mem_append_left _ List.mem_cons_self
    · exact List.mem_append_right _ (ih _ hv)

/-- The values are accepted when they are written one after the other into a payload, each into the
property of its name. -/
def AcceptsNamed (type : BlockType β) : List (String × Value) → β → Prop
  | [], _ => True
  | v :: rest, payload => ∃ q ∈ type.properties, q.name = v.1 ∧
      ∃ next, q.write payload v.2 = .ok next ∧ type.AcceptsNamed rest next

/-- A type takes over what another one stores of a payload. It has a property for each stored value,
which accepts it and keeps it as a lens does, and no value is nested too deep to be read. -/
structure Succeeds (kind : β → κ) (type type' : BlockType β) (payload : β) : Prop where
  nested : ∀ w ∈ type.storedValues payload, w.2.nesting ≤ Value.maxNesting
  accepted : type'.AcceptsNamed ((type.storedValues payload).map fun w => (w.1.name, w.2))
    type'.initial
  takes : ∀ w ∈ type.storedValues payload, ∀ q ∈ type'.properties, q.name = w.1.name →
    type'.Takes kind q w.2

/-- The second payload has the stored values of the first one in the properties of their names, and
otherwise the values of a new payload of its type. -/
structure HandsDown (type type' : BlockType β) (payload payload' : β) : Prop where
  values : ∀ p ∈ type.properties, p.stored → ∀ value, p.read payload = some value →
    ∃ q ∈ type'.properties, q.name = p.name ∧ q.read payload' = some value
  defaults : ∀ q ∈ type'.properties, q.isWritable →
    (∀ p ∈ type.properties, p.name = q.name → p.stored → p.read payload = none) →
      q.read payload' = q.read type'.initial

variable {type type' : BlockType β} {payload final : β} {values : List (String × Value)}
  {ws : List (Property β × Value)}

/-- Where values are accepted by name, they are written into properties of these names. -/
theorem AcceptsNamed.exists_fills (h : type.AcceptsNamed values payload) :
    ∃ ws final, ws.map (fun w => (w.1.name, w.2)) = values ∧ (∀ w ∈ ws, w.1 ∈ type.properties) ∧
      Fills ws payload final := by
  induction values generalizing payload with
  | nil => exact ⟨[], payload, rfl, List.forall_mem_nil _, rfl⟩
  | cons v rest ih =>
    obtain ⟨q, hq, hname, next, hnext, hrest⟩ := h
    obtain ⟨ws, final, rfl, hws, hfinal⟩ := ih hrest
    refine ⟨(q, v.2) :: ws, final, ?_, List.forall_mem_cons.mpr ⟨hq, hws⟩, next, hnext, hfinal⟩
    rw [List.map_cons, hname]

/-- Writing a value into a property and putting it under the name of the property come to the
same. -/
theorem put_of_write (hids : (type.properties.map fun p => nameHash p.name).Nodup)
    {q : Property β} (hq : q ∈ type.properties) {value : Value} {next : β}
    (h : q.write payload value = .ok next) : type.put payload (q.name, value) = next := by
  simp only [put, property?_of_mem hids hq, h]

/-- A reader that writes values by their names comes to the same payload. -/
theorem Fills.foldl_put (hids : (type.properties.map fun p => nameHash p.name).Nodup)
    (hws : ∀ w ∈ ws, w.1 ∈ type.properties) (h : Fills ws payload final) :
    (ws.map fun w => (w.1.name, w.2)).foldl type.put payload = final := by
  induction ws generalizing payload with
  | nil => exact h
  | cons w ws ih =>
    obtain ⟨next, hnext, hrest⟩ := h
    rw [List.map_cons, List.foldl_cons, put_of_write hids (hws w List.mem_cons_self) hnext]
    exact ih (fun x hx => hws x (List.mem_cons_of_mem _ hx)) hrest

/-- There is nothing against values that are accepted one after the other. -/
theorem Fills.met [Payload β] (hids : (type.properties.map fun p => nameHash p.name).Nodup)
    (hws : ∀ w ∈ ws, w.1 ∈ type.properties) (hnested : ∀ w ∈ ws, w.2.nesting ≤ Value.maxNesting)
    (h : Fills ws payload final) :
    ∀ c ∈ type.valueConditions payload (ws.map fun w => (w.1.name, w.2)), c.Met := by
  induction ws generalizing payload with
  | nil => exact List.forall_mem_nil _
  | cons w ws ih =>
    obtain ⟨next, hnext, hrest⟩ := h
    have hfound := property?_of_mem hids (hws w List.mem_cons_self)
    have hmore := ih (fun x hx => hws x (List.mem_cons_of_mem _ hx))
      (fun x hx => hnested x (List.mem_cons_of_mem _ hx)) hrest
    rw [List.map_cons, valueConditions, put_of_write hids (hws w List.mem_cons_self) hnext]
    intro c hc
    simp only [List.cons_append, List.nil_append, List.mem_cons] at hc
    rcases hc with rfl | rfl | rfl | hc
    · exact Condition.met_listed hfound
    · exact Condition.met_shallow (hnested w List.mem_cons_self)
    · exact Condition.met_taken hfound hnext
    · exact hmore c hc

/-- What a type makes out of the values that it takes over. -/
theorem Succeeds.handsDown [Payload β] {kind : β → κ} (h : type.Succeeds kind type' payload)
    (hnames : (type.properties.map Property.name).Nodup)
    (hids : (type'.properties.map fun p => nameHash p.name).Nodup)
    (hvalues : (type.storedValues payload).map (fun w => (w.1.name, w.2)) = values) :
    (∀ c ∈ type'.valueConditions type'.initial values, c.Met) ∧
      kind (type'.filled values) = kind type'.initial ∧
        type.HandsDown type' payload (type'.filled values) := by
  obtain ⟨hnested, haccepted, htakes⟩ := h
  rw [hvalues] at haccepted
  obtain ⟨ws, final, rfl, hws, hfills⟩ := haccepted.exists_fills
  have hfilled : type'.filled (ws.map fun w => (w.1.name, w.2)) = final :=
    hfills.foldl_put hids hws
  rw [hfilled]
  -- The values that are written are the stored ones, in the same order.
  have hstored : ∀ w ∈ ws, ∃ x ∈ type.storedValues payload, x.1.name = w.1.name ∧ x.2 = w.2 := by
    intro w hw
    have hmem : (w.1.name, w.2) ∈ ws.map fun w => (w.1.name, w.2) := List.mem_map_of_mem hw
    rw [← hvalues] at hmem
    obtain ⟨x, hx, heq⟩ := List.mem_map.mp hmem
    exact ⟨x, hx, Prod.mk.inj heq⟩
  have hsame : ws.map (fun w => w.1.name) = (type.storedValues payload).map fun w => w.1.name := by
    simpa [List.map_map, Function.comp_def] using (congrArg (List.map Prod.fst) hvalues).symm
  have htaken : ∀ w ∈ ws, w.1 ∈ type'.properties ∧ type'.Takes kind w.1 w.2 := by
    intro w hw
    obtain ⟨x, hx, hname, hvalue⟩ := hstored w hw
    exact ⟨hws w hw, hvalue ▸ htakes x hx w.1 (hws w hw) hname.symm⟩
  obtain ⟨hkind, hread, hothers⟩ := hfills.read htaken
    (hsame ▸ hnames.sublist (names_storedValues_sublist type payload)) rfl
  refine ⟨hfills.met hids hws fun w hw => ?_, hkind, ?_, ?_⟩
  · obtain ⟨x, hx, -, hvalue⟩ := hstored w hw
    exact hvalue ▸ hnested x hx
  · intro p hp hpstored value hpread
    have hin : (p, value) ∈ type.storedValues payload :=
      mem_storedValues.mpr ⟨hp, hpstored, hpread⟩
    have hmem := List.mem_map_of_mem (f := fun w => (w.1.name, w.2)) hin
    rw [hvalues] at hmem
    obtain ⟨w, hw, heq⟩ := List.mem_map.mp hmem
    obtain ⟨hname, rfl⟩ := Prod.mk.inj heq
    exact ⟨w.1, hws w hw, hname, hread w hw⟩
  · intro q hq hwritable hlacks
    refine hothers q hq hwritable fun hin => ?_
    rw [hsame] at hin
    obtain ⟨x, hx, hname⟩ := List.mem_map.mp hin
    obtain ⟨hxmem, hxstored, hxread⟩ := mem_storedValues.mp hx
    rw [hlacks x.1 hxmem hname hxstored] at hxread
    cases hxread

end BlockType

namespace Site

/-- The type that a registry has under a name. -/
def typeNamed? (t : Site β) (name : String) : Option (BlockType β) :=
  (t.catalogue.findName t.tree.registry name).map fun found => found.2.type

/-- The second block is the first one with revised types. Each block has a type of the same name,
which the values that were written of it are handed down to. -/
inductive Revised (s t : Site β) : BlockId → BlockId → Prop
  | block {id copy : BlockId} {type type' : BlockType β} {payload payload' : β}
      (typed : s.typeOf? id = some type) (typedCopy : t.typeOf? copy = some type')
      (sameName : type'.name = type.name)
      (held : s.tree.payload? id = some payload) (heldCopy : t.tree.payload? copy = some payload')
      (handsDown : type.HandsDown type' payload payload')
      (children : List.Forall₂ (Revised s t) (Deflate.writtenChildren s.tree id)
        (t.tree.children copy)) :
      Revised s t id copy

variable {s t : Site β}

/-- A type that is found by its name has this name and is known by its identifier, and its
properties have identifiers of their own. -/
theorem type?_of_typeNamed? (hc : t.catalogue.Consistent) {name : String} {type : BlockType β}
    (h : t.typeNamed? name = some type) :
    t.type? (nameHash name) = some type ∧ type.name = name ∧
      (type.properties.map fun p => nameHash p.name).Nodup := by
  obtain ⟨⟨ref, entry⟩, hfound, rfl⟩ := Option.map_eq_some_iff.mp h
  obtain ⟨ref', hlookup, hentry⟩ := Option.bind_eq_some_iff.mp hfound
  obtain ⟨entry', he, heq⟩ := Option.map_eq_some_iff.mp hentry
  cases heq
  obtain ⟨entry', he', hname, -⟩ := hc.named _ name ref hlookup
  cases he.symm.trans he'
  obtain ⟨hfaithful, hproperties⟩ := PropertyTable.faithful_of_build (hc.table ref entry he)
  refine ⟨?_, hname, hproperties ▸ hfaithful.nodup_nameHash⟩
  rw [type?, hc.findId_of_findName hfound]
  rfl

variable [Payload β] {kind : β → κ}

/-- What the type that is found for a block has to do with the one that the block was written with:
it takes over the values, it is a library or not as before, and it leaves new blocks unmarked. The
payload of the block is of the type of its entry. -/
structure Inherits (kind : β → κ) (payload : β) (entry : Entry β) (type' : BlockType β) :
    Prop where
  alike : kind payload = kind entry.type.initial
  succeeds : entry.type.Succeeds kind type' payload
  sameRoom : Payload.isLibrary type'.initial = Payload.isLibrary entry.type.initial
  unmarked : ¬ type'.defaultFlags.contains Flags.beingDeleted

/-- Each block that is written finds a type of its name that inherits its values. -/
def Heirs (kind : β → κ) (s t : Site β) (root : BlockId) : Prop :=
  ∀ id payload entry, s.Writes root id payload entry →
    ∃ type', t.typeNamed? entry.name = some type' ∧ Inherits kind payload entry type'

/-- The types that are found accept each other as those of the blocks that are written do. -/
def AcceptAlike (s t : Site β) (root : BlockId) : Prop :=
  ∀ id payload entry type id' payload' entry' type', s.Writes root id payload entry →
    s.Writes root id' payload' entry' → t.typeNamed? entry.name = some type →
      t.typeNamed? entry'.name = some type' → Payload.accepts type.initial type'.initial =
        Payload.accepts entry.type.initial entry'.type.initial

/-- Nothing is to be said against what was written where each block has an heir: values are taken
in, and a library that accepted a block accepts it again, for new payloads are of the kinds of their
types. -/
theorem met_conditions (hk : Kinds kind) (hs : s.catalogue.Consistent) (hst : s.tree.Typed)
    (ht : t.catalogue.Consistent) {limit levels : Nat} {ex : Excerpt}
    (hfits : ex.Fits limit levels) {id : BlockId} (hex : s.Excerpted id ex)
    (hheirs : Heirs kind s t id) (haccepts : AcceptAlike s t id) :
    ∀ c ∈ ex.conditions t.type?, c.Met := by
  induction hfits generalizing id with
  | @block levels name values children _ _ ih =>
    obtain ⟨node, entry, hnode, hwrites, rfl, rfl, hbelow⟩ := hex.writes
    obtain ⟨type', hnamed, halike, hsucceeds, hroom, hunmarked⟩ := hheirs id _ _ hwrites
    obtain ⟨htype, -, hids⟩ := type?_of_typeNamed? ht hnamed
    obtain ⟨hvalues, hkind, -⟩ := hsucceeds.handsDown (hwrites.nodup_names hs) hids rfl
    rw [Excerpt.conditions, htype]
    intro c hc
    simp only [List.mem_append, List.mem_singleton] at hc
    rcases hc with rfl | hc | rfl | hc
    · exact Condition.met_known entry.name type'
    · exact hvalues c hc
    · refine Condition.met_room ((hst.isLibrary_alike hk hnode halike).imp (fun hnone => ?_)
        fun hlib => hroom.trans hlib)
      rw [← hbelow.length_eq, hnone]
      rfl
    · obtain ⟨child, hin, hc⟩ := Excerpt.mem_conditionsBelow.mp hc
      obtain ⟨kid, hmem, hkid⟩ := exists_of_mem_right hbelow hin
      rcases hc with hc | hc
      · exact ih child hin hkid (fun x payload entry hx => hheirs x payload entry (hx.below hmem))
          (fun x p e ty y p' e' ty' hx hy =>
            haccepts x p e ty y p' e' ty' (hx.below hmem) (hy.below hmem)) c hc
      · obtain ⟨name', values', children'⟩ := child
        obtain ⟨node', entry', hnode', hwrites', rfl, rfl, -⟩ := hkid.writes
        obtain ⟨kidType, hnamed', halike', hsucceeds', -, hunmarked'⟩ :=
          hheirs kid _ _ (hwrites'.below hmem)
        obtain ⟨htype', -, hids'⟩ := type?_of_typeNamed? ht hnamed'
        obtain ⟨-, hkind', -⟩ := hsucceeds'.handsDown (hwrites'.nodup_names hs) hids' rfl
        simp only [Excerpt.adoption, Excerpt.name, Excerpt.values, htype',
          List.mem_singleton] at hc
        subst hc
        have haccepted : Payload.accepts node.payload node'.payload :=
          hst.accepts_alike hk hnode (List.mem_filter.mp hmem).1 rfl hwrites'.payload rfl
        rw [hk.accepts _ _ _ _ halike halike', ← haccepts id _ _ type' kid _ _ kidType hwrites
          (hwrites'.below hmem) hnamed hnamed', ← hk.accepts _ _ _ _ hkind hkind'] at haccepted
        exact Condition.met_adopted ⟨haccepted, hunmarked, hunmarked'⟩

/-- What is found as it was planned for the excerpt of a block is the block with revised types. -/
theorem revised_of_shows (hs : s.catalogue.Consistent) (ht : t.catalogue.Consistent)
    {u : Site β} {levels : Nat} {id copy : BlockId} {ex : Excerpt} {plan : Blueprint β}
    (hex : s.Excerpted id ex) (hplan : ex.Planned t.type? plan) (hshows : u.Shows levels plan copy)
    (hheirs : Heirs kind s t id) : Revised s u id copy := by
  induction levels generalizing id copy ex plan with
  | zero => exact hshows.elim
  | succ levels ih =>
    obtain ⟨hface, hkids⟩ := hshows
    cases hplan with
    | @block name values children type' plans hknown hplans =>
      obtain ⟨node, entry, hnode, hwrites, rfl, rfl, hbelow⟩ := hex.writes
      obtain ⟨heir, hnamed, -, hsucceeds, -, -⟩ := hheirs id _ _ hwrites
      obtain ⟨htype, hname, hids⟩ := type?_of_typeNamed? ht hnamed
      cases htype.symm.trans hknown
      obtain ⟨-, -, hhands⟩ := hsucceeds.handsDown (hwrites.nodup_names hs) hids rfl
      have htyped : s.typeOf? id = some entry.type := by
        rw [typeOf?, hwrites.entry]
        rfl
      refine .block htyped (typeOf?_of_face? hface) hname hwrites.payload
        (payload?_of_face? hface) hhands ?_
      have hmembers := (List.forall₂_and_left _ _).mpr ⟨fun child hmem => hmem, hbelow⟩
      have hpaired : List.Forall₂ (fun kid plan => kid ∈ Deflate.writtenChildren s.tree id ∧
          ∃ ex, s.Excerpted kid ex ∧ ex.Planned t.type? plan)
          (Deflate.writtenChildren s.tree id) plans :=
        forall₂_trans hmembers hplans fun kid ex plan hkid hplan =>
          ⟨hkid.1, ex, hkid.2, hplan⟩
      refine forall₂_trans hpaired hkids ?_
      rintro kid plan copy ⟨hmem, ex, hkid, hplan⟩ hshown
      exact ih hkid hplan hshown fun x payload entry hx => hheirs x payload entry (hx.below hmem)

omit [Payload β] in
/-- A reader asks for the property of each value that was written. -/
theorem listed_mem_conditions (ht : t.catalogue.Consistent)
    {root id : BlockId} {payload : β} {entry : Entry β} (hw : s.Writes root id payload entry)
    {ex : Excerpt} (hex : s.Excerpted root ex)
    (hnamed : ∀ x payload entry, s.Writes root x payload entry →
      ∃ type', t.typeNamed? entry.name = some type')
    {type' : BlockType β} (hfound : t.typeNamed? entry.name = some type')
    {w : Property β × Value} (hmem : w ∈ entry.type.storedValues payload) :
    .listed type' w.1.name ∈ ex.conditions t.type? := by
  obtain ⟨hwritten, hpayload, hentry⟩ := hw
  induction hwritten generalizing ex with
  | self id =>
    obtain ⟨name, values, children⟩ := ex
    obtain ⟨node, entry', hnode, hwrites, rfl, rfl, -⟩ := hex.writes
    cases hpayload.symm.trans hwrites.payload
    cases hentry.symm.trans hwrites.entry
    obtain ⟨htype, -, -⟩ := type?_of_typeNamed? ht hfound
    rw [Excerpt.conditions, htype]
    refine List.mem_append_right _ (List.mem_append_left _ ?_)
    exact BlockType.listed_mem_valueConditions _
      (List.mem_map_of_mem (f := fun w => (w.1.name, w.2)) hmem)
  | @under root child id hchild _ ih =>
    obtain ⟨name, values, children⟩ := ex
    obtain ⟨node, entry', hnode, hwrites, rfl, rfl, hbelow⟩ := hex.writes
    obtain ⟨library, hlibrary⟩ := hnamed root _ _ hwrites
    obtain ⟨htype, -, -⟩ := type?_of_typeNamed? ht hlibrary
    obtain ⟨kid, hkid, hkidex⟩ := exists_of_mem_right (List.Forall₂.flip hbelow) hchild
    have hin := ih hkidex (fun x payload entry hx => hnamed x payload entry (hx.below hchild))
      hpayload hentry
    rw [Excerpt.conditions, htype]
    refine List.mem_append_right _ (List.mem_append_right _ (List.mem_append_right _ ?_))
    exact Excerpt.mem_conditionsBelow.mpr ⟨kid, hkid, Or.inl hin⟩

end Site

/-! ### Two revisions of a gauge -/

namespace StockType

/-- The earlier gauge stores its bounds. -/
theorem stored_gauge {payload : Stock} {w : Property Stock × Value}
    (hw : w ∈ gauge.blockType.storedValues payload) :
    w.1.name ≠ "unit" ∧ ∃ d, w.2 = .double d := by
  obtain ⟨hp, -, hread⟩ := BlockType.mem_storedValues.mp hw
  have hlist : gauge.blockType.properties = Stock.gaugeProperties := rfl
  rw [hlist, Stock.gaugeProperties] at hp
  simp only [List.mem_cons, List.not_mem_nil, or_false] at hp
  rcases hp with hp | hp
  · rw [hp] at hread ⊢
    obtain ⟨g, -, hvalue⟩ := Option.map_eq_some_iff.mp hread
    exact ⟨by decide, _, hvalue.symm⟩
  · rw [hp] at hread ⊢
    obtain ⟨g, -, hvalue⟩ := Option.map_eq_some_iff.mp hread
    exact ⟨by decide, _, hvalue.symm⟩

/-- The later gauge takes any bounds. -/
theorem takes_unitGauge {q : Property Stock} (hq : q ∈ unitGauge.blockType.properties)
    (hname : q.name ≠ "unit") (d : Double) :
    unitGauge.blockType.Takes StockType.of q (.double d) := by
  have hlist : unitGauge.blockType.properties = Stock.unitGaugeProperties := rfl
  have hgauge : ∀ payload, StockType.of payload = unitGauge → ∃ g, payload = .unitGauge g := by
    intro payload h
    cases payload with
    | unitGauge g => exact ⟨g, rfl⟩
    | _ => cases h
  rw [hlist, Stock.unitGaugeProperties] at hq
  simp only [List.mem_cons, List.not_mem_nil, or_false] at hq
  rcases hq with rfl | rfl | rfl
  · exact absurd rfl hname
  all_goals
    refine ⟨fun payload next h hwrite => ?_, fun payload next h hwrite => ?_,
      fun payload next h hwrite x hx hne _ => ?_⟩
    · obtain ⟨g, rfl⟩ := hgauge payload h
      cases hwrite
      rfl
    · obtain ⟨g, rfl⟩ := hgauge payload h
      cases hwrite
      rfl
    · obtain ⟨g, rfl⟩ := hgauge payload h
      cases hwrite
      rw [hlist, Stock.unitGaugeProperties] at hx
      simp only [List.mem_cons, List.not_mem_nil, or_false] at hx
      rcases hx with rfl | rfl | rfl <;> first | rfl | exact absurd rfl hne

/-- The later gauge takes over the bounds of the earlier one, whatever they are. -/
theorem succeeds_unitGauge (g : Gauge) :
    gauge.blockType.Succeeds StockType.of unitGauge.blockType (.gauge g) where
  nested w hw := by
    obtain ⟨-, d, hd⟩ := stored_gauge hw
    rw [hd]
    exact Nat.zero_le _
  accepted := by
    exact ⟨_, .tail _ (.head _), rfl, _, rfl, _, .tail _ (.tail _ (.head _)), rfl, _, rfl, trivial⟩
  takes w hw q hq hname := by
    obtain ⟨hne, d, hd⟩ := stored_gauge hw
    rw [hd]
    exact takes_unitGauge hq (hname ▸ hne) d

end StockType

namespace Site

/-- The type of the later gauge, with a new gauge of any sort. -/
def unitGaugeType (g : UnitGauge) : BlockType Stock :=
  { StockType.unitGauge.blockType with initial := .unitGauge g }

/-- A tree whose registry knows one type. -/
def bare (type : BlockType Stock) : Site Stock :=
  { start 0 with
    catalogue := (Catalogue.empty.perform .addRegistry).perform (.register 0 type) }

/-- A gauge of the earlier revision, from minus five to five. -/
def boundedGauge : Site Stock :=
  ((bare StockType.gauge.blockType).perform (.create "Gauge")).perform
    (.setPayload ⟨0, 0⟩ (.gauge ⟨⟨0xc014000000000000⟩, ⟨0x4014000000000000⟩⟩))

/-- A new gauge of the later revision. -/
def newUnitGauge (g : UnitGauge) : Site Stock := (bare (unitGaugeType g)).perform (.create "Gauge")

/-- A tree that only knows a type is reached, whatever is allowed. -/
theorem reached_bare {allowed : Site Stock → Op Stock → Prop} (type : BlockType Stock) :
    Reached allowed (bare type) :=
  ((Reached.start 0).elsewhere .addRegistry).elsewhere (.register 0 type)

/-- The earlier gauge is reached by creating it and writing its bounds. -/
theorem reached_boundedGauge : Reached (Tame StockType.of) boundedGauge := by
  have hold : ((bare StockType.gauge.blockType).perform (.create "Gauge")).tree.payload? ⟨0, 0⟩ =
      some StockType.gauge.initial := by cbv
  refine .perform (.perform (reached_bare StockType.gauge.blockType) trivial) fun old heq => ?_
  rw [hold] at heq
  cases heq
  rfl

/-- The gauge alone is written. -/
theorem writes_boundedGauge {id : BlockId} {payload : Stock} {entry : Entry Stock}
    (h : boundedGauge.Writes ⟨0, 0⟩ id payload entry) :
    payload = .gauge ⟨⟨0xc014000000000000⟩, ⟨0x4014000000000000⟩⟩ ∧
      entry.type = StockType.gauge.blockType := h.of_leaf (by cbv) (by cbv) (by cbv)

/-- The new gauge has the payload that its type starts with. -/
theorem payload?_newUnitGauge (g : UnitGauge) :
    (newUnitGauge g).tree.payload? ⟨0, 0⟩ = some (.unitGauge g) := by cbv

/-- The new gauge has the type that it was made of. -/
theorem typeOf?_newUnitGauge (g : UnitGauge) :
    (newUnitGauge g).typeOf? ⟨0, 0⟩ = some (unitGaugeType g) := by cbv

/-- Only the gauge itself is written with it. -/
theorem writes_newUnitGauge {g : UnitGauge} {id : BlockId} {payload : Stock} {entry : Entry Stock}
    (h : (newUnitGauge g).Writes ⟨0, 0⟩ id payload entry) :
    payload = .unitGauge g ∧ entry.type = unitGaugeType g :=
  h.of_leaf (by cbv) (payload?_newUnitGauge g) (typeOf?_newUnitGauge g)

/-- The gauge is written with its payload. -/
theorem exists_writes_newUnitGauge (g : UnitGauge) :
    ∃ entry, (newUnitGauge g).Writes ⟨0, 0⟩ ⟨0, 0⟩ (.unitGauge g) entry := by
  obtain ⟨entry, hmade, -⟩ := Option.map_eq_some_iff.mp (typeOf?_newUnitGauge g)
  exact ⟨entry, .self _, payload?_newUnitGauge g, hmade⟩

/-- The later type is found under the name of gauges. -/
theorem typeNamed?_unitGauge (g : UnitGauge) :
    (bare (unitGaugeType g)).typeNamed? "Gauge" = some (unitGaugeType g) := by cbv

/-- The earlier type is found under the name of gauges in its own registry. -/
theorem typeNamed?_gauge : (bare StockType.gauge.blockType).typeNamed? "Gauge" =
    some StockType.gauge.blockType := by cbv

end Site

/-! ### Streams that are read with revised types -/

namespace Site

variable [Payload β] {kind : β → κ} {s t : Site β}

/-- A stream that was written is read with types of the same names. If they take over the stored
values of all blocks, are the same libraries and accept each other as before, a block is found whose
types are revised: each stored value is there under its name, and what the stream lacks is as in a
new block. If a stored value has an identifier that the type of its name lacks, reading fails at the
first one in the order of the stream, unless it fails at what was asked for before. -/
theorem revised_of_inflate (hk : Kinds kind) (hs : Reached (Tame kind) s)
    (hslots : s.tree.slots.size < 2 ^ 32) (ht : Reached Any t) (settings : Settings)
    {root : BlockId} {limit : Option Nat} {watcher watcher' : Monitor} {sink : Sink}
    (hdeflate : deflate settings s.catalogue s.tree root (Sink.empty limit) watcher =
      (.ok .success, sink, watcher'))
    (hnamed : ∀ id payload entry, s.Writes root id payload entry →
      ∃ type, t.typeNamed? entry.name = some type)
    {source : Source} {rest : Bytes} (hsource : source.remaining = sink.bytes ++ rest)
    {monitor : Monitor} (hgo : ∀ n, monitor.answer n) :
    let r := inflate settings t source monitor
    (Heirs kind s t root → AcceptAlike s t root →
      ∃ copy, r.1 = .ok (.success copy) ∧ source.Passes r.2.source sink.bytes ∧
        r.2.site.tree.parent? copy = none ∧ Revised s r.2.site root copy) ∧
    ((∃ id payload entry type, s.Writes root id payload entry ∧
        t.typeNamed? entry.name = some type ∧
        ∃ w ∈ entry.type.storedValues payload, type.property? (nameHash w.1.name) = none) →
      ∃ ex before type name after e, s.Excerpted root ex ∧ ex.Recorded sink.bytes ∧
        ex.conditions t.type? = before ++ .listed type name :: after ∧
        type.property? (nameHash name) = none ∧
        (∀ type name, .listed type name ∈ before → type.property? (nameHash name) ≠ none) ∧
        r.1 = .error e ∧ (Condition.Stops before e ∨
          (∀ c ∈ before, c.Met) ∧ e = .unknownProperty type.name (nameHash name))) := by
  intro r
  obtain ⟨ex, data, hex, ⟨hfits, hrecorded⟩, rfl⟩ := put_of_deflate hs.guarded hslots hdeflate
  rw [bytes_put_empty] at hsource ⊢
  have hready : Inflate.Ready t.type? ⟨t, source, monitor⟩ :=
    ⟨ht.orderly, ht.consistent, fun _ _ htype => htype, hgo⟩
  have hsettles := Inflate.settles_node settings source.length hfits _ data rest hready rfl hrecorded hsource
  obtain ⟨houtcome, hsite, hleft⟩ := Inflate.inflate_eq_node settings t source monitor
  constructor
  · intro hheirs haccepts
    have hmet := met_conditions hk hs.consistent (hs.typed hk) ht.consistent hfits hex hheirs
      haccepts
    rcases hsettles with ⟨-, copy, plan, hplan, hsuccess, hpasses, hshows⟩ | ⟨e, hstops, -⟩
    · obtain ⟨k, -, hsprouted⟩ := (Inflate.leaves_node settings _ settings.maxDepth
        ⟨t, source, monitor⟩ ht.orderly).1 copy hsuccess
      refine ⟨copy, houtcome.trans hsuccess, hleft ▸ hpasses, ?_, ?_⟩
      · rw [hsite]
        exact hsprouted.detached.1
      · rw [hsite]
        exact revised_of_shows hs.consistent ht.consistent hex hplan hshows hheirs
    · exact absurd hmet hstops.not_met
  · rintro ⟨id, payload, entry, type', hw, hfound, w, hmem, hmissing⟩
    have hin := listed_mem_conditions ht.consistent hw hex hnamed hfound hmem
    obtain ⟨before, type, name, after, hsplit, hlacks, hbefore⟩ :=
      Condition.exists_first_missing ⟨type', w.1.name, hin, hmissing⟩
    rw [hsplit] at hsettles
    rcases hsettles with ⟨hmet, -⟩ | ⟨e, hstops, he⟩
    · exact absurd (Condition.Fails.listed hlacks)
        (hmet _ (List.mem_append_right _ List.mem_cons_self) _)
    · refine ⟨ex, before, type, name, after, e, hex, hrecorded, hsplit, hlacks, hbefore,
        houtcome.trans he, (hstops.upto (.listed hlacks)).imp_right fun h => ⟨h.1, ?_⟩⟩
      cases h.2 with
      | listed _ => rfl

/-- The later registry reads the earlier gauge and gives it the unit of a new one. The earlier
registry does not know what a unit is. -/
theorem revised_of_inflate_gauge :
    let bar : UnitGauge := ⟨⟨0⟩, ⟨0⟩, "bar"⟩
    let write := fun s : Site Stock =>
      deflate Settings.defaults s.catalogue s.tree ⟨0, 0⟩ (Sink.empty none) Monitor.always
    let read := fun (type : BlockType Stock) (bytes : Bytes) =>
      inflate Settings.defaults (bare type) (Source.ofBytes bytes 0) Monitor.always
    let later := read StockType.unitGauge.blockType (write boundedGauge).2.1.bytes
    let earlier := read StockType.gauge.blockType (write (newUnitGauge bar)).2.1.bytes
    (∃ copy, later.1 = .ok (.success copy) ∧ Revised boundedGauge later.2.site ⟨0, 0⟩ copy) ∧
      (∃ (type : BlockType Stock) (name : String) (before : List (Condition Stock))
        (e : CodecError), type.property? (nameHash name) = none ∧ earlier.1 = .error e ∧
        (Condition.Stops before e ∨ e = .unknownProperty type.name (nameHash name))) ∧
      earlier.1 = .error (.unknownProperty "Gauge" (nameHash "unit")) := by
  intro bar write read later earlier
  have hlater : (write boundedGauge).1 = .ok .success := by decide +kernel
  have hearlier : (write (newUnitGauge bar)).1 = .ok .success := by decide +kernel
  have hfound : ∀ {id payload entry}, boundedGauge.Writes ⟨0, 0⟩ id payload entry →
      (bare StockType.unitGauge.blockType).typeNamed? entry.name =
        some StockType.unitGauge.blockType := by
    intro id payload entry hw
    rw [Entry.name, (writes_boundedGauge hw).2]
    exact typeNamed?_unitGauge ⟨Double.zero, Double.ofNat 100, "kPa"⟩
  have hknown : ∀ {id payload entry}, (newUnitGauge bar).Writes ⟨0, 0⟩ id payload entry →
      (bare StockType.gauge.blockType).typeNamed? entry.name =
        some StockType.gauge.blockType := by
    intro id payload entry hw
    rw [Entry.name, (writes_newUnitGauge hw).2]
    exact typeNamed?_gauge
  have hheirs : Heirs StockType.of boundedGauge (bare StockType.unitGauge.blockType) ⟨0, 0⟩ := by
    intro id payload entry hw
    obtain ⟨rfl, htype⟩ := writes_boundedGauge hw
    refine ⟨_, hfound hw, by rw [htype]; rfl, ?_, by rw [htype]; rfl, by decide⟩
    rw [htype]
    exact StockType.succeeds_unitGauge _
  have haccepts : AcceptAlike boundedGauge (bare StockType.unitGauge.blockType) ⟨0, 0⟩ := by
    intro id payload entry type id' payload' entry' type' hw hw' hname hname'
    cases (hfound hw).symm.trans hname
    cases (hfound hw').symm.trans hname'
    rw [(writes_boundedGauge hw).2, (writes_boundedGauge hw').2]
    rfl
  have hwhole : ∀ bytes : Bytes, (Source.ofBytes bytes 0).remaining = bytes ++ [] :=
    fun bytes => (List.append_nil bytes).symm
  have hgo : ∀ n, Monitor.always.answer n := fun _ => rfl
  refine ⟨?_, ?_, by decide +kernel⟩
  · obtain ⟨hread, -⟩ := revised_of_inflate StockType.kinds reached_boundedGauge
      (by decide +kernel) (reached_bare StockType.unitGauge.blockType) Settings.defaults
      (Prod.ext hlater rfl) (fun id payload entry hw => ⟨_, hfound hw⟩) (hwhole _) hgo
    obtain ⟨copy, hcopy, -, -, hrevised⟩ := hread hheirs haccepts
    exact ⟨copy, hcopy, hrevised⟩
  · have hreached : Reached (Tame StockType.of) (newUnitGauge bar) :=
      .perform (reached_bare (unitGaugeType bar)) trivial
    obtain ⟨-, hfail⟩ := revised_of_inflate StockType.kinds hreached
      (by decide +kernel) (reached_bare StockType.gauge.blockType) Settings.defaults
      (Prod.ext hearlier rfl) (fun id payload entry hw => ⟨_, hknown hw⟩) (hwhole _) hgo
    obtain ⟨entry, hw⟩ := exists_writes_newUnitGauge bar
    have htype := (writes_newUnitGauge hw).2
    have hstored : (entry.type.storedValues (.unitGauge bar)).map (fun w => (w.1.name, w.2)) =
        [("unit", .string "bar"), ("min", .double ⟨0⟩), ("max", .double ⟨0⟩)] := by
      rw [htype]
      rfl
    obtain ⟨w, hmem, heq⟩ := List.mem_map.mp (hstored ▸ List.mem_cons_self)
    have hmissing : StockType.gauge.blockType.property? (nameHash w.1.name) = none := by
      rw [(Prod.mk.inj heq).1]
      exact List.find?_eq_none.mpr (by decide +kernel)
    obtain ⟨ex, before, type, name, after, e, -, -, -, hlacks, -, he, hends⟩ :=
      hfail ⟨_, _, _, _, hw, hknown hw, w, hmem, hmissing⟩
    exact ⟨type, name, before, e, hlacks, he, hends.imp_right And.right⟩

end Site

end BlockForest
