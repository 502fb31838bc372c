import Mathlib
import BlockForest.Proofs.TruncatedStreams
import BlockForest.Proofs.SameSettingsReading

/-!
# What a reader asks of a stream that was written

The record of an excerpt is read with the types of another registry. Its lengths and counts are
right and it keeps to the limits, so what is left to ask is listed by `Excerpt.conditions`, in the
order of the stream: that the type of a block is known, that it has each property, takes its value
in and follows its nesting, that a block with children is a library, and that a library accepts
each child. Conditions that stand behind one that fails are listed as if the reader went on, with
a value that is not taken passed over.

`Inflate.settles_node` says that this list decides. If all conditions are met, the block is found
as the registry makes it out of the excerpt; otherwise reading ends with the error of the first
condition that fails. The parts of the reader are put together by `Condition.Settles.append`.
-/

set_option autoImplicit false

namespace BlockForest

variable {β : Type}

/-! ### Conditions -/

namespace BlockType

/-- The property that streams know by an identifier. -/
def property? (type : BlockType β) (id : UInt32) : Option (Property β) :=
  type.properties.find? fun p => nameHash p.name == id

/-- A payload after a value was written into the property of a name. A value that is not taken
changes nothing. -/
def put (type : BlockType β) (payload : β) (v : String × Value) : β :=
  match type.property? (nameHash v.1) with
  | none => payload
  | some p =>
    match p.write payload v.2 with
    | .ok next => next
    | .error _ => payload

/-- A new payload after values were written into it. -/
def filled (type : BlockType β) (values : List (String × Value)) : β :=
  values.foldl type.put type.initial

end BlockType

/-- Something that a reader asks for. -/
inductive Condition (β : Type) where
  /-- A type with the identifier of the name is known. -/
  | known (name : String) (type : Option (BlockType β))
  /-- The type has a property with the identifier of the name. -/
  | listed (type : BlockType β) (name : String)
  /-- The value is not nested too deep. -/
  | shallow (value : Value)
  /-- The property takes the value in, on top of what the payload holds already. -/
  | taken (type : BlockType β) (payload : β) (name : String) (value : Value)
  /-- A block with so many children is a library or has none. -/
  | room (type : BlockType β) (children : Nat)
  /-- The library accepts the child. -/
  | adopted (library : BlockType β) (payload : β) (kid : BlockType β) (kidPayload : β)

namespace Condition

/-- The condition is not met, and this is what the reader says of it. -/
inductive Fails [Payload β] : Condition β → CodecError → Prop
  | known (name : String) : Fails (.known name none) (.unknownBlockType (nameHash name))
  | listed {type : BlockType β} {name : String} (missing : type.property? (nameHash name) = none) :
      Fails (.listed type name) (.unknownProperty type.name (nameHash name))
  | shallow {value : Value} (deep : Value.maxNesting < value.nesting) :
      Fails (.shallow value) (.corrupt (.value .tooDeep))
  | taken {type : BlockType β} {payload : β} {name : String} {value : Value} {p : Property β}
      {e : PropertyError} (found : type.property? (nameHash name) = some p)
      (refused : p.write payload value = .error e) :
      Fails (.taken type payload name value) (.propertyWrite type.name p.name e)
  | room {type : BlockType β} {children : Nat} (some : 0 < children)
      (closed : ¬ Payload.isLibrary type.initial) :
      Fails (.room type children) (.corrupt (.notALibrary type.name (UInt32.ofNat children)))
  -- What the tree says of it depends on the names of the new blocks.
  | adopted {library kid : BlockType β} {payload kidPayload : β} (e : TreeError)
      (refused : ¬ (Payload.accepts payload kidPayload ∧
        ¬ library.defaultFlags.contains Flags.beingDeleted ∧
          ¬ kid.defaultFlags.contains Flags.beingDeleted)) :
      Fails (.adopted library payload kid kidPayload) (.tree e)

/-- Nothing is to be said against the condition. -/
def Met [Payload β] (c : Condition β) : Prop := ∀ e, ¬ c.Fails e

/-- The first condition of a list that is not met fails in this way. -/
def Stops [Payload β] (cs : List (Condition β)) (e : CodecError) : Prop :=
  ∃ before c after, cs = before ++ c :: after ∧ (∀ d ∈ before, d.Met) ∧ c.Fails e

/-- A list of conditions decides how something ends: it is done if all are met, and otherwise it
fails as the first one does that is not. -/
def Settles [Payload β] (cs : List (Condition β)) (done : Prop) (fails : CodecError → Prop) :
    Prop := (∀ c ∈ cs, c.Met) ∧ done ∨ ∃ e, Stops cs e ∧ fails e

section

variable [Payload β] {c : Condition β} {cs ds : List (Condition β)} {e : CodecError}
  {done next : Prop} {fails fails' : CodecError → Prop}

/-- A type that is found is known. -/
theorem met_known (name : String) (type : BlockType β) : (known name (some type)).Met := by
  intro e hfails
  cases hfails

/-- A property that the type finds by the hash of its name is listed. -/
theorem met_listed {type : BlockType β} {name : String} {p : Property β}
    (h : type.property? (nameHash name) = some p) : (listed type name).Met := by
  intro e hfails
  cases hfails with
  | listed missing =>
    rw [h] at missing
    cases missing

/-- A value that is nested no deeper than the limit is shallow. -/
theorem met_shallow {value : Value} (h : value.nesting ≤ Value.maxNesting) :
    (shallow value : Condition β).Met := by
  intro e hfails
  cases hfails with
  | shallow deep => exact h.not_gt deep

/-- A value that its property takes is taken. -/
theorem met_taken {type : BlockType β} {payload next : β} {name : String} {value : Value}
    {p : Property β} (hp : type.property? (nameHash name) = some p)
    (h : p.write payload value = .ok next) : (taken type payload name value).Met := by
  intro e hfails
  cases hfails with
  | taken found refused =>
    cases hp.symm.trans found
    rw [h] at refused
    cases refused

/-- There is room for children if there are none, or if the type makes libraries. -/
theorem met_room {type : BlockType β} {children : Nat}
    (h : children = 0 ∨ Payload.isLibrary type.initial) : (room type children).Met := by
  intro e hfails
  cases hfails with
  | room some closed => exact h.elim some.ne' closed

/-- A child is adopted if the library accepts it and neither type marks its blocks. -/
theorem met_adopted {library kid : BlockType β} {payload kidPayload : β}
    (h : Payload.accepts payload kidPayload ∧
      ¬ library.defaultFlags.contains Flags.beingDeleted ∧
        ¬ kid.defaultFlags.contains Flags.beingDeleted) :
    (adopted library payload kid kidPayload).Met := by
  intro e hfails
  cases hfails with
  | adopted e refused => exact refused h

/-- Where a condition stops the reader, not all of them are met. -/
theorem Stops.not_met (h : Stops cs e) : ¬ ∀ c ∈ cs, c.Met := by
  obtain ⟨before, c, after, rfl, -, hfails⟩ := h
  intro hall
  exact hall c (List.mem_append_right _ List.mem_cons_self) e hfails

/-- A first condition that fails stops the reader. -/
theorem Stops.head (h : c.Fails e) (cs : List (Condition β)) : Stops (c :: cs) e :=
  ⟨[], c, cs, rfl, List.forall_mem_nil _, h⟩

/-- What comes behind a failing condition does not matter. -/
theorem Stops.append (h : Stops cs e) (ds : List (Condition β)) : Stops (cs ++ ds) e := by
  obtain ⟨before, c, after, rfl, hbefore, hfails⟩ := h
  exact ⟨before, c, after ++ ds, by simp, hbefore, hfails⟩

/-- Conditions that are met let the reader go on to those behind them. -/
theorem Stops.behind (hcs : ∀ c ∈ cs, c.Met) (h : Stops ds e) : Stops (cs ++ ds) e := by
  obtain ⟨before, c, after, rfl, hbefore, hfails⟩ := h
  exact ⟨cs ++ before, c, after, by simp,
    fun d hd => (List.mem_append.mp hd).elim (hcs d) (hbefore d), hfails⟩

/-- If a condition fails, then it or one before it is what the list stops at. -/
theorem Stops.upto {before after : List (Condition β)} (h : Stops (before ++ c :: after) e)
    {e' : CodecError} (hfails : c.Fails e') :
    Stops before e ∨ (∀ d ∈ before, d.Met) ∧ c.Fails e := by
  obtain ⟨front, d, back, hsplit, hfront, hd⟩ := h
  rcases List.append_eq_append_iff.mp hsplit with ⟨more, hmore, hrest⟩ | ⟨more, hmore, hrest⟩
  · cases more with
    | nil =>
      rw [List.append_nil] at hmore
      rw [List.nil_append, List.cons.injEq] at hrest
      exact Or.inr ⟨hmore ▸ hfront, hrest.1 ▸ hd⟩
    | cons x more =>
      rw [List.cons_append, List.cons.injEq] at hrest
      refine absurd hfails (hfront c ?_ e')
      rw [hmore, hrest.1]
      exact List.mem_append_right _ List.mem_cons_self
  · cases more with
    | nil =>
      rw [List.append_nil] at hmore
      rw [List.nil_append, List.cons.injEq] at hrest
      exact Or.inr ⟨hmore ▸ hfront, hrest.1 ▸ hd⟩
    | cons x more =>
      rw [List.cons_append, List.cons.injEq] at hrest
      exact Or.inl ⟨front, d, more, by rw [hmore, hrest.1], hfront, hd⟩

/-- Where nothing is asked for, it is done. -/
theorem Settles.nil (h : done) : Settles ([] : List (Condition β)) done fails :=
  Or.inl ⟨List.forall_mem_nil _, h⟩

/-- One condition decides if it is met and it is done, or fails in the way of the failure. -/
theorem Settles.one (h : c.Met ∧ done ∨ ∃ e, c.Fails e ∧ fails e) : Settles [c] done fails := by
  rcases h with ⟨hmet, hdone⟩ | ⟨e, hfails, he⟩
  · exact Or.inl ⟨fun d hd => List.mem_singleton.mp hd ▸ hmet, hdone⟩
  · exact Or.inr ⟨e, .head hfails [], he⟩

/-- What follows from being done and from failing may be put in their places. -/
theorem Settles.imp (h : Settles cs done fails) (hdone : done → next)
    (hfails : ∀ e, fails e → fails' e) : Settles cs next fails' :=
  Or.imp (And.imp_right hdone) (Exists.imp fun e => And.imp_right (hfails e)) h

/-- What comes next is asked for when what comes first is done. -/
theorem Settles.append (h : Settles cs done fails) (hnext : done → Settles ds next fails) :
    Settles (cs ++ ds) next fails := by
  rcases h with ⟨hmet, hdone⟩ | ⟨e, hstops, he⟩
  · rcases hnext hdone with ⟨hmet', hdone'⟩ | ⟨e, hstops, he⟩
    · exact Or.inl ⟨fun c hc => (List.mem_append.mp hc).elim (hmet c) (hmet' c), hdone'⟩
    · exact Or.inr ⟨e, hstops.behind hmet, he⟩
  · exact Or.inr ⟨e, hstops.append ds, he⟩

/-- A first condition and the others behind it decide together, if the others are looked at only
when the first one is met. -/
theorem Settles.cons (h : Settles [c] done fails) (hnext : done → Settles cs next fails) :
    Settles (c :: cs) next fails := h.append hnext

end

end Condition

/-- What a reader asks of the values of a block, the first of which is written into the payload. -/
def BlockType.valueConditions (type : BlockType β) : β → List (String × Value) → List (Condition β)
  | _, [] => []
  | payload, v :: rest =>
    [.listed type v.1, .shallow v.2, .taken type payload v.1 v.2] ++
      type.valueConditions (type.put payload v) rest

namespace Excerpt

def name : Excerpt → String
  | .block name _ _ => name

def values : Excerpt → List (String × Value)
  | .block _ values _ => values

def children : Excerpt → List Excerpt
  | .block _ _ children => children

/-- What a library asks of a child, unless the type of the child is not known. -/
def adoption (type? : UInt32 → Option (BlockType β)) (library : BlockType β) (payload : β)
    (child : Excerpt) : List (Condition β) :=
  match type? (nameHash child.name) with
  | none => []
  | some kid => [.adopted library payload kid (kid.filled child.values)]

mutual

/-- What a reader that knows some types asks of a block and of what is below it, in the order of
the stream. -/
def conditions (type? : UInt32 → Option (BlockType β)) : Excerpt → List (Condition β)
  | .block name values children =>
    [.known name (type? (nameHash name))] ++
      match type? (nameHash name) with
      | none => []
      | some type =>
        type.valueConditions type.initial values ++ ([.room type children.length] ++
          conditionsBelow type? type (type.filled values) children)

/-- What it asks of the children of a library with the given type and payload. -/
def conditionsBelow (type? : UInt32 → Option (BlockType β)) (type : BlockType β) (payload : β) :
    List Excerpt → List (Condition β)
  | [] => []
  | child :: rest =>
    child.conditions type? ++ (child.adoption type? type payload ++
      conditionsBelow type? type payload rest)

end

/-- What is asked below a library is asked of one child or of its place in the library. -/
theorem mem_conditionsBelow {type? : UInt32 → Option (BlockType β)} {type : BlockType β}
    {payload : β} {c : Condition β} {exs : List Excerpt} :
    c ∈ conditionsBelow type? type payload exs ↔
      ∃ ex ∈ exs, c ∈ ex.conditions type? ∨ c ∈ ex.adoption type? type payload := by
  induction exs with
  | nil => simp [conditionsBelow]
  | cons ex exs ih =>
    rw [conditionsBelow, List.mem_append, List.mem_append, ih, List.exists_mem_cons_iff, or_assoc]

/-- The blueprint is what a registry makes out of an excerpt. -/
inductive Planned (type? : UInt32 → Option (BlockType β)) : Excerpt → Blueprint β → Prop
  | block {name : String} {values : List (String × Value)} {children : List Excerpt}
      {type : BlockType β} {kids : List (Blueprint β)} (known : type? (nameHash name) = some type)
      (below : List.Forall₂ (Planned type?) children kids) :
      Planned type? (.block name values children) (.block type (type.filled values) kids)

end Excerpt

/-! ### Properties -/

/-- A property is found by its identifier where no two have the same. -/
theorem BlockType.property?_of_mem {type : BlockType β}
    (hids : (type.properties.map fun p => nameHash p.name).Nodup) {p : Property β}
    (hp : p ∈ type.properties) : type.property? (nameHash p.name) = some p := by
  unfold property?
  cases hfind : type.properties.find? fun q => nameHash q.name == nameHash p.name with
  | none => exact absurd (beq_self_eq_true _) (List.find?_eq_none.mp hfind p hp)
  | some q =>
    have hsame : nameHash q.name = nameHash p.name := by simpa using List.find?_some hfind
    exact congrArg some
      (List.inj_on_of_nodup_map hids (List.mem_of_find?_eq_some hfind) hp hsame)

namespace PropertyTable.Faithful

variable {table : PropertyTable β}

/-- In the table of a type an identifier leads to the property that the type has of it. -/
theorem property?_eq (h : table.Faithful) {type : BlockType β}
    (hp : table.properties = type.properties) (id : UInt32) :
    type.property? id = (table.slot? id).bind table.property? := by
  cases hslot : table.slot? id with
  | none =>
    unfold BlockType.property?
    rw [← hp, Option.bind_none, List.find?_eq_none]
    intro p hmem heq
    obtain ⟨slot, hprop⟩ := List.mem_iff_getElem?.mp hmem
    rw [← beq_iff_eq.mp heq, h.slot?_of_property? hprop] at hslot
    cases hslot
  | some slot =>
    obtain ⟨p, hprop, rfl⟩ := h.property?_of_slot? hslot
    have hmem : p ∈ type.properties := hp ▸ List.mem_of_getElem? hprop
    rw [Option.bind_some, hprop]
    exact BlockType.property?_of_mem (hp ▸ h.nodup_nameHash) hmem

end PropertyTable.Faithful

namespace Inflate

open Site Condition

variable [Payload β] {entry : Entry β}

/-- One pair is read as its three conditions say. -/
theorem settles_readPair (hf : entry.table.Faithful)
    (hp : entry.table.properties = entry.type.properties) (count : UInt32) (payload : β)
    {v : String × Value} (hlen : (Excerpt.encodeValue v).length < 2 ^ 32) (rest : Bytes) :
    Settles [.listed entry.type v.1, .shallow v.2, .taken entry.type payload v.1 v.2]
      (readPair entry count payload (Excerpt.encodeValue v ++ rest) =
        .ok (entry.type.put payload v, rest))
      (fun e => readPair entry count payload (Excerpt.encodeValue v ++ rest) = .error e) := by
  obtain ⟨name, value⟩ := v
  have hprop := hf.property?_eq hp (nameHash name)
  have hshort : value.encode.length < 2 ^ 32 :=
    (List.suffix_append _ _).length_le.trans_lt hlen
  have hsplit := Bytes.splitExact?_append (Bytes.ofWord32 (nameHash name)) (value.encode ++ rest)
  rw [Bytes.length_ofWord32, ← List.append_assoc] at hsplit
  have hdata : Excerpt.encodeValue (name, value) ++ rest =
      Bytes.ofWord32 (nameHash name) ++ value.encode ++ rest := rfl
  unfold readPair writePair
  simp only [hdata, hsplit, Bytes.toWord32_ofWord32]
  cases hslot : entry.table.slot? (nameHash name) with
  | none =>
    rw [hslot, Option.bind_none] at hprop
    exact Or.inr ⟨_, .head (.listed hprop) _, rfl⟩
  | some slot =>
    obtain ⟨p, hfound, -⟩ := hf.property?_of_slot? hslot
    rw [hslot, Option.bind_some, hfound] at hprop
    refine .cons (.one (Or.inl ⟨met_listed hprop, hfound⟩)) fun _ => ?_
    by_cases hdeep : Value.maxNesting < value.nesting
    · have hfail : (Value.decode (value.encode ++ rest)).1 = .error .tooDeep :=
        Value.decodeNested_encode_deep value _ rest hdeep (Value.measured_of_length value hshort)
      obtain ⟨left, hdecode⟩ : ∃ left, Value.decode (value.encode ++ rest) =
          (.error .tooDeep, left) := ⟨_, Prod.ext hfail rfl⟩
      refine Or.inr ⟨_, .head (.shallow hdeep) _, ?_⟩
      simp only [hdecode]
    · refine .cons (.one (Or.inl ⟨met_shallow (Nat.not_lt.mp hdeep), hfound⟩)) fun _ => ?_
      simp only [Value.decode_encode (Nat.not_lt.mp hdeep) hshort, hfound]
      cases hwrite : p.write payload value with
      | error e => exact .one (Or.inr ⟨_, .taken hprop hwrite, rfl⟩)
      | ok next =>
        refine .one (Or.inl ⟨met_taken hprop hwrite, ?_⟩)
        simp only [BlockType.put, hprop, hwrite]

/-- The pairs of a block are read one after the other. -/
theorem settles_readPairs (hf : entry.table.Faithful)
    (hp : entry.table.properties = entry.type.properties) (count : UInt32)
    (values : List (String × Value)) (payload : β)
    (hlen : (values.flatMap Excerpt.encodeValue).length < 2 ^ 32) :
    Settles (entry.type.valueConditions payload values)
      (readPairs entry count values.length payload (values.flatMap Excerpt.encodeValue) =
        .ok (values.foldl entry.type.put payload, []))
      (fun e => readPairs entry count values.length payload
        (values.flatMap Excerpt.encodeValue) = .error e) := by
  induction values generalizing payload with
  | nil => exact .nil rfl
  | cons v rest ih =>
    rw [List.flatMap_cons, List.length_append] at hlen
    have hfirst := settles_readPair hf hp count payload (v := v) (by omega)
      (rest.flatMap Excerpt.encodeValue)
    rw [List.flatMap_cons, List.length_cons]
    unfold readPairs
    refine Settles.append (hfirst.imp id fun e he => ?_) fun hread => ?_
    · rw [he]
    · rw [hread]
      exact ih _ (by omega)

/-- The values of a record decide whether a new payload can be filled with them, and how it
fails. -/
theorem settles_fillPayload (hf : entry.table.Faithful)
    (hp : entry.table.properties = entry.type.properties) {count : UInt32}
    {values : List (String × Value)} (hcount : count.toNat = values.length)
    (hlen : (values.flatMap Excerpt.encodeValue).length < 2 ^ 32) :
    Settles (entry.type.valueConditions entry.type.initial values)
      (fillPayload entry count (values.flatMap Excerpt.encodeValue) =
        .ok (entry.type.filled values))
      (fun e => fillPayload entry count (values.flatMap Excerpt.encodeValue) = .error e) := by
  unfold fillPayload
  rw [hcount]
  refine (settles_readPairs hf hp count values entry.type.initial hlen).imp (fun hread => ?_)
    fun e he => ?_
  · rw [hread]
    rfl
  · rw [he]

/-! ### Children -/

/-- What a reader of blocks makes of the record of an excerpt. -/
def Decides (type? : UInt32 → Option (BlockType β)) (levels : Nat)
    (readBlock : Intake Source β → Except CodecError InflateStatus × Intake Source β) (ex : Excerpt) : Prop :=
  ∀ i data rest, Ready type? i → i.site.type? = type? → ex.Recorded data →
    i.source.remaining = data ++ rest →
      Settles (ex.conditions type?)
        (∃ root plan, ex.Planned type? plan ∧ Found i levels (readBlock i) plan data root)
        (fun e => (readBlock i).1 = .error e)

variable {settings : Settings} {type? : UInt32 → Option (BlockType β)} {total levels : Nat}
  {readBlock : Intake Source β → Except CodecError InflateStatus × Intake Source β} {s : Site β}
  {type : BlockType β} {payload : β} {library : BlockId}

/-- A child that may not be attached is refused by the tree. -/
theorem fst_adoptChild_of_not_attachable {i : Intake Source β} {child : BlockId}
    (h : ¬ Attachable i.site.tree library child) :
    ∃ e, (adoptChild i library child).1 = .error (.tree e) := by
  obtain ⟨e, hadd⟩ := add_of_not_attachable h
  unfold adoptChild
  rw [hadd]
  exact ⟨e, rfl⟩

/-- A child is taken in by the library above it as its condition says. -/
theorem settles_adoption {i : Intake Source β} {s₁ : Site β} {ex : Excerpt} {plan : Blueprint β}
    {plans : List (Blueprint β)} {kid : BlockId} {m n k : Nat} (hplan : ex.Planned type? plan)
    (hlib : Payload.isLibrary type.initial)
    (hg : Growing s s₁ m (.block type payload plans) library)
    (hs : Sprouted s₁ i.site n kid) (hshows : i.site.Shows (k + 1) plan kid) :
    Settles (ex.adoption type? type payload) (Attachable i.site.tree library kid)
      (fun e => (adoptChild i library kid).1 = .error e) := by
  have hiff := hg.attachable_iff hs hshows
  cases hplan with
  | block known below =>
    simp only [Excerpt.adoption, Excerpt.name, Excerpt.values, known]
    by_cases hable : Attachable i.site.tree library kid
    · obtain ⟨⟨-, haccepts⟩, hmarks⟩ := hiff.mp hable
      exact .one (Or.inl ⟨met_adopted ⟨haccepts, hmarks⟩, hable⟩)
    · obtain ⟨e, he⟩ := fst_adoptChild_of_not_attachable hable
      refine .one (Or.inr ⟨_, .adopted e fun h => hable (hiff.mpr ⟨⟨hlib, h.1⟩, h.2⟩), he⟩)

/-- Children are read and taken in one after the other. -/
theorem settles_children (hleaves : ∀ i, i.site.tree.Orderly → Leaves i.site levels (readBlock i))
    (hlasting : ∀ i, Lasting i.site (readBlock i).2.site)
    (hanswer : ∀ i, (readBlock i).2.monitor.answer = i.monitor.answer) {exs : List Excerpt}
    (hone : ∀ ex ∈ exs, Decides type? levels readBlock ex) {i : Intake Source β} (hi : Ready type? i)
    (hall : i.site.type? = type?) {plans : List (Blueprint β)}
    (hg : Growing s i.site levels (.block type payload plans) library)
    (hroom : exs = [] ∨ Payload.isLibrary type.initial) {kids : List Bytes}
    (hrecords : List.Forall₂ Excerpt.Recorded exs kids) {rest : Bytes}
    (hrem : i.source.remaining = kids.flatten ++ rest) :
    Settles (Excerpt.conditionsBelow type? type payload exs)
      (∃ more, List.Forall₂ (Excerpt.Planned type?) exs more ∧
        (children readBlock library exs.length i).1 = .ok (.success library) ∧
        i.source.Passes (children readBlock library exs.length i).2.source kids.flatten ∧
        Growing s (children readBlock library exs.length i).2.site levels
          (.block type payload (plans ++ more)) library)
      (fun e => (children readBlock library exs.length i).1 = .error e) := by
  induction exs generalizing i plans kids with
  | nil =>
    cases hrecords
    exact .nil ⟨[], .nil, rfl, .refl i.source, by rw [List.append_nil]; exact hg⟩
  | cons ex exs ih =>
    cases hrecords with
    | @cons _ first _ kids hfirst hmore =>
      have hlib : Payload.isLibrary type.initial := hroom.resolve_left (List.cons_ne_nil _ _)
      rw [List.flatten_cons, List.append_assoc] at hrem
      have hblock := hone ex List.mem_cons_self i first _ hi hall hfirst hrem
      have hleaf := hleaves i hi.orderly
      have hlast := hlasting i
      have hans := hanswer i
      rw [List.length_cons, List.flatten_cons, Inflate.children]
      cases hr : readBlock i with
      | mk result i₁ =>
        simp only [hr] at hblock hleaf hlast hans ⊢
        refine Settles.append (hblock.imp id fun e he => ?_) fun hdone => ?_
        · rw [he]
        obtain ⟨child, plan, hplan, rfl, hpasses, hshows⟩ := hdone
        obtain ⟨k, rfl, hsprouted⟩ := hleaf.1 child rfl
        -- The child is read. What is left to ask is whether the library adopts it.
        refine Settles.append ((settles_adoption hplan hlib hg hsprouted hshows).imp id
          fun e he => ?_) fun hable => ?_
        · cases ha : adoptChild i₁ library child with
          | mk outcome i₂ =>
            rw [ha] at he
            cases he
            simp only [ha]
        · have hadopt := adoptChild_of_attachable hable
          have hsame := (reworked_attach i₁.site library child
            (i₁.site.tree.children library).length).lasting
          have hsplit := hpasses.remaining
          rw [hrem] at hsplit
          simp only [hadopt]
          refine (ih (fun x hx => hone x (List.mem_cons_of_mem _ hx))
            ((hi.of_lasting hlast hans).attach library child _)
            ((hlast.trans hsame).type?.trans hall) (hg.adopt hsprouted hshows hable.isLibrary)
            (Or.inr hlib) hmore (List.append_cancel_left hsplit).symm).imp ?_ fun _ he => he
          rintro ⟨more, hplans, hsuccess, hpasses', hgrown⟩
          rw [List.append_assoc] at hgrown
          exact ⟨plan :: more, .cons hplan hplans, hsuccess, hpasses.trans hpasses', hgrown⟩

/-! ### Blocks -/

omit [Payload β] in
/-- A record whose header is followed by its data is not read only if no type has its identifier. -/
theorem fst_readRecord_of_unknown {catalogue : Catalogue β} {registry : RegistryRef}
    {source : Source} {header : NodeHeader} {rest : Bytes}
    (hsmall : header.size ≤ settings.maxPayloadSize)
    (hunknown : catalogue.findId registry header.blockType = none)
    (hrem : source.remaining = header.toBytes ++ rest) :
    (readRecord settings catalogue registry source).1 =
      .error (.unknownBlockType header.blockType) := by
  rw [readRecord_buffer]
  simp only [NodeHeader.read_eq_some_iff.mpr (Source.passes_skip hrem).1, UInt32.not_lt.mpr hsmall, if_false, hunknown]

/-- A block that cannot be filled is not read. -/
theorem fst_node_of_fill {i : Intake Source β} (hgo : i.monitor.answer i.monitor.polls)
    {record : Record β} {source : Source}
    (hrecord : readRecord settings i.site.catalogue i.site.tree.registry i.source =
      (.ok record, source)) {e : CodecError}
    (h : (fill (node settings total levels) record (i.site.createFrom record.ref record.entry).1
      (opened total i record source)).1 = .error e) : (node settings total (levels + 1) i).1 = .error e := by
  rw [node_eq_of_readRecord total levels hgo hrecord]
  split
  · next heq =>
    rw [heq] at h
    cases h
  · next heq =>
    rw [heq] at h
    exact h

/-- A block that is no library is not filled where children are announced. -/
theorem fst_fill_of_closed {record : Record β} {id : BlockId} {i : Intake Source β}
    (hpayload : fillPayload record.entry record.header.propertyCount record.data = .ok payload)
    (hsome : 0 < record.header.childCount.toNat)
    (hclosed : ¬ (i.site.setPayload id payload).tree.isLibrary id) :
    (fill readBlock record id i).1 =
      .error (.corrupt (.notALibrary record.entry.name record.header.childCount)) := by
  have hcount : 0 < record.header.childCount := UInt32.lt_iff_toNat_lt.mpr hsome
  unfold fill
  simp [hpayload, hcount, hclosed]

variable {i : Intake Source β} {record : Record β} {source : Source}

/-- Once the record of a block is read, its values decide whether its payload is filled. -/
theorem settles_values (hi : Ready type? i)
    (hrecord : readRecord settings i.site.catalogue i.site.tree.registry i.source =
      (.ok record, source)) {values : List (String × Value)}
    (hdata : record.data = values.flatMap Excerpt.encodeValue)
    (hcount : record.header.propertyCount.toNat = values.length) :
    Settles (record.entry.type.valueConditions record.entry.type.initial values)
      (fillPayload record.entry record.header.propertyCount record.data =
        .ok (record.entry.type.filled values))
      (fun e => (node settings total (levels + 1) i).1 = .error e) := by
  obtain ⟨-, hfound, hwhole, -⟩ := readRecord_eq_ok_iff.mp hrecord
  obtain ⟨-, -, hfaithful, hproperties⟩ := hi.entry hfound
  have hshort := record.header.size.toNat_lt
  rw [hdata] at hwhole ⊢
  refine (settles_fillPayload hfaithful hproperties hcount (by omega)).imp id fun e he => ?_
  refine fst_node_of_fill (hi.willing _) hrecord ?_
  unfold fill
  rw [hdata, he]

/-- Once its payload is filled, the number of its children decides whether they are read. -/
theorem settles_room (hi : Ready type? i)
    (hrecord : readRecord settings i.site.catalogue i.site.tree.registry i.source =
      (.ok record, source))
    (hpayload : fillPayload record.entry record.header.propertyCount record.data = .ok payload)
    {count : Nat} (hcount : record.header.childCount.toNat = count) :
    Settles [.room record.entry.type count]
      (record.header.childCount = 0 ∨ Payload.isLibrary record.entry.type.initial)
      (fun e => (node settings total (levels + 1) i).1 = .error e) := by
  obtain ⟨-, hfound, -, -⟩ := readRecord_eq_ok_iff.mp hrecord
  obtain ⟨hentry, -, -, -⟩ := hi.entry hfound
  by_cases hclosed : 0 < count ∧ ¬ Payload.isLibrary record.entry.type.initial
  · refine .one (Or.inr ⟨_, .room hclosed.1 hclosed.2, fst_node_of_fill (hi.willing _) hrecord ?_⟩)
    obtain ⟨-, hgrowing⟩ := hi.filled total levels hentry source payload
    have hlib := isLibrary_of_face? hgrowing.shows.1
    rw [← hcount, UInt32.ofNat_toNat]
    exact fst_fill_of_closed hpayload (hcount ▸ hclosed.1) fun hheld =>
      hclosed.2 (hlib.symm.trans hheld)
  · have hroom : count = 0 ∨ Payload.isLibrary record.entry.type.initial := by
      rw [not_and, not_not, Nat.pos_iff_ne_zero] at hclosed
      exact or_iff_not_imp_left.mpr hclosed
    refine .one (Or.inl ⟨met_room hroom, hroom.imp_left fun hzero => ?_⟩)
    rw [← UInt32.toNat_inj, hcount, hzero]
    rfl

/-- The conditions of an excerpt decide how its record is read: the block is found as it is planned,
or the walk fails as the first condition does that is not met. -/
theorem settles_node (settings : Settings) (total : Nat) {ex : Excerpt} {levels : Nat}
    (hfits : ex.Fits settings.maxPayloadSize.toNat levels) :
    Decides type? levels (node settings total levels) ex := by
  induction hfits with
  | @block levels name values children hvalues _ ih =>
    intro i data rest hi hall hrecorded hrem
    obtain ⟨header, kids, rfl, htype, hsize, hcount, hchildren, hrecords⟩ := hrecorded.inv
    have hsmall : header.size ≤ settings.maxPayloadSize := by
      rw [UInt32.le_iff_toNat_le, hsize]
      exact hvalues
    rw [List.append_assoc] at hrem
    rw [Excerpt.conditions]
    cases hknown : type? (nameHash name) with
    | none =>
      have hnone : i.site.catalogue.findId i.site.tree.registry header.blockType = none := by
        rw [← hall, ← htype] at hknown
        exact Option.map_eq_none_iff.mp hknown
      rw [List.append_assoc] at hrem
      have hfails : (node settings total (levels + 1) i).1 =
          .error (.unknownBlockType header.blockType) :=
        fst_node_of_readRecord (hi.willing _) (fst_readRecord_of_unknown hsmall hnone hrem)
      rw [htype] at hfails
      exact Or.inr ⟨_, .head (.known name) [], hfails⟩
    | some type =>
      obtain ⟨⟨ref, entry⟩, hfound, rfl⟩ :=
        Option.map_eq_some_iff.mp (hi.types (nameHash name) type hknown)
      obtain ⟨-, -, hfaithful, hproperties⟩ := hi.entry hfound
      -- The record that stands at the front of the source.
      let source := i.source.skip (header.toBytes ++ values.flatMap Excerpt.encodeValue).length
      have hpassed := (Source.passes_skip hrem).1
      have hrecord : readRecord settings i.site.catalogue i.site.tree.registry i.source =
          (.ok ⟨header, ref, entry, values.flatMap Excerpt.encodeValue⟩, source) :=
        readRecord_eq_ok_iff.mpr ⟨hsmall, htype ▸ hfound, hsize.symm, hpassed⟩
      refine .cons (.one (Or.inl ⟨met_known name entry.type, trivial⟩)) fun _ => ?_
      refine (settles_values hi hrecord rfl hcount).append fun hpayload => ?_
      refine (settles_room hi hrecord hpayload hchildren).append fun hroom => ?_
      have hpairs := (fillPayload_eq_ok_iff hfaithful hproperties).mp hpayload
      obtain ⟨library, i', hready, hgrowing, hpasses, hrem', hsuccess, hfails⟩ :=
        hi.reach_children levels hsmall (htype ▸ hknown) hsize.symm hpairs hroom hrem
      rw [hchildren] at hsuccess hfails
      have hnone : children = [] ∨ Payload.isLibrary entry.type.initial := by
        refine hroom.imp_left fun hzero => List.eq_nil_of_length_eq_zero ?_
        rw [← hchildren, hzero]
        rfl
      refine (settles_children (leaves_node settings total levels)
        (fun i => (keeps_lasting i.site).node settings total levels (.refl _))
        (answer_node settings total levels) ih hready
        (hgrowing.sprouted.lasting.type?.trans hall) hgrowing hnone hrecords hrem').imp ?_ hfails
      rintro ⟨plans, hplans, hkept, hpasses', hgrown⟩
      have hnode := hsuccess _ hkept
      refine ⟨library, _, .block hknown hplans, ?_, ?_, ?_⟩
      · rw [hnode]
      · rw [hnode]
        exact hpasses.trans hpasses'
      · rw [hnode]
        exact hgrown.shows

end Inflate

end BlockForest
