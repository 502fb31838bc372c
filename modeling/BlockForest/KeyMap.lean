/-!
# Finite maps by key

A `KeyMap` holds at most one item for each key. `get?_insert` and `get?_erase` say what the
two changes do to every look-up; nothing else about the order of the entries is promised. No key
is listed twice after either of them if none was before.
-/

set_option autoImplicit false

namespace BlockForest

/-- A finite map, as its list of entries. -/
structure KeyMap (κ α : Type) where
  entries : List (κ × α)

namespace KeyMap

variable {κ α : Type}

def empty : KeyMap κ α := ⟨[]⟩

/-- The number of keys. -/
def size (m : KeyMap κ α) : Nat := m.entries.length

def keys (m : KeyMap κ α) : List κ := m.entries.map (·.1)

variable [DecidableEq κ]

/-- The item kept under a key. -/
def get? (m : KeyMap κ α) (key : κ) : Option α := m.entries.lookup key

def contains (m : KeyMap κ α) (key : κ) : Bool := (m.get? key).isSome

/-- Forgets the item kept under a key. -/
def erase (m : KeyMap κ α) (key : κ) : KeyMap κ α := ⟨m.entries.filter fun e => e.1 ≠ key⟩

/-- Keeps an item under a key, in place of any earlier one. -/
def insert (m : KeyMap κ α) (key : κ) (item : α) : KeyMap κ α :=
  ⟨(key, item) :: (m.erase key).entries⟩

/-- Nothing is found in a map without entries. -/
@[simp] theorem get?_empty (key : κ) : (empty : KeyMap κ α).get? key = none := rfl

/-- After an erasure only the erased key finds nothing more. -/
theorem get?_erase (m : KeyMap κ α) (key other : κ) :
    (m.erase key).get? other = if other = key then none else m.get? other := by
  obtain ⟨entries⟩ := m
  simp only [get?, erase]
  induction entries with
  | nil => simp
  | cons e entries ih =>
    obtain ⟨k, a⟩ := e
    by_cases hk : k = key
    · subst hk
      by_cases ho : other = k
      · subst ho
        simpa using ih
      · have hb : (other == k) = false := by simpa using ho
        simpa [List.lookup_cons, ho, hb] using ih
    · by_cases ho : other = k
      · subst ho
        simp [hk]
      · have hb : (other == k) = false := by simpa using ho
        simpa [List.lookup_cons, hk, hb] using ih

/-- After an insertion the key finds the new item, and all other keys find what they found
before. -/
theorem get?_insert (m : KeyMap κ α) (key other : κ) (item : α) :
    (m.insert key item).get? other = if other = key then some item else m.get? other := by
  by_cases ho : other = key
  · subst ho
    simp [get?, insert]
  · have hb : (other == key) = false := by simpa using ho
    have := get?_erase m key other
    simp only [get?, insert, List.lookup_cons, hb] at this ⊢
    simpa [ho] using this

/-! ### Keys -/

variable {m : KeyMap κ α} {key : κ}

/-- Erasing keeps the keys distinct, so a map never has two entries for a key. -/
theorem nodup_erase (h : m.keys.Nodup) (key : κ) : (m.erase key).keys.Nodup :=
  h.sublist (List.filter_sublist.map _)

/-- Inserting keeps the keys distinct, since an older entry for the key is taken out first. -/
theorem nodup_insert (h : m.keys.Nodup) (key : κ) (item : α) :
    (m.insert key item).keys.Nodup := by
  refine List.nodup_cons.mpr ⟨?_, nodup_erase h key⟩
  intro hmem
  obtain ⟨e, he, heq⟩ := List.mem_map.mp hmem
  have hne := (List.mem_filter.mp he).2
  rw [decide_eq_true_eq] at hne
  exact hne heq

omit [DecidableEq κ] in
/-- That a key is missing can be read off the entries one by one. -/
theorem not_mem_keys_iff : key ∉ m.keys ↔ ∀ e ∈ m.entries, e.1 ≠ key :=
  ⟨fun h _ he heq => h (heq ▸ List.mem_map_of_mem he), fun h hmem =>
    let ⟨e, he, heq⟩ := List.mem_map.mp hmem
    h e he heq⟩

/-- To erase a key that is not there changes nothing. -/
theorem erase_of_not_mem (h : key ∉ m.keys) : m.erase key = m := by
  obtain ⟨entries⟩ := m
  unfold erase
  congr 1
  rw [List.filter_eq_self]
  exact fun e he => decide_eq_true (not_mem_keys_iff.mp h e he)

/-- A look-up fails exactly for the keys that are not in the map. -/
theorem get?_eq_none_iff : m.get? key = none ↔ key ∉ m.keys := by
  rw [get?, List.lookup_eq_none_iff, not_mem_keys_iff]
  constructor
  · intro h e he heq
    simpa [heq] using h e he
  · intro h e he
    simpa using fun heq : key = e.1 => h e he heq.symm

/-- A look-up succeeds exactly for the keys that are in the map. -/
theorem mem_keys_iff : key ∈ m.keys ↔ ∃ item, m.get? key = some item := by
  rw [← Option.isSome_iff_exists, Option.isSome_iff_ne_none, Ne, get?_eq_none_iff,
    Classical.not_not]

end KeyMap

end BlockForest
