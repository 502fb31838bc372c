/-!
# Little-endian words

Every number of the binary formats is a word of fixed width, least significant byte first.
`little` writes a word of any width and `littleNat` reads one back; the two are inverse to
each other on `width` bytes, which is what makes fixed-size records bijective with their
bytes. `splitExact?` takes a field of a known length off the front of a byte string, or
nothing at all when the bytes run out.
-/

set_option autoImplicit false

namespace BlockForest

/-- A byte string. -/
abbrev Bytes := List UInt8

namespace Bytes

/-- The `width` least significant bytes of `n`, least significant first. -/
def little : Nat → Nat → Bytes
  | 0, _ => []
  | width + 1, n => UInt8.ofNat n :: little width (n / 256)

/-- The number whose base-256 digits, least significant first, are the given bytes. -/
def littleNat : Bytes → Nat
  | [] => 0
  | b :: rest => b.toNat + 256 * littleNat rest

/-- A 32-bit word as four bytes. -/
def ofWord32 (w : UInt32) : Bytes := little 4 w.toNat

/-- A 64-bit word as eight bytes. -/
def ofWord64 (w : UInt64) : Bytes := little 8 w.toNat

/-- The 32-bit word written by the given bytes, modulo 2^32. -/
def toWord32 (bytes : Bytes) : UInt32 := UInt32.ofNat (littleNat bytes)

/-- The 64-bit word written by the given bytes, modulo 2^64. -/
def toWord64 (bytes : Bytes) : UInt64 := UInt64.ofNat (littleNat bytes)

/-- The first `n` items and the rest, or nothing when there are fewer than `n`. It never
looks further than the list goes, so an absurd `n` costs no more than the list is long. -/
def splitExact? {α : Type} : Nat → List α → Option (List α × List α)
  | 0, xs => some ([], xs)
  | _ + 1, [] => none
  | n + 1, x :: xs =>
    match splitExact? n xs with
    | some (taken, rest) => some (x :: taken, rest)
    | none => none

/-- A field is split off exactly when the list is that field followed by the rest. -/
theorem splitExact?_eq_some_iff {α : Type} {n : Nat} {xs taken rest : List α} :
    splitExact? n xs = some (taken, rest) ↔ xs = taken ++ rest ∧ taken.length = n := by
  induction n generalizing xs taken with
  | zero =>
    simp only [splitExact?, Option.some.injEq, Prod.mk.injEq, List.length_eq_zero_iff]
    constructor
    · rintro ⟨rfl, rfl⟩
      simp
    · rintro ⟨h, rfl⟩
      simp [h]
  | succ n ih =>
    cases xs with
    | nil =>
      simp only [splitExact?, reduceCtorEq, false_iff, not_and]
      intro h
      have ht : taken = [] := (List.append_eq_nil_iff.mp h.symm).1
      simp [ht]
    | cons x xs =>
      cases hs : splitExact? n xs with
      | none =>
        simp only [splitExact?, hs, reduceCtorEq, false_iff, not_and]
        intro h
        cases taken with
        | nil => simp
        | cons y taken =>
          intro hlen
          have := (@ih xs taken).mpr
            ⟨(List.cons.inj h).2, by simpa using hlen⟩
          simp [hs] at this
      | some pair =>
        obtain ⟨taken', rest'⟩ := pair
        have hsplit := (@ih xs taken').mp
        simp only [splitExact?, hs, Option.some.injEq, Prod.mk.injEq]
        constructor
        · rintro ⟨rfl, rfl⟩
          obtain ⟨h, hlen⟩ := hsplit hs
          exact ⟨by simp [h], by simp [hlen]⟩
        · rintro ⟨h, hlen⟩
          cases taken with
          | nil => simp at hlen
          | cons y taken =>
            have := (@ih xs taken).mpr
              ⟨(List.cons.inj h).2, by simpa using hlen⟩
            rw [hs] at this
            simp only [Option.some.injEq, Prod.mk.injEq] at this
            exact ⟨by rw [(List.cons.inj h).1, this.1], this.2⟩

end Bytes

end BlockForest
