import BlockForest.Bytes.Word

/-!
# Byte strings and text

Text is stored in UTF-8. `Bytes.ofString` writes it and `Bytes.toString?` reads it back,
refusing bytes that are no text. Words and byte strings are shown in lower-case hexadecimal,
words with their leading zeros.
-/

set_option autoImplicit false

namespace BlockForest.Bytes

/-- The bytes of a text in UTF-8. -/
def ofString (s : String) : Bytes := s.toUTF8.toList

/-- The text that bytes are the UTF-8 form of. -/
def toString? (bytes : Bytes) : Option String := String.fromUTF8? ⟨bytes.toArray⟩

/-- The digits of the low end of a number in base 16, as many as asked for. -/
def hexDigits : Nat → Nat → List Char
  | 0, _ => []
  | count + 1, n => hexDigits count (n / 16) ++ [Nat.digitChar (n % 16)]

/-- A byte as two hexadecimal digits. -/
def hexByte (b : UInt8) : List Char := hexDigits 2 b.toNat

/-- A byte string as two hexadecimal digits for each byte. -/
def hex (bytes : Bytes) : String := String.ofList (bytes.flatMap hexByte)

/-- A 32-bit word as eight hexadecimal digits with the mark that says so. -/
def hexWord (w : UInt32) : String := "0x" ++ String.ofList (hexDigits 8 w.toNat)

/-- The value of a lower-case hexadecimal digit. -/
def hexValue? (c : Char) : Option Nat :=
  if '0' ≤ c ∧ c ≤ '9' then some (c.toNat - '0'.toNat)
  else if 'a' ≤ c ∧ c ≤ 'f' then some (c.toNat - 'a'.toNat + 10)
  else none

/-- The byte string written by pairs of hexadecimal digits. -/
def ofHex? : List Char → Option Bytes
  | [] => some []
  | a :: b :: rest =>
    match hexValue? a, hexValue? b, ofHex? rest with
    | some a, some b, some rest => some (UInt8.ofNat (16 * a + b) :: rest)
    | _, _, _ => none
  | [_] => none

end BlockForest.Bytes
