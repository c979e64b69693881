import Mathlib.Data.List.Basic

/-!
# Formatted output

A text stream with the formatting state of the C++ standard library. Fill
character and base stay set until they are changed; a width serves the next
insertion and is then gone. No program is mentioned here.
-/

namespace Line64.TextStream

/-- The byte of a character. -/
def byteOf (character : Char) : UInt8 := .ofNat character.toNat

/-- Bytes of a text. -/
def bytes (text : String) : List UInt8 := text.toList.map byteOf

/-- Digits of a number, lower case. -/
def digits (base value : ℕ) : List UInt8 := (Nat.toDigits base value).map byteOf

/-- What has been written, and how the next insertion is formatted. -/
structure OutputStream where
  /-- Written text. -/
  output : List UInt8
  /-- Smallest length of the next insertion. -/
  width : ℕ
  /-- Padding of a shorter insertion. -/
  fill : UInt8
  /-- Base of inserted numbers. -/
  base : ℕ

/-- A new stream. -/
def OutputStream.fresh : OutputStream := ⟨[],0,byteOf ' ',10⟩

/-- Insert a text, padded in front. The width is used up. -/
def OutputStream.insert (s : OutputStream) (text : List UInt8) : OutputStream :=
  {s with output := s.output++List.replicate (s.width-text.length) s.fill++text, width := 0}

/-- Insert an unsigned number. -/
def OutputStream.insertNumber (s : OutputStream) (value : ℕ) : OutputStream :=
  s.insert (digits s.base value)

/-- The manipulator `setw`. -/
def OutputStream.setw (s : OutputStream) (width : ℕ) : OutputStream := {s with width := width}

/-- The manipulator `setfill`. -/
def OutputStream.setfill (s : OutputStream) (fill : UInt8) : OutputStream := {s with fill := fill}

/-- The manipulator `hex`. -/
def OutputStream.hex (s : OutputStream) : OutputStream := {s with base := 16}

/-- The manipulator `dec`. -/
def OutputStream.dec (s : OutputStream) : OutputStream := {s with base := 10}

/-- The next insertion is written as it is, numbers in decimal. -/
structure OutputStream.Ready (s : OutputStream) : Prop where
  /-- No width is pending. -/
  width : s.width=0
  /-- Decimal numbers. -/
  base : s.base=10

/-- A new stream is ready. -/
theorem OutputStream.ready_fresh : OutputStream.fresh.Ready := ⟨rfl,rfl⟩

/-- An insertion without a width appends its text. -/
theorem OutputStream.Ready.insert {s : OutputStream} (h : s.Ready) (text : List UInt8) :
    (s.insert text).Ready ∧ (s.insert text).output=s.output++text := by
  refine ⟨⟨rfl,h.base⟩,?_⟩
  simp [OutputStream.insert,h.width]

/-- Decimal digits are digits. -/
theorem digit_of_mem_digits {value : ℕ} {byte : UInt8} (h : byte ∈ digits 10 value) :
    byteOf '0' ≤ byte ∧ byte ≤ byteOf '9' := by
  obtain ⟨character,hmem,rfl⟩ := List.mem_map.mp h
  have hdigit := Nat.isDigit_of_mem_toDigits (by decide) (by decide) hmem
  have hrange : 48≤character.toNat ∧ character.toNat≤57 := by
    simpa [Char.isDigit,UInt32.le_iff_toNat_le] using hdigit
  simp only [byteOf,UInt8.le_iff_toNat_le,UInt8.toNat_ofNat',Char.reduceToNat,Nat.reducePow]
  omega

end Line64.TextStream
