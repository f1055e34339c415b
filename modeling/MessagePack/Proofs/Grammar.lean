import MessagePack.Header
import Mathlib.Data.Nat.Digits.Defs

/-! # The wire format

The table of tags, row by row: `Denotes bytes item` says that the bytes are one complete
item, no more and no less.

* A field of several bytes is big-endian: `Wire.natural` is its positional value in base
  256, and `Wire.signed` the integer of the same residue next to zero (two's complement).
* A field of a width that has several tags has `2 ^ i` bytes, where `i` counts the tags.
* The payload of an extension comes after one signed byte, the extension's type.
* A signed field whose number is not negative denotes a positive integer.

Arrays and maps are headers only.  The table mentions neither the encoder nor the decoder. -/

namespace MessagePack

namespace Item

variable {π ρ τ : Type}

@[simp] theorem mapPayload_mapPayload (f : π → ρ) (g : ρ → τ) (i : Item π) :
    (i.mapPayload f).mapPayload g = i.mapPayload (g ∘ f) := by
  cases i <;> rfl

@[simp] theorem mapPayload_ofSigned (f : π → ρ) (width n : Nat) :
    (ofSigned width n : Item π).mapPayload f = ofSigned width n := by
  unfold ofSigned
  split <;> rfl

theorem mapPayload_congr {f g : π → ρ} {i : Item π} (h : ∀ p ∈ i.payload?, f p = g p) :
    i.mapPayload f = i.mapPayload g := by
  cases i <;> first | rfl | simp [mapPayload, h _ rfl]

theorem payload?_empty (i : Item Empty) : i.payload? = none := by
  cases h : i.payload? with
  | none => rfl
  | some e => exact e.elim

/-- The item of an integer: its kind tells the sign. -/
def integer (n : Int) : Item π := if 0 ≤ n then .positive n.toNat else .negative n

@[simp] theorem payload?_integer (n : Int) : (integer n : Item π).payload? = none := by
  unfold integer
  split <;> rfl

@[simp] theorem mapPayload_integer (f : π → ρ) (n : Int) :
    (integer n : Item π).mapPayload f = integer n := by
  unfold integer
  split <;> rfl

end Item

namespace Wire

/-- The number in a field. -/
def natural (field : List UInt8) : Nat := Nat.ofDigits 256 (field.reverse.map UInt8.toNat)

/-- The number in a field in two's complement. -/
def signed (field : List UInt8) : Int := (natural field : Int).bmod (256 ^ field.length)

end Wire

open Wire

/-- The bytes are one complete item. -/
inductive Denotes : List UInt8 → Item Bytes → Prop
  | positiveFixint {n : Nat} (hn : n < 0x80) : Denotes [.ofNat n] (.positive n)
  | fixmap {n : Nat} (hn : n < 0x10) : Denotes [.ofNat (0x80 + n)] (.map n)
  | fixarray {n : Nat} (hn : n < 0x10) : Denotes [.ofNat (0x90 + n)] (.array n)
  | fixstr {payload : Bytes} (hn : payload.size < 0x20) :
      Denotes (.ofNat (0xA0 + payload.size) :: payload.toList) (.str payload)
  | nil : Denotes [0xC0] .nil
  | booleanFalse : Denotes [0xC2] (.boolean false)
  | booleanTrue : Denotes [0xC3] (.boolean true)
  /-- A binary with a length of 8, 16 or 32 bits. -/
  | bin {i : Nat} {field : List UInt8} {payload : Bytes} (hi : i < 3)
      (hw : field.length = 2 ^ i) (hn : natural field = payload.size) :
      Denotes (.ofNat (0xC4 + i) :: field ++ payload.toList) (.bin payload)
  /-- An extension with a length of 8, 16 or 32 bits. -/
  | ext {i : Nat} {field : List UInt8} {type : UInt8} {payload : Bytes} (hi : i < 3)
      (hw : field.length = 2 ^ i) (hn : natural field = payload.size) :
      Denotes (.ofNat (0xC7 + i) :: field ++ type :: payload.toList) (.ext (signed [type]) payload)
  | float32 {field : List UInt8} (hw : field.length = 4) :
      Denotes (0xCA :: field) (.float (Single.toDouble (.ofNat (natural field))))
  | float64 {field : List UInt8} (hw : field.length = 8) :
      Denotes (0xCB :: field) (.double (.ofNat (natural field)))
  /-- An unsigned integer of 8, 16, 32 or 64 bits. -/
  | uint {i : Nat} {field : List UInt8} (hi : i < 4) (hw : field.length = 2 ^ i) :
      Denotes (.ofNat (0xCC + i) :: field) (.positive (natural field))
  /-- A signed integer of 8, 16, 32 or 64 bits. -/
  | int {i : Nat} {field : List UInt8} (hi : i < 4) (hw : field.length = 2 ^ i) :
      Denotes (.ofNat (0xD0 + i) :: field) (.integer (signed field))
  /-- An extension with a payload of 1, 2, 4, 8 or 16 bytes. -/
  | fixext {i : Nat} {type : UInt8} {payload : Bytes} (hi : i < 5)
      (hn : payload.size = 2 ^ i) :
      Denotes (.ofNat (0xD4 + i) :: type :: payload.toList) (.ext (signed [type]) payload)
  /-- A string with a length of 8, 16 or 32 bits. -/
  | str {i : Nat} {field : List UInt8} {payload : Bytes} (hi : i < 3)
      (hw : field.length = 2 ^ i) (hn : natural field = payload.size) :
      Denotes (.ofNat (0xD9 + i) :: field ++ payload.toList) (.str payload)
  /-- An array with a count of 16 or 32 bits. -/
  | array {i : Nat} {field : List UInt8} (hi : i < 2) (hw : field.length = 2 ^ (i + 1)) :
      Denotes (.ofNat (0xDC + i) :: field) (.array (natural field))
  /-- A map with a count of 16 or 32 bits. -/
  | map {i : Nat} {field : List UInt8} (hi : i < 2) (hw : field.length = 2 ^ (i + 1)) :
      Denotes (.ofNat (0xDE + i) :: field) (.map (natural field))
  | negativeFixint {n : Nat} (hn : n < 0x20) :
      Denotes [.ofNat (0xE0 + n)] (.negative ((n : Int) - 0x20))

/-- The bytes are a proper prefix of a complete item. -/
def Unfinished (bytes : List UInt8) : Prop :=
  ∃ more item, more ≠ [] ∧ Denotes (bytes ++ more) item

theorem Denotes.unfinished {bytes more : List UInt8} {item : Item Bytes}
    (h : Denotes (bytes ++ more) item) (hm : more ≠ []) : Unfinished bytes :=
  ⟨more, item, hm, h⟩

theorem Denotes.ne_nil {bytes : List UInt8} {item : Item Bytes} (h : Denotes bytes item) :
    bytes ≠ [] := by
  cases h <;> exact List.cons_ne_nil _ _

end MessagePack
