import MessagePack.Item

/-! # Tags

The first byte of an item tells all there is to know about its header.

* Small integers, nil, booleans and the headers of short arrays and maps are whole items.
* A short string carries its length in the tag.
* A fixed extension carries the length of its payload in the tag, and its type in
  the next byte.
* All other tags announce a field of one, two, four or eight bytes: a number, or
  a count or length.
* One tag is undefined.
-/

namespace MessagePack

/-- What the field after a tag holds. -/
inductive Field
  | unsigned | signed | float | double | str | bin | ext | array | map
  deriving DecidableEq, Repr

/-- What a tag says about its item. -/
inductive Header
  /-- The tag is a whole item. -/
  | whole (item : Item Empty)
  /-- A string of the given length follows. -/
  | shortStr (length : Nat)
  /-- A type byte and a payload of the given length follow. -/
  | fixExt (length : Nat)
  /-- A field of the given width follows. -/
  | field (field : Field) (width : Nat)
  /-- The tag starts no item. -/
  | undefined
  deriving DecidableEq, Repr

namespace Header

/-- The tags from `0xC0` to `0xDF`. -/
def ofMiddle : Nat → Header
  | 0xC0 => .whole .nil
  | 0xC2 => .whole (.boolean false)
  | 0xC3 => .whole (.boolean true)
  | 0xC4 => .field .bin 1
  | 0xC5 => .field .bin 2
  | 0xC6 => .field .bin 4
  | 0xC7 => .field .ext 1
  | 0xC8 => .field .ext 2
  | 0xC9 => .field .ext 4
  | 0xCA => .field .float 4
  | 0xCB => .field .double 8
  | 0xCC => .field .unsigned 1
  | 0xCD => .field .unsigned 2
  | 0xCE => .field .unsigned 4
  | 0xCF => .field .unsigned 8
  | 0xD0 => .field .signed 1
  | 0xD1 => .field .signed 2
  | 0xD2 => .field .signed 4
  | 0xD3 => .field .signed 8
  | 0xD4 => .fixExt 1
  | 0xD5 => .fixExt 2
  | 0xD6 => .fixExt 4
  | 0xD7 => .fixExt 8
  | 0xD8 => .fixExt 16
  | 0xD9 => .field .str 1
  | 0xDA => .field .str 2
  | 0xDB => .field .str 4
  | 0xDC => .field .array 2
  | 0xDD => .field .array 4
  | 0xDE => .field .map 2
  | 0xDF => .field .map 4
  | _ => .undefined

/-- The header that a tag announces. -/
def ofTag (tag : UInt8) : Header :=
  let c := tag.toNat
  if c < 0x80 then .whole (.positive c)
  else if c < 0x90 then .whole (.map (c - 0x80))
  else if c < 0xA0 then .whole (.array (c - 0x90))
  else if c < 0xC0 then .shortStr (c - 0xA0)
  else if c < 0xE0 then ofMiddle c
  else .whole (.negative ((c : Int) - 0x100))

end Header

/-- A field of `width` bytes read as two's complement. -/
def twosComplement (width n : Nat) : Int :=
  if n < Nat.pow 2 (8 * width - 1) then n else (n : Int) - Nat.pow 2 (8 * width)

/-- The integer item of a signed field.  A number that is not negative has the same kind as one
from an unsigned field. -/
def Item.ofSigned {π : Type} (width n : Nat) : Item π :=
  if n < Nat.pow 2 (8 * width - 1) then .positive n else .negative (twosComplement width n)

end MessagePack
