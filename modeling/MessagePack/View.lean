import MessagePack.Bytes
import MessagePack.Fault

/-! # Payloads as they are given

A payload is given as a text, as bytes or as a view of memory.  A view has items of one format and
any number of axes; along each it goes from one entry to the next by a number of bytes, forwards or
backwards.

* `View.contiguous` tells whether the items lie one after another, row by row.  A view whose items
  lie column by column is not contiguous in this sense.
* `View.raw` are the bytes of a view.  They are taken one by one from a row of bytes, and from the
  memory as it is in all other cases, where the view has to be contiguous.
* `CodePoint.encode` is the UTF-8 of a text, which may hold surrogates and has none then.
* `Data.raw` are the bytes of a payload.
-/

namespace MessagePack

/-- An axis of a view. -/
structure Axis where
  /-- The number of entries. -/
  count : Nat
  /-- The number of bytes from an entry to the next. -/
  stride : Int
  deriving DecidableEq, Repr

namespace Axis

/-- The number of items. -/
def extent : List Axis → Nat
  | [] => 1
  | axis :: axes => axis.count * extent axes

/-- How far the entries go, from the first one to the last. -/
def reach (axis : Axis) : Int := (axis.count - 1) * axis.stride

/-- The lowest place of an item, counted from the first one. -/
def lowest : List Axis → Int
  | [] => 0
  | axis :: axes => min 0 axis.reach + lowest axes

/-- The highest place of an item, counted from the first one. -/
def highest : List Axis → Int
  | [] => 0
  | axis :: axes => max 0 axis.reach + highest axes

/-- Each entry follows the one before, if there is more than one. -/
def rowMajor (itemSize : Nat) : List Axis → Bool
  | [] => true
  | axis :: axes =>
    (axis.count ≤ 1 || axis.stride = (extent axes * itemSize : Nat)) && rowMajor itemSize axes

end Axis

/-- A view of memory.  All its items lie in the memory. -/
structure View where
  memory : Bytes
  /-- The place of the first item. -/
  offset : Nat
  itemSize : Nat
  /-- The code for the type of the items. -/
  format : String
  axes : List Axis
  itemSize_octet : format = "B" → itemSize = 1
  inside : Axis.extent axes ≠ 0 → 0 ≤ offset + Axis.lowest axes ∧
    offset + Axis.highest axes + itemSize ≤ memory.size
  deriving DecidableEq, Repr

namespace View

/-- The number of bytes. -/
def size (v : View) : Nat := Axis.extent v.axes * v.itemSize

/-- The items lie one after another.  With one axis its stride counts even if there is no item. -/
def contiguous (v : View) : Bool :=
  match v.axes with
  | [axis] => axis.count = 1 || axis.stride = v.itemSize
  | axes => v.size = 0 || Axis.rowMajor v.itemSize axes

/-- The bytes along one axis. -/
def row (v : View) (axis : Axis) : Bytes :=
  (Array.range axis.count).map fun (i : Nat) =>
    v.memory[(v.offset + i * axis.stride).toNat]?.getD 0

/-- The bytes of a view that is not a row of bytes.  It is cast to one, which needs a contiguous
view, and cannot be done with several axes without an item. -/
def cast (v : View) : Except Fault Bytes :=
  if ¬ v.contiguous then .error .notContiguous
  else if v.axes.length ≠ 1 ∧ Axis.extent v.axes = 0 then .error .zeroInShape
  else .ok (Bytes.slice v.memory v.offset (v.offset + v.size))

/-- The bytes of a view. -/
def raw (v : View) : Except Fault Bytes :=
  match v.axes with
  | [axis] => if v.format = "B" then .ok (v.row axis) else v.cast
  | _ => v.cast

end View

/-- A part of a text, which may be a surrogate. -/
abbrev CodePoint := Fin 0x110000

namespace CodePoint

/-- One half of a pair that stands for a character, and none by itself. -/
def isSurrogate (point : CodePoint) : Bool := 0xD800 ≤ point.val && point.val ≤ 0xDFFF

/-- The text of characters alone. -/
def text (points : List CodePoint) : String :=
  String.ofList (points.map fun point => Char.ofNat point.val)

/-- The UTF-8 of a text. -/
def encode (points : List CodePoint) : Except Fault Bytes :=
  if points.any isSurrogate then .error .unencodable else .ok (text points).toUTF8.data

end CodePoint

/-- What a payload is given as. -/
inductive Data
  | text (points : List CodePoint)
  | bytes (bytes : Bytes)
  | view (view : View)
  deriving DecidableEq, Repr

namespace Data

/-- The bytes of a payload. -/
def raw : Data → Except Fault Bytes
  | .text points => CodePoint.encode points
  | .bytes payload => .ok payload
  | .view v => v.raw

/-- The number of bytes. -/
def size : Data → Nat
  | .text points => (CodePoint.text points).utf8ByteSize
  | .bytes payload => payload.size
  | .view v => v.size

end Data
end MessagePack
