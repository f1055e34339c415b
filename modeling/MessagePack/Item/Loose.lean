import MessagePack.Item

/-! # Loose items

An item that is put together by hand has parts which need not fit its kind: there
may be an extension without a type, or a string without a buffer.

* `LooseItem.ofItem` takes an item apart.
* Descriptions, payloads and texts of a loose item are those of the item that it
  is taken from (`describe_ofItem`, `view_ofItem`, `text_ofItem`), and so is what
  `detach` makes of it (`detach_ofItem`).
-/

namespace MessagePack

/-- The parts of an item. -/
structure LooseItem where
  type : ItemType
  value : Scalar := .nothing
  subtype : Option Int := none
  /-- The buffer that holds the payload. -/
  origin : Option Origin := none
  start : Nat := 0
  length : Nat := 0
  deriving DecidableEq, Repr

namespace LooseItem

/-- The parts of an item with its payload, if it has one. -/
def ofItem (i : Item Span) : LooseItem where
  type := i.type
  value := i.value
  subtype := match i with
    | .ext t _ => some t
    | _ => none
  origin := i.payload?.map Span.origin
  start := (i.payload?.map Span.start).getD 0
  length := (i.payload?.map Span.length).getD 0

/-- The text of an extension's type. -/
def subtypeText (i : LooseItem) : String := ((i.subtype.map Scalar.integer).getD .nothing).text

/-- A short description. -/
def describe (i : LooseItem) : String :=
  let content := match i.type with
    | .ext => i.subtypeText ++ ":" ++ toString i.length
    | .str | .bin => toString i.length
    | _ => i.value.text
  "<Item:" ++ i.type.name ++ " " ++ content ++ ">"

/-- The payload now. -/
def view (b : Buffer) (i : LooseItem) : Except Fault Bytes :=
  if i.type.hasPayload then
    match i.origin with
    | some origin => .ok (Span.view b ⟨origin, i.start, i.length⟩)
    | none => .error .noBuffer
  else .error (.noPayload i.type)

/-- The payload now, read as UTF-8. -/
def text (b : Buffer) (i : LooseItem) : Except Fault String :=
  match i.view b with
  | .ok bytes => Item.decodeText bytes
  | .error fault => .error fault

/-- Parts that own a copy of the payload. -/
def detach (b : Buffer) (i : LooseItem) : Except Fault LooseItem :=
  if i.type.hasPayload then
    match i.view b with
    | .ok bytes =>
      .ok {
        type := i.type, subtype := i.subtype, origin := some (.owned bytes), length := bytes.size }
    | .error fault => .error fault
  else .ok i

/-- Equality of kinds, and then of values, or of types and payloads. -/
def same (b : Buffer) (i j : LooseItem) : Except Fault Bool :=
  if i.type ≠ j.type then .ok false
  else if i.type.hasPayload then
    if i.subtype ≠ j.subtype then .ok false
    else
      match i.view b, j.view b with
      | .ok x, .ok y => .ok (decide (x = y))
      | .error fault, _ | .ok _, .error fault => .error fault
  else .ok (i.value.same j.value)

/-! ### Items taken apart -/

theorem describe_ofItem (i : Item Span) : (ofItem i).describe = i.describe Span.length := by
  cases i <;> rfl

theorem view_ofItem (b : Buffer) (i : Item Span) : (ofItem i).view b = i.view b := by
  cases i <;> rfl

theorem text_ofItem (b : Buffer) (i : Item Span) : (ofItem i).text b = i.text b := by
  have h := view_ofItem b i
  cases hv : i.view b with
  | ok bytes => simp [text, Item.text, h, hv]
  | error fault => simp [text, Item.text, h, hv]

theorem detach_ofItem (b : Buffer) (i : Item Span) :
    (ofItem i).detach b = .ok (ofItem (i.detach b)) := by
  cases i <;> rfl

/-- Loose items are equal as the items with the bytes that they refer to. -/
theorem same_ofItem (b : Buffer) (i j : Item Span) :
    (ofItem i).same b (ofItem j) = .ok ((i.resolve b).same (j.resolve b)) := by
  cases i <;> cases j <;>
    simp [same, ofItem, Item.same, Item.resolve, Item.mapPayload, Item.type, Item.value,
      Item.payload?, ItemType.hasPayload, Scalar.same_nothing, Scalar.same_float,
      Scalar.same_boolean, view]
  case positive.positive | array.array | map.map => exact Scalar.same_natCast _ _
  case negative.negative => exact Scalar.same_integer _ _
  case ext.ext s p t q =>
    by_cases h : s = t
    · simp [h]
    · simp [h]

end LooseItem
end MessagePack
