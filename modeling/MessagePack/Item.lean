import MessagePack.Buffer
import MessagePack.Fault
import MessagePack.Float.Shortest

/-! # Items

An item is a scalar, the header of an array or a map, or a string, a binary or
an extension with a payload.  The type of payloads is a parameter: a `Span` for
an item that borrows from a buffer, `Bytes` for one that stands for itself.

Floats are kept as the bits of a double; a single that was read from the wire is
widened first.
-/

namespace MessagePack

/-- The value of an item. -/
inductive Scalar
  | nothing
  | boolean (b : Bool)
  | integer (n : Int)
  | float (bits : DoubleBits)
  deriving DecidableEq, Repr

namespace Scalar

/-- The text of a value. -/
def text : Scalar → String
  | nothing => "None"
  | boolean b => if b then "True" else "False"
  | integer n => toString n
  | float x => Double.text x

/-- The integer that a value is.  A boolean counts as zero or one. -/
def whole? : Scalar → Option Int
  | boolean b => some (if b then 1 else 0)
  | integer n => some n
  | nothing | float _ => none

/-- The double nearest to a value, if it is a number and not too large. -/
def toDouble? : Scalar → Option DoubleBits
  | float x => some x
  | v => v.whole?.bind Double.ofInt?

/-- Equality of values, which compare as numbers whatever their form. -/
def same (a b : Scalar) : Bool :=
  match a, b with
  | float x, float y => Double.same x y
  | float x, v | v, float x => v.whole?.any (Double.isInt x)
  | v, w => decide (v.whole? = w.whole?)

theorem same_nothing : same nothing nothing = true := rfl

theorem same_float (x y : DoubleBits) : same (float x) (float y) = Double.same x y := rfl

theorem same_boolean (a b : Bool) : same (boolean a) (boolean b) = decide (a = b) := by
  cases a <;> cases b <;> rfl

theorem same_integer (m n : Int) : same (integer m) (integer n) = decide (m = n) := by
  simp [same, whole?]

theorem same_natCast (m n : Nat) : same (integer m) (integer n) = decide (m = n) := by
  rw [same_integer]
  exact decide_eq_decide.mpr Int.ofNat_inj

end Scalar

/-- One decoded item. -/
inductive Item (π : Type)
  | nil
  | boolean (value : Bool)
  | positive (value : Nat)
  | negative (value : Int)
  | float (bits : DoubleBits)
  | double (bits : DoubleBits)
  | str (payload : π)
  | bin (payload : π)
  | array (size : Nat)
  | map (size : Nat)
  | ext (type : Int) (payload : π)
  deriving DecidableEq, Repr

namespace Item

variable {π ρ : Type}

/-- The kind of an item. -/
def type : Item π → ItemType
  | nil => .nil
  | boolean _ => .boolean
  | positive _ => .positiveInteger
  | negative _ => .negativeInteger
  | float _ => .float
  | double _ => .double
  | str _ => .str
  | bin _ => .bin
  | array _ => .array
  | map _ => .map
  | ext _ _ => .ext

/-- The value of a scalar, and the count of an array or a map. -/
def value : Item π → Scalar
  | boolean b => .boolean b
  | positive n | array n | map n => .integer n
  | negative n => .integer n
  | float x | double x => .float x
  | nil | str _ | bin _ | ext _ _ => .nothing

/-- The payload, of an item that has one. -/
def payload? : Item π → Option π
  | str p | bin p | ext _ p => some p
  | _ => none

/-- The same item with another payload. -/
def mapPayload (f : π → ρ) : Item π → Item ρ
  | nil => nil
  | boolean b => boolean b
  | positive n => positive n
  | negative n => negative n
  | float x => float x
  | double x => double x
  | str p => str (f p)
  | bin p => bin (f p)
  | array n => array n
  | map n => map n
  | ext t p => ext t (f p)

@[simp] theorem type_mapPayload (f : π → ρ) (i : Item π) : (i.mapPayload f).type = i.type := by
  cases i <;> rfl

@[simp] theorem payload?_mapPayload (f : π → ρ) (i : Item π) :
    (i.mapPayload f).payload? = i.payload?.map f := by
  cases i <;> rfl

/-- Equality of values.  Floats compare as numbers, payloads as byte strings. -/
def same [DecidableEq π] : Item π → Item π → Bool
  | float a, float b => Double.same a b
  | double a, double b => Double.same a b
  | a, b => decide (a = b)

/-- A short description, which shows the length of a payload in place of its bytes. -/
def describe (length : π → Nat) (i : Item π) : String :=
  let content := match i with
    | str p | bin p => toString (length p)
    | ext t p => toString t ++ ":" ++ toString (length p)
    | _ => i.value.text
  "<Item:" ++ i.type.name ++ " " ++ content ++ ">"

/-! ### Borrowed payloads -/

/-- The item with the bytes that it refers to now. -/
def resolve (b : Buffer) (i : Item Span) : Item Bytes := i.mapPayload (Span.view b)

/-- The payload now. -/
def view (b : Buffer) (i : Item Span) : Except Fault Bytes :=
  match i.payload? with
  | some span => .ok (span.view b)
  | none => .error (.noPayload i.type)

/-- The text that UTF-8 bytes stand for. -/
def decodeText (bytes : Bytes) : Except Fault String :=
  match String.fromUTF8? ⟨bytes⟩ with
  | some text => .ok text
  | none => .error .invalidText

/-- The payload now, read as UTF-8. -/
def text (b : Buffer) (i : Item Span) : Except Fault String :=
  match i.view b with
  | .ok bytes => decodeText bytes
  | .error fault => .error fault

/-- An item that owns a copy of its payload. -/
def detach (b : Buffer) (i : Item Span) : Item Span :=
  i.mapPayload fun span => Span.ofBytes (span.view b)

/-- Detaching an item returns the item itself. -/
def isDetached (i : Item Span) : Bool := i.payload?.isNone

@[simp] theorem resolve_detach (b c : Buffer) (i : Item Span) :
    (i.detach b).resolve c = i.resolve b := by
  cases i <;> simp [detach, resolve, mapPayload]

end Item
end MessagePack
