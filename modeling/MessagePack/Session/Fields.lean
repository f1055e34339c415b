import MessagePack.ByteOrder

/-! # Sessions with byte orders

The accesses of a byte order to a buffer, as data.  Where no byte order is
given, every access is left out, and only what a single can hold is checked.
-/

namespace MessagePack

/-- An access to a field of a buffer. -/
inductive FieldStep
  | store (width pos : Nat) (n : Int)
  | storeSingle (pos : Nat) (bits : DoubleBits)
  | storeDouble (pos : Nat) (bits : DoubleBits)
  | load (width pos : Nat)
  | loadSingle (pos : Nat)
  | loadDouble (pos : Nat)
  deriving DecidableEq, Repr

/-- What an access yields. -/
inductive FieldAnswer
  | done
  | number (n : Nat)
  | float (bits : DoubleBits)
  deriving DecidableEq, Repr

namespace FieldStep

/-- What a store yields, and the buffer after it. -/
def stored (outcome : Except Fault Unit × Bytes) : Except Fault FieldAnswer × Bytes :=
  (outcome.1.map fun _ => .done, outcome.2)

/-- Make an access: what it yields, and the buffer after it. -/
def run (order : Option ByteOrder) (buffer : Bytes) : FieldStep → Except Fault FieldAnswer × Bytes
  | store width pos n =>
    match order with
    | some order => stored (order.store width buffer pos n)
    | none => (.error .notImplemented, buffer)
  | storeSingle pos bits =>
    match order with
    | some order => stored (order.storeSingle buffer pos bits)
    | none =>
      match ByteOrder.singlePattern bits with
      | .ok _ => (.error .notImplemented, buffer)
      | .error fault => (.error fault, buffer)
  | storeDouble pos bits =>
    match order with
    | some order => stored (order.storeDouble buffer pos bits)
    | none => (.error .notImplemented, buffer)
  | load width pos =>
    match order with
    | some order => ((order.load width buffer pos).map .number, buffer)
    | none => (.error .notImplemented, buffer)
  | loadSingle pos =>
    match order with
    | some order => ((order.loadSingle buffer pos).map .float, buffer)
    | none => (.error .notImplemented, buffer)
  | loadDouble pos =>
    match order with
    | some order => ((order.loadDouble buffer pos).map .float, buffer)
    | none => (.error .notImplemented, buffer)

end FieldStep
end MessagePack
