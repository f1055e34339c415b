import MessagePack.Engine
import MessagePack.Frame

/-! # Packing

Each value is appended at the cursor in its shortest form.  Arrays and maps are
written as headers only: their elements, or keys and values, are packed after
them.

Room for the whole encoding, payload included, is made before its first byte is
written, so a value that finds no room leaves no trace.
-/

namespace MessagePack

/-- A value to be packed. -/
inductive Value
  | unsigned (n : Int)
  | signed (n : Int)
  | float (bits : DoubleBits)
  | double (bits : DoubleBits)
  | nil
  | boolean (b : Bool)
  | array (size : Int)
  | map (size : Int)
  | str (payload : Bytes)
  | bin (payload : Bytes)
  | ext (type : Int) (payload : Bytes)
  deriving DecidableEq, Repr

namespace Value

/-- The encoding of a value, if it has one. -/
def frame : Value → Except Fault Frame
  | unsigned n => Frame.unsigned n
  | signed n => Frame.signed n
  | float bits => Frame.float bits
  | double bits => .ok (Frame.double bits)
  | nil => .ok Frame.nil
  | boolean b => .ok (Frame.boolean b)
  | array n => Frame.array n
  | map n => Frame.map n
  | str payload => Frame.str payload
  | bin payload => Frame.bin payload
  | ext type payload => Frame.ext type payload

/-- The access that writes the field of an encoding. -/
def access (v : Value) (f : Frame) : Access :=
  match v with
  | float _ | double _ => .storeFloat f.width
  | _ => .store f.width

end Value

namespace Packer

variable {σ : Type}

/-- Overwrite one byte of the buffer. -/
def writeByte (pos : Nat) (b : UInt8) : Engine σ Unit := fun c =>
  if h : pos < c.bytes.size then .ok () (c.modifyBytes (c.bytes.set pos b))
  else .error (.fault .outOfBounds) c

/-- Overwrite the field of an encoding. -/
def writeField (access : Access) (pos : Nat) (f : Frame) : Engine σ Unit := do
  if f.width = 0 then return
  if f.width = 1 then writeByte pos (UInt8.ofNat f.value)
  else
    let order ← Engine.orderFor access
    let c ← get
    let (result, bytes) := order.store f.width c.bytes pos f.value
    set (c.modifyBytes bytes)
    Engine.lift result

/-- Write the type of an extension and move on. -/
def writeSubtype : Option Int → Engine σ Unit
  | none => pure ()
  | some type => do
    writeByte (← get).current (Frame.subtypeByte type)
    Engine.advance 1

/-- Write a payload and move on. -/
def writePayload (payload : Bytes) : Engine σ Unit := fun c =>
  if payload.isEmpty then .ok () c
  else
    .ok () { c.modifyBytes (Bytes.splice c.bytes c.current payload) with
      current := c.current + payload.size }

/-- Write an encoding at the cursor: the field before the tag, then the rest. -/
def write (access : Access) (f : Frame) : Engine σ Unit := do
  let pos := (← get).current
  writeField access (pos + 1) f
  writeByte pos (UInt8.ofNat f.tag)
  Engine.advance (1 + f.width)
  writeSubtype f.subtype
  writePayload f.payload

/-- Make room for an encoding.  Whatever status a handler answers with is the status of the
operation. -/
def reserve (handler : Option (Handler σ)) (n : Nat) : Engine σ Unit :=
  Engine.ensure handler id n .bufferOverflow

/-- Append a value.  A value without an encoding is refused before room is made for it, except
for a float, whose encoding always has the same length. -/
def pack (handler : Option (Handler σ)) (v : Value) : Engine σ Unit := do
  Engine.running
  match v with
  | .float bits =>
    reserve handler Frame.floatSize
    let access := Access.storeFloat 4
    let _ ← Engine.orderFor access
    let f ← Engine.lift (Frame.float bits)
    write access f
  | v =>
    let f ← Engine.lift v.frame
    reserve handler f.size
    write (v.access f) f

end Packer
end MessagePack
