import MessagePack.Context
import MessagePack.Header

/-! # Engine steps

Packing and unpacking are sequences of steps on a context.  A step goes on with
a value, or halts the operation: with the status that the operation returns, or
with a fault that it raises.  What a halted operation has done to the context
stays done.

* `Engine.running` halts with `Status.stopped` if the latch is set.
* `Engine.ensure` makes bytes available at the cursor, with the help of the handler.
* `Engine.readByte` and `Engine.readField` take bytes from the region.
-/

namespace MessagePack

/-- Why an operation is not complete. -/
inductive Halt
  /-- It returns a status. -/
  | status (status : Status)
  /-- It raises a fault. -/
  | fault (fault : Fault)
  deriving DecidableEq, Repr

/-- A step of an operation on a context. -/
abbrev Engine (σ : Type) := EStateM Halt (Context σ)

namespace Engine

variable {σ α : Type}

/-- Run an operation: its status or its fault, and the context afterwards. -/
def run (operation : Engine σ Unit) (c : Context σ) : Except Fault Status × Context σ :=
  match operation c with
  | .ok () c' => (.ok .ok, c')
  | .error (.status s) c' => (.ok s, c')
  | .error (.fault f) c' => (.error f, c')

/-- Latch a status and return it. -/
def stop (status : Status) : Engine σ α := fun c => .error (.status status) (c.latch status)

/-- Nothing is done while a status is latched. -/
def running : Engine σ Unit := fun c =>
  if c.status = .ok then .ok () c else .error (.status .stopped) c

/-- A result that may be a fault. -/
def lift (result : Except Fault α) : Engine σ α := fun c =>
  match result with
  | .ok a => .ok a c
  | .error fault => .error (.fault fault) c

/-- Make sure that `n` bytes are available at the cursor.  Without a handler the operation stops
with `short`, and otherwise with what `adapt` makes of an answer other than `ok`.  A handler that
raises leaves its fault in the context, and one that answers `ok` must have kept its word. -/
def ensure (handler : Option (Handler σ)) (adapt : Status → Status) (n : Nat)
    (short : Status) : Engine σ Unit := fun c =>
  if c.current + n ≤ c.limit then .ok () c
  else
    match handler with
    | none => stop short c
    | some respond =>
      match respond n c.toRegion with
      | (.error fault, r) =>
        .error (.fault fault) ((c.within { r with fault := some fault }).latch .errorInHandler)
      | (.ok answer, r) =>
        if answer ≠ .ok then stop (adapt answer) (c.within r)
        else if r.current + n ≤ r.limit then .ok () (c.within r)
        else stop .errorInHandler (c.within (r.noteShortage n))

/-- The byte order that was selected. -/
def orderFor (access : Access) : Engine σ ByteOrder := fun c =>
  match c.order with
  | some order => .ok order c
  | none => .error (.fault (.noOrder access)) c

/-- Take one byte. -/
def readByte : Engine σ UInt8 := fun c =>
  match c.bytes[c.current]? with
  | some b => .ok b { c with current := c.current + 1 }
  | none => .error (.fault .outOfBounds) c

/-- Take the number in a field of `width` bytes. -/
def readField (width : Nat) : Engine σ Nat := do
  if width = 1 then return (← readByte).toNat
  let order ← orderFor (.load width)
  let c ← get
  let n ← lift (order.load width c.bytes c.current)
  set { c with current := c.current + width }
  return n

/-- Take a single. -/
def readSingle : Engine σ DoubleBits := do
  let order ← orderFor (.loadFloat 4)
  let c ← get
  let bits ← lift (order.loadSingle c.bytes c.current)
  set { c with current := c.current + 4 }
  return bits

/-- Take a double. -/
def readDouble : Engine σ DoubleBits := do
  let order ← orderFor (.loadFloat 8)
  let c ← get
  let bits ← lift (order.loadDouble c.bytes c.current)
  set { c with current := c.current + 8 }
  return bits

/-- Take the type of an extension, a signed byte. -/
def readSubtype : Engine σ Int := do
  let b ← readByte
  return twosComplement 1 b.toNat

/-- Pass over `n` bytes. -/
def advance (n : Nat) : Engine σ Unit := fun c => .ok () { c with current := c.current + n }

/-! ### The context as a state -/

theorem get_apply (c : Context σ) : (get : Engine σ (Context σ)) c = .ok c c := rfl

theorem set_apply (d c : Context σ) : (set d : Engine σ PUnit) c = .ok ⟨⟩ d := rfl

end Engine
end MessagePack
