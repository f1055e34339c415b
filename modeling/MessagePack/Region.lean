import MessagePack.Buffer
import MessagePack.Fault

/-! # Regions

A region is the part of a context that it shares with its handler: a range of a
buffer with a cursor in it, and the state of whatever is behind the handler.

* `start ≤ current ≤ limit` delimit what is done and what is left of the region,
  as long as the handler does not say otherwise.
* A handler is asked for a number of bytes at the cursor.  It may change the
  buffer, the cursor and the bounds as it sees fit, leave an error number and a
  fault behind, and answers with a status or raises a fault.
* The state of a handler, for instance the stream that it reads from, is the
  field `peer`.
-/

namespace MessagePack

/-- What a context is for. -/
inductive Kind
  /-- Pack into a region that is given. -/
  | packer
  /-- Pack into a buffer that grows. -/
  | growingPacker
  /-- Pack to a stream. -/
  | streamPacker
  /-- Unpack a region that is given. -/
  | unpacker
  /-- Unpack from a stream. -/
  | streamUnpacker
  deriving DecidableEq, Repr

/-- The name of a kind of context in descriptions. -/
def Kind.label : Kind → String
  | packer => "PackContext"
  | growingPacker => "DynamicPackContext"
  | streamPacker => "StreamPackContext"
  | unpacker => "UnpackContext"
  | streamUnpacker => "StreamUnpackContext"

/-! ### The log -/

/-- How serious a log record is. -/
inductive Level
  | debug | warning
  deriving DecidableEq, Repr

/-- The part of the library that a log record comes from. -/
inductive Topic
  /-- The cursor and the latch. -/
  | latch
  /-- Buffers that grow. -/
  | growth
  /-- Readers of whole items. -/
  | reader
  deriving DecidableEq, Repr

/-- A log record: its subject is described as it was at the time. -/
structure Record where
  topic : Topic
  level : Level
  subject : String
  message : String
  deriving DecidableEq, Repr

/-! ### Regions -/

/-- A range of a buffer with a cursor, and what is behind its handler. -/
structure Region (σ : Type) where
  kind : Kind
  buffer : Buffer
  start : Nat := 0
  current : Nat := 0
  limit : Nat := 0
  /-- The error number that a handler left behind, or zero. -/
  errorNumber : Int := 0
  /-- The fault that a handler raised or reported. -/
  fault : Option Fault := none
  log : Array Record := #[]
  peer : σ
  deriving DecidableEq, Repr

/-- A handler is asked for a number of bytes at the cursor. -/
abbrev Handler (σ : Type) := Nat → Region σ → Except Fault Status × Region σ

namespace Region

variable {σ : Type}

/-- The bytes of the present buffer. -/
abbrev bytes (r : Region σ) : Bytes := r.buffer.bytes

/-- The bytes between the cursor and the end of the region. -/
def remaining (r : Region σ) : Int := (r.limit : Int) - r.current

/-- The bytes from the start of the region to the cursor. -/
def done (r : Region σ) : Bytes := Bytes.slice r.bytes r.start r.current

/-- The bytes from the cursor to the end of the region. -/
def unread (r : Region σ) : Bytes := Bytes.slice r.bytes r.current r.limit

/-- The progress within the region, for people. -/
def describe (r : Region σ) : String :=
  "<" ++ r.kind.label ++ ":" ++ toString ((r.current : Int) - r.start) ++ "/" ++
    toString ((r.limit : Int) - r.start) ++ ">"

/-- Add a record about this region to the log. -/
def note (r : Region σ) (topic : Topic) (level : Level) (message : String) : Region σ :=
  { r with log := r.log.push ⟨topic, level, r.describe, message⟩ }

/-- Note that a buffer of `old` bytes gives way to one for `new` bytes. -/
def noteGrowth (r : Region σ) (old new : Nat) : Region σ :=
  r.note .growth .debug ("grow " ++ toString old ++ " > " ++ toString new)

/-- Note that a handler which answered `ok` left fewer than `n` bytes. -/
def noteShortage (r : Region σ) (n : Nat) : Region σ :=
  r.note .latch .warning
    ("handler returned OK but provided " ++ toString r.remaining ++ " of " ++ toString n ++
      " bytes")

/-- Change the buffer in place. -/
def modifyBytes (r : Region σ) (bytes : Bytes) : Region σ :=
  { r with buffer := r.buffer.modify bytes }

/-- Keep a fault that the handler answers for, with its error number. -/
def keepFault (r : Region σ) (fault : Fault) : Region σ :=
  { r with errorNumber := fault.errorNumber, fault := some fault }

end Region
end MessagePack
