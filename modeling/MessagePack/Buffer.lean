import MessagePack.Bytes

/-! # Buffers and borrowed ranges

A context works on one buffer at a time.  The buffer may be changed in place, or
exchanged for a new one; an item that was decoded earlier goes on referring to
the buffer it was read from, and sees every change made in place.

* `Buffer.bytes` is the present buffer, `Buffer.retired` holds the former ones.
  A retired buffer can no longer change.
* A `Span` is a range of one of them, or of bytes of its own.
* `Span.view` reads the bytes of a range as they are now.
-/

namespace MessagePack

/-- The present buffer and the ones that it replaced, oldest first. -/
structure Buffer where
  bytes : Bytes
  retired : Array Bytes := #[]
  deriving DecidableEq, Repr

namespace Buffer

/-- The number of the present buffer. -/
def generation (b : Buffer) : Nat := b.retired.size

/-- Change the present buffer in place. -/
def modify (b : Buffer) (bytes : Bytes) : Buffer := { b with bytes }

/-- Retire the present buffer and go on with a new one. -/
def replace (b : Buffer) (bytes : Bytes) : Buffer := ⟨bytes, b.retired.push b.bytes⟩

/-- The bytes of the buffer with the given number. -/
def lookup (b : Buffer) (generation : Nat) : Bytes :=
  if generation = b.generation then b.bytes else b.retired.getD generation #[]

@[simp] theorem lookup_generation (b : Buffer) : b.lookup b.generation = b.bytes := by
  simp [lookup]

end Buffer

/-- Where the bytes of a range are. -/
inductive Origin
  /-- In a context's buffer of the given number. -/
  | borrowed (generation : Nat)
  /-- In bytes of its own. -/
  | owned (bytes : Bytes)
  deriving DecidableEq, Repr

/-- A range of a buffer. -/
structure Span where
  origin : Origin
  start : Nat
  length : Nat
  deriving DecidableEq, Repr

namespace Span

/-- All of the given bytes. -/
def ofBytes (bytes : Bytes) : Span := ⟨.owned bytes, 0, bytes.size⟩

/-- The bytes of a range now, as far as they exist. -/
def view (b : Buffer) (s : Span) : Bytes :=
  let source := match s.origin with
    | .borrowed generation => b.lookup generation
    | .owned bytes => bytes
  Bytes.slice source s.start (s.start + s.length)

@[simp] theorem view_ofBytes (b : Buffer) (bytes : Bytes) : (ofBytes bytes).view b = bytes := by
  simp [view, ofBytes, Bytes.slice]

end Span
end MessagePack
