import MessagePack.Engine

/-! # Reading and passing over one item

* `Unpacker.decodeItem` reads one item into the context.  Payloads are not copied:
  the item refers to its range of the buffer.
* `Unpacker.skipItem` passes over one item without decoding it, and tells how many
  items an array or a map adds to those still to be passed.

A handler of an unpacker is a `Supplier`: it can refill the region only finitely
often, which its `budget` witnesses.
-/

namespace MessagePack

/-- A handler whose answer `ok` spends some of a finite budget, whenever it is asked for bytes that
are missing. -/
structure Supplier (σ : Type) where
  respond : Handler σ
  budget : σ → Nat
  spends : ∀ n r r', r.limit < r.current + n → respond n r = (.ok .ok, r') →
    budget r'.peer < budget r.peer

namespace Unpacker

variable {σ α β : Type}

/-- Where the input ends, the status says whether that is between two items or within one. -/
def atEnd (short answer : Status) : Status := if answer = .endOfInput then short else answer

/-- Make sure that `n` bytes are available. -/
def require (s : Option (Supplier σ)) (n : Nat) (short : Status) : Engine σ Unit :=
  Engine.ensure (s.map Supplier.respond) (atEnd short) n short

/-- Take the first byte of an item. -/
def readTag (s : Option (Supplier σ)) : Engine σ UInt8 := do
  require s 1 .endOfInput
  Engine.readByte

/-! ### Decoding -/

/-- Make an item the context's last one. -/
def present (item : Item Span) : Engine σ Unit := fun c => .ok () { c with item := some item }

/-- An item whose payload is the next `length` bytes. -/
def presentPayload (s : Option (Supplier σ)) (make : Span → Item Span) (length : Nat) :
    Engine σ Unit := do
  require s length .bufferUnderflow
  let c ← get
  present (make ⟨.borrowed c.buffer.generation, c.current, length⟩)
  Engine.advance length

/-- The item whose field follows. -/
def decodeField (s : Option (Supplier σ)) (field : Field) (width : Nat) : Engine σ Unit := do
  require s width .bufferUnderflow
  match field with
  | .float => present (.float (← Engine.readSingle))
  | .double => present (.double (← Engine.readDouble))
  | .unsigned => present (.positive (← Engine.readField width))
  | .signed => present (.ofSigned width (← Engine.readField width))
  | .array => present (.array (← Engine.readField width))
  | .map => present (.map (← Engine.readField width))
  | .str => presentPayload s .str (← Engine.readField width)
  | .bin => presentPayload s .bin (← Engine.readField width)
  | .ext =>
    let length ← Engine.readField width
    require s 1 .bufferUnderflow
    let type ← Engine.readSubtype
    presentPayload s (.ext type) length

/-- The item that a header starts. -/
def decodeRest (s : Option (Supplier σ)) : Header → Engine σ Unit
  | .whole item => present (item.mapPayload Empty.elim)
  | .shortStr length => presentPayload s .str length
  | .fixExt length => do
    require s 1 .bufferUnderflow
    let type ← Engine.readSubtype
    presentPayload s (.ext type) length
  | .field field width => decodeField s field width
  | .undefined => Engine.stop .malformedInput

/-- Read the next item. -/
def decodeItem (s : Option (Supplier σ)) : Engine σ Unit := do
  let tag ← readTag s
  decodeRest s (Header.ofTag tag)

/-! ### Skipping -/

/-- Pass over the rest of an item. -/
def pass (s : Option (Supplier σ)) (n : Nat) : Engine σ Unit := do
  require s n .bufferUnderflow
  Engine.advance n

/-- Take a count or a length. -/
def readCount (s : Option (Supplier σ)) (width : Nat) : Engine σ Nat := do
  require s width .bufferUnderflow
  Engine.readField width

/-- Pass over what follows a header, and tell how many items it adds to those to be passed. -/
def skipRest (s : Option (Supplier σ)) : Header → Engine σ Nat
  | .whole (.array n) => pure n
  | .whole (.map n) => pure (2 * n)
  | .whole _ => pure 0
  | .shortStr length => do pass s length; return 0
  | .fixExt length => do pass s (1 + length); return 0
  | .undefined => Engine.stop .malformedInput
  | .field field width =>
    match field with
    | .unsigned | .signed | .float | .double => do pass s width; return 0
    | .array => readCount s width
    | .map => do return 2 * (← readCount s width)
    | .str | .bin => do pass s (← readCount s width); return 0
    | .ext => do pass s ((← readCount s width) + 1); return 0

/-- Pass over one item, less the contents of an array or a map, whose number it tells. -/
def skipItem (s : Option (Supplier σ)) : Engine σ Nat := do
  let tag ← readTag s
  skipRest s (Header.ofTag tag)

end Unpacker
end MessagePack
