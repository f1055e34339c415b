import MessagePack.Bytes
import MessagePack.Fault
import MessagePack.Float.Binary

/-! # Byte order

Fields on the wire are big-endian.  A host gets there by one of three
strategies, and one of them is selected for a context when it is bound:

* `native`: the host's own layout, for a big-endian host;
* `swapped`: the host's words with their bytes reversed, for a little-endian one;
* `portable`: byte by byte, for any host.

The first two move a whole field, and refuse a value or a place that does not
fit.  The third masks the value, and walks from the last byte to the first when
it stores and from the first to the last when it loads.
-/

namespace MessagePack

/-- The order of the bytes of a word. -/
inductive Layout
  | big | little
  deriving DecidableEq, Repr

namespace Layout

/-- The name of a layout. -/
def name : Layout → String
  | big => "big"
  | little => "little"

/-- The low `width` bytes of a number, the most significant one first. -/
def bigEndian : (width : Nat) → (n : Nat) → List UInt8
  | 0, _ => []
  | width + 1, n => UInt8.ofNat (n / Nat.pow 256 width) :: bigEndian width n

/-- The number that the bytes stand for, the most significant one first. -/
def ofBigEndian : List UInt8 → Nat
  | [] => 0
  | b :: rest => b.toNat * Nat.pow 256 rest.length + ofBigEndian rest

/-- The bytes of a field. -/
def encode (layout : Layout) (width n : Nat) : List UInt8 :=
  match layout with
  | big => bigEndian width n
  | little => (bigEndian width n).reverse

/-- The number in the bytes of a field. -/
def decode (layout : Layout) (bytes : List UInt8) : Nat :=
  match layout with
  | big => ofBigEndian bytes
  | little => ofBigEndian bytes.reverse

@[simp] theorem length_bigEndian (width n : Nat) : (bigEndian width n).length = width := by
  induction width with
  | zero => rfl
  | succ width ih => simp [bigEndian, ih]

/-- The layout that makes the bytes `31 32 33 34` this word, if any does. -/
def ofWord? (word : Nat) : Option Layout :=
  if word = 0x31323334 then some big
  else if word = 0x34333231 then some little
  else none

end Layout

/-- A way to store and load big-endian fields. -/
inductive ByteOrder
  | native (host : Layout)
  | swapped
  | portable
  deriving DecidableEq, Repr

namespace ByteOrder

/-- The layout that a strategy reverses, or keeps, on this host. -/
def name : ByteOrder → String
  | native _ => "big"
  | swapped => "little"
  | portable => "portable"

/-! ### Whole fields -/

/-- Overwrite a whole field.  A value that does not fit is refused, and `residue` is left in the
field instead. -/
def storeField (layout : Layout) (width : Nat) (buffer : Bytes) (pos : Nat) (n : Int)
    (residue : Nat) : Except Fault Unit × Bytes :=
  let put (n : Nat) := Bytes.splice buffer pos (layout.encode width n).toArray
  if buffer.size < pos + width then (.error .fieldRange, buffer)
  else if 0 ≤ n ∧ n < Nat.pow 256 width then (.ok (), put n.toNat)
  else (.error .fieldRange, put residue)

/-- Read a whole field. -/
def loadField (layout : Layout) (width : Nat) (buffer : Bytes) (pos : Nat) : Except Fault Nat :=
  if pos + width ≤ buffer.size then
    .ok (layout.decode (Bytes.slice buffer pos (pos + width)).toList)
  else .error .fieldRange

/-! ### Byte by byte -/

/-- Store the low bytes of a number from the last byte of the field to the first. -/
def storeBytewise (buffer : Bytes) (pos : Nat) :
    (width : Nat) → (n : Int) → Except Fault Unit × Bytes
  | 0, _ => (.ok (), buffer)
  | width + 1, n =>
    if h : pos + width < buffer.size then
      storeBytewise (buffer.set (pos + width) (UInt8.ofNat (n % 256).toNat)) pos width (n / 256)
    else (.error .outOfBounds, buffer)

/-- Add the bytes of a field to those read so far, which count 256 times as much each time. -/
def loadBytewise (buffer : Bytes) : (width pos n : Nat) → Except Fault Nat
  | 0, _, n => .ok n
  | width + 1, pos, n =>
    match buffer[pos]? with
    | some b => loadBytewise buffer width (pos + 1) (n * 256 + b.toNat)
    | none => .error .outOfBounds

/-! ### Strategies -/

/-- Store a number into a field of `width` bytes: the buffer afterwards, also where the number is
refused.  A refused number clears the field, except that the low bytes of an 8-byte word are in
place before its excess is found. -/
def store (order : ByteOrder) (width : Nat) (buffer : Bytes) (pos : Nat) (n : Int) :
    Except Fault Unit × Bytes :=
  match order with
  | native host => storeField host width buffer pos n 0
  | swapped => storeField .big width buffer pos n (if width = 8 then n.toNat else 0)
  | portable => storeBytewise buffer pos width n

/-- Load a number from a field of `width` bytes. -/
def load (order : ByteOrder) (width : Nat) (buffer : Bytes) (pos : Nat) : Except Fault Nat :=
  match order with
  | native host => loadField host width buffer pos
  | swapped => loadField .big width buffer pos
  | portable => loadBytewise buffer width pos 0

/-- The pattern that a single-precision field holds for a number. -/
def singlePattern (bits : DoubleBits) : Except Fault SingleBits :=
  match Double.toSingle? bits with
  | some single => .ok single
  | none => .error .floatTooLarge

/-- Store the nearest single. -/
def storeSingle (order : ByteOrder) (buffer : Bytes) (pos : Nat) (bits : DoubleBits) :
    Except Fault Unit × Bytes :=
  match singlePattern bits with
  | .ok single => order.store 4 buffer pos single.toNat
  | .error fault => (.error fault, buffer)

/-- Store a double. -/
def storeDouble (order : ByteOrder) (buffer : Bytes) (pos : Nat) (bits : DoubleBits) :
    Except Fault Unit × Bytes :=
  order.store 8 buffer pos bits.toNat

/-- Load a single, as the double of the same value. -/
def loadSingle (order : ByteOrder) (buffer : Bytes) (pos : Nat) : Except Fault DoubleBits :=
  (order.load 4 buffer pos).map fun n => Single.toDouble (UInt32.ofNat n)

/-- Load a double. -/
def loadDouble (order : ByteOrder) (buffer : Bytes) (pos : Nat) : Except Fault DoubleBits :=
  (order.load 8 buffer pos).map UInt64.ofNat

/-! ### Selection -/

/-- The strategy for a host of the given layout.  An assumption names the layout or asks for the
portable strategy; the process-wide one counts if the context has none of its own.  Where an
assumed layout is not the host's there is no strategy. -/
def select (host : Option Layout) (processWide assumed : Option String) :
    Except Fault (Option ByteOrder) :=
  let strategy := match host with
    | some .big => native .big
    | some .little => swapped
    | none => portable
  match assumed.or processWide with
  | none => .ok (some strategy)
  | some name =>
    if name = "portable" then .ok (some portable)
    else if name = "big" ∨ name = "little" then
      .ok (if host.map Layout.name = some name then some strategy else none)
    else .error (.unknownOrder name)

end ByteOrder

/-- What a context assumes about its host. -/
structure Assumptions where
  /-- The layout that the self-test finds. -/
  host : Option Layout := some .little
  /-- The assumption for the whole process. -/
  processWide : Option String := none
  /-- The assumption for this context. -/
  order : Option String := none
  deriving DecidableEq, Repr

namespace Assumptions

/-- The process-wide assumption of a setting; an empty setting is none. -/
def ofSetting (setting : Option String) : Option String := setting.filter (· ≠ "")

/-- The strategy under these assumptions. -/
def select (a : Assumptions) : Except Fault (Option ByteOrder) :=
  ByteOrder.select a.host a.processWide a.order

end Assumptions
end MessagePack
