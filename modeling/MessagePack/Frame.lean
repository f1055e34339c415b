import MessagePack.ByteOrder
import MessagePack.Header

/-! # Encodings

A `Frame` is the encoding of one value, in its parts: a tag, a field of zero to
eight bytes, the type byte of an extension, and the payload.  `Frame.bytes` is
the encoding as it stands on the wire.

The functions from values to frames choose the shortest form, and fail where
there is none.  Arrays and maps are headers only.
-/

namespace MessagePack

/-- The parts of an encoding. -/
structure Frame where
  tag : Nat
  width : Nat := 0
  value : Nat := 0
  subtype : Option Int := none
  payload : Bytes := #[]
  deriving DecidableEq, Repr

namespace Frame

/-- The length of an encoding. -/
def size (f : Frame) : Nat :=
  1 + f.width + (if f.subtype.isSome then 1 else 0) + f.payload.size

/-- A signed byte as the byte on the wire. -/
def subtypeByte (t : Int) : UInt8 := UInt8.ofNat (t % 256).toNat

/-- The encoding on the wire. -/
def bytes (f : Frame) : List UInt8 :=
  UInt8.ofNat f.tag :: Layout.bigEndian f.width f.value ++
    f.subtype.toList.map subtypeByte ++ f.payload.toList

theorem length_bytes (f : Frame) : f.bytes.length = f.size := by
  rcases f with ⟨tag, width, value, subtype, payload⟩
  cases subtype <;> simp [bytes, size] <;> omega

/-! ### Integers -/

/-- A number below zero or from `2 ^ 64` on has no unsigned form. -/
def unsigned (n : Int) : Except Fault Frame :=
  if n < 0 then .error (.negative n)
  else if n < 0x80 then .ok { tag := n.toNat }
  else if n ≤ 0xFF then .ok { tag := 0xCC, width := 1, value := n.toNat }
  else if n ≤ 0xFFFF then .ok { tag := 0xCD, width := 2, value := n.toNat }
  else if n ≤ 0xFFFFFFFF then .ok { tag := 0xCE, width := 4, value := n.toNat }
  else if n ≤ 0xFFFFFFFFFFFFFFFF then .ok { tag := 0xCF, width := 8, value := n.toNat }
  else .error (.exceeds64 n)

/-- A number that is not negative takes its unsigned form, which is never longer. -/
def signed (n : Int) : Except Fault Frame :=
  if n ≥ 0 then unsigned n
  else if n ≥ -0x20 then .ok { tag := (n + 0x100).toNat }
  else if n ≥ -0x80 then .ok { tag := 0xD0, width := 1, value := (n + 0x100).toNat }
  else if n ≥ -0x8000 then .ok { tag := 0xD1, width := 2, value := (n + 0x10000).toNat }
  else if n ≥ -0x80000000 then .ok { tag := 0xD2, width := 4, value := (n + 0x100000000).toNat }
  else if n ≥ -0x8000000000000000 then
    .ok { tag := 0xD3, width := 8, value := (n + 0x10000000000000000).toNat }
  else .error (.exceeds64 n)

/-! ### Counts and lengths -/

/-- A count or a length has up to 32 bits. -/
def checkLength (n : Int) : Except Fault Nat :=
  if n < 0 then .error (.negative n)
  else if n > 0xFFFFFFFF then .error (.exceeds32 n)
  else .ok n.toNat

/-- The header of an array. -/
def array (n : Int) : Except Fault Frame := do
  let n ← checkLength n
  if n < 0x10 then return { tag := 0x90 + n }
  else if n ≤ 0xFFFF then return { tag := 0xDC, width := 2, value := n }
  else return { tag := 0xDD, width := 4, value := n }

/-- The header of a map, which counts pairs. -/
def map (n : Int) : Except Fault Frame := do
  let n ← checkLength n
  if n < 0x10 then return { tag := 0x80 + n }
  else if n ≤ 0xFFFF then return { tag := 0xDE, width := 2, value := n }
  else return { tag := 0xDF, width := 4, value := n }

/-! ### Payloads -/

/-- A string. -/
def str (payload : Bytes) : Except Fault Frame := do
  let n ← checkLength payload.size
  if n < 0x20 then return { tag := 0xA0 + n, payload }
  else if n ≤ 0xFF then return { tag := 0xD9, width := 1, value := n, payload }
  else if n ≤ 0xFFFF then return { tag := 0xDA, width := 2, value := n, payload }
  else return { tag := 0xDB, width := 4, value := n, payload }

/-- A binary. -/
def bin (payload : Bytes) : Except Fault Frame := do
  let n ← checkLength payload.size
  if n ≤ 0xFF then return { tag := 0xC4, width := 1, value := n, payload }
  else if n ≤ 0xFFFF then return { tag := 0xC5, width := 2, value := n, payload }
  else return { tag := 0xC6, width := 4, value := n, payload }

/-- The tag of an extension whose length needs no field. -/
def fixExtTag? : Nat → Option Nat
  | 1 => some 0xD4
  | 2 => some 0xD5
  | 4 => some 0xD6
  | 8 => some 0xD7
  | 16 => some 0xD8
  | _ => none

/-- An extension, whose type is a signed byte. -/
def ext (type : Int) (payload : Bytes) : Except Fault Frame := do
  if type < -0x80 ∨ 0x7F < type then throw (.subtypeRange type)
  let n ← checkLength payload.size
  let subtype := some type
  match fixExtTag? n with
  | some tag => return { tag, subtype, payload }
  | none =>
    if n ≤ 0xFF then return { tag := 0xC7, width := 1, value := n, subtype, payload }
    else if n ≤ 0xFFFF then return { tag := 0xC8, width := 2, value := n, subtype, payload }
    else return { tag := 0xC9, width := 4, value := n, subtype, payload }

/-! ### The rest -/

/-- Nil. -/
def nil : Frame := { tag := 0xC0 }

/-- A boolean. -/
def boolean (b : Bool) : Frame := { tag := if b then 0xC3 else 0xC2 }

/-- A double. -/
def double (bits : DoubleBits) : Frame := { tag := 0xCB, width := 8, value := bits.toNat }

/-- The single nearest to a double. -/
def float (bits : DoubleBits) : Except Fault Frame := do
  let single ← ByteOrder.singlePattern bits
  return { tag := 0xCA, width := 4, value := single.toNat }

/-- The encoding of a single has the same length for all numbers. -/
def floatSize : Nat := 5

theorem size_float {bits : DoubleBits} {f : Frame} (h : float bits = .ok f) :
    f.size = floatSize := by
  unfold float at h
  cases hs : ByteOrder.singlePattern bits with
  | error e => simp [hs, bind, Except.bind] at h
  | ok single =>
    simp only [hs, bind, Except.bind, pure, Except.pure, Except.ok.injEq] at h
    subst h
    rfl

end Frame
end MessagePack
