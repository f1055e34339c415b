import MessagePack.Packer

/-! # Packing into a growing buffer

The buffer is the context's own.  When it is full it grows in place, to the
least doubling of its size that holds what is asked for, so packing never runs
out of room.  What is packed can be taken out from the front.
-/

namespace MessagePack

/-- A packer with a growing buffer keeps nothing else. -/
abbrev GrowingPacker := Context Unit

namespace GrowingPacker

/-- The size of a buffer that is given none. -/
def defaultSize : Nat := 4096

/-- The least size from which doublings start. -/
def leastSize : Nat := 16

/-- The first of `size`, `2 * size`, … that leaves `needed` bytes from the cursor on. -/
def grownSize (size cursor needed : Nat) : Nat :=
  if 0 < size ∧ size < cursor + needed then grownSize (2 * size) cursor needed else size
termination_by cursor + needed - size

theorem le_grownSize (size cursor needed : Nat) : size ≤ grownSize size cursor needed := by
  fun_induction grownSize size cursor needed with
  | case1 size _ ih => omega
  | case2 => exact Nat.le_refl _

theorem grownSize_room {size : Nat} (h : 0 < size) (cursor needed : Nat) :
    cursor + needed ≤ grownSize size cursor needed := by
  fun_induction grownSize size cursor needed with
  | case1 size _ ih => exact ih (by omega)
  | case2 size hstop => omega

/-- Extend the buffer with zeros, and the region to its end. -/
def grow : Handler Unit := fun needed r =>
  let old := r.bytes.size
  let size := grownSize (max old leastSize) r.current needed
  let r := r.noteGrowth old size
  (.ok .ok, { r.modifyBytes (r.bytes ++ Bytes.zeros (size - old)) with limit := size })

/-- A packer with a buffer of the given size to begin with. -/
def new (size : Nat) (assumptions : Assumptions) : Except Fault GrowingPacker :=
  Context.new .growingPacker assumptions (Bytes.zeros size) 0 none ()

/-- Append a value. -/
def pack (v : Value) : Engine Unit Unit := Packer.pack (some grow) v

/-- Remove the first `n` packed bytes, or all of them, and move the rest to the front.  A negative
count is not refused: it makes ends of ranges that count from the end of the buffer, and the buffer
may get shorter. -/
def take (c : GrowingPacker) (n : Option Int) : Bytes × GrowingPacker :=
  let packed : Int := c.current - c.start
  let n := min (n.getD packed) packed
  let taken := Bytes.between c.bytes c.start (c.start + n)
  if n = 0 then (taken, c)
  else
    let kept := Bytes.between c.bytes (c.start + n) c.current
    let bytes := Bytes.replaceBetween c.bytes c.start (c.current - n) kept
    (taken, { c.modifyBytes bytes with current := (c.current - n).toNat })

end GrowingPacker
end MessagePack
