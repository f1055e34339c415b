/-! # Byte strings

Byte strings are arrays of bytes.  Besides the operations of `Array`, two are
needed throughout the library:

* `Bytes.slice bytes start stop` reads a range, clamped to what is there;
* `Bytes.splice bytes pos data` overwrites from position `pos` on, and makes
  the byte string longer where `data` reaches past its end.

`Bytes.between` and `Bytes.replaceBetween` read and replace a range whose ends
may be negative, and then count from the end of the byte string.
-/

namespace MessagePack

/-- A byte string. -/
abbrev Bytes := Array UInt8

namespace Bytes

/-- The bytes of a range, as far as they exist. -/
def slice (bytes : Bytes) (start stop : Nat) : Bytes := bytes.extract start stop

/-- Put `data` in the place of as many bytes from position `pos` on. -/
def splice (bytes : Bytes) (pos : Nat) (data : Bytes) : Bytes :=
  bytes.extract 0 pos ++ data ++ bytes.extract (pos + data.size) bytes.size

/-- Where an end of a range points.  A negative one counts from the end, and what lies outside is
moved to the nearer end. -/
def position (bytes : Bytes) (i : Int) : Nat :=
  if i < 0 then (bytes.size + i).toNat else min i.toNat bytes.size

/-- The bytes of a range. -/
def between (bytes : Bytes) (first last : Int) : Bytes :=
  slice bytes (bytes.position first) (bytes.position last)

/-- Put `data` in the place of the bytes of a range, however many these are. -/
def replaceBetween (bytes : Bytes) (first last : Int) (data : Bytes) : Bytes :=
  bytes.extract 0 (bytes.position first) ++ data ++
    bytes.extract (max (bytes.position first) (bytes.position last)) bytes.size

/-- A run of zero bytes. -/
def zeros (n : Nat) : Bytes := Array.replicate n 0

@[simp] theorem size_zeros (n : Nat) : (zeros n).size = n := Array.size_replicate

theorem size_slice (bytes : Bytes) (start stop : Nat) :
    (slice bytes start stop).size = min stop bytes.size - start := Array.size_extract

/-- Data that fits leaves the length alone. -/
theorem size_splice {bytes data : Bytes} {pos : Nat} (h : pos + data.size ≤ bytes.size) :
    (splice bytes pos data).size = bytes.size := by
  simp only [splice, Array.size_append, Array.size_extract]
  omega

theorem le_size_splice (bytes : Bytes) (pos : Nat) (data : Bytes) :
    bytes.size ≤ (splice bytes pos data).size := by
  simp only [splice, Array.size_append, Array.size_extract]
  omega

theorem toList_splice (bytes data : Bytes) (pos : Nat) :
    (splice bytes pos data).toList =
      bytes.toList.take pos ++ data.toList ++ bytes.toList.drop (pos + data.size) := by
  simp [splice, List.take_of_length_le]

/-- Data that fits leaves the bytes beside it alone. -/
theorem getElem?_splice {bytes data : Bytes} {pos i : Nat} (h : pos + data.size ≤ bytes.size)
    (hi : i < pos ∨ pos + data.size ≤ i) : (splice bytes pos data)[i]? = bytes[i]? := by
  have hl : (bytes.toList.take pos).length = pos := by
    rw [List.length_take, Array.length_toList]
    omega
  rw [← Array.getElem?_toList, ← Array.getElem?_toList, toList_splice, List.append_assoc]
  rcases hi with hi | hi
  · rw [List.getElem?_append_left (by omega), List.getElem?_take_of_lt hi]
  · rw [List.getElem?_append_right (by omega), List.getElem?_append_right (by simp; omega),
      List.getElem?_drop]
    congr 1
    simp
    omega

theorem toList_slice (bytes : Bytes) (start stop : Nat) :
    (slice bytes start stop).toList = (bytes.toList.drop start).take (stop - start) := by
  rw [slice, Array.toList_extract, List.extract_eq_take_drop]

@[simp] theorem splice_empty (bytes : Bytes) (pos : Nat) : splice bytes pos #[] = bytes := by
  apply Array.toList_inj.mp
  simp [toList_splice]

/-- Data put at the end of a range makes the range longer. -/
theorem slice_splice {bytes : Bytes} {start pos : Nat} (h : start ≤ pos) (hp : pos ≤ bytes.size)
    (data : Bytes) :
    slice (splice bytes pos data) start (pos + data.size) = slice bytes start pos ++ data := by
  have hl : (bytes.toList.take pos).length = pos := by
    rw [List.length_take, Array.length_toList]
    omega
  have hd : (bytes.toList.take pos ++ data.toList).length = pos + data.size := by
    rw [List.length_append, hl, Array.length_toList]
  apply Array.toList_inj.mp
  rw [Array.toList_append, toList_slice, toList_slice, toList_splice, ← List.drop_take,
    ← List.drop_take, List.take_left' hd, List.drop_append_of_le_length (by omega)]

theorem position_natCast {bytes : Bytes} {i : Nat} (h : i ≤ bytes.size) : bytes.position i = i := by
  rw [position, if_neg (by omega), Int.toNat_natCast, Nat.min_eq_left h]

theorem between_natCast {bytes : Bytes} {i j : Nat} (hi : i ≤ bytes.size) (hj : j ≤ bytes.size) :
    bytes.between i j = slice bytes i j := by
  rw [between, position_natCast hi, position_natCast hj]

/-- Data in the place of as many bytes overwrites them. -/
theorem replaceBetween_natCast {bytes data : Bytes} {i j : Nat} (h : i + data.size = j)
    (hj : j ≤ bytes.size) : bytes.replaceBetween i j data = splice bytes i data := by
  have hle : i ≤ j := h ▸ Nat.le_add_right _ _
  rw [replaceBetween, splice, position_natCast hj, position_natCast (Nat.le_trans hle hj),
    Nat.max_eq_right hle, h]

/-- Overwriting one byte. -/
theorem set_eq_splice {bytes : Bytes} {pos : Nat} (h : pos < bytes.size) (b : UInt8) :
    bytes.set pos b = splice bytes pos #[b] := by
  apply Array.toList_inj.mp
  rw [Array.toList_set, toList_splice, List.set_eq_take_append_cons_drop, if_pos (by simpa using h)]
  simp

/-- Data put right after other data. -/
theorem splice_splice_after {bytes front : Bytes} {pos n : Nat} (hn : front.size = n)
    (h : pos + n ≤ bytes.size) (back : Bytes) :
    splice (splice bytes pos front) (pos + n) back = splice bytes pos (front ++ back) := by
  subst hn
  have hl : (bytes.toList.take pos ++ front.toList).length = pos + front.size := by
    rw [List.length_append, List.length_take, Array.length_toList, Array.length_toList]
    omega
  apply Array.toList_inj.mp
  rw [toList_splice, toList_splice, toList_splice, List.take_append_of_le_length (by omega),
    List.take_of_length_le (by omega), List.drop_append, List.drop_eq_nil_of_le (by omega), hl,
    Nat.add_sub_cancel_left, List.drop_drop]
  simp [Nat.add_assoc]

/-- Data put right before other data. -/
theorem splice_splice_before {bytes front : Bytes} {pos n : Nat} (hn : front.size = n)
    (h : pos + n ≤ bytes.size) (back : Bytes) :
    splice (splice bytes (pos + n) back) pos front = splice bytes pos (front ++ back) := by
  subst hn
  have hl : (bytes.toList.take (pos + front.size)).length = pos + front.size := by
    rw [List.length_take, Array.length_toList]
    omega
  apply Array.toList_inj.mp
  rw [toList_splice, toList_splice, toList_splice, List.append_assoc _ back.toList,
    List.take_append_of_le_length (by omega), List.take_take, Nat.min_eq_left (by omega),
    List.drop_append, List.drop_eq_nil_of_le (by omega), hl, Nat.sub_self]
  simp [Nat.add_assoc]

end Bytes
end MessagePack
