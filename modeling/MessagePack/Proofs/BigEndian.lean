import MessagePack.ByteOrder
import MessagePack.Header
import Mathlib.Data.Nat.Digits.Defs

/-! # Big-endian fields

A field of `width` bytes holds the numbers below `256 ^ width`, and every strategy that
can be selected for a context stores and loads them in the same layout.

* `Layout.ofBigEndian_bigEndian` and `Layout.bigEndian_ofBigEndian`: writing a number and
  reading bytes undo each other, up to the width of the field.
* `ByteOrder.store_eq` and `ByteOrder.load_eq`: inside the buffer, a strategy that was
  selected overwrites just the field, with the bytes of `Layout.bigEndian`, and reads the
  number of the field's bytes. -/

namespace MessagePack

namespace Layout

theorem bigEndian_succ (width n : Nat) :
    bigEndian (width + 1) n = UInt8.ofNat (n / 256 ^ width) :: bigEndian width n := rfl

theorem ofBigEndian_cons (b : UInt8) (rest : List UInt8) :
    ofBigEndian (b :: rest) = b.toNat * 256 ^ rest.length + ofBigEndian rest := rfl

theorem ofBigEndian_lt (bytes : List UInt8) : ofBigEndian bytes < 256 ^ bytes.length := by
  induction bytes with
  | nil => simp [ofBigEndian]
  | cons b bytes ih =>
      have hb : b.toNat + 1 ≤ 256 := b.toNat_lt
      have h := Nat.mul_le_mul_right (256 ^ bytes.length) hb
      rw [Nat.add_mul, Nat.one_mul] at h
      rw [ofBigEndian_cons, List.length_cons, Nat.pow_succ, Nat.mul_comm (256 ^ _) 256]
      omega

/-- Reading the field of a number gives back what of it fits. -/
theorem ofBigEndian_bigEndian (width n : Nat) :
    ofBigEndian (bigEndian width n) = n % 256 ^ width := by
  induction width with
  | zero => rw [bigEndian, ofBigEndian, Nat.pow_zero, Nat.mod_one]
  | succ width ih =>
      have e : 256 ^ (width + 1) = 256 ^ width * 256 := Nat.pow_succ _ _
      rw [bigEndian_succ, ofBigEndian_cons, length_bigEndian, ih, UInt8.toNat_ofNat', e,
        Nat.mod_mul, Nat.mul_comm, Nat.add_comm]

theorem ofBigEndian_bigEndian_of_lt {width n : Nat} (h : n < 256 ^ width) :
    ofBigEndian (bigEndian width n) = n := by
  rw [ofBigEndian_bigEndian, Nat.mod_eq_of_lt h]

/-- Only the low bytes of a number go into a field. -/
theorem bigEndian_add_mul (width n k : Nat) :
    bigEndian width (n + k * 256 ^ width) = bigEndian width n := by
  induction width generalizing k with
  | zero => rfl
  | succ width ih =>
      have e : k * 256 ^ (width + 1) = k * 256 * 256 ^ width := by
        rw [Nat.pow_succ, Nat.mul_comm (256 ^ width) 256, Nat.mul_assoc]
      have hpos : 0 < 256 ^ width := Nat.pow_pos (by decide)
      rw [bigEndian_succ, bigEndian_succ, e, ih, Nat.add_mul_div_right _ _ hpos]
      congr 1
      apply UInt8.toNat_inj.mp
      rw [UInt8.toNat_ofNat', UInt8.toNat_ofNat']
      omega

theorem bigEndian_ofBigEndian (bytes : List UInt8) :
    bigEndian bytes.length (ofBigEndian bytes) = bytes := by
  induction bytes with
  | nil => rfl
  | cons b bytes ih =>
      have hlt := ofBigEndian_lt bytes
      have hpos : 0 < 256 ^ bytes.length := Nat.pow_pos (by decide)
      rw [ofBigEndian_cons, List.length_cons, bigEndian_succ, Nat.add_comm, bigEndian_add_mul, ih,
        Nat.add_mul_div_right _ _ hpos, Nat.div_eq_of_lt hlt, Nat.zero_add, UInt8.ofNat_toNat]

theorem bigEndian_succ_eq_append (width n : Nat) :
    bigEndian (width + 1) n = bigEndian width (n / 256) ++ [UInt8.ofNat n] := by
  induction width with
  | zero => simp [bigEndian]
  | succ width ih =>
      rw [bigEndian_succ, ih, bigEndian_succ, List.cons_append, Nat.div_div_eq_div_mul,
        Nat.pow_succ, Nat.mul_comm]

/-- The positional value of the bytes in base 256. -/
theorem ofBigEndian_eq_ofDigits (bytes : List UInt8) :
    ofBigEndian bytes = Nat.ofDigits 256 (bytes.reverse.map UInt8.toNat) := by
  induction bytes with
  | nil => rfl
  | cons b bytes ih =>
      rw [ofBigEndian_cons, ih, List.reverse_cons, List.map_append, Nat.ofDigits_append,
        List.length_map, List.length_reverse, List.map_singleton, Nat.ofDigits_singleton]
      rw [Nat.mul_comm (256 ^ _), Nat.add_comm]

end Layout

/-! ### Two's complement -/

theorem pow_eq_two_mul_half {width : Nat} (h : width ≠ 0) :
    256 ^ width = 2 * 2 ^ (8 * width - 1) := by
  rw [← Nat.pow_succ', show 256 = 2 ^ 8 from rfl, ← Nat.pow_mul]
  congr 1
  omega

theorem twosComplement_of_lt {width n : Nat} (h : n < 2 ^ (8 * width - 1)) :
    twosComplement width n = n := if_pos h

theorem twosComplement_of_le {width n : Nat} (h : 2 ^ (8 * width - 1) ≤ n) :
    twosComplement width n = n - (256 ^ width : Nat) := by
  have e : Nat.pow 2 (8 * width) = 256 ^ width := by
    rw [show 256 = 2 ^ 8 from rfl, ← Nat.pow_mul]
    rfl
  rw [← e]
  exact if_neg (Nat.not_lt.mpr h)

theorem Item.ofSigned_of_lt {π : Type} {width n : Nat} (h : n < 2 ^ (8 * width - 1)) :
    (Item.ofSigned width n : Item π) = .positive n := if_pos h

theorem Item.ofSigned_of_le {π : Type} {width n : Nat} (h : 2 ^ (8 * width - 1) ≤ n) :
    (Item.ofSigned width n : Item π) = .negative (twosComplement width n) :=
  if_neg (Nat.not_lt.mpr h)

namespace ByteOrder

/-- A strategy that suits its host: the native one only where the host is big-endian. -/
def Suits : ByteOrder → Prop
  | native host => host = .big
  | swapped | portable => True

theorem suits_of_select {a : Assumptions} {order : ByteOrder} (h : a.select = .ok (some order)) :
    order.Suits := by
  obtain ⟨host, processWide, assumed⟩ := a
  unfold Assumptions.select select at h
  dsimp only at h
  split at h
  · obtain rfl : _ = order := by simpa using h
    rcases host with _ | (_ | _) <;> trivial
  · split at h
    · obtain rfl : _ = order := by simpa using h
      trivial
    · split at h
      · simp only [Except.ok.injEq, ite_eq_iff] at h
        obtain ⟨-, h⟩ | ⟨-, h⟩ := h
        · obtain rfl : _ = order := by simpa using h
          rcases host with _ | (_ | _) <;> trivial
        · simp at h
      · simp at h

/-! ### Byte by byte -/

theorem loadBytewise_eq {buffer : Bytes} {width pos : Nat} (n : Nat)
    (h : pos + width ≤ buffer.size) :
    loadBytewise buffer width pos n =
      .ok (n * 256 ^ width +
        Layout.ofBigEndian (Bytes.slice buffer pos (pos + width)).toList) := by
  induction width generalizing pos n with
  | zero => simp [loadBytewise, Bytes.slice, Layout.ofBigEndian]
  | succ width ih =>
      have hpos : pos < buffer.size := by omega
      have e : (Bytes.slice buffer pos (pos + (width + 1))).toList =
          buffer[pos] :: (Bytes.slice buffer (pos + 1) (pos + 1 + width)).toList := by
        have e1 : pos + (width + 1) - pos = width + 1 := by omega
        have e2 : pos + 1 + width - (pos + 1) = width := by omega
        simp only [Bytes.slice, Array.toList_extract, List.extract_eq_take_drop, e1, e2]
        rw [List.drop_eq_getElem_cons (by simpa using hpos), List.take_succ_cons]
        rfl
      rw [loadBytewise, Array.getElem?_eq_getElem hpos]
      dsimp only
      rw [ih _ (by omega), e, Layout.ofBigEndian_cons]
      have hl : (Bytes.slice buffer (pos + 1) (pos + 1 + width)).toList.length = width := by
        rw [Array.length_toList, Bytes.size_slice]
        omega
      rw [hl, Nat.pow_succ, Nat.mul_comm (256 ^ width), Nat.add_mul, Nat.mul_assoc, Nat.add_assoc]

theorem storeBytewise_eq {buffer : Bytes} {pos width : Nat} (n : Nat)
    (h : pos + width ≤ buffer.size) :
    storeBytewise buffer pos width n =
      (.ok (), Bytes.splice buffer pos (Layout.bigEndian width n).toArray) := by
  induction width generalizing buffer n with
  | zero =>
      refine Prod.ext rfl (Array.toList_inj.mp ?_)
      simp [storeBytewise, Layout.bigEndian]
  | succ width ih =>
      have hpos : pos + width < buffer.size := by omega
      have hmod : UInt8.ofNat ((n : Int) % 256).toNat = UInt8.ofNat n := by
        apply UInt8.toNat_inj.mp
        rw [UInt8.toNat_ofNat', UInt8.toNat_ofNat']
        omega
      have hdiv : (n : Int) / 256 = (n / 256 : Nat) := by omega
      rw [storeBytewise, dif_pos hpos, hmod, hdiv, ih _ (by simpa using hpos.le)]
      have hl : (Layout.bigEndian width (n / 256)).toArray.size = width := by simp
      rw [Bytes.set_eq_splice, Bytes.splice_splice_before hl (by omega),
        Layout.bigEndian_succ_eq_append, List.append_toArray]

/-! ### All strategies -/

/-- A number that fits overwrites its field, and nothing else. -/
theorem store_eq {order : ByteOrder} (ho : order.Suits) {width n pos : Nat} {buffer : Bytes}
    (hn : n < 256 ^ width) (h : pos + width ≤ buffer.size) :
    order.store width buffer pos n =
      (.ok (), Bytes.splice buffer pos (Layout.bigEndian width n).toArray) := by
  have hn' : (n : Int) < 256 ^ width := by exact_mod_cast hn
  have hf : ∀ residue, storeField .big width buffer pos n residue =
      (.ok (), Bytes.splice buffer pos (Layout.bigEndian width n).toArray) := by
    intro residue
    rw [storeField, if_neg (by omega), if_pos ⟨Int.natCast_nonneg n, hn'⟩]
    rfl
  cases order with
  | native host =>
      obtain rfl : host = .big := ho
      exact hf 0
  | swapped => exact hf _
  | portable => exact storeBytewise_eq n h

theorem load_eq {order : ByteOrder} (ho : order.Suits) {width pos : Nat} {buffer : Bytes}
    (h : pos + width ≤ buffer.size) :
    order.load width buffer pos =
      .ok (Layout.ofBigEndian (Bytes.slice buffer pos (pos + width)).toList) := by
  have hf : loadField .big width buffer pos =
      .ok (Layout.ofBigEndian (Bytes.slice buffer pos (pos + width)).toList) := by
    rw [loadField, if_pos h]
    rfl
  cases order with
  | native host =>
      obtain rfl : host = .big := ho
      exact hf
  | swapped => exact hf
  | portable =>
      show loadBytewise buffer width pos 0 = _
      rw [loadBytewise_eq 0 h, Nat.zero_mul, Nat.zero_add]

end ByteOrder
end MessagePack
