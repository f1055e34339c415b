import MessagePack.Proofs.BigEndian

/-! # Fields of a buffer

A strategy that goes byte by byte, and one that moves whole words, are told apart by nothing but the
fault that they raise for a field that reaches outside the buffer (`ByteOrder.one_layout`).

What is in a field is said byte by byte (`Bytes.Holds`): each of its bytes counts 256 times as much
as the next one.  Every field that lies in the buffer holds exactly one number
(`Bytes.exists_holds`), and the bytes beside it and that number are all there is to a buffer
(`Bytes.SameBeside.eq_of_holds`).  So a store is known by the number that the field holds
afterwards, and a load by the one that it holds.

A store that goes byte by byte does not look at its place before it begins.  It writes nothing
outside the buffer all the same, nor a part of the field inside, because it begins with the last
byte (`ByteOrder.store_misplaced`). -/

namespace MessagePack

/-! ### What a field holds -/

theorem Layout.getElem?_bigEndian {width i : Nat} (h : i < width) (n : Nat) :
    (bigEndian width n)[i]? = some (UInt8.ofNat (n / 256 ^ (width - 1 - i))) := by
  induction width generalizing i with
  | zero => exact absurd h (Nat.not_lt_zero i)
  | succ width ih =>
      rw [bigEndian_succ]
      cases i with
      | zero => rfl
      | succ i =>
          have e : width + 1 - 1 - (i + 1) = width - 1 - i := by omega
          rw [List.getElem?_cons_succ, ih (by omega), e]

namespace Bytes

/-- The field of `width` bytes holds the number `n`, the most significant byte first. -/
def Holds (bytes : Bytes) (pos width n : Nat) : Prop :=
  ∀ i < width, bytes[pos + i]? = some (UInt8.ofNat (n / 256 ^ (width - 1 - i)))

/-- The one byte string is as long as the other, and has the same bytes beside the field. -/
structure SameBeside (pos width : Nat) (bytes other : Bytes) : Prop where
  size : other.size = bytes.size
  getElem? : ∀ i, i < pos ∨ pos + width ≤ i → other[i]? = bytes[i]?

section fields

variable {bytes other : Bytes} {pos width n : Nat}

theorem SameBeside.trans {third : Bytes} (h : SameBeside pos width bytes other)
    (h' : SameBeside pos width other third) : SameBeside pos width bytes third :=
  ⟨h'.size.trans h.size, fun i hi => (h'.getElem? i hi).trans (h.getElem? i hi)⟩

theorem SameBeside.eq_of_holds (h : SameBeside pos width bytes other)
    (hbytes : bytes.Holds pos width n) (hother : other.Holds pos width n) : other = bytes := by
  apply Array.ext_getElem?
  intro i
  by_cases hi : i < pos ∨ pos + width ≤ i
  · exact h.getElem? i hi
  · obtain ⟨j, rfl⟩ : ∃ j, i = pos + j := ⟨i - pos, by omega⟩
    rw [hbytes j (by omega), hother j (by omega)]

theorem holds_iff (h : pos + width ≤ bytes.size) :
    bytes.Holds pos width n ↔
      (slice bytes pos (pos + width)).toList = Layout.bigEndian width n := by
  have hslice : ∀ i < width, (slice bytes pos (pos + width)).toList[i]? = bytes[pos + i]? := by
    intro i hi
    rw [toList_slice, Nat.add_sub_cancel_left, List.getElem?_take_of_lt hi, List.getElem?_drop,
      Array.getElem?_toList]
  have hlength : (slice bytes pos (pos + width)).toList.length = width := by
    rw [Array.length_toList, size_slice]
    omega
  constructor
  · intro hn
    apply List.ext_getElem?
    intro i
    by_cases hi : i < width
    · rw [hslice i hi, hn i hi, Layout.getElem?_bigEndian hi]
    · rw [List.getElem?_eq_none (by omega),
        List.getElem?_eq_none (by rw [Layout.length_bigEndian]; omega)]
  · intro hn i hi
    rw [← hslice i hi, hn, Layout.getElem?_bigEndian hi]

theorem exists_holds (h : pos + width ≤ bytes.size) :
    ∃ n < 256 ^ width, bytes.Holds pos width n := by
  have hlength : (slice bytes pos (pos + width)).toList.length = width := by
    rw [Array.length_toList, size_slice]
    omega
  have hlt := Layout.ofBigEndian_lt (slice bytes pos (pos + width)).toList
  have hwrite := Layout.bigEndian_ofBigEndian (slice bytes pos (pos + width)).toList
  rw [hlength] at hlt hwrite
  exact ⟨_, hlt, (holds_iff h).mpr hwrite.symm⟩

theorem splice_bigEndian (h : pos + width ≤ bytes.size) (n : Nat) :
    (splice bytes pos (Layout.bigEndian width n).toArray).Holds pos width n ∧
      SameBeside pos width bytes (splice bytes pos (Layout.bigEndian width n).toArray) := by
  have hdata : (Layout.bigEndian width n).toArray.size = width := by simp
  have hsize : pos + (Layout.bigEndian width n).toArray.size ≤ bytes.size := hdata.symm ▸ h
  constructor
  · rw [holds_iff (by rw [size_splice hsize]; exact h)]
    have hslice := slice_splice (Nat.le_refl pos) (Nat.le_trans (Nat.le_add_right _ _) h)
      (Layout.bigEndian width n).toArray
    rw [hdata] at hslice
    rw [hslice, Array.toList_append, toList_slice, Nat.sub_self, List.take_zero, List.nil_append]
  · refine ⟨size_splice hsize, fun i hi => getElem?_splice hsize ?_⟩
    rwa [hdata]

end fields
end Bytes

/-! ### Storing and loading -/

namespace ByteOrder

/-- What is raised for a field that reaches outside the buffer. -/
def misplaced : ByteOrder → Fault
  | native _ | swapped => .fieldRange
  | portable => .outOfBounds

section inside

variable {order : ByteOrder} (ho : order.Suits) {buffer : Bytes} {pos width n : Nat}
  (h : pos + width ≤ buffer.size)

include ho h

theorem store_holds (hn : n < 256 ^ width) :
    ∃ after, order.store width buffer pos n = (.ok (), after) ∧ after.Holds pos width n ∧
      Bytes.SameBeside pos width buffer after :=
  ⟨_, store_eq ho hn h, Bytes.splice_bigEndian h n⟩

theorem load_holds (hn : n < 256 ^ width) (hholds : buffer.Holds pos width n) :
    order.load width buffer pos = .ok n := by
  rw [load_eq ho h, (Bytes.holds_iff h).mp hholds, Layout.ofBigEndian_bigEndian_of_lt hn]

theorem store_restores {other : Bytes} (hsame : Bytes.SameBeside pos width other buffer)
    (hn : n < 256 ^ width) (hholds : other.Holds pos width n) :
    order.store width buffer pos n = (.ok (), other) := by
  obtain ⟨after, hstore, hafter, hsame'⟩ := store_holds ho h hn
  rw [hstore, (hsame.trans hsame').eq_of_holds hholds hafter]

end inside

section outside

variable {buffer : Bytes} {width pos : Nat} (h : buffer.size < pos + width) (hwidth : 0 < width)

include h hwidth

theorem storeBytewise_misplaced (n : Int) :
    storeBytewise buffer pos width n = (.error .outOfBounds, buffer) := by
  cases width with
  | zero => exact absurd hwidth (Nat.lt_irrefl 0)
  | succ width =>
      have hlast : ¬ pos + width < buffer.size := by omega
      rw [storeBytewise, dif_neg hlast]

theorem loadBytewise_misplaced (n : Nat) :
    loadBytewise buffer width pos n = .error .outOfBounds := by
  induction width generalizing pos n with
  | zero => exact absurd hwidth (Nat.lt_irrefl 0)
  | succ width ih =>
      rw [loadBytewise]
      by_cases hpos : pos < buffer.size
      · rw [Array.getElem?_eq_getElem hpos]
        exact ih (by omega) (by omega) _
      · rw [Array.getElem?_eq_none (Nat.not_lt.mp hpos)]

theorem store_misplaced (order : ByteOrder) (n : Int) :
    order.store width buffer pos n = (.error order.misplaced, buffer) := by
  cases order with
  | native host => exact if_pos h
  | swapped => exact if_pos h
  | portable => exact storeBytewise_misplaced h hwidth n

theorem load_misplaced (order : ByteOrder) :
    order.load width buffer pos = .error order.misplaced := by
  cases order with
  | native host => exact if_neg (Nat.not_le.mpr h)
  | swapped => exact if_neg (Nat.not_le.mpr h)
  | portable => exact loadBytewise_misplaced h hwidth 0

end outside

/-- All strategies that suit their host have the same layout, the portable one and the one that
swaps words among them.  Let a field of any width lie in the buffer.  A number that fits is stored
as its bytes, the most significant one first, nothing beside the field changes, and every strategy
loads the number from there.  The number that is loaded from the field fits, and every strategy that
stores it restores the field, whatever was there in the meantime.

If the field reaches outside the buffer, storing raises a fault and changes no byte, whatever the
number, and loading raises it as well. -/
theorem one_layout {order : ByteOrder} (ho : order.Suits) {width : Nat} (hwidth : 0 < width)
    (buffer : Bytes) (pos : Nat) :
    (pos + width ≤ buffer.size →
      (∀ n : Nat, n < 2 ^ (8 * width) → ∃ after,
        order.store width buffer pos n = (.ok (), after) ∧ after.Holds pos width n ∧
        Bytes.SameBeside pos width buffer after ∧
        ∀ reader : ByteOrder, reader.Suits → reader.load width after pos = .ok n) ∧
      ∃ n < 2 ^ (8 * width), order.load width buffer pos = .ok n ∧ buffer.Holds pos width n ∧
        ∀ writer : ByteOrder, writer.Suits → ∀ other, Bytes.SameBeside pos width buffer other →
          writer.store width other pos n = (.ok (), buffer)) ∧
    (buffer.size < pos + width →
      (∀ n : Int, order.store width buffer pos n = (.error order.misplaced, buffer)) ∧
      order.load width buffer pos = .error order.misplaced) := by
  have hpow : 256 ^ width = 2 ^ (8 * width) := by rw [Nat.pow_mul]
  rw [← hpow]
  refine ⟨fun h => ⟨fun n hn => ?_, ?_⟩, fun h => ?_⟩
  · obtain ⟨after, hstore, hholds, hsame⟩ := store_holds ho h hn
    have h' : pos + width ≤ after.size := hsame.size.symm ▸ h
    exact ⟨after, hstore, hholds, hsame, fun reader hr => load_holds hr h' hn hholds⟩
  · obtain ⟨n, hn, hholds⟩ := Bytes.exists_holds h
    refine ⟨n, hn, load_holds ho h hn hholds, hholds, fun writer hw other hsame => ?_⟩
    exact store_restores hw (hsame.size.symm ▸ h) hsame hn hholds
  · exact ⟨fun n => store_misplaced h hwidth order n, load_misplaced h hwidth order⟩

/-- A number is stored byte by byte and loaded as a word.  What was in the field before is put back
by the other strategy.  A field that begins in the buffer and ends outside is left alone by both. -/
theorem one_layout_across :
    ∃ (buffer after : Bytes) (n : Nat), buffer = #[7, 7, 8, 9, 10, 7] ∧
      portable.store 4 buffer 1 0x01020304 = (.ok (), after) ∧ after = #[7, 1, 2, 3, 4, 7] ∧
      swapped.load 4 after 1 = .ok 0x01020304 ∧ portable.load 4 buffer 1 = .ok n ∧
      n = 0x0708090A ∧ swapped.store 4 after 1 n = (.ok (), buffer) ∧
      portable.store 4 buffer 3 0x01020304 = (.error .outOfBounds, buffer) ∧
      swapped.store 4 buffer 3 0x01020304 = (.error .fieldRange, buffer) ∧
      portable.load 4 buffer 3 = .error .outOfBounds ∧
      swapped.load 4 buffer 3 = .error .fieldRange := by
  obtain ⟨buffer, hbuffer⟩ : ∃ buffer : Bytes, buffer = #[7, 7, 8, 9, 10, 7] := ⟨_, rfl⟩
  have hsize : buffer.size = 6 := by rw [hbuffer]; rfl
  obtain ⟨hstores, n, hn, hload, -, hrestore⟩ :=
    (@one_layout portable trivial 4 (by decide) buffer 1).1 (by omega)
  obtain ⟨after, hstore, -, hsame, hreaders⟩ := hstores 0x01020304 (by decide)
  have hafter : after = #[7, 1, 2, 3, 4, 7] := by
    have hresult : portable.store 4 buffer 1 0x01020304 = (.ok (), #[7, 1, 2, 3, 4, 7]) := by
      rw [hbuffer]
      rfl
    exact (Prod.mk.inj (hstore.symm.trans hresult)).2
  have hnumber : n = 0x0708090A := by
    have hresult : portable.load 4 buffer 1 = .ok 0x0708090A := by
      rw [hbuffer]
      rfl
    exact Except.ok.inj (hload.symm.trans hresult)
  obtain ⟨hportable, hportable'⟩ :=
    (@one_layout portable trivial 4 (by decide) buffer 3).2 (by omega)
  obtain ⟨hswapped, hswapped'⟩ :=
    (@one_layout swapped trivial 4 (by decide) buffer 3).2 (by omega)
  exact ⟨buffer, after, n, hbuffer, hstore, hafter, hreaders swapped trivial, hload, hnumber,
    hrestore swapped trivial after hsame, hportable _, hswapped _, hportable', hswapped'⟩

end ByteOrder
end MessagePack
