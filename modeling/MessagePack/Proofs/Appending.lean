import MessagePack.Packer.Growing
import MessagePack.Proofs.Live

/-! # Packing appends

Packing a value into a live context that has room for it, or whose handler makes room, puts its
encoding at the cursor and moves the cursor behind it; all other bytes stay as they are
(`Packer.pack_append`).  A growing packer always makes room, and keeps what is packed already
(`GrowingPacker.pack_append`).

The field is written before the tag, and the parts after them one by one: `Context.append` puts
them together (`Context.append_append`). -/

namespace MessagePack

variable {σ : Type}

namespace Context

/-- The context with `data` put at its cursor, and the cursor behind it. -/
def append (c : Context σ) (data : Bytes) : Context σ :=
  { c.modifyBytes (Bytes.splice c.bytes c.current data) with current := c.current + data.size }

@[simp] theorem current_append (c : Context σ) (data : Bytes) :
    (c.append data).current = c.current + data.size := rfl

theorem size_append {c : Context σ} {data : Bytes} (h : c.current + data.size ≤ c.bytes.size) :
    (c.append data).bytes.size = c.bytes.size := Bytes.size_splice h

theorem append_append {c : Context σ} {front : Bytes} (h : c.current + front.size ≤ c.bytes.size)
    (back : Bytes) : (c.append front).append back = c.append (front ++ back) := by
  have hs := Bytes.splice_splice_after rfl h back
  have hn : c.current + front.size + back.size = c.current + (front ++ back).size := by
    rw [Array.size_append, Nat.add_assoc]
  show { c.modifyBytes (Bytes.splice (Bytes.splice c.bytes c.current front)
    (c.current + front.size) back) with current := c.current + front.size + back.size } = _
  rw [hs, hn]
  rfl

theorem Live.append {c : Context σ} (hc : c.Live) {data : Bytes}
    (h : c.current + data.size ≤ c.limit) : (c.append data).Live := by
  have hb := hc.inBounds
  refine ⟨⟨Nat.le_trans hb.start_le (Nat.le_add_right _ _), h, ?_⟩, hc.status_eq, hc.order_eq⟩
  rw [size_append (Nat.le_trans h hb.limit_le)]
  exact hb.limit_le

theorem Live.append_bytes {c : Context σ} (hc : c.Live) {f : Frame}
    (h : c.current + f.size ≤ c.limit) : (c.append f.bytes.toArray).Live :=
  hc.append (by rwa [List.size_toArray, Frame.length_bytes])

theorem Ready.append_bytes {c : Context σ} {f : Frame} (hc : c.Ready f.size) :
    (c.append f.bytes.toArray).Ready 0 := by
  have hsize : f.bytes.toArray.size = f.size := by rw [List.size_toArray, Frame.length_bytes]
  have hroom := hc.le_limit
  have hlimit := hc.limit_le
  refine ⟨?_, ?_, hc.status_eq, hc.order_eq⟩
  · rw [current_append, hsize]
    exact hroom
  · rw [size_append (by omega)]
    exact hlimit

/-- The packed bytes that the buffer holds. -/
def pending (c : Context σ) : List UInt8 := c.done.toList

theorem pending_eq_nil {c : Context σ} (h : c.current = c.start) : c.pending = [] := by
  rw [pending, Region.done, h, Bytes.toList_slice, Nat.sub_self, List.take_zero]

theorem length_pending {c : Context σ} (hc : c.Live) : c.pending.length = c.current - c.start := by
  have hb := hc.inBounds
  have hsize : c.current ≤ c.bytes.size := Nat.le_trans hb.current_le hb.limit_le
  rw [pending, Array.length_toList, Region.done, Bytes.size_slice, Nat.min_eq_left hsize]

theorem done_append {c : Context σ} (hc : c.Live) (data : Bytes) :
    (c.append data).done = c.done ++ data :=
  Bytes.slice_splice hc.inBounds.start_le
    (Nat.le_trans hc.inBounds.current_le hc.inBounds.limit_le) data

theorem pending_append {c : Context σ} (hc : c.Live) (data : Bytes) :
    (c.append data).pending = c.pending ++ data.toList := by
  rw [pending, done_append hc, Array.toList_append]
  rfl

end Context

namespace Packer

open Engine

/-! ### Parts of an encoding -/

section parts

variable {c : Context σ}

theorem writeByte_eq {pos : Nat} (h : pos < c.bytes.size) (b : UInt8) :
    writeByte pos b c = .ok () (c.modifyBytes (Bytes.splice c.bytes pos #[b])) := by
  rw [writeByte, dif_pos h, Bytes.set_eq_splice h]

theorem writeField_eq {n : Nat} (hc : c.Ready n) {f : Frame} (hf : f.value < 256 ^ f.width)
    {pos : Nat} (h : pos + f.width ≤ c.bytes.size) (access : Access) :
    writeField access pos f c = .ok () (c.modifyBytes
      (Bytes.splice c.bytes pos (Layout.bigEndian f.width f.value).toArray)) := by
  unfold writeField
  split_ifs with h₀ h₁
  · have hb : (Layout.bigEndian f.width f.value).toArray = #[] := by
      rw [h₀]
      rfl
    rw [hb, Bytes.splice_empty]
    rfl
  · have hb : Layout.bigEndian f.width f.value = [UInt8.ofNat f.value] := by
      rw [h₁]
      simp [Layout.bigEndian]
    rw [hb]
    exact writeByte_eq (by omega) _
  · obtain ⟨order, ho, hs⟩ := hc.order_eq
    have hstore := ByteOrder.store_eq hs hf h
    have horder : orderFor access c = .ok order c := by rw [orderFor, ho]
    rw [bind_of_ok horder, get_bind, hstore]
    rfl

theorem writeHead_bind {n : Nat} (hc : c.Ready n) {f : Frame} (hf : f.value < 256 ^ f.width)
    (h : c.current + 1 + f.width ≤ c.bytes.size) (access : Access) (next : Engine σ Unit) :
    (do
      let pos := (← get).current
      writeField access (pos + 1) f
      writeByte pos (UInt8.ofNat f.tag)
      advance (1 + f.width)
      next : Engine σ Unit) c =
      next (c.append (#[UInt8.ofNat f.tag] ++ (Layout.bigEndian f.width f.value).toArray)) := by
  have hfield := writeField_eq hc hf h access
  have hl : (Layout.bigEndian f.width f.value).toArray.size = f.width := by simp
  generalize (Layout.bigEndian f.width f.value).toArray = field at *
  have hs : Bytes.splice (Bytes.splice c.bytes (c.current + 1) field) c.current
      #[UInt8.ofNat f.tag] = Bytes.splice c.bytes c.current (#[UInt8.ofNat f.tag] ++ field) :=
    Bytes.splice_splice_before Array.size_singleton (by omega) field
  have hsize : (Bytes.splice c.bytes (c.current + 1) field).size = c.bytes.size :=
    Bytes.size_splice (by omega)
  generalize Bytes.splice c.bytes (c.current + 1) field = bytes at *
  have hbyte : writeByte c.current (UInt8.ofNat f.tag) (c.modifyBytes bytes) =
      .ok () (c.modifyBytes (Bytes.splice bytes c.current #[UInt8.ofNat f.tag])) :=
    writeByte_eq (by rw [Context.bytes_modifyBytes]; omega) _
  rw [hs] at hbyte
  have hn : c.current + (1 + f.width) = c.current + (#[UInt8.ofNat f.tag] ++ field).size := by
    rw [Array.size_append, hl, Array.size_singleton]
  rw [get_bind, bind_of_ok hfield, bind_of_ok hbyte, Context.append, ← hn]
  rfl

theorem writeSubtype_eq (subtype : Option Int)
    (h : c.current + subtype.toList.length ≤ c.bytes.size) :
    writeSubtype subtype c =
      .ok () (c.append (subtype.toList.map Frame.subtypeByte).toArray) := by
  cases subtype with
  | none =>
      show _ = EStateM.Result.ok () { c.modifyBytes (Bytes.splice c.bytes c.current #[]) with
        current := c.current + 0 }
      rw [Bytes.splice_empty]
      rfl
  | some type =>
      have hb : writeByte c.current (Frame.subtypeByte type) c = _ := writeByte_eq h _
      rw [writeSubtype, get_bind, bind_of_ok hb]
      rfl

theorem writePayload_eq (payload : Bytes) : writePayload payload c = .ok () (c.append payload) := by
  unfold writePayload
  split_ifs with h
  · obtain rfl := Array.isEmpty_iff.mp h
    rw [Context.append, Bytes.splice_empty]
    rfl
  · rfl

end parts

/-! ### Whole encodings -/

theorem write_eq {c : Context σ} {f : Frame} (hc : c.Ready f.size) (hf : f.value < 256 ^ f.width)
    (access : Access) : write access f c = .ok () (c.append f.bytes.toArray) := by
  have h := hc.le_limit
  have hlimit := hc.limit_le
  have hsubtype : f.subtype.toList.length = if f.subtype.isSome then 1 else 0 := by
    cases f.subtype <;> rfl
  rw [Frame.size, ← hsubtype] at h
  generalize hhead : #[UInt8.ofNat f.tag] ++ (Layout.bigEndian f.width f.value).toArray = head
  have hl : head.size = 1 + f.width := by simp [← hhead, Nat.add_comm]
  have hfront : c.current + head.size ≤ c.bytes.size := by omega
  have hs : writeSubtype f.subtype (c.append head) =
      .ok () (c.append (head ++ (f.subtype.toList.map Frame.subtypeByte).toArray)) := by
    rw [← Context.append_append hfront]
    refine writeSubtype_eq f.subtype ?_
    rw [Context.size_append hfront, Context.current_append]
    omega
  have hbytes : f.bytes.toArray =
      head ++ (f.subtype.toList.map Frame.subtypeByte).toArray ++ f.payload := by
    apply Array.toList_inj.mp
    simp [Frame.bytes, ← hhead]
  have hwrite : write access f c =
      (do writeSubtype f.subtype; writePayload f.payload : Engine σ Unit) (c.append head) := by
    rw [← hhead]
    exact writeHead_bind hc hf (by omega) access _
  have hn : c.current + (head ++ (f.subtype.toList.map Frame.subtypeByte).toArray).size ≤
      c.bytes.size := by
    simp
    omega
  rw [hwrite, bind_of_ok hs, writePayload_eq, Context.append_append hn, hbytes]

/-- A value is appended to the context that the handler, if it is asked, makes room in. -/
theorem pack_of_reserve {handler : Option (Handler σ)} {v : Value} {f : Frame} {c d : Context σ}
    (hc : c.status = .ok) (hv : v.frame = .ok f) (hf : f.value < 256 ^ f.width)
    (hr : reserve handler f.size c = .ok () d) (hd : d.Ready f.size) :
    pack handler v c = .ok () (d.append f.bytes.toArray) := by
  have hplain : (do
      let f ← lift v.frame
      reserve handler f.size
      write (v.access f) f : Engine σ Unit) c = .ok () (d.append f.bytes.toArray) := by
    have hlift : lift v.frame c = .ok f c := by rw [hv, lift]
    rw [bind_of_ok hlift, bind_of_ok hr, write_eq hd hf]
  unfold pack
  rw [bind_of_ok (running_eq hc)]
  cases v with
  | float bits =>
      obtain ⟨order, ho, -⟩ := hd.order_eq
      have horder : orderFor (.storeFloat 4) d = .ok order d := by rw [orderFor, ho]
      have hlift : lift (Frame.float bits) d = .ok f d := by
        rw [show Frame.float bits = .ok f from hv, lift]
      rw [Frame.size_float hv] at hr
      exact (bind_of_ok hr).trans ((bind_of_ok horder).trans ((bind_of_ok hlift).trans
        (write_eq hd hf _)))
  | unsigned | signed | double | nil | boolean | array | map | str | bin | ext => exact hplain

theorem pack_append {handler : Option (Handler σ)} {v : Value} {f : Frame} {c : Context σ}
    (hv : v.frame = .ok f) (hf : f.value < 256 ^ f.width) (hc : c.Ready f.size) :
    pack handler v c = .ok () (c.append f.bytes.toArray) :=
  pack_of_reserve hc.status_eq hv hf (if_pos hc.le_limit) hc

end Packer

namespace GrowingPacker

/-- The buffer grows by as much as is needed, and keeps what it holds. -/
theorem reserve_grow {c : GrowingPacker} (hc : c.Live) (n : Nat) :
    ∃ d : GrowingPacker, Packer.reserve (some grow) n c = .ok () d ∧ d.Live ∧
      d.current + n ≤ d.limit ∧ d.done = c.done := by
  obtain ⟨hstart, hcurrent, hlimit⟩ := hc.inBounds
  by_cases h : c.current + n ≤ c.limit
  · exact ⟨c, if_pos h, hc, h, rfl⟩
  · have hold := le_grownSize (max c.bytes.size leastSize) c.current n
    have hroom : c.current + n ≤ grownSize (max c.bytes.size leastSize) c.current n :=
      grownSize_room (Nat.lt_of_lt_of_le (by decide) (Nat.le_max_right _ _)) _ _
    generalize hsize : grownSize (max c.bytes.size leastSize) c.current n = size at hold hroom
    have hl : (c.bytes ++ Bytes.zeros (size - c.bytes.size)).size = size := by
      rw [Array.size_append, Bytes.size_zeros]
      omega
    have hgrow : grow n c.toRegion = (.ok .ok,
        { (c.toRegion.noteGrowth c.bytes.size size).modifyBytes
          (c.bytes ++ Bytes.zeros (size - c.bytes.size)) with limit := size }) := by
      rw [← hsize]
      rfl
    refine ⟨c.within { (c.toRegion.noteGrowth c.bytes.size size).modifyBytes
      (c.bytes ++ Bytes.zeros (size - c.bytes.size)) with limit := size }, ?_, ?_, hroom, ?_⟩
    · exact Engine.ensure_of_ok (Nat.not_le.mp h) hgrow hroom
    · have hle : c.current ≤ size := by omega
      exact ⟨⟨hstart, hle, hl.ge⟩, hc.status_eq, hc.order_eq⟩
    · apply Array.toList_inj.mp
      show (Bytes.slice (c.bytes ++ Bytes.zeros (size - c.bytes.size)) c.start c.current).toList = _
      rw [Region.done, Bytes.toList_slice, Bytes.toList_slice, Array.toList_append,
        ← List.drop_take, ← List.drop_take, List.take_append_of_le_length (by simp; omega)]

theorem pack_append {v : Value} {f : Frame} {c : GrowingPacker} (hc : c.Live)
    (hv : v.frame = .ok f) (hf : f.value < 256 ^ f.width) :
    ∃ d : GrowingPacker, pack v c = .ok () d ∧ d.Live ∧ d.done = c.done ++ f.bytes.toArray := by
  obtain ⟨d, hr, hd, hroom, hdone⟩ := reserve_grow hc f.size
  refine ⟨_, Packer.pack_of_reserve hc.status_eq hv hf hr (hd.ready hroom),
    hd.append_bytes hroom, ?_⟩
  rw [Context.done_append hd, hdone]

end GrowingPacker
end MessagePack
