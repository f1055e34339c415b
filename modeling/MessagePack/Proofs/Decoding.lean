import MessagePack.Proofs.Live
import MessagePack.Proofs.Scan
import MessagePack.Unpacker

/-! # Decoding follows the scan

Without a handler, what `decode` does to a live context is given by the scan of its unread
bytes (`decode_eq`): the item with its payload placed in the buffer, the number of bytes that
the cursor moves on, or the status and the place where decoding stops. -/

namespace MessagePack

variable {σ : Type}

/-- The range of the buffer that a part of the unread bytes is. -/
def Extent.span (generation cursor : Nat) (e : Extent) : Span :=
  ⟨.borrowed generation, cursor + e.offset, e.length⟩

/-- An item of the unread bytes, with its payload in the context's buffer. -/
def Context.place (c : Context σ) (item : Item Extent) : Item Span :=
  item.mapPayload (Extent.span c.buffer.generation c.current)

/-- The last item with the bytes that it refers to now. -/
def Context.last (c : Context σ) : Option (Item Bytes) := c.item.map (Item.resolve c.buffer)

/-- What decoding makes of a context whose unread bytes are scanned like this. -/
def Scan.decoded (c : Context σ) : Scan → EStateM.Result Halt (Context σ) Unit
  | .complete item length => .ok () ((c.forward length).holding (some (c.place item)))
  | .ended => Engine.stop .endOfInput c
  | .truncated place => Engine.stop .bufferUnderflow (c.forward place)
  | .malformed => Engine.stop .malformedInput (c.forward 1)

theorem Context.view_span {c : Context σ} {e : Extent} (h : e.offset + e.length ≤ c.ahead.length) :
    (Extent.span c.buffer.generation c.current e).view c.buffer = e.fetch c.ahead := by
  apply Array.toList_inj.mp
  rw [Span.view, Extent.span]
  dsimp only
  rw [Buffer.lookup_generation, slice_ahead h, Extent.fetch, List.toList_toArray]

theorem Context.resolve_place {c : Context σ} {item : Item Extent} {length : Nat}
    (h : scan c.ahead = .complete item length) :
    (c.place item).resolve c.buffer = item.mapPayload (Extent.fetch c.ahead) := by
  obtain ⟨hle, -, hend⟩ : (Scan.complete item length).Holds c.ahead := h ▸ scan_holds c.ahead
  rw [place, Item.resolve, Item.mapPayload_mapPayload]
  refine Item.mapPayload_congr fun e he => view_span ?_
  rw [hend e he]
  exact hle

namespace Unpacker

open Engine

theorem require_of_le {c : Context σ} (hc : c.Live) {k n : Nat} (h : k + n ≤ c.ahead.length)
    (short : Status) : require none n short (c.forward k) = .ok () (c.forward k) := by
  have hle := (Context.le_limit_iff hc).mpr h
  unfold require Engine.ensure
  rw [if_pos]
  simp only [Context.forward]
  omega

theorem require_of_lt {c : Context σ} (hc : c.Live) {k n : Nat} (h : c.ahead.length < k + n)
    (short : Status) : require none n short (c.forward k) = stop short (c.forward k) := by
  have hlt := (Context.le_limit_iff hc).not.mpr (Nat.not_le.mpr h)
  unfold require Engine.ensure
  rw [if_neg]
  · rfl
  · simp only [Context.forward]
    omega

theorem readSubtype_forward {c : Context σ} {k : Nat} {b : UInt8} (h : c.ahead[k]? = some b) :
    readSubtype (c.forward k) = .ok (twosComplement 1 b.toNat) (c.forward (k + 1)) := by
  rw [readSubtype, bind_of_ok (readByte_forward h)]
  rfl

theorem readTag_of_nil {c : Context σ} (hc : c.Live) (h : c.ahead = []) :
    readTag none c = stop .endOfInput c := by
  have hr : require none 1 .endOfInput c = stop .endOfInput c :=
    require_of_lt hc (k := 0) (by simp [h]) _
  exact bind_of_error hr

theorem readTag_of_cons {c : Context σ} (hc : c.Live) {tag : UInt8} {rest : List UInt8}
    (h : c.ahead = tag :: rest) : readTag none c = .ok tag (c.forward 1) := by
  have hr : require none 1 .endOfInput c = .ok () c :=
    require_of_le hc (k := 0) (by simp [h]) _
  have hb : readByte c = .ok tag (c.forward 1) := readByte_forward (k := 0) (by simp [h])
  exact (bind_of_ok hr).trans hb

section decoding

variable {c : Context σ} (hc : c.Live)

include hc

theorem presentPayload_forward (kind : Blob) (k n : Nat) :
    presentPayload none kind.item n (c.forward k) = (scanPayload kind k n c.ahead).decoded c := by
  unfold presentPayload scanPayload
  split_ifs with h
  · rw [bind_of_ok (require_of_le hc h _)]
    simp only [Scan.decoded, Context.place, Blob.mapPayload_item, ← Context.forward_forward]
    rfl
  · rw [bind_of_error (require_of_lt hc (Nat.not_le.mp h) _)]
    rfl

theorem presentExt_forward (k n : Nat) :
    (do
      require none 1 .bufferUnderflow
      let type ← readSubtype
      presentPayload none (.ext type) n : Engine σ Unit) (c.forward k) =
      (scanExt k n c.ahead).decoded c := by
  unfold scanExt
  cases h : c.ahead[k]? with
  | none =>
      have hle := List.getElem?_eq_none_iff.mp h
      rw [bind_of_error (require_of_lt hc (Nat.lt_succ_of_le hle) _)]
      rfl
  | some b =>
      have hlt := (List.getElem?_eq_some_iff.mp h).1
      rw [bind_of_ok (require_of_le hc hlt _), bind_of_ok (readSubtype_forward h)]
      exact presentPayload_forward hc (.ext _) (k + 1) n

theorem decodeField_forward {field : Field} {width : Nat}
    (hf : field = .float → width = 4) (hd : field = .double → width = 8) :
    decodeField none field width (c.forward 1) = (scanField field width c.ahead).decoded c := by
  unfold decodeField scanField
  split_ifs with h
  · have hr := readField_forward hc h
    rw [bind_of_ok (require_of_le hc h _)]
    cases field with
    | float =>
        obtain rfl := hf rfl
        exact bind_of_ok (readSingle_forward hc h)
    | double =>
        obtain rfl := hd rfl
        exact bind_of_ok (readDouble_forward hc h)
    | unsigned | array | map => exact bind_of_ok hr
    | signed =>
        simp only [scanValue, Scan.decoded, Context.place, Item.mapPayload_ofSigned]
        exact bind_of_ok hr
    | str => exact (bind_of_ok hr).trans (presentPayload_forward hc .str _ _)
    | bin => exact (bind_of_ok hr).trans (presentPayload_forward hc .bin _ _)
    | ext => exact (bind_of_ok hr).trans (presentExt_forward hc _ _)
  · rw [bind_of_error (require_of_lt hc (Nat.not_le.mp h) _)]
    rfl

theorem decodeRest_forward (tag : UInt8) :
    decodeRest none (Header.ofTag tag) (c.forward 1) =
      (scanRest (Header.ofTag tag) c.ahead).decoded c := by
  have hrow := ofTag_cases tag
  cases h : Header.ofTag tag with
  | whole item =>
      have e : Extent.span c.buffer.generation c.current ∘ Empty.elim = Empty.elim :=
        funext (·.elim)
      simp only [decodeRest, scanRest, Scan.decoded, Context.place, Item.mapPayload_mapPayload, e]
      rfl
  | shortStr n => exact presentPayload_forward hc .str 1 n
  | fixExt n => exact presentExt_forward hc 1 n
  | field field width =>
      rw [h] at hrow
      obtain ⟨i, hi, -, rfl⟩ := hrow
      refine decodeField_forward hc ?_ ?_ <;>
        (rintro rfl; obtain rfl : i = 0 := Nat.lt_one_iff.mp hi; rfl)
  | undefined => rfl

theorem decodeItem_eq : decodeItem none c = (scan c.ahead).decoded c := by
  unfold decodeItem
  cases hb : c.ahead with
  | nil => exact bind_of_error (readTag_of_nil hc hb)
  | cons tag rest =>
      rw [bind_of_ok (readTag_of_cons hc hb), decodeRest_forward hc, hb]
      rfl

/-- Decoding does to a live context what the scan of its unread bytes says. -/
theorem decode_eq : decode none c = (scan c.ahead).decoded c := by
  rw [decode, bind_of_ok (running_eq hc.status_eq), decodeItem_eq hc]

theorem run_decode_eq : (decode none).run c =
    match scan c.ahead with
    | .complete item length => (.ok .ok, (c.forward length).holding (some (c.place item)))
    | .ended => (.ok .endOfInput, c.latch .endOfInput)
    | .truncated place => (.ok .bufferUnderflow, (c.forward place).latch .bufferUnderflow)
    | .malformed => (.ok .malformedInput, (c.forward 1).latch .malformedInput) := by
  rw [Engine.run, decode_eq hc]
  cases scan c.ahead <;> rfl

/-! ### Complete items -/

/-- Decoding reads a complete item and moves on by its length. -/
theorem decode_of_denotes {p rest : List UInt8} {i : Item Bytes} (h : Denotes p i)
    (hb : c.ahead = p ++ rest) :
    ∃ item, item.resolve c.buffer = i ∧
      decode none c = .ok () ((c.forward p.length).holding (some item)) := by
  obtain ⟨found, hs, hf⟩ := scan_append h rest
  rw [← hb] at hs hf
  refine ⟨c.place found, (Context.resolve_place hs).trans hf, ?_⟩
  rw [decode_eq hc, hs]
  rfl

/-- Where decoding is complete, it has read the bytes of the item. -/
theorem denotes_of_decode {d : Context σ} (h : decode none c = .ok () d) :
    ∃ k i, k ≤ c.ahead.length ∧ Denotes (c.ahead.take k) i ∧ d.last = some i ∧
      d.ahead = c.ahead.drop k := by
  have hholds := scan_holds c.ahead
  rw [decode_eq hc] at h
  cases hs : scan c.ahead with
  | complete item k =>
      rw [hs] at h hholds
      obtain ⟨hle, hdenotes, -⟩ := hholds
      obtain rfl : (c.forward k).holding (some (c.place item)) = d := by
        simpa [Scan.decoded] using h
      exact ⟨k, _, hle, hdenotes, congrArg some (Context.resolve_place hs), c.ahead_forward k⟩
  | ended | truncated | malformed =>
      rw [hs] at h
      cases h

theorem live_decoded {k : Nat} (hk : k ≤ c.ahead.length) (item : Option (Item Span)) :
    ((c.forward k).holding item).Live :=
  (hc.forward ((Context.le_limit_iff hc).mpr hk)).holding item

end decoding

end Unpacker
end MessagePack
