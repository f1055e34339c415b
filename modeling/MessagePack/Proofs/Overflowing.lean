import MessagePack.Proofs.Giving
import MessagePack.Proofs.PackCases
import Mathlib

/-! # Overflow handling is invisible in the packed bytes

A handler that is asked for room may write out what is packed, move it, or go on in another buffer.
If it loses nothing by that (`Handler.Transparent`), the bytes that it has put out and those that
are packed in the region are together the encodings of the values that were packed, one after
another (`Packer.overflow_invisible`).

Room is made for a whole encoding before its first byte is written, so there is one question for
each value and one place where it can fail: `Engine.Asked` is all that a value with an encoding can
come to. -/

namespace MessagePack

variable {σ : Type}

/-- Whenever the handler is asked, it keeps what it has put out followed by what is packed in the
region, and leaves a region inside its buffer.  Its answer may be anything, and it need not make
the room. -/
structure Handler.Transparent (respond : Handler σ) (output : σ → List UInt8) : Prop where
  stream : ∀ n r, r.InBounds → r.limit < r.current + n →
    output (respond n r).2.peer ++ (respond n r).2.done.toList = output r.peer ++ r.done.toList
  start_le : ∀ n r, r.InBounds → r.limit < r.current + n →
    (respond n r).2.start ≤ (respond n r).2.current
  limit_le : ∀ n r, r.InBounds → r.limit < r.current + n →
    (respond n r).2.limit ≤ (respond n r).2.bytes.size

namespace Packer

open Engine

/-- Pack values one after another: what each of them comes to, and the context afterwards. -/
def packAll (handler : Option (Handler σ)) :
    List Value → Context σ → List (Except Fault Status) × Context σ
  | [], c => ([], c)
  | v :: values, c =>
      let (result, c) := (pack handler v).run c
      let (results, c) := packAll handler values c
      (result :: results, c)

/-- The encodings of the values whose packing was complete. -/
def encoded : List Value → List (Except Fault Status) → List UInt8
  | v :: values, result :: results =>
      (if result = .ok .ok then v.encoding else []) ++ encoded values results
  | _, _ => []

/-- What packing an encoding comes to after room was asked for. -/
def written (encoding : List UInt8) :
    EStateM.Result Halt (Context σ) Unit → Except Fault Status × Context σ
  | .ok () d => (.ok .ok, d.append encoding.toArray)
  | .error halt d => (halt.result, d)

/-! ### Asking for room -/

section asked

variable {respond : Handler σ} {output : σ → List UInt8} (ht : respond.Transparent output)
  {n : Nat} {c d : Context σ} (hc : c.Live)

include ht hc

theorem asked_ok (h : Asked (some respond) id n .bufferOverflow c (.ok () d)) :
    d.Live ∧ output d.peer ++ d.pending = output c.peer ++ c.pending := by
  cases h with
  | there h => exact ⟨hc, rfl⟩
  | granted hh h hr hroom =>
      cases hh
      have hstream := ht.stream n c.toRegion hc.inBounds h
      have hstart := ht.start_le n c.toRegion hc.inBounds h
      have hlimit := ht.limit_le n c.toRegion hc.inBounds h
      rw [hr] at hstream hstart hlimit
      constructor
      · exact ⟨⟨hstart, Nat.le_trans (Nat.le_add_right _ _) hroom, hlimit⟩, hc.status_eq,
          hc.order_eq⟩
      · exact hstream

theorem asked_error {halt : Halt}
    (h : Asked (some respond) id n .bufferOverflow c (.error halt d)) :
    d.status ≠ .ok ∧ halt.result ≠ .ok .ok ∧
      output d.peer ++ d.pending = output c.peer ++ c.pending := by
  have hshort : c.limit < c.current + n := by
    cases h <;> assumption
  obtain ⟨hbuffer, hstart, hcurrent, -, hpeer⟩ := h.left
  have hpending : d.pending = (respond n c.toRegion).2.done.toList := by
    rw [Context.pending, Region.done, Region.done, Region.bytes, hbuffer, hstart, hcurrent]
  rw [hpending, hpeer]
  have hstream := ht.stream n c.toRegion hc.inBounds hshort
  rcases h.latched (by decide) (fun _ h => h) with ⟨rfl, hs⟩ | ⟨_, _, _, _, _, _, rfl, hd, _⟩
  · exact ⟨hs, by simpa [Halt.result] using hs, hstream⟩
  · exact ⟨by simp [hd, Status.ok, Status.errorInHandler], by simp [Halt.result], hstream⟩

/-- Packing a value with an encoding comes down to asking for as many bytes as it has. -/
theorem run_pack_of_frame {v : Value} {f : Frame} (hv : v.frame = .ok f) :
    ∃ asked, Asked (some respond) id v.encoding.length .bufferOverflow c asked ∧
      (pack (some respond) v).run c = written v.encoding asked := by
  rw [Value.encoding_eq hv, Frame.length_bytes]
  refine ⟨_, asked_reserve rfl, ?_⟩
  cases hr : reserve (some respond) f.size c with
  | ok u d =>
      have hd := (asked_ok ht hc (asked_reserve hr)).1.ready (reserve_ok hr)
      exact run_of_ok (pack_of_reserve hc.status_eq hv (Value.fits_of_frame hv) hr hd)
  | error halt d => exact run_of_error (pack_of_reserve_error hc.status_eq hv hr)

end asked

/-! ### Sequences of values -/

/-- The bytes `expected` are those that were put out and those that are packed. -/
structure Streams (output : σ → List UInt8) (expected : List UInt8) (c : Context σ) : Prop where
  live : c.status = .ok → c.Live
  total : output c.peer ++ c.pending = expected

section streams

variable {respond : Handler σ} {output : σ → List UInt8} (ht : respond.Transparent output)
  {expected : List UInt8} {c : Context σ}

include ht

/-- One value adds its encoding if its packing is complete, and nothing otherwise. -/
theorem Streams.pack (h : Streams output expected c) (v : Value) :
    Streams output
      (expected ++ if ((pack (some respond) v).run c).1 = .ok .ok then v.encoding else [])
      ((pack (some respond) v).run c).2 := by
  by_cases hs : c.status = .ok
  · have hc := h.live hs
    have hpack := packed_pack hs v fun n d hr =>
      (asked_ok ht hc (asked_reserve hr)).1.ready (reserve_ok hr)
    unfold run
    generalize Packer.pack (some respond) v c = result at hpack
    cases hpack with
    | refused hv => simpa using h
    | @noRoom _ halt d hn hr =>
        obtain ⟨hd, hhalt, htotal⟩ := asked_error ht hc (asked_reserve hr)
        have hkept : Streams output expected d := ⟨fun h => absurd h hd, htotal.trans h.total⟩
        cases halt with
        | status status => simpa [show status ≠ .ok by simpa [Halt.result] using hhalt] using hkept
        | fault fault => simpa using hkept
    | tooLarge hv hr =>
        obtain ⟨hd, htotal⟩ := asked_ok ht hc (asked_reserve hr)
        have hkept : Streams output expected _ := ⟨fun _ => hd, htotal.trans h.total⟩
        simpa using hkept
    | @appended f d hv hr =>
        obtain ⟨hd, htotal⟩ := asked_ok ht hc (asked_reserve hr)
        constructor
        · intro _
          exact hd.append_bytes (reserve_ok hr)
        · show output d.peer ++ (d.append f.bytes.toArray).pending = _
          rw [if_pos rfl, Context.pending_append hd, Value.encoding_eq hv, ← h.total, ← htotal,
            List.append_assoc]
  · have hstop : (Packer.pack (some respond) v).run c = (.ok .stopped, c) := run_of_latched hs _
    rw [hstop]
    simpa [Status.ok, Status.stopped] using h

theorem Streams.packAll (h : Streams output expected c) (values : List Value) :
    Streams output (expected ++ encoded values (packAll (some respond) values c).1)
      (packAll (some respond) values c).2 := by
  induction values generalizing expected c with
  | nil => simpa [Packer.packAll, encoded] using h
  | cons v values ih =>
      have hrest := ih (h.pack ht v)
      rw [List.append_assoc] at hrest
      exact hrest

end streams

theorem streams_new {output : σ → List UInt8} {kind : Kind} {a : Assumptions} {bytes : Bytes}
    {start : Int} {stop : Option Int} {peer : σ} {c : Context σ}
    (h : Context.new kind a bytes start stop peer = .ok c) : Streams output (output peer) c := by
  obtain ⟨hpeer, hstart⟩ := Context.peer_new h
  constructor
  · exact Context.live_new h
  · rw [hpeer, Context.pending_eq_nil hstart, List.append_nil]

/-- Overflow handling is invisible.  Pack any values into a new context, with a handler that loses
nothing: what it has put out and what is packed in the region are together the encodings of the
values whose packing was complete, and nothing else.

The encoding of a value is what packing it adds to a region with room enough and no handler.  If
the next value has one, the handler is asked at most once, for exactly as many bytes as that, and
only if fewer are left (`Asked`).  If packing is not complete then, the region is as the handler has
left it.  A payload may be given in any form: packing it is packing its bytes. -/
theorem overflow_invisible {respond : Handler σ} {output : σ → List UInt8}
    (ht : respond.Transparent output) {kind : Kind} {a : Assumptions} {bytes : Bytes} {start : Int}
    {stop : Option Int} {peer : σ} {c d : Context σ} {values : List Value}
    {results : List (Except Fault Status)}
    (hnew : Context.new kind a bytes start stop peer = .ok c)
    (hrun : packAll (some respond) values c = (results, d)) :
    output d.peer ++ d.pending = output peer ++ encoded values results ∧
    (∀ v f, v.frame = .ok f →
      (∀ e : Context Unit, e.Live → e.current + v.encoding.length ≤ e.limit →
        ∃ e', (pack none v).run e = (.ok .ok, e') ∧ e'.pending = e.pending ++ v.encoding) ∧
      (d.status = .ok →
        (∃ asked, Asked (some respond) id v.encoding.length .bufferOverflow d asked ∧
          (pack (some respond) v).run d = written v.encoding asked) ∧
        ∀ result e, (pack (some respond) v).run d = (result, e) → result ≠ .ok .ok →
          ∃ r, (respond v.encoding.length d.toRegion).2 = r ∧ e.buffer = r.buffer ∧
            e.start = r.start ∧ e.current = r.current ∧ e.limit = r.limit ∧ e.peer = r.peer)) ∧
    ∀ request : Request,
      (d.status ≠ .ok → (give (some respond) request).run d = (.ok .stopped, d)) ∧
      ∀ v, request.value = .ok v →
        (give (some respond) request).run d = (pack (some respond) v).run d := by
  have hc : Streams output (output peer) c := streams_new hnew
  have hd := hc.packAll ht values
  rw [hrun] at hd
  refine ⟨hd.total, fun v f hv => ⟨fun e he hroom => ?_, fun hs => ?_⟩,
    fun request => ⟨run_give_of_latched, fun v hv => run_give hv d⟩⟩
  · rw [Value.encoding_eq hv, Frame.length_bytes] at hroom
    have hpack : pack none v e = .ok () (e.append f.bytes.toArray) :=
      pack_append hv (Value.fits_of_frame hv) (he.ready hroom)
    exact ⟨_, run_of_ok hpack, by rw [Context.pending_append he, Value.encoding_eq hv]⟩
  · obtain ⟨asked, hasked, hpack⟩ := run_pack_of_frame ht (hd.live hs) hv
    refine ⟨⟨asked, hasked, hpack⟩, fun result e he hne => ⟨_, rfl, ?_⟩⟩
    rw [hpack] at he
    cases asked with
    | ok u g =>
        rw [written, Prod.mk.injEq] at he
        exact absurd he.1.symm hne
    | error halt g =>
        rw [written, Prod.mk.injEq] at he
        exact he.2 ▸ hasked.left

/-! ### Spilling into a small buffer -/

/-- Put out what is packed and go on in a new buffer of four bytes, whatever was asked for. -/
def spill : Handler (List UInt8) := fun _ r =>
  (.ok .ok, { r with
    buffer := r.buffer.replace (Bytes.zeros 4), start := 0, current := 0, limit := 4
    peer := r.peer ++ r.done.toList })

theorem spill_transparent : spill.Transparent id where
  stream n r _ _ := by
    show (r.peer ++ r.done.toList) ++ (Bytes.slice (Bytes.zeros 4) 0 0).toList = _
    rw [Bytes.toList_slice, Nat.sub_self, List.take_zero, List.append_nil]
    rfl
  start_le n r _ _ := Nat.le_refl 0
  limit_le n r _ _ := Nat.le_of_eq (Bytes.size_zeros 4).symm

/-- A text fills the buffer, a binary is packed after the spill, and the next one is longer than the
room that the handler makes. -/
theorem overflow_invisible_spill :
    ∃ (c d : Context (List UInt8)) (values : List Value) (results : List (Except Fault Status)),
      Context.new .packer {} (Bytes.zeros 4) 0 none [] = .ok c ∧
      values = [.nil, .str #[0x61, 0x62], .bin #[7], .bin #[1, 2, 3], .nil] ∧
      results = [.ok .ok, .ok .ok, .ok .ok, .ok .errorInHandler, .ok .stopped] ∧
      packAll (some spill) values c = (results, d) ∧
      d.peer ++ d.pending = [0xC0, 0xA2, 0x61, 0x62, 0xC4, 0x01, 0x07] := by
  obtain ⟨c, values, results, hnew, hvalues, hresults, hrun, hencoded⟩ :
      ∃ (c : Context (List UInt8)) (values : List Value) (results : List (Except Fault Status)),
      Context.new .packer {} (Bytes.zeros 4) 0 none [] = .ok c ∧
      values = [.nil, .str #[0x61, 0x62], .bin #[7], .bin #[1, 2, 3], .nil] ∧
      results = [.ok .ok, .ok .ok, .ok .ok, .ok .errorInHandler, .ok .stopped] ∧
      (packAll (some spill) values c).1 = results ∧
      encoded values results = [0xC0, 0xA2, 0x61, 0x62, 0xC4, 0x01, 0x07] :=
    ⟨_, _, _, rfl, rfl, rfl, by cbv, by cbv⟩
  have hd : packAll (some spill) values c = (results, (packAll (some spill) values c).2) := by
    rw [← hrun]
  obtain ⟨htotal, -⟩ := overflow_invisible spill_transparent hnew hd
  exact ⟨c, _, values, results, hnew, hvalues, hresults, hd, htotal.trans hencoded⟩

end Packer
end MessagePack
