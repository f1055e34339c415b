import MessagePack.Proofs.Appending
import MessagePack.Proofs.Arguments
import MessagePack.Proofs.Asking
import MessagePack.Proofs.Canonical

/-! # What packing a value can come to

A value has an encoding if and only if it stands for an item, and its field always fits
(`Value.fits_of_frame`).  So packing it has four outcomes only, whatever the handler does:
the value is refused, no room is made, a float turns out too large once there is room, or the
encoding is appended (`Packer.packed_pack`).  Everything about packers with a handler follows from
these and from what the handler does to `Packer.reserve`. -/

namespace MessagePack

variable {σ : Type}

/-! ### Values without an encoding -/

namespace Value

theorem not_sound_of_item? {v : Value} (h : v.item? = none) : ¬ v.Sound := by
  intro hs
  cases v with
  | float bits =>
      exact hs ((Double.toSingle?_eq_none_iff bits).mp (Option.map_eq_none_iff.mp h))
  | double | nil | boolean => cases h
  | unsigned | signed | array | map | str | bin =>
      exact absurd (ite_eq_right_iff.mp h hs) nofun
  | ext type payload =>
      have ht : -0x80 ≤ type ∧ type ≤ 0x7F := ⟨hs.1.1, Int.le_of_lt_add_one hs.1.2⟩
      exact absurd (ite_eq_right_iff.mp h ⟨ht, hs.2⟩) nofun

theorem frame_error {v : Value} (h : v.item? = none) : ∃ fault, v.frame = .error fault :=
  (exists_refused (not_sound_of_item? h)).imp fun _ => frame_error_iff.mpr

/-- The field of an encoding holds its value. -/
theorem fits_of_frame {v : Value} {f : Frame} (h : v.frame = .ok f) : f.value < 256 ^ f.width := by
  cases hi : v.item? with
  | none =>
      obtain ⟨fault, he⟩ := frame_error hi
      rw [h] at he
      cases he
  | some i =>
      obtain ⟨f', he, hf⟩ := frame_canonical hi
      rw [h] at he
      cases he
      exact hf.fits

/-- The bytes that packing a value puts on the wire, none if it has no encoding. -/
def encoding (v : Value) : List UInt8 :=
  match v.frame with
  | .ok f => f.bytes
  | .error _ => []

theorem encoding_eq {v : Value} {f : Frame} (h : v.frame = .ok f) : v.encoding = f.bytes := by
  rw [encoding, h]

end Value

/-! ### The outcomes -/

namespace Packer

open Engine

/-- What packing can come to: a value is refused before room is made for it, no room is made, a
float that is too large is refused after that, or the encoding is appended.  Room is always made
for the whole encoding. -/
inductive Packed (handler : Option (Handler σ)) (v : Value) (c : Context σ) :
    EStateM.Result Halt (Context σ) Unit → Prop
  | refused {fault : Fault} (hv : v.frame = .error fault) :
      Packed handler v c (.error (.fault fault) c)
  | noRoom {n : Nat} {halt : Halt} {d : Context σ} (hn : ∀ f, v.frame = .ok f → n = f.size)
      (hr : reserve handler n c = .error halt d) : Packed handler v c (.error halt d)
  | tooLarge {fault : Fault} {d : Context σ} (hv : v.frame = .error fault)
      (hr : reserve handler Frame.floatSize c = .ok () d) :
      Packed handler v c (.error (.fault fault) d)
  | appended {f : Frame} {d : Context σ} (hv : v.frame = .ok f)
      (hr : reserve handler f.size c = .ok () d) :
      Packed handler v c (.ok () (d.append f.bytes.toArray))

theorem asked_reserve {handler : Option (Handler σ)} {n : Nat} {c : Context σ}
    {result : EStateM.Result Halt (Context σ) Unit} (h : reserve handler n c = result) :
    Asked handler id n .bufferOverflow c result := by
  rw [← h]
  exact asked_ensure

theorem reserve_ok {handler : Option (Handler σ)} {n : Nat} {c d : Context σ}
    (h : reserve handler n c = .ok () d) : d.current + n ≤ d.limit := (asked_reserve h).le_limit

section pack

variable {handler : Option (Handler σ)} {v : Value} {c : Context σ} (hc : c.status = .ok)

include hc

/-- Room for a float is made before the number is looked at. -/
theorem pack_float (bits : DoubleBits) :
    pack handler (.float bits) c = (do
      reserve handler Frame.floatSize
      let _ ← orderFor (.storeFloat 4)
      let f ← lift (Frame.float bits)
      write (.storeFloat 4) f : Engine σ Unit) c := bind_of_ok (running_eq hc)

theorem pack_of_ne_float (hv : ∀ bits, v ≠ .float bits) :
    pack handler v c = (do
      let f ← lift v.frame
      reserve handler f.size
      write (v.access f) f : Engine σ Unit) c := by
  unfold pack
  rw [bind_of_ok (running_eq hc)]
  cases v with
  | float bits => exact absurd rfl (hv bits)
  | unsigned | signed | double | nil | boolean | array | map | str | bin | ext => rfl

theorem pack_of_reserve_error {f : Frame} {halt : Halt} {d : Context σ} (hv : v.frame = .ok f)
    (hr : reserve handler f.size c = .error halt d) : pack handler v c = .error halt d := by
  by_cases hf : ∃ bits, v = .float bits
  · obtain ⟨bits, rfl⟩ := hf
    rw [Frame.size_float hv] at hr
    rw [pack_float hc, bind_of_error hr]
  · have hlift : lift v.frame c = .ok f c := by rw [hv, lift]
    rw [pack_of_ne_float hc fun bits h => hf ⟨bits, h⟩, bind_of_ok hlift, bind_of_error hr]

/-- A float that is too large is found out once there is room. -/
theorem pack_tooLarge {bits : DoubleBits} {fault : Fault} {d : Context σ}
    (hv : (Value.float bits).frame = .error fault)
    (hr : reserve handler Frame.floatSize c = .ok () d)
    (hd : ∃ order, d.order = some order ∧ order.Suits) :
    pack handler (.float bits) c = .error (.fault fault) d := by
  obtain ⟨order, ho, -⟩ := hd
  have horder : orderFor (.storeFloat 4) d = .ok order d := by rw [orderFor, ho]
  have hlift : lift (Frame.float bits) d = .error (.fault fault) d := by
    rw [show Frame.float bits = .error fault from hv, lift]
  rw [pack_float hc, bind_of_ok hr, bind_of_ok horder, bind_of_error hlift]

theorem packed_float {bits : DoubleBits} {fault : Fault}
    (hv : (Value.float bits).frame = .error fault)
    (hready : ∀ n d, reserve handler n c = .ok () d → d.Ready n) :
    Packed handler (.float bits) c (pack handler (.float bits) c) := by
  cases hr : reserve handler Frame.floatSize c with
  | error halt d =>
      rw [pack_float hc, bind_of_error hr]
      exact .noRoom (by simp [hv]) hr
  | ok u d =>
      rw [pack_tooLarge hc hv hr (hready _ _ hr).order_eq]
      exact .tooLarge hv hr

/-- Packing into a context that can go on has one of the four outcomes, provided that making room
leaves the context with the room. -/
theorem packed_pack (v : Value) (hready : ∀ n d, reserve handler n c = .ok () d → d.Ready n) :
    Packed handler v c (pack handler v c) := by
  cases hv : v.frame with
  | error fault =>
      by_cases hf : ∃ bits, v = .float bits
      · obtain ⟨bits, rfl⟩ := hf
        exact packed_float hc hv hready
      · have hlift : lift v.frame c = .error (.fault fault) c := by rw [hv, lift]
        rw [pack_of_ne_float hc fun bits h => hf ⟨bits, h⟩, bind_of_error hlift]
        exact .refused hv
  | ok f =>
      cases hr : reserve handler f.size c with
      | ok u d =>
          rw [pack_of_reserve hc hv (Value.fits_of_frame hv) hr (hready _ _ hr)]
          exact .appended hv hr
      | error halt d =>
          rw [pack_of_reserve_error hc hv hr]
          refine .noRoom (fun f' hf' => ?_) hr
          rw [hv, Except.ok.injEq] at hf'
          rw [hf']

end pack

end Packer
end MessagePack
