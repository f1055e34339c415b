import MessagePack.Proofs.PackCases
import MessagePack.Unpacker.Unchanged

/-! # Writing where there is room

Packing makes room first, and what is left then is writing, which has nothing to do with the handler
(`Packer.pack_eq`).

Writing takes a few kinds of steps.  A property of steps that is closed under sequences holds of
writing if it holds of each of them (`Packer.Writing`). -/

namespace MessagePack

variable {σ α β : Type}

/-! ### Room -/

/-- The length of the room that is made for a value.  That of a float is known before the float is
looked at. -/
def Value.room : Value → Except Fault Nat
  | float _ => .ok Frame.floatSize
  | v => v.frame.map Frame.size

theorem Value.frame_of_room_error {v : Value} {fault : Fault} (h : v.room = .error fault) :
    v.frame = .error fault := by
  have hmap : v.frame.map Frame.size = .error fault := by
    cases v with
    | float bits => cases h
    | unsigned | signed | double | nil | boolean | array | map | str | bin | ext => exact h
  cases hframe : v.frame with
  | error raised =>
      rw [hframe] at hmap
      cases hmap
      rfl
  | ok f =>
      rw [hframe] at hmap
      cases hmap

theorem Value.room_of_frame {v : Value} {f : Frame} (h : v.frame = .ok f) :
    v.room = .ok f.size := by
  cases v with
  | float bits => exact congrArg Except.ok (Frame.size_float h).symm
  | unsigned | signed | double | nil | boolean | array | map | str | bin | ext =>
      exact congrArg (Except.map Frame.size) h

namespace Packer

open Engine

/-- What is done once there is room. -/
def inscribe : Value → Engine σ Unit
  | .float bits => do
    let _ ← orderFor (.storeFloat 4)
    let f ← lift (Frame.float bits)
    write (.storeFloat 4) f
  | v => do
    let f ← lift v.frame
    write (v.access f) f

section room

variable {handler : Option (Handler σ)} {v : Value} {c : Context σ}

theorem room_of_ne_float (hv : ∀ bits, v ≠ .float bits) : v.room = v.frame.map Frame.size := by
  cases v with
  | float bits => exact absurd rfl (hv bits)
  | unsigned | signed | double | nil | boolean | array | map | str | bin | ext => rfl

theorem inscribe_of_ne_float (hv : ∀ bits, v ≠ .float bits) :
    (inscribe v : Engine σ Unit) = (do
      let f ← lift v.frame
      write (v.access f) f) := by
  cases v with
  | float bits => exact absurd rfl (hv bits)
  | unsigned | signed | double | nil | boolean | array | map | str | bin | ext => rfl

/-- Packing makes room, and the rest does not need the handler. -/
theorem pack_eq (hc : c.status = .ok) :
    pack handler v c = (do
      let n ← lift v.room
      reserve handler n
      inscribe v : Engine σ Unit) c := by
  by_cases hf : ∃ bits, v = .float bits
  · obtain ⟨bits, rfl⟩ := hf
    exact pack_float hc bits
  · have hne : ∀ bits, v ≠ .float bits := fun bits h => hf ⟨bits, h⟩
    rw [pack_of_ne_float hc hne, room_of_ne_float hne, inscribe_of_ne_float hne]
    cases v.frame <;> rfl

theorem pack_of_room {n : Nat} (hc : c.status = .ok) (hv : v.room = .ok n)
    (hroom : c.current + n ≤ c.limit) : pack handler v c = inscribe v c := by
  have hlift : lift v.room c = .ok n c := by rw [hv, lift]
  have hr : reserve handler n c = .ok () c := if_pos hroom
  rw [pack_eq hc, bind_of_ok hlift, bind_of_ok hr]

/-- Only a float is refused after room was made for it. -/
theorem inscribe_of_error {fault : Fault} {n : Nat} (hv : v.frame = .error fault)
    (hn : v.room = .ok n) (ho : ∃ order, c.order = some order ∧ order.Suits) :
    inscribe v c = .error (.fault fault) c := by
  obtain ⟨order, ho, -⟩ := ho
  by_cases hf : ∃ bits, v = .float bits
  · obtain ⟨bits, rfl⟩ := hf
    have horder : orderFor (.storeFloat 4) c = .ok order c := by rw [orderFor, ho]
    have hlift : lift (Frame.float bits) c = .error (.fault fault) c := by
      rw [show Frame.float bits = .error fault from hv, lift]
    rw [inscribe, bind_of_ok horder, bind_of_error hlift]
  · rw [room_of_ne_float fun bits hv => hf ⟨bits, hv⟩, hv] at hn
    cases hn

end room

/-! ### Steps of writing -/

/-- What a property of steps has to satisfy to hold of writing an encoding: it is closed under
sequences, and it holds of each step. -/
structure Writing (P : ∀ {α : Type}, Engine σ α → Prop) : Prop where
  bind : ∀ {α β : Type} {step : Engine σ α} {next : α → Engine σ β}, P step → (∀ x, P (next x)) →
    P (step >>= next)
  atCursor : ∀ {α : Type} {step : Nat → Engine σ α}, (∀ pos, P (step pos)) →
    P (do let c ← get; step c.current)
  nothing : P (pure () : Engine σ Unit)
  orderFor : ∀ access, P (orderFor access : Engine σ ByteOrder)
  writeByte : ∀ pos b, P (writeByte pos b : Engine σ Unit)
  /-- A store changes the buffer in place. -/
  store : ∀ (order : ByteOrder) (width pos n : Nat), P (do
    let c ← get
    let (result, bytes) := order.store width c.bytes pos n
    set (c.modifyBytes bytes)
    lift result : Engine σ Unit)
  advance : ∀ n, P (advance n : Engine σ Unit)
  writePayload : ∀ payload, P (writePayload payload : Engine σ Unit)

namespace Writing

variable {P : ∀ {α : Type}, Engine σ α → Prop} (h : Writing P)

include h

theorem writeField (access : Access) (pos : Nat) (f : Frame) :
    P (Packer.writeField access pos f : Engine σ Unit) := by
  unfold Packer.writeField
  split_ifs
  · exact h.nothing
  · exact h.writeByte _ _
  · exact h.bind (h.orderFor _) fun order => h.store order f.width pos f.value

theorem writeSubtype (type : Option Int) : P (Packer.writeSubtype type : Engine σ Unit) := by
  cases type with
  | none => exact h.nothing
  | some type => exact h.atCursor fun pos => h.bind (h.writeByte pos _) fun _ => h.advance 1

theorem write (access : Access) (f : Frame) : P (Packer.write access f : Engine σ Unit) :=
  h.atCursor fun pos => h.bind (h.writeField access (pos + 1) f) fun _ =>
    h.bind (h.writeByte pos _) fun _ => h.bind (h.advance _) fun _ =>
      h.bind (h.writeSubtype f.subtype) fun _ => h.writePayload f.payload

theorem inscribe {v : Value} (hlift : P (lift v.frame : Engine σ Frame)) :
    P (Packer.inscribe v : Engine σ Unit) := by
  cases v with
  | float bits =>
      exact h.bind (h.orderFor _) fun _ => h.bind hlift fun f => h.write _ f
  | unsigned | signed | double | nil | boolean | array | map | str | bin | ext =>
      exact h.bind hlift fun f => h.write _ f

end Writing

/-! Packing has nothing to do with the item that was decoded last. -/

/-- The step leaves the last item alone. -/
def LeavesItem (step : Engine σ α) : Prop := ∀ c, (Unpacker.after step c).item = c.item

theorem LeavesItem.bind {step : Engine σ α} {next : α → Engine σ β} (h : LeavesItem step)
    (hn : ∀ x, LeavesItem (next x)) : LeavesItem (step >>= next) := by
  intro c
  have hc := h c
  unfold Unpacker.after at hc ⊢
  cases hr : step c with
  | error halt d =>
      rw [bind_of_error hr]
      rw [hr] at hc
      exact hc
  | ok x d =>
      rw [bind_of_ok hr]
      rw [hr] at hc
      exact (hn x d).trans hc

theorem writing_leavesItem : Writing (LeavesItem (σ := σ)) where
  bind := .bind
  atCursor h c := h c.current c
  nothing _ := rfl
  orderFor access c := by
    unfold Unpacker.after orderFor
    cases c.order <;> rfl
  writeByte pos b c := by
    unfold Unpacker.after writeByte
    split_ifs <;> rfl
  store order width pos n c := by
    unfold Unpacker.after
    rw [get_bind]
    obtain ⟨result, bytes⟩ := order.store width c.bytes pos n
    cases result <;> rfl
  advance n _ := rfl
  writePayload payload c := by
    unfold Unpacker.after writePayload
    split_ifs <;> rfl

theorem leavesItem_inscribe (v : Value) : LeavesItem (inscribe v : Engine σ Unit) :=
  writing_leavesItem.inscribe fun c => by cases v.frame <;> rfl

end Packer
end MessagePack
