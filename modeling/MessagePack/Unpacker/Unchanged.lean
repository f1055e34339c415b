import MessagePack.Unpacker

/-! # Unpacking without a handler

Without a handler, reading and skipping only move the cursor, set the last item
and latch a status.  The buffer and the bounds of the region stay as they are.

* `Unpacker.Fixed` relates contexts with the same buffer, bounds and peer.
* `decode_fixed` states this for decoding.
-/

namespace MessagePack
namespace Unpacker

variable {σ α β : Type}

/-- The same buffer, the same bounds of the region and the same peer. -/
structure Fixed (c' c : Context σ) : Prop where
  buffer : c'.buffer = c.buffer
  start : c'.start = c.start
  limit : c'.limit = c.limit
  peer : c'.peer = c.peer

theorem Fixed.refl (c : Context σ) : Fixed c c := ⟨rfl, rfl, rfl, rfl⟩

theorem Fixed.trans {a b c : Context σ} (h₁ : Fixed a b) (h₂ : Fixed b c) : Fixed a c :=
  ⟨h₁.buffer.trans h₂.buffer, h₁.start.trans h₂.start, h₁.limit.trans h₂.limit,
    h₁.peer.trans h₂.peer⟩

/-- The context after a step, whether it goes on or halts. -/
def after (step : Engine σ α) (c : Context σ) : Context σ :=
  match step c with
  | .ok _ c' | .error _ c' => c'

/-- A step leaves the buffer and the region alone. -/
def Keeps (step : Engine σ α) : Prop := ∀ c, Fixed (after step c) c

theorem Keeps.bind {step : Engine σ α} {next : α → Engine σ β} (h : Keeps step)
    (hn : ∀ a, Keeps (next a)) : Keeps (step >>= next) := by
  intro c
  have hc := h c
  simp only [after, Bind.bind, EStateM.bind] at *
  cases hs : step c with
  | error e d => simpa [hs] using hc
  | ok a d =>
    simp only [hs] at hc ⊢
    exact (hn a d).trans hc

theorem Keeps.pure (a : α) : Keeps (Pure.pure a : Engine σ α) := fun c => Fixed.refl c

theorem keeps_get : Keeps (get : Engine σ (Context σ)) := fun c => Fixed.refl c

theorem keeps_stop (status : Status) : Keeps (Engine.stop status : Engine σ α) :=
  fun _ => ⟨rfl, rfl, rfl, rfl⟩

theorem keeps_running : Keeps (Engine.running : Engine σ Unit) := by
  intro c
  simp only [after, Engine.running]
  split
  · rename_i h
    split at h <;> simp_all [Fixed.refl]
  · rename_i h
    split at h <;> simp_all [Fixed.refl]

theorem keeps_orderFor (access : Access) : Keeps (Engine.orderFor access : Engine σ ByteOrder) := by
  intro c
  simp only [after, Engine.orderFor]
  cases c.order <;> exact Fixed.refl c

theorem keeps_advance (n : Nat) : Keeps (Engine.advance n : Engine σ Unit) :=
  fun _ => ⟨rfl, rfl, rfl, rfl⟩

theorem keeps_present (item : Item Span) : Keeps (present item : Engine σ Unit) :=
  fun _ => ⟨rfl, rfl, rfl, rfl⟩

theorem keeps_readByte : Keeps (Engine.readByte : Engine σ UInt8) := by
  intro c
  simp only [after, Engine.readByte]
  cases c.bytes[c.current]? <;> exact ⟨rfl, rfl, rfl, rfl⟩

theorem keeps_require (n : Nat) (short : Status) :
    Keeps (require none n short : Engine σ Unit) := by
  intro c
  simp only [after, require, Engine.ensure, Option.map_none]
  by_cases h : c.current + n ≤ c.limit
  · simp only [h, if_true]
    exact Fixed.refl c
  · simp only [h, if_false]
    exact keeps_stop (α := Unit) short c

/-! ### Fields and payloads -/

theorem keeps_move {access : Access} {load : ByteOrder → Bytes → Nat → Except Fault β}
    {width : Nat} : Keeps (do
      let order ← Engine.orderFor access
      let c ← get
      let b ← Engine.lift (load order c.bytes c.current)
      set { c with current := c.current + width }
      return b : Engine σ β) := by
  refine (keeps_orderFor _).bind fun order c => ?_
  simp only [after, Bind.bind, EStateM.bind, Engine.get_apply]
  cases load order c.bytes c.current <;> exact ⟨rfl, rfl, rfl, rfl⟩

theorem keeps_readField (width : Nat) : Keeps (Engine.readField width : Engine σ Nat) := by
  unfold Engine.readField
  split
  · exact keeps_readByte.bind fun _ => .pure _
  · exact keeps_move

theorem keeps_readSingle : Keeps (Engine.readSingle : Engine σ DoubleBits) := keeps_move

theorem keeps_readDouble : Keeps (Engine.readDouble : Engine σ DoubleBits) := keeps_move

theorem keeps_presentPayload (make : Span → Item Span) (length : Nat) :
    Keeps (presentPayload none make length : Engine σ Unit) :=
  (keeps_require _ _).bind fun _ => keeps_get.bind fun _ =>
    (keeps_present _).bind fun _ => keeps_advance _

theorem keeps_readSubtype : Keeps (Engine.readSubtype : Engine σ Int) :=
  keeps_readByte.bind fun _ => .pure _

theorem keeps_decodeField (field : Field) (width : Nat) :
    Keeps (decodeField none field width : Engine σ Unit) := by
  refine (keeps_require _ _).bind fun _ => ?_
  cases field with
  | float => exact keeps_readSingle.bind fun _ => keeps_present _
  | double => exact keeps_readDouble.bind fun _ => keeps_present _
  | unsigned | signed | array | map => exact (keeps_readField _).bind fun _ => keeps_present _
  | str | bin => exact (keeps_readField _).bind fun _ => keeps_presentPayload _ _
  | ext =>
    exact (keeps_readField _).bind fun _ => (keeps_require _ _).bind fun _ =>
      keeps_readSubtype.bind fun _ => keeps_presentPayload _ _

theorem keeps_decodeRest (header : Header) : Keeps (decodeRest none header : Engine σ Unit) := by
  cases header with
  | whole item => exact keeps_present _
  | shortStr length => exact keeps_presentPayload _ _
  | fixExt length =>
    exact (keeps_require _ _).bind fun _ => keeps_readSubtype.bind fun _ =>
      keeps_presentPayload _ _
  | field field width => exact keeps_decodeField field width
  | undefined => exact keeps_stop _

theorem keeps_pass (n : Nat) : Keeps (pass none n : Engine σ Unit) :=
  (keeps_require _ _).bind fun _ => keeps_advance _

theorem keeps_readCount (width : Nat) : Keeps (readCount none width : Engine σ Nat) :=
  (keeps_require _ _).bind fun _ => keeps_readField _

theorem keeps_skipRest (header : Header) : Keeps (skipRest none header : Engine σ Nat) := by
  cases header with
  | whole item => cases item <;> exact .pure _
  | shortStr length | fixExt length => exact (keeps_pass _).bind fun _ => .pure _
  | undefined => exact keeps_stop _
  | field field width =>
    cases field with
    | unsigned | signed | float | double => exact (keeps_pass _).bind fun _ => .pure _
    | array => exact keeps_readCount _
    | map => exact (keeps_readCount _).bind fun _ => .pure _
    | str | bin | ext =>
      exact (keeps_readCount _).bind fun _ => (keeps_pass _).bind fun _ => .pure _

theorem keeps_readTag : Keeps (readTag none : Engine σ UInt8) :=
  (keeps_require _ _).bind fun _ => keeps_readByte

/-- Decoding without a handler leaves the buffer and the region alone. -/
theorem keeps_decode : Keeps (decode none : Engine σ Unit) :=
  keeps_running.bind fun _ => keeps_readTag.bind fun _ => keeps_decodeRest _

/-- So does passing over one item. -/
theorem keeps_skipItem : Keeps (skipItem none : Engine σ Nat) :=
  keeps_readTag.bind fun _ => keeps_skipRest _

/-- So does passing over any number of them. -/
theorem keeps_skipLoop (count : Nat) : Keeps (skipLoop none count : Engine σ Unit) := by
  intro c
  unfold after
  fun_induction skipLoop (none : Option (Supplier σ)) count c with
  | case1 => exact Fixed.refl _
  | case2 c count more d hitem ih =>
    have hd := keeps_skipItem c
    simp only [after, hitem] at hd
    exact ih.trans hd
  | case3 c count halt d hitem =>
    have hd := keeps_skipItem c
    simpa only [after, hitem] using hd

theorem keeps_skip (count : Int) : Keeps (skip none count : Engine σ Unit) :=
  keeps_running.bind fun _ => keeps_skipLoop _

end Unpacker
end MessagePack
