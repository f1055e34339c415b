import MessagePack.Proofs.Live
import MessagePack.Proofs.Scan
import MessagePack.Unpacker

/-! # Reading in lockstep

Reading one item takes the same steps whatever the handler is; only asking for bytes depends on it.
So a relation between steps on two contexts holds of decoding and of passing over an item as soon as
it holds of the single steps and is closed under sequences (`Pacing.decodeItem`,
`Pacing.skipItem`).  A relation that looks at one of the two contexts only is a property of steps.

The steps between two questions take bytes that are there, whatever the context is, and make of them
what they may.  Where the contexts can go on, one closure condition covers them all
(`Lockstep.forward`). -/

namespace MessagePack

variable {σ τ : Type}

/-- How far reading an item has got. -/
inductive Stage
  /-- So many bytes are at the cursor. -/
  | room (n : Nat)
  /-- The item is complete. -/
  | presented
  deriving DecidableEq, Repr

/-- The number of bytes that are there. -/
def Stage.bytes : Stage → Nat
  | room n => n
  | presented => 0

namespace Engine

/-- Take the bytes that are there as the payload of an item. -/
def takePayload (kind : Blob) (n : Nat) : Engine σ Unit := do
  let c ← get
  Unpacker.present (kind.item ⟨.borrowed c.buffer.generation, c.current, n⟩)
  advance n

/-- Wherever `n` bytes are there, the step takes them, and its value depends on nothing else. -/
def Takes {α : Type} (n : Nat) (value : List UInt8 → α) (step : Engine σ α) : Prop :=
  ∀ c : Context σ, c.Ready n → step c = .ok (value (c.ahead.take n)) (c.forward n)

section takes

variable {α β : Type} {n : Nat}

theorem takes_advance : Takes n (fun _ => ()) (advance n : Engine σ Unit) := fun _ _ => rfl

theorem takes_readByte : Takes 1 (fun bytes => bytes.headD 0) (readByte : Engine σ UInt8) := by
  intro c hc
  cases hb : c.ahead with
  | nil =>
      have hlen := hc.le_length
      simp [hb] at hlen
  | cons b rest => exact readByte_forward (k := 0) (by rw [hb]; rfl)

theorem takes_readField : Takes n Layout.ofBigEndian (readField n : Engine σ Nat) :=
  fun _ => readField_ahead

theorem takes_readSingle :
    Takes 4 (fun bytes => Single.toDouble (.ofNat (Layout.ofBigEndian bytes)))
      (readSingle : Engine σ DoubleBits) := fun _ => readSingle_ahead

theorem takes_readDouble :
    Takes 8 (fun bytes => .ofNat (Layout.ofBigEndian bytes))
      (readDouble : Engine σ DoubleBits) := fun _ => readDouble_ahead

end takes
end Engine

open Engine Unpacker

/-- What a relation between steps has to satisfy: it is closed under sequences, and it holds of each
step from one stage to the next.  The handlers are asked within an item here; where an item begins,
see `Pacing.decodeItem`. -/
structure Pacing (s : Option (Supplier σ)) (t : Option (Supplier τ))
    (R : ∀ {α : Type}, Stage → Engine σ α → Engine τ α → Stage → Prop) : Prop where
  bind : ∀ {α β : Type} {k : Nat} {p r : Stage} {step : Engine σ α} {step' : Engine τ α}
    {next : α → Engine σ β} {next' : α → Engine τ β}, R p step step' (.room k) →
    (∀ a, R (.room k) (next a) (next' a) r) → R p (step >>= next) (step' >>= next') r
  pure : ∀ {α : Type} (a : α), R (.room 0) (pure a) (pure a) (.room 0)
  require : ∀ n, R (.room 0) (Unpacker.require s n .bufferUnderflow)
    (Unpacker.require t n .bufferUnderflow) (.room n)
  readByte : R (.room 1) readByte readByte (.room 0)
  readField : ∀ n, R (.room n) (readField n) (readField n) (.room 0)
  readSingle : R (.room 4) readSingle readSingle (.room 0)
  readDouble : R (.room 8) readDouble readDouble (.room 0)
  advance : ∀ n, R (.room n) (advance n) (advance n) (.room 0)
  /-- An item without a payload is complete at once. -/
  present : ∀ item : Item Span, item.payload? = none →
    R (.room 0) (Unpacker.present item) (Unpacker.present item) .presented
  payload : ∀ kind n, R (.room n) (takePayload kind n) (takePayload kind n) .presented

namespace Pacing

variable {s : Option (Supplier σ)} {t : Option (Supplier τ)}
  {R : ∀ {α : Type}, Stage → Engine σ α → Engine τ α → Stage → Prop} (h : Pacing s t R)

include h

/-! ### Decoding -/

theorem readSubtype : R (.room 1) Engine.readSubtype Engine.readSubtype (.room 0) :=
  h.bind h.readByte fun _ => h.pure _

theorem presentPayload (kind : Blob) (n : Nat) :
    R (.room 0) (Unpacker.presentPayload s kind.item n) (Unpacker.presentPayload t kind.item n)
      .presented :=
  h.bind (h.require n) fun _ => h.payload kind n

theorem presentExt (n : Nat) :
    R (.room 0)
      (do Unpacker.require s 1 .bufferUnderflow
          let type ← Engine.readSubtype
          Unpacker.presentPayload s (.ext type) n)
      (do Unpacker.require t 1 .bufferUnderflow
          let type ← Engine.readSubtype
          Unpacker.presentPayload t (.ext type) n) .presented :=
  h.bind (h.require 1) fun _ => h.bind h.readSubtype fun type => h.presentPayload (.ext type) n

theorem decodeField {field : Field} {width : Nat} (hf : field = .float → width = 4)
    (hd : field = .double → width = 8) :
    R (.room 0) (Unpacker.decodeField s field width) (Unpacker.decodeField t field width)
      .presented := by
  apply h.bind (h.require width)
  intro _
  have hfield := h.readField width
  cases field with
  | float =>
      obtain rfl := hf rfl
      exact h.bind h.readSingle fun _ => h.present _ rfl
  | double =>
      obtain rfl := hd rfl
      exact h.bind h.readDouble fun _ => h.present _ rfl
  | unsigned | array | map => exact h.bind hfield fun _ => h.present _ rfl
  | signed =>
      refine h.bind hfield fun n => h.present _ ?_
      unfold Item.ofSigned
      split <;> rfl
  | str => exact h.bind hfield fun n => h.presentPayload .str n
  | bin => exact h.bind hfield fun n => h.presentPayload .bin n
  | ext => exact h.bind hfield fun n => h.presentExt n

theorem decodeRest {tag : UInt8} (hu : Header.ofTag tag ≠ .undefined) :
    R (.room 0) (Unpacker.decodeRest s (Header.ofTag tag))
      (Unpacker.decodeRest t (Header.ofTag tag)) .presented := by
  have hrow := ofTag_cases tag
  cases hheader : Header.ofTag tag with
  | whole item => exact h.present _ (by cases item <;> first | rfl | contradiction)
  | shortStr n => exact h.presentPayload .str n
  | fixExt n => exact h.presentExt n
  | field field width =>
      rw [hheader] at hrow
      obtain ⟨i, hi, -, rfl⟩ := hrow
      apply h.decodeField <;>
        (rintro rfl; obtain rfl : i = 0 := Nat.lt_one_iff.mp hi; rfl)
  | undefined => exact absurd hheader hu

/-! ### Skipping -/

theorem pass (n : Nat) :
    R (.room 0) (Unpacker.pass s n) (Unpacker.pass t n) (.room 0) :=
  h.bind (h.require n) fun _ => h.advance n

theorem readCount (width : Nat) :
    R (.room 0) (Unpacker.readCount s width) (Unpacker.readCount t width) (.room 0) :=
  h.bind (h.require width) fun _ => h.readField width

theorem skipRest {header : Header} (hu : header ≠ .undefined) :
    R (.room 0) (Unpacker.skipRest s header) (Unpacker.skipRest t header) (.room 0) := by
  cases header with
  | whole item => cases item <;> exact h.pure _
  | shortStr n | fixExt n => exact h.bind (h.pass _) fun _ => h.pure _
  | undefined => exact absurd rfl hu
  | field field width =>
      cases field with
      | unsigned | signed | float | double => exact h.bind (h.pass _) fun _ => h.pure _
      | array => exact h.readCount _
      | map => exact h.bind (h.readCount _) fun _ => h.pure _
      | str | bin | ext =>
          exact h.bind (h.readCount _) fun _ => h.bind (h.pass _) fun _ => h.pure _

/-! ### Whole items -/

section items

variable (hbegin : R (.room 0) (Unpacker.require s 1 .endOfInput)
    (Unpacker.require t 1 .endOfInput) (.room 1))
  (hmalformed : ∀ {α : Type} (q : Stage),
    R (.room 0) (stop .malformedInput : Engine σ α) (stop .malformedInput) q)

section tagged

include hmalformed

theorem decodeTagged (tag : UInt8) :
    R (.room 0) (Unpacker.decodeRest s (Header.ofTag tag))
      (Unpacker.decodeRest t (Header.ofTag tag)) .presented := by
  by_cases hu : Header.ofTag tag = .undefined
  · rw [hu]
    exact hmalformed _
  · exact h.decodeRest hu

theorem skipTagged (tag : UInt8) :
    R (.room 0) (Unpacker.skipRest s (Header.ofTag tag))
      (Unpacker.skipRest t (Header.ofTag tag)) (.room 0) := by
  by_cases hu : Header.ofTag tag = .undefined
  · rw [hu]
    exact hmalformed _
  · exact h.skipRest hu

end tagged

include hbegin

/-- An item begins with its tag, and the input may end before that. -/
theorem readTag : R (.room 0) (Unpacker.readTag s) (Unpacker.readTag t) (.room 0) :=
  h.bind hbegin fun _ => h.readByte

include hmalformed

theorem decodeItem : R (.room 0) (Unpacker.decodeItem s) (Unpacker.decodeItem t) .presented :=
  h.bind (h.readTag hbegin) (h.decodeTagged hmalformed)

theorem skipItem : R (.room 0) (Unpacker.skipItem s) (Unpacker.skipItem t) (.room 0) :=
  h.bind (h.readTag hbegin) (h.skipTagged hmalformed)

end items
end Pacing

/-! ### Taking bytes that are there -/

/-- What a relation between steps of contexts that can go on has to satisfy.  It holds of a step
that takes the bytes that are there. -/
structure Lockstep (s : Option (Supplier σ)) (t : Option (Supplier τ))
    (R : ∀ {α : Type}, Stage → Engine σ α → Engine τ α → Stage → Prop) : Prop where
  bind : ∀ {α β : Type} {p q r : Stage} {step : Engine σ α} {step' : Engine τ α}
    {next : α → Engine σ β} {next' : α → Engine τ β}, R p step step' q →
    (∀ a, R q (next a) (next' a) r) → R p (step >>= next) (step' >>= next') r
  pure : ∀ {α : Type} (p : Stage) (a : α), R p (pure a) (pure a) p
  malformed : ∀ {α : Type} (p q : Stage),
    R p (stop .malformedInput : Engine σ α) (stop .malformedInput) q
  require : ∀ n, R (.room 0) (Unpacker.require s n .bufferUnderflow)
    (Unpacker.require t n .bufferUnderflow) (.room n)
  forward : ∀ {α : Type} {n : Nat} {value : List UInt8 → α} {step : Engine σ α}
    {step' : Engine τ α}, Takes n value step → Takes n value step' →
    R (.room n) step step' (.room 0)
  /-- An item without a payload is complete at once. -/
  present : ∀ item : Item Span, item.payload? = none →
    R (.room 0) (Unpacker.present item) (Unpacker.present item) .presented
  payload : ∀ kind n, R (.room n) (takePayload kind n) (takePayload kind n) .presented

namespace Lockstep

variable {s : Option (Supplier σ)} {t : Option (Supplier τ)}
  {R : ∀ {α : Type}, Stage → Engine σ α → Engine τ α → Stage → Prop} (h : Lockstep s t R)

include h

theorem pacing : Pacing s t R where
  bind := h.bind
  pure a := h.pure _ a
  require := h.require
  readByte := h.forward takes_readByte takes_readByte
  readField _ := h.forward takes_readField takes_readField
  readSingle := h.forward takes_readSingle takes_readSingle
  readDouble := h.forward takes_readDouble takes_readDouble
  advance _ := h.forward takes_advance takes_advance
  present := h.present
  payload := h.payload

variable (hbegin : R (.room 0) (Unpacker.require s 1 .endOfInput)
  (Unpacker.require t 1 .endOfInput) (.room 1))

include hbegin

theorem decodeItem : R (.room 0) (Unpacker.decodeItem s) (Unpacker.decodeItem t) .presented :=
  h.pacing.decodeItem hbegin (h.malformed _)

theorem skipItem : R (.room 0) (Unpacker.skipItem s) (Unpacker.skipItem t) (.room 0) :=
  h.pacing.skipItem hbegin (h.malformed _)

end Lockstep
end MessagePack
