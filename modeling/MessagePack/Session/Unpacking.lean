import MessagePack.Session.Step

/-! # Sessions with unpackers

Besides the steps that read, an unpacker's caller can keep items by name and use
them later, when the buffer may have changed.
-/

namespace MessagePack

/-- Where an item is to be found. -/
inductive Slot
  /-- In the context, as the last one decoded. -/
  | current
  /-- Under the name it was kept by. -/
  | named (name : String)
  deriving DecidableEq, Repr

/-- The steps of an unpacker. -/
inductive UnpackStep
  | decode
  | skip (count : Int)
  | items (atMost : Option Nat)
  | hold (name : String)
  | look (slot : Slot)
  | detach (slot : Slot) (name : String)
  | text (slot : Slot)
  | view (slot : Slot)
  | describeItem (slot : Slot)
  | same (a b : Slot)
  | common (step : Session.Step)
  deriving DecidableEq, Repr

/-- An unpacker and the items kept from it, the latest first. -/
structure UnpackSession (σ : Type) where
  context : Context σ
  kept : List (String × Option (Item Span)) := []
  deriving DecidableEq, Repr

namespace UnpackSession

variable {σ : Type}

/-- The item in a slot. -/
def find (s : UnpackSession σ) : Slot → Option (Item Span)
  | .current => s.context.item
  | .named name => (s.kept.lookup name).join

/-- Keep an item under a name. -/
def keep (s : UnpackSession σ) (name : String) (item : Option (Item Span)) : UnpackSession σ :=
  { s with kept := (name, item) :: s.kept }

/-- Look at the item that a context decoded last. -/
def sight (c : Context σ) : Option Sight := c.item.map (Sight.of c.buffer)

/-- The result of a call on the item in a slot, which is wanted for the given property. -/
def onItem (s : UnpackSession σ) (slot : Slot) (property : String)
    (f : Buffer → Item Span → Except Fault Answer) : Except Failure Answer :=
  match s.find slot with
  | none => .error (.fault (.noItem property))
  | some item =>
    match f s.context.buffer item with
    | .ok answer => .ok answer
    | .error fault => .error (.fault fault)

/-- The description of the item in a slot. -/
def describe (s : UnpackSession σ) (slot : Slot) : String :=
  match s.find slot with
  | none => "None"
  | some item => item.describe Span.length

/-- The items in two slots are equal, as far as there are any. -/
def same (s : UnpackSession σ) (a b : Slot) : Bool :=
  match s.find a, s.find b with
  | some a, some b => (a.resolve s.context.buffer).same (b.resolve s.context.buffer)
  | none, none => true
  | _, _ => false

/-- Take a step, with the help of a handler. -/
def run (supplier : Option (Supplier σ)) (s : UnpackSession σ) :
    UnpackStep → Except Failure Answer × UnpackSession σ
  | .decode =>
    match (Unpacker.decode supplier).run s.context with
    | (.ok status, context) =>
      let answer := if status = .ok then .decoded (sight context) else .status status
      (.ok answer, { s with context })
    | (.error fault, context) => (.error (.fault fault), { s with context })
  | .skip count =>
    let (answer, context) := Session.ofStatus ((Unpacker.skip supplier count).run s.context)
    (answer, { s with context })
  | .items atMost =>
    let (sights, ending, context) := Unpacker.items supplier sight atMost s.context
    (.ok (.items sights ending), { s with context })
  | .hold name => (.ok .nothing, s.keep name s.context.item)
  | .look slot => (.ok (.item ((s.find slot).map (Sight.of s.context.buffer))), s)
  | .detach slot name =>
    match s.find slot with
    | none => (.error (.fault (.noItem "detach")), s)
    | some item =>
      let copy := item.detach s.context.buffer
      (.ok (.detached item.isDetached (some (Sight.of s.context.buffer copy))),
        s.keep name (some copy))
  | .text slot => (s.onItem slot "text" fun b i => (i.text b).map .text, s)
  | .view slot => (s.onItem slot "view" fun b i => (i.view b).map .bytes, s)
  | .describeItem slot => (.ok (.text (s.describe slot)), s)
  | .same a b => (.ok (.flag (s.same a b)), s)
  | .common step =>
    let (answer, context) := Session.step s.context step
    (answer, { s with context })

end UnpackSession
end MessagePack
