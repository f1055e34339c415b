import MessagePack.ByteOrder
import MessagePack.Item
import MessagePack.Region

/-! # Contexts

A context is a region together with a latch for the first status that is not
`ok`.  A handler sees the region only, so the latch, the byte order and the last
item are out of its reach.

* `Context.latch` sets the status, `Context.check` reports it as an error.
* `Context.init` and `Context.rebind` bind the context to a region anew and clear
  the latch.
* `Context.new` makes a context, and `Context.checked` refuses one that is stopped
  already.
* `item` is the last item decoded; packing leaves it alone.
-/

namespace MessagePack

/-- Why something could not be made, and what was logged until then. -/
structure Refusal where
  failure : Failure
  log : Array Record := #[]
  deriving DecidableEq, Repr

/-- A region and a latch. -/
structure Context (σ : Type) extends Region σ where
  assumptions : Assumptions
  status : Status := .ok
  order : Option ByteOrder := none
  item : Option (Item Span) := none
  deriving DecidableEq, Repr

namespace Context

variable {σ : Type}

/-- The same context with another region. -/
def within (c : Context σ) (r : Region σ) : Context σ := { c with toRegion := r }

/-- Change the buffer in place. -/
def modifyBytes (c : Context σ) (bytes : Bytes) : Context σ :=
  c.within (c.toRegion.modifyBytes bytes)

@[simp] theorem bytes_modifyBytes (c : Context σ) (bytes : Bytes) :
    (c.modifyBytes bytes).bytes = bytes := rfl

/-- Make `status` the status of the context. -/
def latch (c : Context σ) (status : Status) : Context σ :=
  { c.within (c.note .latch .debug ("stopped: " ++ status.name)) with status }

/-- Fails with the error of the latched status, if there is one. -/
def check (c : Context σ) : Except StopError Unit := c.status.raise none c.fault

/-! ### Binding to a region -/

/-- The range `start` to `stop` of a buffer of `size` bytes, which must lie in it. -/
def range? (size : Nat) (start : Int) (stop : Option Int) : Except Fault (Nat × Nat) :=
  let stop := stop.getD size
  if 0 ≤ start ∧ start ≤ stop ∧ stop ≤ size then .ok (start.toNat, stop.toNat)
  else .error (.badRegion start stop size)

/-- The whole of a buffer is a range of it. -/
@[simp] theorem range?_whole (size : Nat) : range? size 0 none = .ok (0, size) := by
  simp [range?]

/-- A range that is accepted lies in the buffer. -/
theorem le_of_range?_eq_ok {size first last : Nat} {start : Int} {stop : Option Int}
    (h : range? size start stop = .ok (first, last)) : first ≤ last ∧ last ≤ size := by
  simp only [range?] at h
  split at h
  · simp only [Except.ok.injEq, Prod.mk.injEq] at h
    obtain ⟨rfl, rfl⟩ := h
    omega
  · simp at h

/-- Bind the context to a range of a buffer and clear the latch.  The byte order is selected
anew; if the assumptions contradict the host, the context stays stopped. -/
def bind (c : Context σ) (buffer : Buffer) (start : Int) (stop : Option Int) :
    Except Fault Status × Context σ :=
  match range? buffer.bytes.size start stop with
  | .error fault => (.error fault, c)
  | .ok (start, stop) =>
    let c := { c with
      buffer, start, current := start, limit := stop
      status := .ok, errorNumber := 0, fault := none }
    match c.assumptions.select with
    | .error fault => (.error fault, c)
    | .ok none => (.ok .wrongByteOrder, { c with order := none }.latch .wrongByteOrder)
    | .ok (some order) => (.ok .ok, { c with order := some order })

/-- Bind the context to a range of a new buffer. -/
def init (c : Context σ) (bytes : Bytes) (start : Int) (stop : Option Int) :
    Except Fault Status × Context σ :=
  c.bind (c.buffer.replace bytes) start stop

/-- Bind the context to a range of its present buffer. -/
def rebind (c : Context σ) (start : Int) (stop : Option Int) :
    Except Fault Status × Context σ :=
  c.bind c.buffer start stop

/-- Binding anew keeps the buffer. -/
theorem buffer_rebind (c : Context σ) (start : Int) (stop : Option Int) :
    (c.rebind start stop).2.buffer = c.buffer := by
  unfold rebind bind
  split
  · rfl
  · dsimp only
    split <;> rfl

/-- A context for a range of a buffer. -/
def new (kind : Kind) (assumptions : Assumptions) (bytes : Bytes) (start : Int)
    (stop : Option Int) (peer : σ) : Except Fault (Context σ) :=
  let blank : Context σ := { kind, assumptions, buffer := ⟨bytes, #[]⟩, peer }
  match blank.rebind start stop with
  | (.ok _, c) => .ok c
  | (.error fault, _) => .error fault

/-- Refuse a new context that is stopped from the beginning. -/
def checked (fresh : Except Fault (Context σ)) : Except Refusal (Context σ) :=
  match fresh with
  | .error fault => .error { failure := .fault fault }
  | .ok c =>
    match c.check with
    | .error e => .error { failure := .stop e, log := c.log }
    | .ok () => .ok c

end Context
end MessagePack
