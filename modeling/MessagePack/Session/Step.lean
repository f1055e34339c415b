import MessagePack.Unpacker

/-! # Sessions

The calls on a context can be given as data: a session is a list of steps, and
each step has an answer.  So statements about sequences of calls are statements
about lists of steps.

* `Session.Step` are the steps that all contexts have in common.
* `Answer` is what any step of a session answers.
-/

namespace MessagePack

/-- An item with its payload as it is when the item is looked at. -/
structure Sight where
  item : Item Span
  view : Bytes
  deriving DecidableEq, Repr

namespace Sight

/-- Look at an item. -/
def of (b : Buffer) (i : Item Span) : Sight :=
  ⟨i, (i.payload?.map (Span.view b)).getD #[]⟩

end Sight

/-- What a step answers. -/
inductive Answer
  | nothing
  | status (status : Status)
  | number (n : Int)
  | text (text : String)
  | bytes (bytes : Bytes)
  | flag (value : Bool)
  | order (order : Option ByteOrder)
  | item (sight : Option Sight)
  /-- A decoded item. -/
  | decoded (sight : Option Sight)
  /-- An item that owns its payload, and whether it is the item itself. -/
  | detached (same : Bool) (sight : Option Sight)
  | items (sights : Array (Option Sight)) (ending : Unpacker.Ending)
  deriving DecidableEq, Repr

/-- A bound of a region, given as a number or as one of the context's own. -/
inductive Mark
  | at (pos : Int)
  | start
  | current
  | limit
  deriving DecidableEq, Repr

namespace Session

variable {σ : Type}

/-- What a step that returns a status answers. -/
def ofStatus (result : Except Fault Status × Context σ) : Except Failure Answer × Context σ :=
  match result with
  | (.ok status, c) => (.ok (.status status), c)
  | (.error fault, c) => (.error (.fault fault), c)

/-- The steps that all contexts have in common. -/
inductive Step
  | check
  | remaining
  | describe
  | order
  | contents
  | latch (status : Status)
  | init (bytes : Bytes) (first : Mark) (last : Option Mark)
  | rebind (first : Mark) (last : Option Mark)
  | poke (pos : Nat) (data : Bytes)
  deriving DecidableEq, Repr

/-- The position that a mark stands for. -/
def resolve (c : Context σ) : Mark → Int
  | .at pos => pos
  | .start => c.start
  | .current => c.current
  | .limit => c.limit

/-- Take a step. -/
def step (c : Context σ) : Step → Except Failure Answer × Context σ
  | .check =>
    match c.check with
    | .ok () => (.ok .nothing, c)
    | .error e => (.error (.stop e), c)
  | .remaining => (.ok (.number c.remaining), c)
  | .describe => (.ok (.text c.describe), c)
  | .order => (.ok (.order c.order), c)
  | .contents => (.ok (.bytes c.bytes), c)
  | .latch status => (.ok (.status status), c.latch status)
  | .init bytes first last => ofStatus (c.init bytes (resolve c first) (last.map (resolve c)))
  | .rebind first last => ofStatus (c.rebind (resolve c first) (last.map (resolve c)))
  | .poke pos data => (.ok .nothing, c.modifyBytes (Bytes.splice c.bytes pos data))

end Session

end MessagePack
