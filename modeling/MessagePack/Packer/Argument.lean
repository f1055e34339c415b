import MessagePack.Packer
import MessagePack.View

/-! # Packing what is given

The payload of a string, a binary or an extension may be given as something else than bytes.  Its
bytes are taken before there is anything to pack, and the type of an extension is checked before
that.
-/

namespace MessagePack

/-- What a packer is asked to pack. -/
inductive Request
  /-- A value that is complete. -/
  | plain (value : Value)
  | str (data : Data)
  | bin (data : Data)
  | ext (type : Int) (data : Data)
  deriving DecidableEq, Repr

/-- The value that is asked for. -/
def Request.value : Request → Except Fault Value
  | plain value => .ok value
  | str data => data.raw.map .str
  | bin data => data.raw.map .bin
  | ext type data =>
    if type < -0x80 ∨ 0x7F < type then .error (.subtypeRange type) else data.raw.map (.ext type)

namespace Packer

/-- Append what is asked for, unless a status is latched. -/
def give {σ : Type} (handler : Option (Handler σ)) (request : Request) : Engine σ Unit := do
  Engine.running
  let value ← Engine.lift request.value
  pack handler value

end Packer
end MessagePack
