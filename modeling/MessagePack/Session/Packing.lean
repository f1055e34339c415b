import MessagePack.Packer.Argument
import MessagePack.Packer.Growing
import MessagePack.Packer.Streaming
import MessagePack.Session.Step

/-! # Sessions with packers

* `PackStep` are the steps of any packer.
* `GrowingStep` adds taking bytes out, for a growing buffer.
* `FlushingStep` adds flushing, for a sink.
-/

namespace MessagePack

/-- The steps of a packer. -/
inductive PackStep
  | pack (value : Value)
  | give (request : Request)
  | packed
  | common (step : Session.Step)
  deriving DecidableEq, Repr

namespace PackStep

variable {σ : Type}

/-- Take a step, with the help of a handler. -/
def run (handler : Option (Handler σ)) (c : Context σ) :
    PackStep → Except Failure Answer × Context σ
  | pack value => Session.ofStatus ((Packer.pack handler value).run c)
  | give request => Session.ofStatus ((Packer.give handler request).run c)
  | packed => (.ok (.bytes c.done), c)
  | common step => Session.step c step

end PackStep

/-- The steps of a packer with a growing buffer. -/
inductive GrowingStep
  | packing (step : PackStep)
  | take (n : Option Int)
  deriving DecidableEq, Repr

namespace GrowingStep

/-- Take a step. -/
def run (c : GrowingPacker) : GrowingStep → Except Failure Answer × GrowingPacker
  | packing step => step.run (some GrowingPacker.grow) c
  | take n =>
    let (taken, c) := GrowingPacker.take c n
    (.ok (.bytes taken), c)

end GrowingStep

/-- The steps of a packer with a sink. -/
inductive FlushingStep
  | packing (step : PackStep)
  | flush
  deriving DecidableEq, Repr

namespace FlushingStep

/-- Take a step. -/
def run (c : StreamPacker) : FlushingStep → Except Failure Answer × StreamPacker
  | packing step => step.run (some StreamPacker.makeRoom) c
  | flush => Session.ofStatus (StreamPacker.flush.run c)

end FlushingStep

end MessagePack
