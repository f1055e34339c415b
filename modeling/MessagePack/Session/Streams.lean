import MessagePack.ItemReader
import MessagePack.ItemWriter
import MessagePack.Session.Packing

/-! # Sessions with item streams

* `ReadStep` are the calls on a reader of items.
* `WriteStep` are the calls on a writer of items and on its packer.
-/

namespace MessagePack

/-- The steps of a reader of items. -/
inductive ReadStep
  | next
  | all
  | skip (count : Int)
  deriving DecidableEq, Repr

/-- What the step of a reader answers. -/
inductive ReadAnswer
  /-- An item, or the end. -/
  | item (item : Option (Item Span))
  | items (items : Array (Item Span))
  | skipped
  deriving DecidableEq, Repr

namespace ReadStep

/-- Take a step. -/
def run (r : ItemReader) : ReadStep → Except Failure ReadAnswer × ItemReader
  | next =>
    let (result, r) := r.next
    (result.map .item, r)
  | all =>
    let (result, r) := r.all
    (result.map .items, r)
  | skip count =>
    let (result, r) := r.skip count
    (result.map fun _ => .skipped, r)

end ReadStep

/-- The steps of a writer of items. -/
inductive WriteStep
  | packing (step : GrowingStep)
  | commit
  | flush (force : Bool)
  deriving DecidableEq, Repr

namespace WriteStep

/-- Take a step. -/
def run (w : ItemWriter) : WriteStep → Except Failure Answer × ItemWriter
  | packing step =>
    let (answer, packer) := step.run w.packer
    (answer, { w with packer })
  | commit =>
    let (result, w) := w.commit
    (result.map fun _ => .nothing, w)
  | flush force =>
    let (result, w) := w.flush force
    (result.map fun _ => .nothing, w)

end WriteStep
end MessagePack
