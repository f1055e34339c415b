import MessagePack.Packer
import MessagePack.Stream.Sink

/-! # Packing to a stream

Values are packed into a buffer, which is written to a sink whenever the next
value does not fit.  A value that is larger than the buffer gets a new buffer of
its own size.

A device failure stops the context with `Status.errorInHandler`; the failure is
kept as the context's fault.
-/

namespace MessagePack

/-- A packer with a sink. -/
abbrev StreamPacker := Context Sink

namespace StreamPacker

/-- The size of a buffer that is given none. -/
def defaultSize : Nat := 4096

/-- Write all that is packed.  The cursor goes back to the start once all of it is written. -/
def drain (r : Region Sink) : Except Fault Unit × Region Sink :=
  match r.peer.writeAll r.done 0 with
  | (.ok (), sink) => (.ok (), { r with peer := sink, current := r.start })
  | (.error fault, sink) => (.error fault, { r with peer := sink })

/-- Make room by writing, and by a new buffer if that is not enough. -/
def makeRoom : Handler Sink := fun needed r =>
  match drain r with
  | (.error fault, r) =>
    if fault.isDevice then (.ok .errorInHandler, r.keepFault fault) else (.error fault, r)
  | (.ok (), r) =>
    if r.current + needed ≤ r.limit then (.ok .ok, r)
    else
      let r := r.noteGrowth r.bytes.size needed
      (.ok .ok, { r with
        buffer := r.buffer.replace (Bytes.zeros needed)
        start := 0, current := 0, limit := needed })

/-- Write all that is packed, and flush the sink. -/
def drainAndFlush (r : Region Sink) : Except Fault Unit × Region Sink :=
  match drain r with
  | (.error fault, r) => (.error fault, r)
  | (.ok (), r) =>
    let (result, sink) := r.peer.flush
    (result, { r with peer := sink })

/-- A packer to a sink, with a buffer of the given size to begin with. -/
def new (sink : Sink) (size : Nat) (assumptions : Assumptions) : Except Fault StreamPacker :=
  Context.new .streamPacker assumptions (Bytes.zeros size) 0 none sink

/-- Append a value. -/
def pack (v : Value) : Engine Sink Unit := Packer.pack (some makeRoom) v

/-- Write all that is packed, and flush the sink.  Only a device failure stops the context. -/
def flush : Engine Sink Unit := do
  Engine.running
  fun c =>
    match drainAndFlush c.toRegion with
    | (.ok (), r) => .ok () (c.within r)
    | (.error fault, r) =>
      if fault.isDevice then Engine.stop .errorInHandler (c.within (r.keepFault fault))
      else .error (.fault fault) (c.within r)

end StreamPacker
end MessagePack
