import MessagePack.Packer.Growing
import MessagePack.Stream.Sink

/-! # Writing whole items to a stream

A writer packs into a growing buffer and takes the packed bytes out from its
front when they are written.

* `ItemWriter.commit` writes whole multiples of the chunk size.
* `ItemWriter.flush` writes everything.
* `ItemWriter.close` writes everything, unless packing has failed.

Nothing is written once the packer has latched an error.  Bytes are taken out
before they are offered to the sink, which reports no short writes.
-/

namespace MessagePack

/-- A writer of items. -/
structure ItemWriter where
  packer : GrowingPacker
  sink : Sink
  chunkSize : Nat
  deriving DecidableEq, Repr

namespace ItemWriter

/-- The size of a chunk if none is given. -/
def defaultSize : Nat := 65536

/-- A writer to a sink. -/
def new (sink : Sink) (chunkSize : Nat) (assumptions : Assumptions) : Except Refusal ItemWriter :=
  match Context.checked (GrowingPacker.new chunkSize assumptions) with
  | .error refusal => .error refusal
  | .ok packer => .ok { packer, sink, chunkSize }

/-- Offer bytes to the sink. -/
def write (w : ItemWriter) (data : Bytes) : Except Failure Unit × ItemWriter :=
  match w.sink.write data with
  | (.ok _, sink) => (.ok (), { w with sink })
  | (.error fault, sink) => (.error (.fault fault), { w with sink })

/-- Write whole chunks. -/
def commit (w : ItemWriter) : Except Failure Unit × ItemWriter :=
  match w.packer.check with
  | .error e => (.error (.stop e), w)
  | .ok () =>
    let packed := w.packer.current - w.packer.start
    if packed < w.chunkSize then (.ok (), w)
    else if w.chunkSize = 0 then (.error (.fault .zeroChunk), w)
    else
      let (data, packer) := GrowingPacker.take w.packer
        (some (w.chunkSize * (packed / w.chunkSize) : Nat))
      { w with packer }.write data

/-- Write all that is packed, and flush the sink too if asked to. -/
def flush (w : ItemWriter) (force : Bool) : Except Failure Unit × ItemWriter :=
  match w.packer.check with
  | .error e => (.error (.stop e), w)
  | .ok () =>
    let (data, packer) := GrowingPacker.take w.packer none
    let w := { w with packer }
    let (result, w) := if data.isEmpty then (.ok (), w) else w.write data
    match result with
    | .error failure => (.error failure, w)
    | .ok () =>
      if force then
        match w.sink.flush with
        | (.ok (), sink) => (.ok (), { w with sink })
        | (.error fault, sink) => (.error (.fault fault), { w with sink })
      else (.ok (), w)

/-- Leave the writer, with the failure that ended its use if there is one.  A failure to write
the rest takes its place. -/
def close (w : ItemWriter) (leaving : Option Failure) : Except Failure Unit × ItemWriter :=
  let (result, w) := if w.packer.status = .ok then w.flush true else (.ok (), w)
  match result, leaving with
  | .error failure, _ => (.error failure, w)
  | .ok (), some failure => (.error failure, w)
  | .ok (), none => (.ok (), w)

end ItemWriter
end MessagePack
