import MessagePack.Bytes
import MessagePack.Fault

/-! # Byte sinks

A sink is a stream that is written to.  What it does with the writes is known in
advance: a queue of replies, after which it takes all that it is offered.

* `Sink.write` offers bytes and returns the number that the sink reports, or
  `none` if it reports nothing.
* `Sink.writeAll` repeats short writes until all bytes are reported as written.
* `Sink.flush` passes a flush on, if the sink can be flushed.
* `Sink.accepted` holds the bytes that the sink took, and `Sink.journal` what was
  asked of it.
-/

namespace MessagePack

/-- What a sink does at one write. -/
inductive Reply
  /-- Take all bytes and report them. -/
  | all
  /-- Take at most so many bytes and report them. -/
  | upTo (count : Nat)
  /-- Take all bytes and report nothing. -/
  | silent
  /-- Take all bytes and report so many more. -/
  | inExcess (extra : Nat)
  /-- Take nothing. -/
  | fault (fault : Fault)
  deriving DecidableEq, Repr

/-- What was asked of a sink, and how it answered. -/
inductive SinkEvent
  | write (offered : Bytes) (reported : Option Nat)
  | writeRaised (offered : Bytes)
  | flush
  | flushRaised
  deriving DecidableEq, Repr

/-- A stream to write to. -/
structure Sink where
  replies : List Reply := []
  /-- The faults of the flushes to come, if the sink can be flushed. -/
  flushes : Option (List (Option Fault)) := none
  accepted : Bytes := #[]
  journal : Array SinkEvent := #[]
  deriving DecidableEq, Repr

namespace Sink

/-- How many bytes a sink takes, and how many it reports. -/
def take (reply : Reply) (size : Nat) : Except Fault (Nat × Option Nat) :=
  match reply with
  | .all => .ok (size, some size)
  | .upTo count => .ok (min count size, some (min count size))
  | .silent => .ok (size, none)
  | .inExcess extra => .ok (size, some (size + extra))
  | .fault fault => .error fault

/-- Offer bytes: the number of bytes reported as written. -/
def write (s : Sink) (data : Bytes) : Except Fault (Option Nat) × Sink :=
  match take (s.replies.headD .all) data.size with
  | .ok (taken, reported) =>
    (.ok reported, { s with
      replies := s.replies.tail
      accepted := s.accepted ++ Bytes.slice data 0 taken
      journal := s.journal.push (.write data reported) })
  | .error fault =>
    (.error fault, { s with
      replies := s.replies.tail
      journal := s.journal.push (.writeRaised data) })

@[simp] theorem replies_write (s : Sink) (data : Bytes) :
    (s.write data).2.replies = s.replies.tail := by
  simp only [write]
  split <;> rfl

/-- A sink without replies left reports all bytes. -/
theorem write_of_nil {s : Sink} (h : s.replies = []) (data : Bytes) :
    (s.write data).1 = .ok (some data.size) := by
  simp [write, h, take]

/-- Offer the bytes from `pos` on until the sink has reported all of them.  A sink that reports
nothing has taken all that it was offered. -/
def writeAll (s : Sink) (data : Bytes) (pos : Nat) : Except Fault Unit × Sink :=
  if pos < data.size then
    let offered := Bytes.slice data pos data.size
    match _h : s.write offered with
    | (.error fault, s') => (.error fault, s')
    | (.ok none, s') => (.ok (), s')
    | (.ok (some count), s') => s'.writeAll data (pos + count)
  else (.ok (), s)
termination_by (s.replies.length, data.size - pos)
decreasing_by
  rename_i hpos
  have hr : s'.replies = s.replies.tail := by rw [← replies_write s offered, _h]
  cases hs : s.replies with
  | cons reply rest =>
    rw [hs] at hr
    simp only [Prod.lex_def, hr, List.tail_cons, List.length_cons]
    exact .inl (Nat.lt_succ_self _)
  | nil =>
    have hw := write_of_nil hs offered
    rw [_h] at hw
    simp only [Except.ok.injEq, Option.some.injEq] at hw
    have hsize : offered.size = data.size - pos := by simp [offered, Bytes.size_slice]
    rw [hs] at hr
    simp only [Prod.lex_def, hr, List.tail_nil, List.length_nil, hw, hsize]
    refine .inr ⟨trivial, ?_⟩
    omega

/-- Pass a flush on. -/
def flush (s : Sink) : Except Fault Unit × Sink :=
  match s.flushes with
  | none => (.ok (), s)
  | some faults =>
    let s := { s with flushes := some faults.tail }
    match faults.headD none with
    | none => (.ok (), { s with journal := s.journal.push .flush })
    | some fault => (.error fault, { s with journal := s.journal.push .flushRaised })

end Sink
end MessagePack
