import MessagePack.ItemWriter
import MessagePack.Proofs.Queueing
import Mathlib

/-! # What a writer of items does with its bytes

A writer takes bytes out of its packer before it offers them to the sink.  So every packed byte is
offered once and in order, but a chunk whose write raises a fault is offered no second time: the
sink goes without it from then on (`ItemWriter.offered_once`).  What the sink has taken is a prefix
of what was packed until a write goes through after one that has raised. -/

namespace MessagePack

/-! ### What sinks are given -/

namespace SinkEvent

/-- The bytes that a sink is offered. -/
def offered : SinkEvent → List UInt8
  | write data _ | writeRaised data => data.toList
  | flush | flushRaised => []

/-- The bytes that a sink is offered and does not refuse. -/
def granted : SinkEvent → List UInt8
  | write data _ => data.toList
  | writeRaised _ | flush | flushRaised => []

/-- What is granted is a prefix of what is offered, until a write goes through after a refused
one. -/
theorem granted_prefix {events : List SinkEvent}
    (h : ∀ before data after, events = before ++ .writeRaised data :: after →
      after.flatMap granted = []) :
    events.flatMap granted <+: events.flatMap offered := by
  induction events with
  | nil => exact List.prefix_refl _
  | cons event events ih =>
      have hrest := ih fun before data after he =>
        h (event :: before) data after (congrArg (event :: ·) he)
      rw [List.flatMap_cons, List.flatMap_cons]
      cases event with
      | writeRaised data =>
          rw [h [] data events rfl]
          exact List.nil_prefix
      | write | flush | flushRaised => exact (List.prefix_append_right_inj _).mpr hrest

end SinkEvent

namespace Sink

/-- All bytes that the sink was offered, in order. -/
def offered (s : Sink) : List UInt8 := s.journal.toList.flatMap SinkEvent.offered

/-- All bytes of the writes that it has not refused, in order. -/
def granted (s : Sink) : List UInt8 := s.journal.toList.flatMap SinkEvent.granted

/-- The sink takes all bytes of a write or none. -/
def Whole (s : Sink) : Prop := ∀ count, Reply.upTo count ∉ s.replies

/-- The sink has taken exactly the bytes of the writes that went through. -/
structure Booked (s : Sink) : Prop where
  whole : s.Whole
  accepted : s.accepted.toList = s.granted

theorem take_of_whole {s : Sink} (h : s.Whole) {size taken : Nat} {reported : Option Nat}
    (ht : take (s.replies.headD .all) size = .ok (taken, reported)) : taken = size := by
  cases hr : s.replies.headD .all with
  | upTo count =>
      cases hs : s.replies with
      | nil => simp [hs] at hr
      | cons reply rest =>
          obtain rfl : reply = .upTo count := by simpa [hs] using hr
          exact absurd (hs ▸ List.mem_cons_self ..) (h count)
  | all | silent | inExcess | fault => simp_all [take]

theorem Whole.tail {s t : Sink} (h : s.Whole) (ht : t.replies = s.replies.tail) : t.Whole :=
  fun count hm => h count (List.mem_of_mem_tail (ht ▸ hm))

/-- One write: all of the data is booked, or none. -/
theorem Booked.write {s : Sink} (h : s.Booked) (data : Bytes) :
    (s.write data).2.Booked ∧ (s.write data).2.offered = s.offered ++ data.toList := by
  unfold Sink.write
  cases ht : take (s.replies.headD .all) data.size with
  | ok answer =>
      obtain ⟨taken, reported⟩ := answer
      obtain rfl := take_of_whole h.whole ht
      refine ⟨⟨h.whole.tail rfl, ?_⟩, ?_⟩
      · simp [granted, SinkEvent.granted, Bytes.slice, h.accepted]
      · simp [offered, SinkEvent.offered]
  | error fault =>
      refine ⟨⟨h.whole.tail rfl, ?_⟩, ?_⟩
      · simp [granted, SinkEvent.granted, h.accepted]
      · simp [offered, SinkEvent.offered]

theorem Booked.flush {s : Sink} (h : s.Booked) :
    s.flush.2.Booked ∧ s.flush.2.offered = s.offered := by
  unfold Sink.flush
  cases s.flushes with
  | none => exact ⟨h, rfl⟩
  | some faults =>
      dsimp only
      cases faults.headD none with
      | none | some fault =>
          refine ⟨⟨h.whole, ?_⟩, ?_⟩
          · simp [granted, SinkEvent.granted, h.accepted]
          · simp [offered, SinkEvent.offered]

end Sink

/-! ### Calls of a writer -/

namespace ItemWriter

/-- A call of a writer, or of its packer.  Whatever a call raises may be caught. -/
inductive Call
  | pack (v : Value)
  | commit
  | flush (force : Bool)
  | close (leaving : Option Failure)
  deriving DecidableEq, Repr

namespace Call

/-- What a call does. -/
def run (w : ItemWriter) : Call → ItemWriter
  | pack v => { w with packer := ((GrowingPacker.pack v).run w.packer).2 }
  | commit => w.commit.2
  | flush force => (w.flush force).2
  | close leaving => (w.close leaving).2

/-- What a call adds to the packed bytes: a value without an encoding adds nothing. -/
def encoding : Call → List UInt8
  | pack v => v.encoding
  | commit | flush _ | close _ => []

end Call

/-- Make calls one after another. -/
def runAll (calls : List Call) (w : ItemWriter) : ItemWriter := calls.foldl Call.run w

/-- Writing leaves the packer alone, whatever the sink reports. -/
theorem snd_write (w : ItemWriter) (data : Bytes) :
    (w.write data).2 = { w with sink := (w.sink.write data).2 } := by
  unfold ItemWriter.write
  split <;> simp_all

/-- Every byte of `expected` has been offered to the sink, or is pending. -/
structure Accounted (expected : List UInt8) (w : ItemWriter) : Prop where
  booked : w.sink.Booked
  live : w.packer.Live
  offered : w.sink.offered ++ w.packer.pending = expected

section steps

variable {expected : List UInt8} {w : ItemWriter} (h : Accounted expected w)

include h

/-- Bytes from the front of the packer are offered to the sink. -/
theorem Accounted.write {data : Bytes} {packer : GrowingPacker} (hl : packer.Live)
    (hp : data.toList ++ packer.pending = w.packer.pending) :
    Accounted expected ({ w with packer }.write data).2 := by
  obtain ⟨hb, ho⟩ := h.booked.write data
  rw [snd_write]
  refine ⟨hb, hl, ?_⟩
  rw [ho, List.append_assoc, hp]
  exact h.offered

theorem Accounted.pack (v : Value) :
    Accounted (expected ++ v.encoding)
      { w with packer := ((GrowingPacker.pack v).run w.packer).2 } := by
  obtain ⟨hl, hp, -⟩ := GrowingPacker.run_pack h.live v
  refine ⟨h.booked, hl, ?_⟩
  rw [hp, ← List.append_assoc, h.offered]

theorem Accounted.commit : Accounted expected w.commit.2 := by
  unfold ItemWriter.commit
  split
  · exact h
  · dsimp only
    split_ifs
    · exact h
    · exact h
    · obtain ⟨ht, hp, hl⟩ := GrowingPacker.take_eq h.live
        (some (w.chunkSize * ((w.packer.current - w.packer.start) / w.chunkSize)))
      rw [Option.map_some] at ht hp hl
      exact h.write hl (by rw [ht, hp, List.take_append_drop])

theorem Accounted.flushSink : Accounted expected { w with sink := w.sink.flush.2 } := by
  obtain ⟨hb, ho⟩ := h.booked.flush
  refine ⟨hb, h.live, ?_⟩
  rw [ho]
  exact h.offered

theorem Accounted.flush (force : Bool) : Accounted expected (w.flush force).2 := by
  unfold ItemWriter.flush
  split
  · exact h
  · obtain ⟨ht, hp, hl⟩ := GrowingPacker.take_eq h.live none
    rw [Option.map_none] at ht hp hl
    generalize GrowingPacker.take w.packer none = taken at ht hp hl
    obtain ⟨data, packer⟩ := taken
    dsimp only at ht hp hl ⊢
    have hdata : data.toList ++ packer.pending = w.packer.pending := by
      rw [ht, hp, List.take_append_drop]
    have hwritten : Accounted expected
        (if data.isEmpty then (.ok (), { w with packer }) else { w with packer }.write data :
          Except Failure Unit × ItemWriter).2 := by
      split_ifs with hempty
      · obtain rfl := Array.isEmpty_iff.mp hempty
        exact ⟨h.booked, hl, by rw [← h.offered, ← hdata]; rfl⟩
      · exact h.write hl hdata
    generalize (if data.isEmpty then (.ok (), { w with packer }) else { w with packer }.write data :
      Except Failure Unit × ItemWriter) = written at hwritten
    obtain ⟨result, w'⟩ := written
    cases result with
    | error failure => exact hwritten
    | ok =>
        dsimp only
        have hflush := hwritten.flushSink
        split_ifs
        · split <;> simp_all
        · exact hwritten

theorem Accounted.close (leaving : Option Failure) : Accounted expected (w.close leaving).2 := by
  have hflushed : Accounted expected
      (if w.packer.status = .ok then w.flush true else (.ok (), w) :
        Except Failure Unit × ItemWriter).2 := by
    split_ifs
    · exact h.flush true
    · exact h
  unfold ItemWriter.close
  generalize (if w.packer.status = .ok then w.flush true else (.ok (), w) :
    Except Failure Unit × ItemWriter) = flushed at hflushed
  obtain ⟨result, w'⟩ := flushed
  cases result <;> cases leaving <;> exact hflushed

theorem Accounted.run (call : Call) : Accounted (expected ++ call.encoding) (call.run w) := by
  cases call with
  | pack v => exact h.pack v
  | commit => exact (List.append_nil expected).symm ▸ h.commit
  | flush force => exact (List.append_nil expected).symm ▸ h.flush force
  | close leaving => exact (List.append_nil expected).symm ▸ h.close leaving

theorem Accounted.runAll (calls : List Call) :
    Accounted (expected ++ calls.flatMap Call.encoding) (runAll calls w) := by
  induction calls generalizing expected w with
  | nil => exact (List.append_nil expected).symm ▸ h
  | cons call calls ih =>
      rw [List.flatMap_cons, ← List.append_assoc]
      exact ih (h.run call)

end steps

theorem accounted_new {sink : Sink} (hs : sink.Whole) (ha : sink.accepted = #[])
    (hj : sink.journal = #[]) {size : Nat} {a : Assumptions} {w : ItemWriter}
    (hnew : new sink size a = .ok w) : Accounted [] w := by
  unfold new at hnew
  cases hc : Context.checked (GrowingPacker.new size a) with
  | error refusal => simp [hc] at hnew
  | ok packer =>
      obtain rfl : { packer, sink, chunkSize := size } = w := by simpa [hc] using hnew
      obtain ⟨hfresh, hstatus⟩ := Context.new_of_checked hc
      obtain ⟨-, hstart⟩ := Context.peer_new hfresh
      refine ⟨⟨hs, by simp [Sink.granted, ha, hj]⟩, Context.live_new hfresh hstatus, ?_⟩
      rw [Context.pending_eq_nil hstart, Sink.offered, hj]
      rfl

/-- Every packed byte is offered to the sink once and in order, or still pending.  The sink takes
the chunks that it does not refuse, and no other bytes; what it has taken is a prefix of what was
packed until a write goes through after one that has raised. -/
theorem offered_once {sink : Sink} (hs : sink.Whole) (ha : sink.accepted = #[])
    (hj : sink.journal = #[]) {size : Nat} {a : Assumptions} {w : ItemWriter}
    (hnew : new sink size a = .ok w) (calls : List Call) :
    (runAll calls w).sink.offered ++ (runAll calls w).packer.pending =
      calls.flatMap Call.encoding ∧
    (runAll calls w).sink.accepted.toList = (runAll calls w).sink.granted ∧
    ((∀ before data after, (runAll calls w).sink.journal.toList =
        before ++ .writeRaised data :: after → after.flatMap SinkEvent.granted = []) →
      (runAll calls w).sink.accepted.toList <+: calls.flatMap Call.encoding) := by
  have h := (accounted_new hs ha hj hnew).runAll calls
  rw [List.nil_append] at h
  refine ⟨h.offered, h.booked.accepted, fun hlast => ?_⟩
  rw [h.booked.accepted, ← h.offered]
  exact (SinkEvent.granted_prefix hlast).trans (List.prefix_append ..)

/-- A chunk whose write raises, and then a flush that goes through. -/
theorem offered_once_with_gap :
    ∃ w : ItemWriter, new { replies := [.fault (.device (some 28))] } 4 {} = .ok w ∧
      (runAll [.pack (.str #[0x61, 0x62, 0x63, 0x64, 0x65, 0x66]), .commit, .pack .nil,
          .flush true, .close none] w).sink.offered ++
        (runAll [.pack (.str #[0x61, 0x62, 0x63, 0x64, 0x65, 0x66]), .commit, .pack .nil,
          .flush true, .close none] w).packer.pending =
        [0xA6, 0x61, 0x62, 0x63, 0x64, 0x65, 0x66, 0xC0] := by
  obtain ⟨w, hnew⟩ : ∃ w : ItemWriter,
      new { replies := [.fault (.device (some 28))] } 4 {} = .ok w := ⟨_, rfl⟩
  obtain ⟨hoffered, -⟩ := offered_once (by simp [Sink.Whole]) rfl rfl hnew
    [.pack (.str #[0x61, 0x62, 0x63, 0x64, 0x65, 0x66]), .commit, .pack .nil, .flush true,
      .close none]
  exact ⟨w, hnew, hoffered⟩

/-- A write that goes through after one that has raised may leave a gap in what the sink has. -/
theorem failed_write_leaves_gap :
    ¬ ∀ (sink : Sink) (size : Nat) (a : Assumptions) (w : ItemWriter) (calls : List Call),
      0 < size → sink.Whole → sink.accepted = #[] → sink.journal = #[] →
        new sink size a = .ok w →
          (runAll calls w).sink.accepted.toList <+: calls.flatMap Call.encoding := by
  intro h
  obtain ⟨w, calls, hnew, haccepted, hencoded⟩ : ∃ (w : ItemWriter) (calls : List Call),
      new { replies := [.fault (.device (some 28))] } 4 {} = .ok w ∧
      (runAll calls w).sink.accepted.toList = [0x64, 0x65, 0x66] ∧
      calls.flatMap Call.encoding = [0xA6, 0x61, 0x62, 0x63, 0x64, 0x65, 0x66] :=
    ⟨_, [.pack (.str #[0x61, 0x62, 0x63, 0x64, 0x65, 0x66]), .commit, .close none], rfl, by cbv,
      by cbv⟩
  have hprefix := h _ _ _ w calls (by decide) (by simp [Sink.Whole]) rfl rfl hnew
  rw [haccepted, hencoded] at hprefix
  exact absurd hprefix (by decide)

end ItemWriter
end MessagePack
