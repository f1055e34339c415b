import MessagePack.Proofs.ItemWriting
import MessagePack.Proofs.PackSizes

/-! # Writers with chunks of different sizes

A writer of items commits whole chunks, and so the size of a chunk decides which bytes go out when.
If the sink does not fail, nothing is raised by that, and in the end it has the same bytes: what the
calls come to is planned before any byte is written (`ItemWriter.shownOf_eq`).

A size of zero is the exception.  Whenever the bytes are written all at once, it makes no difference
either; but a commit divides by it, and this is the only place in the plan of a call where the size
stands (`ItemWriter.Call.planned`). -/

namespace MessagePack

/-! ### Sinks -/

namespace Sink

/-- The sink takes all that it is offered, and never fails. -/
structure Dependable (s : Sink) : Prop where
  whole : s.Whole
  reliable : s.Reliable

theorem reliable_empty : Sink.Reliable {} := ⟨by simp, by simp⟩

theorem dependable_empty : Sink.Dependable {} := ⟨by simp [Sink.Whole], reliable_empty⟩

theorem Dependable.write {s : Sink} (h : s.Dependable) (data : Bytes) :
    (∃ reported, (s.write data).1 = .ok reported) ∧ (s.write data).2.Dependable ∧
      (s.write data).2.accepted = s.accepted ++ data := by
  have hoffered := offered_write h.reliable data
  have hwhole : (s.write data).2.Whole := h.whole.tail (replies_write s data)
  have haccepted : ∀ taken reported, take (s.replies.headD .all) data.size = .ok (taken, reported) →
      (s.write data).2.accepted = s.accepted ++ data := by
    intro taken reported ht
    obtain rfl := take_of_whole h.whole ht
    simp only [Sink.write, ht, Bytes.slice, Array.extract_size]
  cases ht : take (s.replies.headD .all) data.size with
  | ok answer =>
      obtain ⟨taken, reported⟩ := answer
      have haccepted := haccepted taken reported ht
      generalize s.write data = result at hoffered hwhole haccepted
      cases hoffered with
      | taken reported h' => exact ⟨⟨reported, rfl⟩, ⟨hwhole, h'.raises⟩, haccepted⟩
      | raised hf => exact hf.elim
  | error fault =>
      have hraised : (s.write data).1 = .error fault := by simp only [Sink.write, ht]
      generalize s.write data = result at hoffered hraised
      cases hoffered with
      | taken => cases hraised
      | raised hf => exact hf.elim

theorem Dependable.flush {s : Sink} (h : s.Dependable) :
    s.flush.1 = .ok () ∧ s.flush.2.Dependable ∧ s.flush.2.accepted = s.accepted := by
  have hwritten : Written _ s [] s.flush := written_flush h.reliable
  have hreplies : s.flush.2.replies = s.replies := by
    unfold Sink.flush
    cases s.flushes with
    | none => rfl
    | some faults => dsimp only; cases faults.headD none <;> rfl
  generalize s.flush = result at hwritten hreplies
  cases hwritten with
  | complete ht =>
      refine ⟨rfl, ⟨?_, ht.raises⟩, ?_⟩
      · intro count hm
        exact h.whole count (hreplies ▸ hm)
      · apply Array.toList_inj.mp
        rw [ht.accepted, List.append_nil]
  | broken hf => exact hf.elim

end Sink

/-! ### Calls -/

namespace ItemWriter

/-- The sink has the bytes `expected`, or they are pending, and it has not failed. -/
structure Steady (size : Nat) (expected : List UInt8) (w : ItemWriter) : Prop where
  sink : w.sink.Dependable
  live : w.packer.Live
  accepted : w.sink.accepted.toList ++ w.packer.pending = expected
  chunkSize : w.chunkSize = size

section steady

variable {size : Nat} {expected : List UInt8} {w : ItemWriter} (h : Steady size expected w)

include h

theorem Steady.check : w.packer.check = .ok () := by
  rw [Context.check, h.live.status_eq]
  rfl

theorem Steady.write {data : Bytes} {packer : GrowingPacker} (hl : packer.Live)
    (hp : data.toList ++ packer.pending = w.packer.pending) :
    ({ w with packer }.write data).1 = .ok () ∧
      Steady size expected ({ w with packer }.write data).2 ∧
      ({ w with packer }.write data).2.packer = packer := by
  obtain ⟨⟨reported, hwrite⟩, hsink, haccepted⟩ := h.sink.write data
  have hsteady : Steady size expected { w with packer, sink := (w.sink.write data).2 } := by
    refine ⟨hsink, hl, ?_, h.chunkSize⟩
    show (w.sink.write data).2.accepted.toList ++ packer.pending = expected
    rw [haccepted, Array.toList_append, List.append_assoc, hp]
    exact h.accepted
  unfold ItemWriter.write
  generalize w.sink.write data = result at hwrite hsteady
  obtain ⟨answer, sink⟩ := result
  obtain rfl := hwrite
  exact ⟨rfl, hsteady, rfl⟩

theorem Steady.pack (v : Value) :
    Steady size (expected ++ v.encoding)
      { w with packer := ((GrowingPacker.pack v).run w.packer).2 } := by
  obtain ⟨hl, hp, -⟩ := GrowingPacker.run_pack h.live v
  refine ⟨h.sink, hl, ?_, h.chunkSize⟩
  rw [hp, ← List.append_assoc, h.accepted]

theorem Steady.commit :
    w.commit.1 = (if size = 0 then .error (.fault .zeroChunk) else .ok ()) ∧
      Steady size expected w.commit.2 := by
  obtain rfl := h.chunkSize
  unfold ItemWriter.commit
  rw [h.check]
  dsimp only
  split_ifs with hless hzero
  · omega
  · exact ⟨rfl, h⟩
  · exact ⟨rfl, h⟩
  · obtain ⟨ht, hp, hl⟩ := GrowingPacker.take_eq h.live
      (some (w.chunkSize * ((w.packer.current - w.packer.start) / w.chunkSize)))
    rw [Option.map_some] at ht hp hl
    obtain ⟨hanswer, hsteady, -⟩ := h.write hl (by rw [ht, hp, List.take_append_drop])
    exact ⟨hanswer, hsteady⟩

theorem Steady.flush (force : Bool) :
    (w.flush force).1 = .ok () ∧ Steady size expected (w.flush force).2 ∧
      (w.flush force).2.packer.pending = [] := by
  unfold ItemWriter.flush
  rw [h.check]
  obtain ⟨ht, hp, hl⟩ := GrowingPacker.take_eq h.live none
  rw [Option.map_none] at ht hp hl
  rw [Option.getD_none, List.take_length] at ht
  rw [Option.getD_none, List.drop_length] at hp
  generalize GrowingPacker.take w.packer none = taken at ht hp hl
  obtain ⟨data, packer⟩ := taken
  dsimp only at ht hp hl ⊢
  have hwritten : ∃ w', (if data.isEmpty then (.ok (), { w with packer })
      else { w with packer }.write data : Except Failure Unit × ItemWriter) = (.ok (), w') ∧
      Steady size expected w' ∧ w'.packer.pending = [] := by
    split_ifs with hempty
    · obtain rfl := Array.isEmpty_iff.mp hempty
      refine ⟨_, rfl, ⟨h.sink, hl, ?_, h.chunkSize⟩, hp⟩
      rw [← h.accepted, ← ht, hp]
    · obtain ⟨hanswer, hsteady, hpacker⟩ := h.write hl (by rw [ht, hp, List.append_nil])
      refine ⟨_, Prod.ext hanswer rfl, hsteady, ?_⟩
      rw [hpacker, hp]
  obtain ⟨w', hw', hsteady, hpending⟩ := hwritten
  rw [hw']
  dsimp only
  split_ifs
  · obtain ⟨hanswer, hsink, haccepted⟩ := hsteady.sink.flush
    generalize w'.sink.flush = result at hanswer hsink haccepted
    obtain ⟨answer, sink⟩ := result
    obtain rfl := hanswer
    refine ⟨rfl, ⟨hsink, hsteady.live, ?_, hsteady.chunkSize⟩, hpending⟩
    show sink.accepted.toList ++ w'.packer.pending = expected
    rw [haccepted]
    exact hsteady.accepted
  · exact ⟨rfl, hsteady, hpending⟩

theorem Steady.close (leaving : Option Failure) :
    (w.close leaving).1 = leaving.elim (.ok ()) .error ∧ Steady size expected (w.close leaving).2 ∧
      (w.close leaving).2.packer.pending = [] := by
  obtain ⟨hanswer, hsteady, hpending⟩ := h.flush true
  unfold ItemWriter.close
  rw [if_pos h.live.status_eq]
  generalize w.flush true = result at hanswer hsteady hpending
  obtain ⟨answer, w'⟩ := result
  obtain rfl := hanswer
  cases leaving <;> exact ⟨rfl, hsteady, hpending⟩

end steady

/-! ### Sequences of calls -/

namespace Call

/-- What a call comes to. -/
def outcome (w : ItemWriter) : Call → Except Failure Status
  | pack v => ((GrowingPacker.pack v).run w.packer).1.mapError .fault
  | commit => w.commit.1.map fun _ => .ok
  | flush force => (w.flush force).1.map fun _ => .ok
  | close leaving => (w.close leaving).1.map fun _ => .ok

/-- What a call comes to if the sink does not fail. -/
def planned (size : Nat) : Call → Except Failure Status
  | pack v => v.packing.mapError .fault
  | commit => if size = 0 then .error (.fault .zeroChunk) else .ok .ok
  | flush _ | close none => .ok .ok
  | close (some failure) => .error failure

/-- The plan is that for chunks of the default size if no empty chunk is committed. -/
theorem planned_eq {calls : List Call} {size : Nat} (h : 0 < size ∨ .commit ∉ calls) :
    calls.map (planned size) = calls.map (planned defaultSize) := by
  apply List.map_congr_left
  intro call hmem
  cases call with
  | pack | flush => rfl
  | close leaving => cases leaving <;> rfl
  | commit =>
      have hpos : 0 < size := h.resolve_right fun hn => hn hmem
      rw [planned, if_neg (Nat.ne_of_gt hpos), planned, if_neg (by decide)]

end Call

/-- What calls come to, one after another. -/
def outcomes : List Call → ItemWriter → List (Except Failure Status)
  | [], _ => []
  | call :: calls, w => call.outcome w :: outcomes calls (call.run w)

section steady

variable {size : Nat} {expected : List UInt8} {w : ItemWriter} (h : Steady size expected w)

include h

theorem Steady.call (call : Call) :
    call.outcome w = call.planned size ∧ Steady size (expected ++ call.encoding) (call.run w) := by
  cases call with
  | pack v =>
      refine ⟨?_, h.pack v⟩
      rw [Call.outcome, GrowingPacker.result_pack h.live, Call.planned]
  | commit =>
      obtain ⟨hanswer, hsteady⟩ := h.commit
      rw [Call.encoding, List.append_nil]
      refine ⟨?_, hsteady⟩
      rw [Call.outcome, hanswer, Call.planned]
      split_ifs <;> rfl
  | flush force =>
      obtain ⟨hanswer, hsteady, -⟩ := h.flush force
      rw [Call.encoding, List.append_nil]
      refine ⟨?_, hsteady⟩
      rw [Call.outcome, hanswer]
      rfl
  | close leaving =>
      obtain ⟨hanswer, hsteady, -⟩ := h.close leaving
      rw [Call.encoding, List.append_nil]
      refine ⟨?_, hsteady⟩
      rw [Call.outcome, hanswer]
      cases leaving <;> rfl

theorem Steady.runAll (calls : List Call) :
    Steady size (expected ++ calls.flatMap Call.encoding) (runAll calls w) := by
  induction calls generalizing expected w with
  | nil =>
      rw [List.flatMap_nil, List.append_nil]
      exact h
  | cons call calls ih =>
      rw [List.flatMap_cons, ← List.append_assoc]
      exact ih (h.call call).2

theorem Steady.outcomes (calls : List Call) :
    outcomes calls w = calls.map (Call.planned size) := by
  induction calls generalizing expected w with
  | nil => rfl
  | cons call calls ih =>
      obtain ⟨houtcome, hsteady⟩ := h.call call
      exact congrArg₂ List.cons houtcome (ih hsteady)

theorem Steady.accepted_close (leaving : Option Failure) :
    (w.close leaving).2.sink.accepted.toList = expected := by
  obtain ⟨-, hsteady, hpending⟩ := h.close leaving
  rw [← hsteady.accepted, hpending, List.append_nil]

end steady

/-! ### New writers -/

theorem steady_checked {sink : Sink} (hs : sink.Dependable) {a : Assumptions} {size : Nat}
    {packer : GrowingPacker} (h : Context.checked (GrowingPacker.new size a) = .ok packer) :
    Steady size sink.accepted.toList { packer, sink, chunkSize := size } := by
  obtain ⟨hnew, hstatus⟩ := Context.new_of_checked h
  refine ⟨hs, Context.live_new hnew hstatus, ?_, rfl⟩
  rw [Context.pending_eq_nil (Context.peer_new hnew).2, List.append_nil]

theorem steady_new {sink : Sink} (hs : sink.Dependable) (a : Assumptions) (size size' : Nat) :
    (∃ refusal refusal', new sink size a = .error refusal ∧ new sink size' a = .error refusal' ∧
        refusal'.failure = refusal.failure) ∨
      ∃ w w', new sink size a = .ok w ∧ new sink size' a = .ok w' ∧
        Steady size sink.accepted.toList w ∧ Steady size' sink.accepted.toList w' := by
  have halike : _ ∨ ∃ c d, Context.checked (GrowingPacker.new size a) = .ok c ∧
      Context.checked (GrowingPacker.new size' a) = .ok d :=
    Context.checked_alike (Context.range?_whole _) (Context.range?_whole _)
  unfold new
  rcases halike with ⟨refusal, refusal', hc, hd, h⟩ | ⟨c, d, hc, hd⟩
  · rw [GrowingPacker.new, hc, GrowingPacker.new, hd]
    exact .inl ⟨_, _, rfl, rfl, h⟩
  · rw [hc, hd]
    exact .inr ⟨_, _, rfl, rfl, steady_checked hs hc, steady_checked hs hd⟩

/-- What calls of a new writer come to, and the bytes that the sink has when it is left. -/
def shownOf (sink : Sink) (a : Assumptions) (calls : List Call) (size : Nat) :
    Except Failure (List (Except Failure Status) × List UInt8) :=
  match new sink size a with
  | .error refusal => .error refusal.failure
  | .ok w => .ok (outcomes calls w, ((runAll calls w).close none).2.sink.accepted.toList)

/-- If the sink does not fail, either a new writer is refused whatever the size of its chunks is, or
its calls come to what is planned, and when it is left the sink has all that was packed. -/
theorem shownOf_eq {sink : Sink} (hs : sink.Dependable) (a : Assumptions) (calls : List Call) :
    (∃ failure, ∀ size, shownOf sink a calls size = .error failure) ∨
      ∀ size, shownOf sink a calls size = .ok (calls.map (Call.planned size),
        sink.accepted.toList ++ calls.flatMap Call.encoding) := by
  have hpair : ∀ size, _ := steady_new hs a defaultSize
  unfold shownOf
  cases hw : new sink defaultSize a with
  | error refusal =>
      left
      refine ⟨refusal.failure, fun size => ?_⟩
      rcases hpair size with ⟨_, refusal', hw', hnew, h⟩ | ⟨_, _, hw', -⟩
      · rw [hw] at hw'
        cases hw'
        simp only [hnew, h]
      · rw [hw] at hw'
        cases hw'
  | ok w =>
      right
      intro size
      rcases hpair size with ⟨_, _, hw', -⟩ | ⟨_, w', -, hnew, -, h⟩
      · rw [hw] at hw'
        cases hw'
      · simp only [hnew, h.outcomes, (h.runAll calls).accepted_close]

/-- If the sink does not fail, the size of a chunk does not show: every call comes to the same, and
the sink has the same in the end.  With a size of zero this goes as long as nothing is committed. -/
theorem shownOf_unsized {sink : Sink} (hs : sink.Dependable) (a : Assumptions) {calls : List Call}
    {size : Nat} (hsize : 0 < size ∨ .commit ∉ calls) :
    shownOf sink a calls size = shownOf sink a calls defaultSize := by
  rcases shownOf_eq hs a calls with ⟨failure, h⟩ | h
  · rw [h, h]
  · rw [h, h, Call.planned_eq hsize]

theorem accepted_unsized {sink : Sink} (hs : sink.Dependable) (a : Assumptions) (calls : List Call)
    (size : Nat) :
    (shownOf sink a calls size).map Prod.snd = (shownOf sink a calls defaultSize).map Prod.snd := by
  rcases shownOf_eq hs a calls with ⟨failure, h⟩ | h
  · rw [h, h]
  · rw [h, h]
    rfl

end ItemWriter
end MessagePack
