import MessagePack.Proofs.ItemWriting

/-! # Writing in whole chunks

A sink that takes every write in full (`Sink.Generous`) gets all bytes of a writer of items in order
(`ItemWriter.writes_whole_chunks`).  A commit makes at most one write, of some whole chunks, and
leaves less than a chunk; a flush, and leaving the writer, leave nothing.

What a call does to the sink is a sequence of writes, none of them empty, and flushes (`Sink.Fed`).
The bytes are accounted for already: every byte that is packed is offered once or still pending
(`Accounted`), and a generous sink has taken what it was offered (`Sink.Tidy`). -/

namespace MessagePack

/-! ### Sinks that take everything -/

/-- The event is no write of nothing. -/
def SinkEvent.Filled : SinkEvent → Prop
  | write data _ | writeRaised data => data.isEmpty = false
  | flush | flushRaised => True

namespace Sink

/-- The sink takes every write in full, whatever it reports. -/
def Generous (s : Sink) : Prop :=
  ∀ reply ∈ s.replies, ∀ size, ∃ reported, take reply size = .ok (size, reported)

/-- The sink has been written to, each time with some bytes, or been flushed. -/
inductive Fed (s : Sink) : Sink → Prop
  | refl : Fed s s
  | write {t : Sink} (h : Fed s t) {data : Bytes} (hd : data.isEmpty = false) :
      Fed s (t.write data).2
  | flush {t : Sink} (h : Fed s t) : Fed s t.flush.2

/-- A generous sink has taken all that it was offered, and was never offered nothing. -/
structure Tidy (s : Sink) : Prop where
  generous : s.Generous
  accepted : s.accepted.toList = s.offered
  filled : ∀ event ∈ s.journal.toList, event.Filled

theorem Generous.whole {s : Sink} (h : s.Generous) : s.Whole := by
  intro count hm
  obtain ⟨reported, ht⟩ := h _ hm (count + 1)
  simp [take] at ht

theorem Generous.tail {s t : Sink} (h : s.Generous) (ht : t.replies = s.replies.tail) :
    t.Generous := fun reply hm => h reply (List.mem_of_mem_tail (ht ▸ hm))

theorem Generous.write_eq {s : Sink} (h : s.Generous) (data : Bytes) :
    ∃ reported, s.write data = (.ok reported, { s with
      replies := s.replies.tail
      accepted := s.accepted ++ data
      journal := s.journal.push (.write data reported) }) := by
  obtain ⟨reported, ht⟩ : ∃ reported,
      take (s.replies.headD .all) data.size = .ok (data.size, reported) := by
    cases hr : s.replies with
    | nil => exact ⟨_, rfl⟩
    | cons reply rest => exact h reply (hr ▸ List.mem_cons_self ..) data.size
  refine ⟨reported, ?_⟩
  have hall : Bytes.slice data 0 data.size = data := Array.extract_size
  rw [Sink.write, ht]
  dsimp only
  rw [hall]

theorem Tidy.write {s : Sink} (h : s.Tidy) {data : Bytes} (hd : data.isEmpty = false) :
    (s.write data).2.Tidy := by
  obtain ⟨reported, hw⟩ := h.generous.write_eq data
  rw [hw]
  refine ⟨h.generous.tail rfl, ?_, ?_⟩
  · simp [h.accepted, offered, SinkEvent.offered]
  · intro event he
    rw [Array.toList_push, List.mem_append, List.mem_singleton] at he
    rcases he with he | rfl
    · exact h.filled event he
    · exact hd

theorem Tidy.flush {s : Sink} (h : s.Tidy) : s.flush.2.Tidy := by
  have hpush : ∀ (faults : List (Option Fault)) (event : SinkEvent), event.offered = [] →
      event.Filled → Tidy { s with
        flushes := some faults, journal := s.journal.push event } := by
    intro faults event ho hf
    refine ⟨h.generous, ?_, ?_⟩
    · simp [h.accepted, offered, ho]
    · intro e he
      rw [Array.toList_push, List.mem_append, List.mem_singleton] at he
      rcases he with he | rfl
      · exact h.filled e he
      · exact hf
  unfold Sink.flush
  cases s.flushes with
  | none => exact h
  | some faults =>
      dsimp only
      cases faults.headD none with
      | none | some fault => exact hpush _ _ rfl trivial

theorem Fed.tidy {s t : Sink} (h : Fed s t) (hs : s.Tidy) : t.Tidy := by
  induction h with
  | refl => exact hs
  | write h hd ih => exact ih.write hd
  | flush h ih => exact ih.flush

end Sink

namespace ItemWriter

/-! ### What calls do to the sink -/

section calls

variable {w : ItemWriter}

theorem check_of_ok (h : w.packer.status = .ok) : w.packer.check = .ok () := by
  rw [Context.check, Status.raise, if_pos h]

/-- A commit does nothing with less than a chunk.  Otherwise it offers some whole chunks, and less
than a chunk stays. -/
theorem commit_cases (hc : w.packer.Live) (hsize : 0 < w.chunkSize) :
    (w.commit = (.ok (), w) ∧ w.packer.pending.length < w.chunkSize) ∨
    ∃ (data : Bytes) (packer : GrowingPacker) (k : Nat),
      w.commit = { w with packer }.write data ∧ 0 < k ∧ data.size = k * w.chunkSize ∧
        packer.pending.length < w.chunkSize := by
  have hlength := Context.length_pending hc
  unfold ItemWriter.commit
  rw [check_of_ok hc.status_eq]
  dsimp only
  rw [← hlength]
  split_ifs with hshort hzero
  · exact .inl ⟨rfl, hshort⟩
  · omega
  · right
    obtain ⟨ht, hp, -⟩ := GrowingPacker.take_eq hc
      (some (w.chunkSize * (w.packer.pending.length / w.chunkSize)))
    rw [Option.map_some] at ht hp
    have hdiv := Nat.div_add_mod w.packer.pending.length w.chunkSize
    have hmod := Nat.mod_lt w.packer.pending.length hsize
    refine ⟨_, _, w.packer.pending.length / w.chunkSize, rfl,
      Nat.div_pos (Nat.not_lt.mp hshort) hsize, ?_, ?_⟩
    · rw [← Array.length_toList, ht, List.length_take, Option.getD_some,
        Nat.min_eq_left (Nat.mul_div_le _ _), Nat.mul_comm]
    · rw [hp, List.length_drop, Option.getD_some]
      omega

theorem fed_commit (hc : w.packer.Live) (hsize : 0 < w.chunkSize) :
    w.sink.Fed w.commit.2.sink ∧ w.commit.2.chunkSize = w.chunkSize := by
  rcases commit_cases hc hsize with ⟨h, -⟩ | ⟨data, packer, k, h, hk, hd, -⟩
  · rw [h]
    exact ⟨.refl, rfl⟩
  · have hpos : 0 < data.size := by
      rw [hd]
      exact Nat.mul_pos hk hsize
    rw [h, snd_write]
    exact ⟨.write .refl (Array.isEmpty_eq_false_iff.mpr (Array.size_pos_iff.mp hpos)), rfl⟩

/-- A flush takes out all that is packed, and offers it if it is anything. -/
theorem flush_cases (hc : w.packer.Live) (force : Bool) :
    ∃ (packer : GrowingPacker) (sink : Sink), (w.flush force).2 = { w with packer, sink } ∧
      packer.pending = [] ∧ w.sink.Fed sink := by
  obtain ⟨-, hp, -⟩ := GrowingPacker.take_eq hc none
  rw [Option.map_none, Option.getD_none, List.drop_length] at hp
  unfold ItemWriter.flush
  rw [check_of_ok hc.status_eq]
  generalize GrowingPacker.take w.packer none = taken at hp
  obtain ⟨data, packer⟩ := taken
  dsimp only at hp ⊢
  obtain ⟨sink, hwritten, hfed⟩ : ∃ sink, (if data.isEmpty then (.ok (), { w with packer }) else
      { w with packer }.write data : Except Failure Unit × ItemWriter).2 =
        { w with packer, sink } ∧ w.sink.Fed sink := by
    split_ifs with hempty
    · exact ⟨_, rfl, .refl⟩
    · exact ⟨_, snd_write _ data, .write .refl (by simpa using hempty)⟩
  generalize (if data.isEmpty then (.ok (), { w with packer }) else { w with packer }.write data :
    Except Failure Unit × ItemWriter) = written at hwritten
  obtain ⟨result, w'⟩ := written
  dsimp only at hwritten
  subst hwritten
  cases result with
  | error failure => exact ⟨packer, sink, rfl, hp, hfed⟩
  | ok u =>
      cases force with
      | false => exact ⟨packer, sink, rfl, hp, hfed⟩
      | true =>
          refine ⟨packer, sink.flush.2, ?_, hp, .flush hfed⟩
          dsimp only
          rw [if_pos rfl]
          split <;> simp_all

theorem snd_close (hc : w.packer.Live) (leaving : Option Failure) :
    (w.close leaving).2 = (w.flush true).2 := by
  unfold ItemWriter.close
  rw [if_pos hc.status_eq]
  generalize w.flush true = flushed
  obtain ⟨result, w'⟩ := flushed
  cases result <;> cases leaving <;> rfl

/-- With an error latched by the packer, no call does anything; those that write report the
error. -/
theorem calls_of_latched (h : w.packer.status ≠ .ok) :
    (∃ e, e.status = w.packer.status ∧ e.cause = w.packer.fault ∧
      w.commit = (.error (.stop e), w) ∧ ∀ force, w.flush force = (.error (.stop e), w)) ∧
    ∀ call : Call, call.run w = w := by
  have hcheck : w.packer.check = .error (w.packer.status.error none w.packer.fault) := by
    rw [Context.check, Status.raise, if_neg h]
  have hcommit : w.commit = (.error (.stop (w.packer.status.error none w.packer.fault)), w) := by
    rw [ItemWriter.commit, hcheck]
  have hflush : ∀ force, w.flush force =
      (.error (.stop (w.packer.status.error none w.packer.fault)), w) := by
    intro force
    rw [ItemWriter.flush, hcheck]
  refine ⟨⟨_, rfl, rfl, hcommit, hflush⟩, fun call => ?_⟩
  cases call with
  | pack v =>
      have hpack : (GrowingPacker.pack v).run w.packer = (.ok .stopped, w.packer) :=
        Engine.run_of_latched h _
      rw [Call.run, hpack]
  | commit => rw [Call.run, hcommit]
  | flush force => rw [Call.run, hflush]
  | close leaving =>
      rw [Call.run, ItemWriter.close, if_neg h]
      cases leaving <;> rfl

end calls

/-! ### Runs -/

/-- All packed bytes have been taken by the sink or are pending, and the sink is in order. -/
structure Orderly (expected : List UInt8) (size : Nat) (w : ItemWriter) : Prop where
  accounted : Accounted expected w
  tidy : w.sink.Tidy
  chunkSize : w.chunkSize = size

section runs

variable {expected : List UInt8} {size : Nat} {w : ItemWriter} (h : Orderly expected size w)

include h

theorem Orderly.total : w.sink.accepted.toList ++ w.packer.pending = expected := by
  rw [h.tidy.accepted]
  exact h.accounted.offered

theorem Orderly.run (hsize : 0 < size) (call : Call) :
    Orderly (expected ++ call.encoding) size (call.run w) := by
  have hlive := h.accounted.live
  have hstep : w.sink.Fed (call.run w).sink ∧ (call.run w).chunkSize = w.chunkSize := by
    cases call with
    | pack v => exact ⟨.refl, rfl⟩
    | commit => exact fed_commit hlive (h.chunkSize ▸ hsize)
    | flush force =>
        obtain ⟨packer, sink, hflush, -, hfed⟩ := flush_cases hlive force
        rw [Call.run, hflush]
        exact ⟨hfed, rfl⟩
    | close leaving =>
        obtain ⟨packer, sink, hflush, -, hfed⟩ := flush_cases hlive true
        rw [Call.run, snd_close hlive, hflush]
        exact ⟨hfed, rfl⟩
  exact ⟨h.accounted.run call, hstep.1.tidy h.tidy, hstep.2.trans h.chunkSize⟩

theorem Orderly.runAll (hsize : 0 < size) (calls : List Call) :
    Orderly (expected ++ calls.flatMap Call.encoding) size (runAll calls w) := by
  induction calls generalizing expected w with
  | nil => exact (List.append_nil expected).symm ▸ h
  | cons call calls ih =>
      rw [List.flatMap_cons, ← List.append_assoc]
      exact ih (h.run hsize call)

/-- A commit goes through.  It makes at most one write, of some whole chunks. -/
theorem Orderly.commit (hsize : 0 < size) :
    ∃ w', w.commit = (.ok (), w') ∧ w'.packer.pending.length < size ∧
      (w'.sink = w.sink ∨ ∃ (k : Nat) (data : Bytes), 0 < k ∧ data.size = k * size ∧
        w'.sink = (w.sink.write data).2) := by
  obtain ⟨ha, ht, rfl⟩ := h
  rcases commit_cases ha.live hsize with ⟨hcommit, hshort⟩ |
    ⟨data, packer, k, hcommit, hk, hdata, hshort⟩
  · exact ⟨w, hcommit, hshort, .inl rfl⟩
  · obtain ⟨reported, hwrite⟩ := ht.generous.write_eq data
    refine ⟨{ w with packer, sink := (w.sink.write data).2 }, ?_, hshort,
      .inr ⟨k, data, hk, hdata, rfl⟩⟩
    rw [hcommit, ItemWriter.write, hwrite]

theorem Orderly.flush (hsize : 0 < size) (force : Bool) :
    (w.flush force).2.sink.accepted.toList = expected := by
  obtain ⟨packer, sink, hflush, hnil, -⟩ := flush_cases h.accounted.live force
  have htotal := (h.run hsize (.flush force)).total
  rw [Call.encoding, List.append_nil, Call.run, hflush, hnil, List.append_nil] at htotal
  rw [hflush]
  exact htotal

end runs

/-- A new writer is in order, and can be made unless the byte order is contradicted. -/
theorem orderly_new {sink : Sink} (hs : sink.Generous) (ha : sink.accepted = #[])
    (hj : sink.journal = #[]) (size : Nat) {a : Assumptions} {order : ByteOrder}
    (horder : a.select = .ok (some order)) :
    ∃ w, new sink size a = .ok w ∧ Orderly [] size w := by
  have hpacker := Context.new_whole horder .growingPacker (Bytes.zeros size) ()
  obtain ⟨packer, hnew⟩ : ∃ packer, new sink size a = .ok { packer, sink, chunkSize := size } := by
    unfold new GrowingPacker.new
    rw [hpacker]
    exact ⟨_, rfl⟩
  refine ⟨_, hnew, accounted_new hs.whole ha hj hnew, ⟨hs, ?_, ?_⟩, rfl⟩
  · rw [ha, Sink.offered, hj]
    rfl
  · simp [hj]

/-- A writer to a sink that takes everything.  Pack values, commit, flush and leave the writer in
any order, with chunks of any size but none.

* What the sink has taken, followed by what is packed, are the encodings of the values.
* No write is empty.
* A commit makes at most one write, of some whole chunks, and leaves less than a chunk.
* After a flush, and after leaving the writer, whatever the reason, the sink has everything.
* Once the packer has latched an error, commits and flushes report it, and nothing that is called
  from then on, leaving the writer included, changes anything. -/
theorem writes_whole_chunks {sink : Sink} (hs : sink.Generous) (ha : sink.accepted = #[])
    (hj : sink.journal = #[]) {size : Nat} (hsize : 0 < size) {a : Assumptions} {order : ByteOrder}
    (horder : a.select = .ok (some order)) (calls : List Call) :
    ∃ w₀ w, new sink size a = .ok w₀ ∧ runAll calls w₀ = w ∧
      w.sink.accepted.toList ++ w.packer.pending = calls.flatMap Call.encoding ∧
      (∀ event ∈ w.sink.journal.toList, event.Filled) ∧
      (∃ w', w.commit = (.ok (), w') ∧ w'.packer.pending.length < size ∧
        (w'.sink = w.sink ∨ ∃ (k : Nat) (data : Bytes), 0 < k ∧ data.size = k * size ∧
          w'.sink = (w.sink.write data).2)) ∧
      (∀ force, (w.flush force).2.sink.accepted.toList = calls.flatMap Call.encoding) ∧
      (∀ leaving, (w.close leaving).2.sink.accepted.toList = calls.flatMap Call.encoding) ∧
      ∀ v : ItemWriter, v.packer.status ≠ .ok →
        (∃ e, e.status = v.packer.status ∧ e.cause = v.packer.fault ∧
          v.commit = (.error (.stop e), v) ∧ ∀ force, v.flush force = (.error (.stop e), v)) ∧
        ∀ later, runAll later v = v := by
  obtain ⟨w₀, hnew, h₀⟩ := orderly_new hs ha hj size horder
  have h := h₀.runAll hsize calls
  rw [List.nil_append] at h
  have hlive := h.accounted.live
  refine ⟨w₀, _, hnew, rfl, h.total, h.tidy.filled, h.commit hsize, h.flush hsize, ?_, ?_⟩
  · intro leaving
    rw [snd_close hlive]
    exact h.flush hsize true
  · intro v hv
    obtain ⟨herror, hcalls⟩ := calls_of_latched hv
    refine ⟨herror, fun later => ?_⟩
    induction later with
    | nil => rfl
    | cons call later ih =>
        show runAll later (call.run v) = v
        rw [hcalls, ih]

/-- A sink that reports nothing, and then too much.  A commit writes one chunk of a text, the rest
of it stays, and a flush writes that with the value after it. -/
theorem writes_whole_chunks_misreported :
    ∃ w₀ w, new { replies := [.silent, .inExcess 3] } 4 {} = .ok w₀ ∧
      runAll [.pack (.str #[0x61, 0x62, 0x63, 0x64, 0x65, 0x66]), .commit, .pack .nil] w₀ = w ∧
      w.sink.accepted.toList ++ w.packer.pending =
        [0xA6, 0x61, 0x62, 0x63, 0x64, 0x65, 0x66, 0xC0] ∧
      (∀ force, (w.flush force).2.sink.accepted.toList =
        [0xA6, 0x61, 0x62, 0x63, 0x64, 0x65, 0x66, 0xC0]) ∧
      ∀ leaving, (w.close leaving).2.sink.accepted.toList =
        [0xA6, 0x61, 0x62, 0x63, 0x64, 0x65, 0x66, 0xC0] := by
  have hs : Sink.Generous { replies := [.silent, .inExcess 3] } := by
    intro reply hr size
    simp only [List.mem_cons, List.not_mem_nil, or_false] at hr
    rcases hr with rfl | rfl
    · exact ⟨none, rfl⟩
    · exact ⟨some (size + 3), rfl⟩
  obtain ⟨w₀, w, hnew, hrun, htotal, -, -, hflush, hclose, -⟩ :=
    writes_whole_chunks hs rfl rfl (by decide : 0 < 4) (a := {}) rfl
      [.pack (.str #[0x61, 0x62, 0x63, 0x64, 0x65, 0x66]), .commit, .pack .nil]
  exact ⟨w₀, w, hnew, hrun, htotal, hflush, hclose⟩

end ItemWriter
end MessagePack
