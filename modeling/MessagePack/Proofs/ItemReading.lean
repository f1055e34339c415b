import MessagePack.ItemReader
import MessagePack.Proofs.Extending
import MessagePack.Proofs.Filling

/-! # What a reader of items does with its bytes

A reader tries an operation on all bytes that it has received and not used up, and starts it over
with more of them whenever they were too few.  Only an operation that is complete uses bytes up,
so a reader can be asked again after whatever went wrong (`ItemReader.restartable`).

What carries the proof is `Completed`: in the end the operation has come to what it comes to on all
bytes that were received until then, however they were cut into chunks. -/

namespace MessagePack

namespace ItemReader

open Engine Unpacker

/-! ### Bytes received and used up -/

/-- From `r` to `r'` the reader has received the bytes `next`, and used up `k` of those that it had
then. -/
structure Receives (r : ItemReader) (next : List UInt8) (k : Nat) (r' : ItemReader) : Prop where
  unread : r'.unread.toList = (r.unread.toList ++ next).drop k
  le_length : k ≤ (r.unread.toList ++ next).length
  content : r.source.content = next ++ r'.source.content
  faults : ∀ fault, .fault fault ∈ r'.source.chunks → .fault fault ∈ r.source.chunks
  readSize : r'.readSize = r.readSize
  assumptions : r'.context.assumptions = r.context.assumptions

section receives

variable {r r' r'' : ItemReader} {next more : List UInt8} {j k : Nat}

theorem Receives.refl (r : ItemReader) : Receives r [] 0 r where
  unread := by rw [List.append_nil, List.drop_zero]
  le_length := Nat.zero_le _
  content := rfl
  faults _ h := h
  readSize := rfl
  assumptions := rfl

theorem Receives.trans (h : Receives r next k r') (h' : Receives r' more j r'') :
    Receives r (next ++ more) (k + j) r'' where
  unread := by
    rw [h'.unread, h.unread, ← List.drop_append_of_le_length h.le_length, List.drop_drop,
      List.append_assoc]
  le_length := by
    have hj := h'.le_length
    have hk := h.le_length
    rw [h.unread, List.length_append, List.length_drop] at hj
    rw [← List.append_assoc, List.length_append]
    omega
  content := by rw [h.content, h'.content, List.append_assoc]
  faults fault hf := h.faults fault (h'.faults fault hf)
  readSize := h'.readSize.trans h.readSize
  assumptions := h'.assumptions.trans h.assumptions

theorem Receives.unread_zero (h : Receives r next 0 r') :
    r'.unread.toList = r.unread.toList ++ next := by rw [h.unread, List.drop_zero]

theorem Receives.same (h : Receives r next k r') {c : Context Unit}
    (hbuffer : c.buffer = r'.context.buffer) (ha : c.assumptions = r'.context.assumptions) :
    Receives r next k { r' with context := c } where
  unread := by
    rw [← h.unread, ItemReader.unread, ItemReader.unread, Region.bytes, Region.bytes, hbuffer]
  le_length := h.le_length
  content := h.content
  faults := h.faults
  readSize := h.readSize
  assumptions := ha.trans h.assumptions

theorem Receives.consume (h : Receives r next 0 r') (hle : r'.context.current ≤ r'.unread.size) :
    Receives r next r'.context.current r'.consume where
  unread := by
    show (Bytes.slice r'.unread _ r'.unread.size).toList = _
    rw [Bytes.toList_slice, ← h.unread_zero, List.take_of_length_le]
    rw [List.length_drop, Array.length_toList]
  le_length := by
    rw [← h.unread_zero, Array.length_toList]
    exact hle
  content := h.content
  faults := h.faults
  readSize := h.readSize
  assumptions := h.assumptions

end receives

/-! ### Reading on -/

/-- What reading on can come to if the bytes were too few. -/
inductive ReadsOn (r : ItemReader) : Except Failure Bool × ItemReader → Prop
  | more {next : List UInt8} {r' : ItemReader} (h : Receives r next 0 r')
      (hready : r.source.ready = next ++ r'.source.ready) : ReadsOn r (.ok true, r')
  | nothing {r' : ItemReader} (h : Receives r [] 0 r')
      (hready : 0 < r.readSize → r.source.ready = []) : ReadsOn r (.ok false, r')
  | raised {fault : Fault} {r' : ItemReader} (h : Receives r [] 0 r')
      (hready : 0 < r.readSize → r.source.ready = []) (hf : .fault fault ∈ r.source.chunks) :
      ReadsOn r (.error (.fault fault), r')

theorem readsOn_more {r : ItemReader} {status : Status}
    (hs : status = .endOfInput ∨ status = .bufferUnderflow) : ReadsOn r (r.more status) := by
  have hread := r.source.delivers_read r.readSize
  obtain ⟨hraised, hfaults⟩ := r.source.faults_read r.readSize
  unfold more
  rw [if_pos hs]
  dsimp only
  generalize r.source.read r.readSize = result at hread hraised hfaults
  cases hread with
  | @some bytes t hb hcontent hready =>
      dsimp only
      rw [if_neg (by simp [hb])]
      have hunread : (r.unread ++ bytes).toList = (r.unread.toList ++ bytes.toList).drop 0 := by
        rw [Array.toList_append, List.drop_zero]
      exact .more ⟨hunread, Nat.zero_le _, hcontent, hfaults, rfl, rfl⟩ hready
  | @nothing delivery t hd hcontent hready =>
      have hidle : Receives r [] 0 { r with source := t } :=
        ⟨(Receives.refl r).unread, Nat.zero_le _, hcontent.symm, hfaults, rfl, rfl⟩
      cases delivery with
      | absent | ended => exact .nothing hidle hready
      | fault fault => exact .raised hidle hready (hraised fault rfl)
      | data bytes =>
          dsimp only
          rw [if_pos (hd bytes rfl)]
          exact .nothing hidle hready

/-! ### Attempts -/

/-- The context is live and has these unread bytes, from the start of its region. -/
structure Bound (b : List UInt8) (c : Context Unit) : Prop where
  live : c.Live
  current_eq : c.current = 0
  ahead_eq : c.ahead = b

/-- What an attempt comes to: what the call comes to in a context of all unread bytes. -/
inductive Attempted (call : Call) (r : ItemReader) : Except Halt Unit × ItemReader → Prop
  | complete {c d : Context Unit} (hc : Bound r.unread.toList c)
      (hd : call.engine none c = .ok () d) (h : Receives r [] 0 { r with context := d }) :
      Attempted call r (.ok (), { r with context := d })
  | stopped {c d : Context Unit} {status : Status} (hc : Bound r.unread.toList c)
      (hd : call.engine none c = .error (.status status) d) (hstatus : d.status = status)
      (hs : status = .endOfInput ∨ status = .bufferUnderflow ∨ status = .malformedInput)
      (h : Receives r [] 0 { r with context := d }) :
      Attempted call r (.error (.status status), { r with context := d })

theorem bound_rebind {c : Context Unit} {order : ByteOrder}
    (ha : c.assumptions.select = .ok (some order)) :
    ∃ d, c.rebind 0 none = (.ok .ok, d) ∧ Bound c.bytes.toList d ∧ d.buffer = c.buffer ∧
      d.assumptions = c.assumptions := by
  have hrebind : ∃ d, c.rebind 0 none = (.ok .ok, d) ∧ d.status = .ok ∧ d.current = 0 ∧
      d.limit = c.bytes.size ∧ d.buffer = c.buffer ∧ d.assumptions = c.assumptions := by
    unfold Context.rebind Context.bind
    simp only [Context.range?_whole, ha]
    exact ⟨_, rfl, rfl, rfl, rfl, rfl, rfl⟩
  obtain ⟨d, hd, hstatus, hcurrent, hlimit, hbuffer, hassumptions⟩ := hrebind
  refine ⟨d, hd, ⟨Context.live_bind hd hstatus, hcurrent, ?_⟩, hbuffer, hassumptions⟩
  have hbytes : d.bytes = c.bytes := congrArg Buffer.bytes hbuffer
  rw [Context.ahead_eq, hcurrent, hlimit, hbytes]
  exact List.take_length

theorem call_keeps {call : Call} {c d : Context Unit} (hc : c.Live) {result : Except Fault Status}
    (hrun : (call.engine none).run c = (result, d)) :
    d.buffer = c.buffer ∧ d.assumptions = c.assumptions := by
  have hnone : ∀ respond : Handler Unit, none.map Supplier.respond = some respond →
      respond.Contained := by
    intro respond h
    cases h
  obtain ⟨p, hcalled, -⟩ := called_run hnone (hc.ready hc.inBounds.current_le) call
  rw [hrun] at hcalled
  have hfixed := keeps_call call c
  have hafter : Unpacker.after (call.engine none) c = d := by
    unfold Engine.run at hrun
    unfold Unpacker.after
    split at hrun <;> simp_all
  rw [hafter] at hfixed
  exact ⟨hfixed.buffer, hcalled.assumptions⟩

theorem attempted_attempt {r : ItemReader} {order : ByteOrder}
    (ha : r.context.assumptions.select = .ok (some order)) (call : Call) :
    Attempted call r (r.attempt (call.engine none)) := by
  obtain ⟨c, hrebind, hc, hbuffer, hassumptions⟩ := bound_rebind ha
  have hsame : ∀ {result d}, (call.engine none).run c = (result, d) →
      Receives r [] 0 { r with context := d } := by
    intro result d hrun
    obtain ⟨hb, hd⟩ := call_keeps hc.live hrun
    exact (Receives.refl r).same (hb.trans hbuffer) (hd.trans hassumptions)
  unfold attempt
  rw [hrebind]
  dsimp only
  cases hd : call.engine none c with
  | ok u d => exact .complete hc hd (hsame (run_of_ok hd))
  | error halt d =>
      have hreceives := hsame (run_of_error hd)
      obtain ⟨status, rfl, hstatus, hs, -⟩ := stops_alike (τ := Unit) hc.live hd
      exact .stopped hc hd hstatus hs hreceives

/-! ### Trying until there is enough -/

/-- What trying comes to in the end: what the call comes to on all bytes that were received until
then. -/
inductive Completed (call : Call) (r : ItemReader) :
    Except Failure (Option Status) × ItemReader → Prop
  | done {next : List UInt8} {r' : ItemReader} {c : Context Unit} (h : Receives r next 0 r')
      (hready : r.source.ready = next ++ r'.source.ready)
      (hc : Bound (r.unread.toList ++ next) c) (hd : call.engine none c = .ok () r'.context) :
      Completed call r (.ok none, r')
  | ended {next : List UInt8} {r' : ItemReader} {c d : Context Unit} {status : Status}
      (h : Receives r next 0 r') (hready : 0 < r.readSize → r.source.ready = next)
      (hc : Bound (r.unread.toList ++ next) c) (hd : call.engine none c = .error (.status status) d)
      (hs : status = .endOfInput ∨ status = .bufferUnderflow) :
      Completed call r (.ok (some status), r')
  | raised {next : List UInt8} {r' : ItemReader} {c d : Context Unit} {status : Status}
      {fault : Fault} (h : Receives r next 0 r') (hready : 0 < r.readSize → r.source.ready = next)
      (hc : Bound (r.unread.toList ++ next) c) (hd : call.engine none c = .error (.status status) d)
      (hs : status = .endOfInput ∨ status = .bufferUnderflow)
      (hf : .fault fault ∈ r.source.chunks) : Completed call r (.error (.fault fault), r')
  | malformed {next : List UInt8} {r' : ItemReader} {c d : Context Unit} {e : StopError}
      (h : Receives r next 0 r') (hready : r.source.ready = next ++ r'.source.ready)
      (hc : Bound (r.unread.toList ++ next) c)
      (hd : call.engine none c = .error (.status .malformedInput) d)
      (hs : e.status = .malformedInput) : Completed call r (.error (.stop e), r')

theorem Completed.after {call : Call} {r r' : ItemReader} {next : List UInt8}
    {result : Except Failure (Option Status) × ItemReader} (h' : Completed call r' result)
    (h : Receives r next 0 r') (hready : r.source.ready = next ++ r'.source.ready) :
    Completed call r result := by
  have hunread := h.unread_zero
  have hpos : 0 < r.readSize → 0 < r'.readSize := fun hpos => h.readSize ▸ hpos
  cases h' with
  | done h' hready' hc hd =>
      rw [hunread, List.append_assoc] at hc
      refine .done (h.trans h') ?_ hc hd
      rw [hready, hready', List.append_assoc]
  | ended h' hready' hc hd hs =>
      rw [hunread, List.append_assoc] at hc
      refine .ended (h.trans h') ?_ hc hd hs
      intro hsize
      rw [hready, hready' (hpos hsize)]
  | raised h' hready' hc hd hs hf =>
      rw [hunread, List.append_assoc] at hc
      refine .raised (h.trans h') ?_ hc hd hs (h.faults _ hf)
      intro hsize
      rw [hready, hready' (hpos hsize)]
  | malformed h' hready' hc hd hs =>
      rw [hunread, List.append_assoc] at hc
      refine .malformed (h.trans h') ?_ hc hd hs
      rw [hready, hready', List.append_assoc]

theorem more_malformed {r : ItemReader} (h : r.context.status = .malformedInput) :
    ∃ e, r.more .malformedInput = (.error (.stop e), r) ∧ e.status = .malformedInput := by
  have hcheck : r.context.check =
      .error (Status.malformedInput.error none r.context.fault) := by
    rw [Context.check, h]
    rfl
  refine ⟨Status.malformedInput.error none r.context.fault, ?_, rfl⟩
  unfold more
  rw [if_neg (by decide), hcheck]

/-- After an attempt that has stopped, the reader reads on, or the input is malformed. -/
theorem attempt_stopped {r d : ItemReader} {order : ByteOrder} {call : Call} {status : Status}
    (ha : r.context.assumptions.select = .ok (some order))
    (hattempt : r.attempt (call.engine none) = (.error (.status status), d)) :
    ∃ c x, Bound (r.unread.toList ++ []) c ∧ call.engine none c = .error (.status status) x ∧
      Receives r [] 0 d ∧ d.source = r.source ∧
      (((status = .endOfInput ∨ status = .bufferUnderflow) ∧ ReadsOn d (d.more status)) ∨
        (status = .malformedInput ∧
          ∃ e, d.more status = (.error (.stop e), d) ∧ e.status = .malformedInput)) := by
  have h := attempted_attempt ha call
  rw [hattempt] at h
  cases h with
  | @stopped c x _ hc hd hstatus hs h =>
      refine ⟨c, x, by rwa [List.append_nil], hd, h, rfl, ?_⟩
      rcases or_assoc.mpr hs with hfew | rfl
      · exact .inl ⟨hfew, readsOn_more hfew⟩
      · exact .inr ⟨rfl, more_malformed hstatus⟩

theorem completed_complete {r : ItemReader} {order : ByteOrder}
    (ha : r.context.assumptions.select = .ok (some order)) (call : Call) :
    Completed call r (r.complete (call.engine none)) := by
  fun_induction complete (call.engine none) r with
  | case1 r d hattempt =>
      have h := attempted_attempt ha call
      rw [hattempt] at h
      cases h with
      | complete hc hd h => exact .done h rfl (by rwa [List.append_nil]) hd
  | case2 r fault d hattempt =>
      have h := attempted_attempt ha call
      rw [hattempt] at h
      cases h
  | case3 r status d hattempt failure e hmore =>
      obtain ⟨c, x, hc, hd, h, hsource, ⟨hfew, hreads⟩ | ⟨rfl, error, herror, hs⟩⟩ :=
        attempt_stopped ha hattempt
      · rw [hmore] at hreads
        cases hreads with
        | raised h' hready hf =>
            rw [h.readSize, hsource] at hready
            exact .raised (h.trans h') hready hc hd hfew (h.faults _ hf)
      · obtain ⟨hfailure, rfl⟩ := Prod.mk.inj (hmore.symm.trans herror)
        obtain rfl := Except.error.inj hfailure
        exact .malformed h (by rw [hsource, List.nil_append]) hc hd hs
  | case4 r status d hattempt e hmore =>
      obtain ⟨c, x, hc, hd, h, hsource, ⟨hfew, hreads⟩ | ⟨rfl, error, herror, -⟩⟩ :=
        attempt_stopped ha hattempt
      · rw [hmore] at hreads
        cases hreads with
        | nothing h' hready =>
            rw [h.readSize, hsource] at hready
            exact .ended (h.trans h') hready hc hd hfew
      · cases hmore.symm.trans herror
  | case5 r status d hattempt e hmore ih =>
      obtain ⟨c, x, -, -, h, hsource, ⟨hfew, hreads⟩ | ⟨rfl, error, herror, -⟩⟩ :=
        attempt_stopped ha hattempt
      · rw [hmore] at hreads
        cases hreads with
        | more h' hready =>
            have hboth := h.trans h'
            rw [hsource] at hready
            have ha' : e.context.assumptions.select = .ok (some order) :=
              hboth.assumptions.symm ▸ ha
            exact (ih ha').after hboth hready
      · cases hmore.symm.trans herror

/-! ### Calls on bytes alone -/

/-- Without a handler, the call comes to this in a context of exactly these bytes. -/
def OnBytes (a : Assumptions) (b : List UInt8) (call : Call) (result : Except Fault Status)
    (d : Context Unit) : Prop :=
  ∃ w, Context.new .unpacker a b.toArray 0 none () = .ok w ∧
    (call.engine none).run w = (result, d)

theorem OnBytes.unique {a : Assumptions} {b : List UInt8} {call : Call}
    {result result' : Except Fault Status} {d d' : Context Unit}
    (h : OnBytes a b call result d) (h' : OnBytes a b call result' d') :
    result' = result ∧ d' = d := by
  obtain ⟨w, hw, hrun⟩ := h
  obtain ⟨w', hw', hrun'⟩ := h'
  obtain rfl := Except.ok.inj (hw.symm.trans hw')
  exact Prod.mk.inj (hrun'.symm.trans hrun)

theorem bound_new {a : Assumptions} {order : ByteOrder} (ha : a.select = .ok (some order))
    (b : List UInt8) :
    ∃ w : Context Unit, Context.new .unpacker a b.toArray 0 none () = .ok w ∧ Bound b w := by
  obtain ⟨w, hnew, hlive, hahead⟩ := Context.ahead_new ha .unpacker b.toArray ()
  obtain ⟨-, hcurrent, -⟩ := Context.region_new hnew (Context.range?_whole _)
  exact ⟨w, hnew, hlive, hcurrent, hahead⟩

section bytes

variable {a : Assumptions} {order : ByteOrder} (ha : a.select = .ok (some order))
  {b : List UInt8} {c d : Context Unit} {call : Call} (hc : Bound b c)

include ha hc

/-- A complete call comes to the same on these bytes alone, whatever follows them. -/
theorem onBytes_complete (hd : call.engine none c = .ok () d) :
    d.current ≤ b.length ∧ ∀ more, ∃ x, OnBytes a (b ++ more) call (.ok .ok) x ∧
      x.current = d.current ∧ call.sight x = call.sight d := by
  obtain ⟨k, hk, hcurrent, hextend⟩ := complete_extend (τ := Unit) hc.live hd
  rw [hc.current_eq, Nat.zero_add] at hcurrent
  rw [hc.ahead_eq] at hk
  refine ⟨hcurrent.symm ▸ hk, ?_⟩
  intro more
  obtain ⟨w, hnew, hw⟩ := bound_new ha (b ++ more)
  obtain ⟨x, hx, hxcurrent, hsight⟩ := hextend hw.live (by rw [hw.ahead_eq, hc.ahead_eq])
  rw [hw.current_eq, Nat.zero_add, ← hcurrent] at hxcurrent
  exact ⟨x, ⟨w, hnew, run_of_ok hx⟩, hxcurrent, hsight⟩

/-- A call that stops does so on these bytes alone, and where they are malformed also on more. -/
theorem onBytes_stopped {status : Status} (hd : call.engine none c = .error (.status status) d)
    (more : List UInt8) (hmore : more = [] ∨ status = .malformedInput) :
    ∃ x, OnBytes a (b ++ more) call (.ok status) x := by
  obtain ⟨_, hstatus, -, -, hstops⟩ := stops_alike (τ := Unit) hc.live hd
  obtain rfl := Halt.status.inj hstatus
  obtain ⟨w, hnew, hw⟩ := bound_new ha (b ++ more)
  obtain ⟨x, hx⟩ := hstops w more hw.live (by rw [hw.ahead_eq, hc.ahead_eq]) hmore
  exact ⟨x, w, hnew, run_of_error hx⟩

end bytes

/-! ### Calls of a reader -/

/-- What a call of a reader comes to. -/
inductive Answer
  | item (i : Item Span)
  | passed
  /-- The source ends between two items. -/
  | ended
  | failed (failure : Failure)
  deriving DecidableEq, Repr

namespace Answer

/-- The number of bytes that a call has used up, if this is its answer and the reader is left like
this: those before the cursor if it was successful. -/
def used (answer : Answer) (r : ItemReader) : Nat :=
  match answer with
  | item _ | passed => r.context.current
  | ended | failed _ => 0

/-- The answer shows what a complete call has come to in `d`: the item, whatever becomes of the
buffer. -/
def Shows (answer : Answer) (call : Call) (d : Context Unit) : Prop :=
  match call, answer with
  | .decode, item i => ∀ buffer, d.last = some (i.resolve buffer)
  | .skip _, passed => True
  | _, _ => False

end Answer

/-- Make a call of a reader: the next item, or passing over items. -/
def answer (call : Call) (r : ItemReader) : Answer × ItemReader :=
  match call with
  | .decode =>
    match r.next with
    | (.ok (some i), r) => (.item i, r)
    | (.ok none, r) => (.ended, r)
    | (.error failure, r) => (.failed failure, r)
  | .skip count =>
    match r.skip count with
    | (.ok (), r) => (.passed, r)
    | (.error failure, r) => (.failed failure, r)

/-- What the answer to a call says about the bytes `b`, none of which had been used up: the call is
complete, or it cannot be on these bytes.  A fault is one of those in `chunks`. -/
inductive Answers (a : Assumptions) (chunks : List Chunk) (b : List UInt8) (call : Call) :
    Answer → Nat → Prop
  /-- Whatever follows the bytes, the call comes to this on them. -/
  | complete {answer : Answer} {k : Nat} (hk : k ≤ b.length)
      (h : ∀ more, ∃ d, OnBytes a (b ++ more) call (.ok .ok) d ∧ d.current = k ∧
        answer.Shows call d) : Answers a chunks b call answer k
  | ended {d : Context Unit} (hcall : call = .decode) (h : OnBytes a b call (.ok .endOfInput) d) :
      Answers a chunks b call .ended 0
  | stopped {e : StopError} {d : Context Unit} (h : OnBytes a b call (.ok e.status) d)
      (hs : e.status ≠ .ok) (hcall : call = .decode → e.status ≠ .endOfInput) :
      Answers a chunks b call (.failed (.stop e)) 0
  | raised {fault : Fault} {status : Status} {d : Context Unit}
      (h : OnBytes a b call (.ok status) d) (hs : status = .endOfInput ∨ status = .bufferUnderflow)
      (hf : .fault fault ∈ chunks) : Answers a chunks b call (.failed (.fault fault)) 0

theorem Answers.mono {a : Assumptions} {chunks chunks' : List Chunk} {b : List UInt8} {call : Call}
    {answer : Answer} {k : Nat} (h : Answers a chunks b call answer k)
    (hfaults : ∀ fault, .fault fault ∈ chunks → .fault fault ∈ chunks') :
    Answers a chunks' b call answer k := by
  cases h with
  | complete hk h => exact .complete hk h
  | ended hcall h => exact .ended hcall h
  | stopped h hs hcall => exact .stopped h hs hcall
  | raised h hs hf => exact .raised h hs (hfaults _ hf)

/-- The answer to a call of `r` with this outcome, and what was used up, are right about the bytes
that were received in all, and about those that could have been received at once. -/
structure Answered (a : Assumptions) (r : ItemReader) (call : Call) (next : List UInt8)
    (outcome : Answer × ItemReader) : Prop where
  receives : Receives r next (outcome.1.used outcome.2) outcome.2
  answers : Answers a r.source.chunks (r.unread.toList ++ next) call outcome.1
    (outcome.1.used outcome.2)
  atOnce : 0 < r.readSize → ∀ d,
    OnBytes a (r.unread.toList ++ r.source.ready) call (.ok .ok) d →
      outcome.1.Shows call d ∧ d.current = outcome.1.used outcome.2

/-- What a reader makes of the outcome of trying. -/
def conclude (call : Call) : Except Failure (Option Status) × ItemReader → Answer × ItemReader
  | (.error failure, r) => (.failed failure, r)
  | (.ok none, r) =>
    match call, r.context.item with
    | .decode, some i => (.item (i.detach r.context.buffer), r.consume)
    | .decode, none => (.ended, r.consume)
    | .skip _, _ => (.passed, r.consume)
  | (.ok (some status), r) =>
    match call with
    | .decode =>
      if status = .endOfInput then (.ended, r) else (.failed (.stop r.truncated), r.noteTruncated)
    | .skip _ => (.failed (.stop (status.error none none)), r)

theorem answer_eq (call : Call) (r : ItemReader) :
    r.answer call = conclude call (r.complete (call.engine none)) := by
  cases call with
  | decode =>
      rw [answer, next, Call.engine]
      generalize r.complete (decode none) = outcome
      obtain ⟨_ | _ | status, r'⟩ := outcome
      · rfl
      · cases hitem : r'.context.item with
        | none | some => simp only [conclude, hitem, Option.map_none, Option.map_some]
      · simp only [conclude]
        split_ifs <;> rfl
  | skip count =>
      rw [answer, skip, Call.engine]
      generalize r.complete (Unpacker.skip none count) = outcome
      obtain ⟨_ | _ | status, r'⟩ := outcome <;> rfl

theorem allLoop_eq (found : Array (Item Span)) (r : ItemReader) :
    r.allLoop found = match r.next with
      | (.error failure, d) => (.error failure, d)
      | (.ok none, d) => (.ok found, d)
      | (.ok (some item), d) => d.allLoop (found.push item) := by
  rw [allLoop]
  split <;> rename_i heq <;> rw [heq]

section calls

variable {a : Assumptions} {order : ByteOrder} (ha : a.select = .ok (some order))

include ha

/-- A complete call: the item is detached before its bytes are used up. -/
theorem answered_done {r r' : ItemReader} {next : List UInt8} {call : Call} {c : Context Unit}
    (h : Receives r next 0 r') (hready : r.source.ready = next ++ r'.source.ready)
    (hc : Bound (r.unread.toList ++ next) c) (hd : call.engine none c = .ok () r'.context) :
    Answered a r call next (conclude call (.ok none, r')) := by
  obtain ⟨hle, hbytes⟩ := onBytes_complete ha hc hd
  have hconsume : Receives r next r'.context.current r'.consume := by
    apply h.consume
    rwa [← h.unread_zero, Array.length_toList] at hle
  have hall : ∀ {answer : Answer}, answer.used r'.consume = r'.context.current →
      (∀ d, call.sight d = call.sight r'.context → answer.Shows call d) →
      Answered a r call next (answer, r'.consume) := by
    intro answer hused hshows
    have hcomplete : ∀ more, ∃ d, OnBytes a (r.unread.toList ++ next ++ more) call (.ok .ok) d ∧
        d.current = answer.used r'.consume ∧ answer.Shows call d := by
      intro more
      obtain ⟨d, hd, hcurrent, hsight⟩ := hbytes more
      exact ⟨d, hd, hcurrent.trans hused.symm, hshows d hsight⟩
    refine ⟨?_, .complete ?_ hcomplete, ?_⟩
    · exact hused.symm ▸ hconsume
    · exact hused.symm ▸ hle
    · intro _ d hd
      obtain ⟨x, hx, hcurrent, hshown⟩ := hcomplete r'.source.ready
      rw [List.append_assoc, ← hready] at hx
      obtain ⟨-, rfl⟩ := hx.unique hd
      exact ⟨hshown, hcurrent⟩
  cases call with
  | skip count => exact hall rfl fun _ _ => trivial
  | decode =>
      obtain ⟨-, i, -, -, hlast, -⟩ := denotes_of_decode hc.live hd
      cases hitem : r'.context.item with
      | none =>
          rw [Context.last, hitem] at hlast
          cases hlast
      | some item =>
          simp only [conclude, hitem]
          apply hall rfl
          intro d hsight buffer
          rw [Item.resolve_detach]
          have hlast' : r'.context.last = some (item.resolve r'.context.buffer) := by
            rw [Context.last, hitem]
            rfl
          exact Eq.trans hsight hlast'

/-- A call that is not complete uses nothing up, and could not have been complete. -/
theorem answered_failed {r r' : ItemReader} {next : List UInt8} {call : Call} {status : Status}
    {c d : Context Unit} {answer : Answer} (h : Receives r next 0 r')
    (hc : Bound (r.unread.toList ++ next) c) (hd : call.engine none c = .error (.status status) d)
    (hs : status = .endOfInput ∨ status = .bufferUnderflow ∨ status = .malformedInput)
    (hready : 0 < r.readSize → r.source.ready = next ∨
      status = .malformedInput ∧ r.source.ready = next ++ r'.source.ready)
    (hused : answer.used r' = 0)
    (hanswer : ∀ x, OnBytes a (r.unread.toList ++ next) call (.ok status) x →
      Answers a r.source.chunks (r.unread.toList ++ next) call answer 0) :
    Answered a r call next (answer, r') := by
  have hstops := onBytes_stopped ha hc hd
  obtain ⟨x, hx⟩ := hstops [] (.inl rfl)
  rw [List.append_nil] at hx
  refine ⟨hused.symm ▸ h, hused.symm ▸ hanswer x hx, ?_⟩
  intro hsize y hy
  exfalso
  -- all that was ready has been received, or more of it would not help: the call stops on it too
  have hne : status ≠ .ok := by
    rcases hs with rfl | rfl | rfl <;> decide
  obtain ⟨z, hz⟩ : ∃ z, OnBytes a (r.unread.toList ++ r.source.ready) call (.ok status) z := by
    rcases hready hsize with hnext | ⟨hmalformed, hnext⟩
    · rw [hnext]
      exact ⟨x, hx⟩
    · rw [hnext, ← List.append_assoc]
      exact hstops _ (.inr hmalformed)
  exact hne (Except.ok.inj (hy.unique hz).1)

theorem answered_answer {r : ItemReader} (hr : r.context.assumptions = a) (call : Call) :
    ∃ next, Answered a r call next (r.answer call) := by
  have h := completed_complete (hr.symm ▸ ha) call
  rw [answer_eq]
  generalize r.complete (call.engine none) = outcome at h
  cases h with
  | done h hready hc hd => exact ⟨_, answered_done ha h hready hc hd⟩
  | @ended next r' c d status h hready hc hd hs =>
      refine ⟨next, ?_⟩
      have hnone : 0 < r.readSize → r.source.ready = next ∨
          status = .malformedInput ∧ r.source.ready = next ++ r'.source.ready :=
        fun hsize => .inl (hready hsize)
      have hne : status ≠ .ok := by
        rcases hs with rfl | rfl <;> decide
      cases call with
      | skip count =>
          refine answered_failed ha h hc hd (or_assoc.mp (.inl hs)) hnone rfl ?_
          intro x hx
          refine .stopped hx hne ?_
          intro hcall
          cases hcall
      | decode =>
          simp only [conclude]
          split_ifs with hend
          · refine answered_failed ha h hc hd (or_assoc.mp (.inl hs)) hnone rfl ?_
            intro x hx
            exact .ended rfl (hend ▸ hx)
          · obtain rfl : status = .bufferUnderflow := hs.resolve_left hend
            have hnoted : Receives r next 0 r'.noteTruncated := h.same rfl rfl
            refine answered_failed ha hnoted hc hd (.inr (.inl rfl)) hnone rfl ?_
            intro x hx
            exact .stopped hx hne fun _ => hend
  | raised h hready hc hd hs hf =>
      refine ⟨_, answered_failed ha h hc hd (or_assoc.mp (.inl hs))
        (fun hsize => .inl (hready hsize)) rfl ?_⟩
      intro x hx
      exact .raised hx hs hf
  | @malformed next r' c d e h hready hc hd hs =>
      refine ⟨_, answered_failed ha h hc hd (.inr (.inr rfl)) (fun _ => .inr ⟨rfl, hready⟩) rfl ?_⟩
      intro x hx
      rw [← hs] at hx
      refine .stopped hx ?_ ?_
      · rw [hs]
        decide
      · intro _
        rw [hs]
        decide

end calls

/-! ### Sequences of calls -/

/-- The reader after calls, one after another, whatever each of them comes to. -/
def afterAll : List Call → ItemReader → ItemReader
  | [], r => r
  | call :: calls, r => afterAll calls (r.answer call).2

/-- The number of bytes that calls have used up. -/
def usedUp : List Call → ItemReader → Nat
  | [], _ => 0
  | call :: calls, r => (r.answer call).1.used (r.answer call).2 + usedUp calls (r.answer call).2

theorem receives_afterAll {a : Assumptions} {order : ByteOrder}
    (ha : a.select = .ok (some order)) {r : ItemReader} (hr : r.context.assumptions = a)
    (calls : List Call) : ∃ next, Receives r next (usedUp calls r) (afterAll calls r) := by
  induction calls generalizing r with
  | nil => exact ⟨[], .refl r⟩
  | cons call calls ih =>
      obtain ⟨next, h⟩ := answered_answer ha hr call
      obtain ⟨more, hrest⟩ := ih (h.receives.assumptions.trans hr)
      exact ⟨next ++ more, h.receives.trans hrest⟩

theorem new_eq {source : Source} {readSize : Nat} {a : Assumptions} {r : ItemReader}
    (h : new source readSize a = .ok r) :
    r.unread.toList = [] ∧ r.source = source ∧ r.readSize = readSize ∧
      r.context.assumptions = a ∧ ∃ order, a.select = .ok (some order) := by
  unfold new at h
  cases hc : Context.checked (Context.new .unpacker a #[] 0 none ()) with
  | error refusal => simp [hc] at h
  | ok context =>
      obtain rfl : { context, source, readSize } = r := by simpa [hc] using h
      obtain ⟨hnew, hstatus⟩ := Context.new_of_checked hc
      obtain ⟨hbytes, -, -⟩ := Context.region_new hnew (Context.range?_whole _)
      obtain ⟨hassumptions, order, ha, horder⟩ := Context.select_new hnew
      obtain ⟨o, rfl⟩ := horder hstatus
      exact ⟨congrArg Array.toList hbytes, rfl, rfl, hassumptions, o, ha⟩

/-- A reader is restartable, and loses nothing.  Whatever the source does, and whatever calls have
come to before: the unread bytes are those received less those that successful calls have used up.
The next call then answers what it comes to without a handler on these bytes alone, and on whatever
comes after them if it is successful; otherwise it uses nothing up.  If it is complete on what the
source has ready, as if all of it had been there at once, then it is successful and comes to the
same. -/
theorem restartable {source : Source} {readSize : Nat} {a : Assumptions} {r₀ r : ItemReader}
    {calls : List Call} (hnew : new source readSize a = .ok r₀) (hr : afterAll calls r₀ = r) :
    ∃ received, source.content = received ++ r.source.content ∧
      r.unread.toList = received.drop (usedUp calls r₀) ∧ usedUp calls r₀ ≤ received.length ∧
      ∀ call answer r', r.answer call = (answer, r') → ∃ next,
        r.source.content = next ++ r'.source.content ∧
        r'.unread.toList = (received ++ next).drop (usedUp calls r₀ + answer.used r') ∧
        Answers a source.chunks ((received ++ next).drop (usedUp calls r₀)) call answer
          (answer.used r') ∧
        (0 < readSize → ∀ d,
          OnBytes a ((received ++ r.source.ready).drop (usedUp calls r₀)) call (.ok .ok) d →
            answer.Shows call d ∧ d.current = answer.used r') := by
  obtain ⟨hunread, hsource, hsize, hassumptions, order, ha⟩ := new_eq hnew
  obtain ⟨received, h⟩ := receives_afterAll ha hassumptions calls
  rw [hr] at h
  have hcontent := h.content
  have hrest := h.unread
  have hle := h.le_length
  rw [hsource] at hcontent
  rw [hunread, List.nil_append] at hrest hle
  refine ⟨received, hcontent, hrest, hle, ?_⟩
  intro call answer r' hanswer
  obtain ⟨next, hnext⟩ := answered_answer ha (h.assumptions.trans hassumptions) call
  rw [hanswer] at hnext
  have hdrop : ∀ more : List UInt8, (received ++ more).drop (usedUp calls r₀) =
      r.unread.toList ++ more := by
    intro more
    rw [List.drop_append_of_le_length hle, hrest]
  refine ⟨next, hnext.receives.content, ?_, ?_, ?_⟩
  · rw [← List.drop_drop, hdrop]
    exact hnext.receives.unread
  · rw [hdrop]
    exact hnext.answers.mono fun fault hf => hsource ▸ h.faults fault hf
  · intro hpos d hd
    rw [hdrop] at hd
    have hpos' : 0 < r.readSize := by rwa [h.readSize, hsize]
    exact hnext.atOnce hpos' d hd

/-- The source raises a fault in the middle of a text.  Asked again, the reader goes on with what it
has received before, and answers as if all had been there at once. -/
theorem restartable_after_fault :
    ∃ (r₀ r r' : ItemReader) (answer : Answer) (d : Context Unit),
      new { manner := .receive, chunks := [.data #[0xA2, 0x61],
        .fault (.outside .runtime "lost"), .data #[0x62, 0x05]] } 4 {} = .ok r₀ ∧
      r₀.answer .decode = (.failed (.fault (.outside .runtime "lost")), r) ∧
      r.answer .decode = (answer, r') ∧ OnBytes {} [0xA2, 0x61, 0x62, 0x05] .decode (.ok .ok) d ∧
      d.last = some (.str #[0x61, 0x62]) ∧ answer.Shows .decode d ∧ r'.unread = #[0x05] := by
  obtain ⟨r₀, w, hnew, hw, hfailed, hunread, hready, hrun, hlast, hrest⟩ :
      ∃ (r₀ : ItemReader) (w : Context Unit),
      new { manner := .receive, chunks := [.data #[0xA2, 0x61],
        .fault (.outside .runtime "lost"), .data #[0x62, 0x05]] } 4 {} = .ok r₀ ∧
      Context.new .unpacker {} #[0xA2, 0x61, 0x62, 0x05] 0 none () = .ok w ∧
      (r₀.answer .decode).1 = .failed (.fault (.outside .runtime "lost")) ∧
      (r₀.answer .decode).2.unread.toList = [0xA2, 0x61] ∧
      (r₀.answer .decode).2.source.ready = [0x62, 0x05] ∧
      ((Call.decode.engine none).run w).1 = .ok .ok ∧
      ((Call.decode.engine none).run w).2.last = some (.str #[0x61, 0x62]) ∧
      ((r₀.answer .decode).2.answer .decode).2.unread = #[0x05] :=
    ⟨_, _, rfl, rfl, by cbv, by cbv, by cbv, by cbv, by cbv, by cbv⟩
  have hbytes : OnBytes {} [0xA2, 0x61, 0x62, 0x05] .decode (.ok .ok)
      ((Call.decode.engine none).run w).2 := ⟨w, hw, Prod.ext hrun rfl⟩
  have hr : afterAll [.decode] r₀ = (r₀.answer .decode).2 := rfl
  obtain ⟨received, -, hreceived, hle, hanswers⟩ := restartable hnew hr
  obtain ⟨next, -, -, -, hatOnce⟩ := hanswers .decode _ _ rfl
  have hdrop : (received ++ (r₀.answer .decode).2.source.ready).drop (usedUp [.decode] r₀) =
      [0xA2, 0x61, 0x62, 0x05] := by
    rw [List.drop_append_of_le_length hle, ← hreceived, hunread, hready]
    rfl
  rw [hdrop] at hatOnce
  obtain ⟨hshows, -⟩ := hatOnce (by decide) _ hbytes
  exact ⟨r₀, _, _, _, _, hnew, Prod.ext hfailed rfl, rfl, hbytes, hlast, hshows, hrest⟩

end ItemReader
end MessagePack
