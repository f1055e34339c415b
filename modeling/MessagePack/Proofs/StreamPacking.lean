import MessagePack.Proofs.Draining
import MessagePack.Proofs.Giving
import Mathlib

/-! # Packing to a stream, call by call

The bytes of the values that are packed are in one of two places: the sink has them already, or the
buffer still holds them (`Accounted`).  Every call preserves this, in whatever pieces the sink takes
the bytes, until a fault stops the packer; from then on the sink is left alone.

One call does not: a `flush` that is broken off by a fault other than a device failure, after the
sink has taken a part (`Torn`).  The packer is not stopped, and still holds the part. -/

namespace MessagePack
namespace StreamPacker

open Engine

variable {P : Fault → Prop}

/-! ### Calls -/

/-- A call of a stream packer. -/
inductive Call
  | pack (v : Value)
  | flush
  deriving DecidableEq, Repr

namespace Call

/-- What a call does. -/
def engine : Call → Engine Sink Unit
  | pack v => StreamPacker.pack v
  | flush => StreamPacker.flush

/-- What a call adds to the bytes on the wire. -/
def encoding : Call → List UInt8
  | pack v => v.encoding
  | flush => []

end Call

/-- Make calls one after another: what each of them comes to, and the packer afterwards. -/
def runAll : List Call → StreamPacker → List (Except Fault Status) × StreamPacker
  | [], c => ([], c)
  | call :: calls, c =>
      let (result, c) := call.engine.run c
      let (results, c) := runAll calls c
      (result :: results, c)

/-- What the complete ones among the calls add to the bytes on the wire. -/
def encoded : List Call → List (Except Fault Status) → List UInt8
  | call :: calls, result :: results =>
      (if result = .ok .ok then call.encoding else []) ++ encoded calls results
  | _, _ => []

/-- A flush would be broken off with only a part of the packed bytes written. -/
def Torn (c : StreamPacker) : Prop :=
  ∃ (fault : Fault) (d : StreamPacker),
    flush.run c = (.error fault, d) ∧ d.sent ≠ c.sent ∧ d.pending ≠ []

/-! ### One call -/

/-- No byte is lost between the two packers or taken by the sink too early, and nothing is
raised. -/
structure Keeps (P : Fault → Prop) (c d : StreamPacker) : Prop where
  live : d.Live
  sent_prefix : d.sent <+: c.sent ++ c.pending
  total : d.sent ++ d.pending = c.sent ++ c.pending
  raised : d.peer.HasRaised ↔ c.peer.HasRaised
  raises : d.peer.Raises P

theorem Keeps.refl {c : StreamPacker} (hc : c.Live) (hs : c.peer.Raises P) : Keeps P c c :=
  ⟨hc, List.prefix_append .., rfl, Iff.rfl, hs⟩

theorem Keeps.of_takes {c d : StreamPacker} (hd : d.Live)
    (h : c.peer.Takes P c.pending d.peer) (hp : d.pending = []) : Keeps P c d where
  live := hd
  sent_prefix := by
    rw [sent, h.accepted]
    exact List.prefix_refl _
  total := by
    rw [hp, List.append_nil]
    exact h.accepted
  raised := h.raised
  raises := h.raises

theorem sent_prefix_of_breaks {c d : StreamPacker} (h : c.peer.Breaks P c.pending d.peer) :
    d.sent <+: c.sent ++ c.pending := by
  obtain ⟨k, hk⟩ := h.accepted
  rw [sent, hk]
  exact (List.prefix_append_right_inj _).mpr (List.take_prefix ..)

/-- What a call of a live packer can come to.  It is complete, and its encoding follows the bytes
before; or it is refused, and nothing is lost; or the sink breaks it off.  The sink never takes more
than what was packed before. -/
inductive Called (P : Fault → Prop) (c : StreamPacker) :
    Call → Except Fault Status × StreamPacker → Prop
  | packed {v : Value} {d e : StreamPacker} (h : Keeps P c d) (he : e.Live)
      (hpeer : e.peer = d.peer) (hp : e.pending = d.pending ++ v.encoding)
      (hv : ∃ f, v.frame = .ok f) : Called P c (.pack v) (.ok .ok, e)
  | refused {v : Value} {fault : Fault} {d : StreamPacker} (h : Keeps P c d)
      (hv : v.frame = .error fault) : Called P c (.pack v) (.error fault, d)
  | flushed {d : StreamPacker} (h : Keeps P c d) (hp : d.pending = []) :
      Called P c .flush (.ok .ok, d)
  | failed {v : Value} {result : Except Fault Status} {d : StreamPacker}
      (he : result ≠ .ok .ok) (hd : d.status = .errorInHandler)
      (h : c.peer.Breaks P c.pending d.peer) (hf : ∃ fault, P fault) :
      Called P c (.pack v) (result, d)
  | stopped {d : StreamPacker} (hd : d.status = .errorInHandler)
      (h : c.peer.Breaks P c.pending d.peer) (hf : ∃ fault, P fault) :
      Called P c .flush (.ok .errorInHandler, d)
  /-- A flush is broken off by a fault that does not stop the packer: nothing is taken out of the
  buffer, or all of it. -/
  | interrupted {fault : Fault} {d : StreamPacker} (hf : P fault) (hn : fault.isDevice = false)
      (hd : d.Live) (h : c.peer.Breaks P c.pending d.peer)
      (hp : d.pending = c.pending ∨ d.pending = [] ∧ d.sent = c.sent ++ c.pending) :
      Called P c .flush (.error fault, d)

theorem called_pack {c : StreamPacker} (hc : c.Live) (hs : c.peer.Raises P) (v : Value) :
    Called P c (.pack v) ((pack v).run c) := by
  have hroom : ∀ n d, Packer.reserve (some makeRoom) n c = .ok () d → Keeps P c d := by
    intro n d hr
    have h := reserved_reserve hc hs n
    rw [hr] at h
    cases h with
    | there => exact .refl hc hs
    | drained hd h hp => exact .of_takes hd h hp
  have hpack := Packer.packed_pack hc.status_eq v fun n d hr =>
    (hroom n d hr).live.ready (Packer.reserve_ok hr)
  unfold pack Engine.run
  generalize Packer.pack (some makeRoom) v c = result at hpack ⊢
  cases hpack with
  | refused hv => exact .refused (.refl hc hs) hv
  | tooLarge hv hr => exact .refused (hroom _ _ hr) hv
  | @noRoom n halt d hn hr =>
      have h := reserved_reserve hc hs n
      rw [hr] at h
      cases h with
      | failed h hd hh hf =>
          cases halt with
          | status status => exact .failed (by simpa using hh) hd h hf
          | fault fault => exact .failed (by simp) hd h hf
  | @appended f d hv hr =>
      have hd := hroom _ _ hr
      refine .packed hd (hd.live.append_bytes (Packer.reserve_ok hr)) rfl ?_ ⟨f, hv⟩
      rw [Context.pending_append hd.live, Value.encoding_eq hv]

theorem flush_eq {c : StreamPacker} (hc : c.status = .ok) :
    flush c = match drainAndFlush c.toRegion with
      | (.ok (), r) => .ok () (c.within r)
      | (.error fault, r) =>
        if fault.isDevice then stop .errorInHandler (c.within (r.keepFault fault))
        else .error (.fault fault) (c.within r) := bind_of_ok (running_eq hc)

theorem called_of_breaks {c : StreamPacker} (hc : c.Live) {r : Region Sink} {fault : Fault}
    (hr : drainAndFlush c.toRegion = (.error fault, r)) (hf : P fault) (hb : r.InBounds)
    (h : c.peer.Breaks P c.pending r.peer)
    (hp : (c.within r).pending = c.pending ∨
      (c.within r).pending = [] ∧ sent (c.within r) = c.sent ++ c.pending) :
    Called P c .flush (flush.run c) := by
  rw [run, flush_eq hc.status_eq, hr]
  dsimp only
  cases hn : fault.isDevice with
  | true =>
      rw [if_pos rfl]
      exact .stopped rfl h ⟨fault, hf⟩
  | false =>
      rw [if_neg (by simp)]
      exact .interrupted hf hn ⟨hb, hc.status_eq, hc.order_eq⟩ h hp

theorem called_flush {c : StreamPacker} (hc : c.Live) (hs : c.peer.Raises P) :
    Called P c .flush (flush.run c) := by
  have hb := hc.inBounds
  have hrewound : ∀ t : Sink, Region.InBounds { c.toRegion with peer := t, current := c.start } :=
    fun t => ⟨Nat.le_refl _, Nat.le_trans hb.start_le hb.current_le, hb.limit_le⟩
  have hdrain : Drained P c.toRegion _ := drained_drain hs
  generalize hr : drain c.toRegion = result at hdrain
  cases hdrain with
  | @broken t fault hf h =>
      have hr' : drainAndFlush c.toRegion = (.error fault, { c.toRegion with peer := t }) := by
        rw [drainAndFlush, hr]
      exact called_of_breaks hc hr' hf ⟨hb.start_le, hb.current_le, hb.limit_le⟩ h (.inl rfl)
  | @complete t h =>
      have hr' : drainAndFlush c.toRegion = (t.flush.1,
          { c.toRegion with peer := t.flush.2, current := c.start }) := by
        rw [drainAndFlush, hr]
      have hflush : Sink.Written P t [] t.flush := Sink.written_flush h.raises
      generalize t.flush = result at hr' hflush
      cases hflush with
      | @complete u h' =>
          have hall := h.trans h'
          rw [List.append_nil] at hall
          rw [run, flush_eq hc.status_eq, hr']
          exact .flushed (.of_takes ⟨hrewound u, hc.status_eq, hc.order_eq⟩ hall
            (Context.pending_eq_nil rfl)) (Context.pending_eq_nil rfl)
      | @broken u fault hf h' =>
          have hall := h.breaks h'
          rw [List.append_nil] at hall
          refine called_of_breaks hc hr' hf (hrewound u) hall
            (.inr ⟨Context.pending_eq_nil rfl, ?_⟩)
          obtain ⟨k, hk⟩ := h'.accepted
          rw [List.take_nil, List.append_nil] at hk
          show u.accepted.toList = _
          rw [hk]
          exact h.accepted

theorem called_run {c : StreamPacker} (hc : c.Live) (hs : c.peer.Raises P) (call : Call) :
    Called P c call (call.engine.run c) := by
  cases call with
  | pack v => exact called_pack hc hs v
  | flush => exact called_flush hc hs

theorem run_call_of_latched {c : StreamPacker} (h : c.status ≠ .ok) (call : Call) :
    call.engine.run c = (.ok .stopped, c) := by
  cases call <;> exact run_of_latched h _

/-! ### Sequences of calls -/

/-- The bytes `expected` are accounted for: the sink has them or the buffer holds them, and once
the packer is stopped, the sink has a prefix of them.  If all faults are device failures, the packer
is stopped as soon as one is raised. -/
structure Accounted (P : Fault → Prop) (expected : List UInt8) (c : StreamPacker) : Prop where
  raises : c.peer.Raises P
  live : c.status = .ok → c.Live
  total : c.status = .ok → c.sent ++ c.pending = expected
  sent_prefix : c.sent <+: expected
  raised : (∀ fault, P fault → fault.isDevice = true) → c.peer.HasRaised →
    c.status = .errorInHandler

section account

variable {expected : List UInt8} {c : StreamPacker} (h : Accounted P expected c)

include h

/-- With device failures only, none has been raised while the packer runs. -/
theorem Accounted.not_raised (hs : c.status = .ok)
    (hP : ∀ fault, P fault → fault.isDevice = true) : ¬ c.peer.HasRaised :=
  fun hr => absurd (hs.symm.trans (h.raised hP hr)) (by decide)

theorem Accounted.keeps {d : StreamPacker} (hs : c.status = .ok) (hk : Keeps P c d) :
    Accounted P expected d where
  raises := hk.raises
  live _ := hk.live
  total _ := hk.total.trans (h.total hs)
  sent_prefix := h.total hs ▸ hk.sent_prefix
  raised hP hr := absurd (hk.raised.mp hr) (h.not_raised hs hP)

theorem Accounted.packed {d : StreamPacker} {data : List UInt8} (hs : c.status = .ok) (hd : d.Live)
    (hpeer : d.peer = c.peer) (hp : d.pending = c.pending ++ data) :
    Accounted P (expected ++ data) d where
  raises := hpeer ▸ h.raises
  live _ := hd
  total _ := by
    rw [hp, sent, hpeer, ← List.append_assoc, ← h.total hs]
    rfl
  sent_prefix := by
    rw [sent, hpeer]
    exact h.sent_prefix.trans (List.prefix_append ..)
  raised hP hr := absurd (hpeer ▸ hr) (h.not_raised hs hP)

theorem Accounted.failed {d : StreamPacker} (hs : c.status = .ok) (hd : d.status = .errorInHandler)
    (hb : c.peer.Breaks P c.pending d.peer) : Accounted P expected d where
  raises := hb.raises
  live hd' := absurd (hd.symm.trans hd') (by decide)
  total hd' := absurd (hd.symm.trans hd') (by decide)
  sent_prefix := h.total hs ▸ sent_prefix_of_breaks hb
  raised _ _ := hd

/-- A flush that is broken off keeps the account if the sink has taken all or nothing. -/
theorem Accounted.interrupted {fault : Fault} {d : StreamPacker} (hs : c.status = .ok)
    (hf : P fault) (hn : fault.isDevice = false) (hd : d.Live)
    (hb : c.peer.Breaks P c.pending d.peer)
    (hp : d.pending = c.pending ∨ d.pending = [] ∧ d.sent = c.sent ++ c.pending)
    (ht : d.sent = c.sent ∨ d.pending = []) : Accounted P expected d where
  raises := hb.raises
  live _ := hd
  total _ := by
    rw [← h.total hs]
    rcases hp with hp | ⟨hp, hall⟩
    · rcases ht with ht | ht
      · rw [hp, ht]
      · -- nothing was pending, so nothing was taken
        obtain ⟨k, hk⟩ := hb.accepted
        rw [← hp, ht, List.take_nil, List.append_nil] at hk
        rw [hp]
        exact congrArg (· ++ _) hk
    · rw [hp, List.append_nil, hall]
  sent_prefix := h.total hs ▸ sent_prefix_of_breaks hb
  raised hP _ := absurd (hP fault hf) (by simp [hn])

/-- One call keeps the account, provided that it is not a flush that is broken off halfway. -/
theorem Accounted.call (call : Call)
    (hn : (∀ fault, P fault → fault.isDevice = true) ∨ (call = .flush → ¬ Torn c)) :
    Accounted P (expected ++ if (call.engine.run c).1 = .ok .ok then call.encoding else [])
      (call.engine.run c).2 := by
  by_cases hs : c.status = .ok
  · have hcalled := called_run (h.live hs) h.raises call
    generalize hr : call.engine.run c = result at hcalled
    cases hcalled with
    | packed hk he hpeer hp =>
        rw [if_pos rfl]
        exact (h.keeps hs hk).packed hk.live.status_eq he hpeer hp
    | refused hk =>
        rw [if_neg (by simp), List.append_nil]
        exact h.keeps hs hk
    | flushed hk hp =>
        rw [if_pos rfl]
        exact (List.append_nil expected).symm ▸ h.keeps hs hk
    | failed he hd hb =>
        rw [if_neg he, List.append_nil]
        exact h.failed hs hd hb
    | stopped hd hb =>
        rw [if_neg (by simp [Status.ok, Status.errorInHandler]), List.append_nil]
        exact h.failed hs hd hb
    | @interrupted fault d hf hnd hd hb hp =>
        rw [if_neg (by simp), List.append_nil]
        refine h.interrupted hs hf hnd hd hb hp ?_
        rcases hn with hP | hn
        · exact absurd (hP fault hf) (by simp [hnd])
        · by_contra hboth
          rw [not_or] at hboth
          exact hn rfl ⟨fault, d, hr, hboth⟩
  · rw [run_call_of_latched hs]
    simpa [Status.ok, Status.stopped] using h

theorem Accounted.runAll (calls : List Call)
    (hn : (∀ fault, P fault → fault.isDevice = true) ∨
      ∀ before after, calls = before ++ .flush :: after → ¬ Torn (runAll before c).2) :
    Accounted P (expected ++ encoded calls (runAll calls c).1) (runAll calls c).2 := by
  induction calls generalizing expected c with
  | nil => simpa [StreamPacker.runAll, encoded] using h
  | cons call calls ih =>
      have hcall := h.call call (hn.imp_right fun hn hf => hn [] calls (by rw [hf]; rfl))
      have hrest := ih hcall (hn.imp_right fun hn before after he =>
        hn (call :: before) after (by rw [he]; rfl))
      rw [List.append_assoc] at hrest
      exact hrest

/-- Within the next call, the sink takes nothing but what was packed before. -/
theorem Accounted.sent_call_prefix (call : Call) :
    sent (call.engine.run c).2 <+: expected := by
  by_cases hs : c.status = .ok
  · have htotal := h.total hs
    have hcalled := called_run (h.live hs) h.raises call
    generalize call.engine.run c = result at hcalled
    rw [← htotal]
    cases hcalled with
    | packed hk he hpeer hp =>
        show List.IsPrefix (Array.toList _) _
        rw [hpeer]
        exact hk.sent_prefix
    | refused hk | flushed hk => exact hk.sent_prefix
    | failed he hd hb | stopped hd hb | interrupted hf hn hd hb hp =>
        exact sent_prefix_of_breaks hb
  · rw [run_call_of_latched hs]
    exact h.sent_prefix

theorem Accounted.sent_give_prefix (request : Request) :
    sent ((Packer.give (some makeRoom) request).run c).2 <+: expected := by
  cases hv : request.value with
  | ok v =>
      rw [Packer.run_give hv]
      exact h.sent_call_prefix (.pack v)
  | error fault =>
      rw [Packer.run_give_of_error hv]
      exact h.sent_prefix

/-- A complete flush leaves nothing behind. -/
theorem Accounted.sent_of_flush {d : StreamPacker} (hd : flush.run c = (.ok .ok, d)) :
    d.sent = expected := by
  by_cases hs : c.status = .ok
  · have hcalled := called_flush (h.live hs) h.raises
    rw [hd] at hcalled
    cases hcalled with
    | flushed hk hp =>
        have := hk.total
        rw [hp, List.append_nil, h.total hs] at this
        exact this
  · have := run_call_of_latched hs .flush
    rw [Call.engine, hd] at this
    simp [Status.ok, Status.stopped] at this

end account

/-! ### Exactly once -/

theorem accounted_new {sink : Sink} {size : Nat} {a : Assumptions} {c : StreamPacker}
    (hnew : new sink size a = .ok c) (hs : sink.Raises P) (ha : sink.accepted = #[])
    (hj : sink.journal = #[]) : Accounted P [] c := by
  obtain ⟨rfl, hstart⟩ := Context.peer_new hnew
  have hsent : c.sent = [] := by rw [sent, ha]
  exact {
    raises := hs
    live := fun hc => Context.live_new hnew hc
    total := fun _ => by rw [hsent, Context.pending_eq_nil hstart]; rfl
    sent_prefix := hsent ▸ List.prefix_refl _
    raised := fun _ ⟨event, hevent, _⟩ => by simp [hj] at hevent }

/-- Everything is written exactly once.  Let all faults of the sink be device failures, and take
`expected`, the encodings of the complete calls.  The sink has a prefix of it, also when the next
call is under way, and with the buffer all of it as long as the packer is not stopped; after a
complete flush it has all of it.  A fault stops the packer, and from then on nothing is called.  A
payload may be given in any form for the next call. -/
theorem written_exactly_once {sink : Sink} (hs : sink.Raises (·.isDevice = true))
    (ha : sink.accepted = #[]) (hj : sink.journal = #[]) {size : Nat} {a : Assumptions}
    {c d : StreamPacker} {calls : List Call} {results : List (Except Fault Status)}
    {expected : List UInt8} (hnew : new sink size a = .ok c) (hd : runAll calls c = (results, d))
    (he : encoded calls results = expected) :
    d.sent <+: expected ∧
    (∀ call : Call, sent (call.engine.run d).2 <+: expected) ∧
    (d.status = .ok → d.sent ++ d.pending = expected) ∧
    (∀ e : StreamPacker, flush.run d = (.ok .ok, e) → e.sent = expected) ∧
    (d.peer.HasRaised → d.status = .errorInHandler) ∧
    (d.status ≠ .ok → ∀ call : Call, call.engine.run d = (.ok .stopped, d)) ∧
    ∀ request : Request, sent ((Packer.give (some makeRoom) request).run d).2 <+: expected ∧
      (d.status ≠ .ok → (Packer.give (some makeRoom) request).run d = (.ok .stopped, d)) := by
  have h := (accounted_new hnew hs ha hj).runAll calls (.inl fun _ h => h)
  rw [hd, he, List.nil_append] at h
  exact ⟨h.sent_prefix, h.sent_call_prefix, h.total, fun _ => h.sent_of_flush,
    h.raised fun _ h => h, run_call_of_latched,
    fun request => ⟨h.sent_give_prefix request, Packer.run_give_of_latched⟩⟩

/-- Short writes, a value that is refused and one that is larger than the buffer, and then the
device is full. -/
theorem written_exactly_once_device_full :
    ∃ (c d : StreamPacker) (calls : List Call) (results : List (Except Fault Status)),
      new { replies := [.upTo 1, .upTo 0, .silent, .inExcess 2, .fault (.device (some 28))],
            flushes := some [none] } 2 {} = .ok c ∧
      calls = [.pack (.str #[0x61]), .pack .nil, .flush, .pack (.unsigned (-1)),
        .pack (.str #[0x62, 0x63]), .flush, .pack .nil] ∧
      results = [.ok .ok, .ok .ok, .ok .ok, .error (.negative (-1)), .ok .ok,
        .ok .errorInHandler, .ok .stopped] ∧
      runAll calls c = (results, d) ∧ d.status = .errorInHandler ∧
      d.sent <+: [0xA1, 0x61, 0xC0, 0xA2, 0x62, 0x63] := by
  obtain ⟨c, calls, results, hnew, hcalls, hresults, hrun, hencoded, hany⟩ :
      ∃ (c : StreamPacker) (calls : List Call) (results : List (Except Fault Status)),
      new { replies := [.upTo 1, .upTo 0, .silent, .inExcess 2, .fault (.device (some 28))],
            flushes := some [none] } 2 {} = .ok c ∧
      calls = [.pack (.str #[0x61]), .pack .nil, .flush, .pack (.unsigned (-1)),
        .pack (.str #[0x62, 0x63]), .flush, .pack .nil] ∧
      results = [.ok .ok, .ok .ok, .ok .ok, .error (.negative (-1)), .ok .ok,
        .ok .errorInHandler, .ok .stopped] ∧
      (runAll calls c).1 = results ∧
      encoded calls results = [0xA1, 0x61, 0xC0, 0xA2, 0x62, 0x63] ∧
      (runAll calls c).2.peer.journal.toList.any SinkEvent.raised = true :=
    ⟨_, _, _, rfl, rfl, rfl, by cbv, by cbv, by cbv⟩
  have hd : runAll calls c = (results, (runAll calls c).2) := by rw [← hrun]
  have hraised : (runAll calls c).2.peer.HasRaised := List.any_eq_true.mp hany
  obtain ⟨hsent, -, -, -, hstatus, -, -⟩ :=
    written_exactly_once ⟨by simp [Fault.isDevice], by simp⟩ rfl rfl hnew hd hencoded
  exact ⟨c, _, calls, results, hnew, hcalls, hresults, hd, hstatus hraised, hsent⟩

/-! ### Whatever the fault -/

/-- After a torn flush the packer goes on as if the sink had taken nothing: the next write begins
with bytes that the sink has already. -/
theorem Torn.repeats {c : StreamPacker} (hc : c.Live) (h : Torn c) :
    ∃ (fault : Fault) (d : StreamPacker) (k : Nat), flush.run c = (.error fault, d) ∧
      fault.isDevice = false ∧ d.Live ∧ d.pending = c.pending ∧
      0 < k ∧ d.sent = c.sent ++ c.pending.take k := by
  obtain ⟨fault, d, hrun, hsent, hpending⟩ := h
  have hcalled : Called (fun _ => True) c .flush (flush.run c) :=
    called_flush hc ⟨fun _ _ => trivial, fun _ _ _ _ => trivial⟩
  rw [hrun] at hcalled
  cases hcalled with
  | interrupted hf hn hd hb hp =>
      have hp := hp.resolve_right fun h => hpending h.1
      obtain ⟨k, hk⟩ := hb.accepted
      refine ⟨fault, d, k, hrun, hn, hd, hp, Nat.pos_of_ne_zero fun hk₀ => hsent ?_, hk⟩
      rw [hk₀, List.take_zero, List.append_nil] at hk
      exact hk

/-- Whatever faults the sink raises, it is never given a byte again that it has taken, as long as no
flush is torn: what it has taken is a prefix of the encodings of the complete calls. -/
theorem sent_prefix_unless_torn {sink : Sink} (ha : sink.accepted = #[]) (hj : sink.journal = #[])
    {size : Nat} {a : Assumptions} {c d : StreamPacker} {calls : List Call}
    {results : List (Except Fault Status)} {expected : List UInt8}
    (hnew : new sink size a = .ok c) (hd : runAll calls c = (results, d))
    (he : encoded calls results = expected)
    (hn : ∀ before after, calls = before ++ .flush :: after → ¬ Torn (runAll before c).2) :
    d.sent <+: expected ∧ (∀ call : Call, sent (call.engine.run d).2 <+: expected) ∧
      (d.status = .ok → d.sent ++ d.pending = expected) := by
  have hs : sink.Raises fun _ => True := ⟨fun _ _ => trivial, fun _ _ _ _ => trivial⟩
  have h := (accounted_new hnew hs ha hj).runAll calls (.inr hn)
  rw [hd, he, List.nil_append] at h
  exact ⟨h.sent_prefix, h.sent_call_prefix, h.total⟩

/-- A flush that is broken off before the sink takes anything, and then a write for a value that
does not fit, which is broken off halfway and stops the packer. -/
theorem sent_prefix_unless_torn_stopped :
    ∃ (c d : StreamPacker) (calls : List Call) (results : List (Except Fault Status)),
      new { replies := [.fault (.outside .runtime "first"), .upTo 2,
              .fault (.outside .runtime "second")] } 4 {} = .ok c ∧
      calls = [.pack (.str #[0x61, 0x62, 0x63]), .flush, .pack .nil, .pack .nil] ∧
      results = [.ok .ok, .error (.outside .runtime "first"), .error (.outside .runtime "second"),
        .ok .stopped] ∧
      runAll calls c = (results, d) ∧ d.sent <+: [0xA3, 0x61, 0x62, 0x63] := by
  obtain ⟨c, calls, results, hnew, hcalls, hresults, hrun, hencoded, hflush⟩ :
      ∃ (c : StreamPacker) (calls : List Call) (results : List (Except Fault Status)),
      new { replies := [.fault (.outside .runtime "first"), .upTo 2,
              .fault (.outside .runtime "second")] } 4 {} = .ok c ∧
      calls = [.pack (.str #[0x61, 0x62, 0x63]), .flush, .pack .nil, .pack .nil] ∧
      results = [.ok .ok, .error (.outside .runtime "first"), .error (.outside .runtime "second"),
        .ok .stopped] ∧
      (runAll calls c).1 = results ∧ encoded calls results = [0xA3, 0x61, 0x62, 0x63] ∧
      sent (flush.run (runAll [.pack (.str #[0x61, 0x62, 0x63])] c).2).2 =
        sent (runAll [.pack (.str #[0x61, 0x62, 0x63])] c).2 :=
    ⟨_, _, _, rfl, rfl, rfl, by cbv, by cbv, by cbv⟩
  have hd : runAll calls c = (results, (runAll calls c).2) := by rw [← hrun]
  have hn : ∀ before after, calls = before ++ .flush :: after → ¬ Torn (runAll before c).2 := by
    intro before after h
    obtain rfl : before = [.pack (.str #[0x61, 0x62, 0x63])] := by
      rw [hcalls] at h
      rcases before with _ | ⟨_, _ | ⟨_, _ | ⟨_, _ | ⟨_, _⟩⟩⟩⟩ <;> simp_all
    rintro ⟨fault, e, he, hsent, -⟩
    rw [he] at hflush
    exact hsent hflush
  obtain ⟨hsent, -⟩ := sent_prefix_unless_torn rfl rfl hnew hd hencoded hn
  exact ⟨c, _, calls, results, hnew, hcalls, hresults, hd, hsent⟩

/-- With a torn flush the sink may get the same bytes twice. -/
theorem torn_flush_repeats :
    ¬ ∀ (sink : Sink) (size : Nat) (a : Assumptions) (c : StreamPacker) (calls : List Call),
      sink.accepted = #[] → sink.journal = #[] → new sink size a = .ok c →
        sent (runAll calls c).2 <+: encoded calls (runAll calls c).1 := by
  intro h
  obtain ⟨c, calls, hnew, hsent, hencoded⟩ : ∃ (c : StreamPacker) (calls : List Call),
      new { replies := [.upTo 2, .fault (.outside .runtime "scripted")] } 8 {} = .ok c ∧
      sent (runAll calls c).2 = [0xA3, 0x61, 0xA3, 0x61, 0x62, 0x63] ∧
      encoded calls (runAll calls c).1 = [0xA3, 0x61, 0x62, 0x63] :=
    ⟨_, [.pack (.str #[0x61, 0x62, 0x63]), .flush, .flush], rfl, by cbv, by cbv⟩
  have hprefix := h _ _ _ c calls rfl rfl hnew
  rw [hsent, hencoded] at hprefix
  exact absurd hprefix (by decide)

end StreamPacker
end MessagePack
