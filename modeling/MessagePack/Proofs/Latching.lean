import MessagePack.Proofs.Filling
import MessagePack.Proofs.StreamPacking
import MessagePack.Proofs.Traversing

/-! # One check at the end is enough

An operation that stops latches the status that it stops with, and one that is broken off by its
handler latches `errorInHandler` and keeps the fault.  After that no operation does anything, so
the check at the end tells the first thing that went wrong (`Operations.one_check_suffices`).

Three families of operations have this in common: packing and reading with any handler, and packing
to a stream.  What each of them has to show is collected in `Operations.Latches`: one call either
goes well and keeps an invariant, or fails and latches; the rest is the same for all of them. -/

namespace MessagePack

open Engine

variable {σ : Type}

/-- The operations of a kind of context. -/
structure Operations (σ : Type) where
  Call : Type
  engine : Call → Engine σ Unit
  /-- What the operations ask for bytes. -/
  handler : Option (Handler σ)
  /-- A call can be refused with this fault and leave this context.  The fault is none of the
  handler's, and nothing has failed. -/
  refuses : Call → Context σ → Fault → Context σ → Prop

namespace Operations

/-- Packing refuses a value without an encoding.  For a float this may be found out after room was
made for it. -/
def packing (handler : Option (Handler σ)) : Operations σ where
  Call := Value
  engine := Packer.pack handler
  handler := handler
  refuses v c fault d :=
    v.frame = .error fault ∧ (d = c ∨ Packer.reserve handler Frame.floatSize c = .ok () d)

/-- Reading refuses nothing. -/
def reading (s : Option (Supplier σ)) : Operations σ where
  Call := Unpacker.Call
  engine call := call.engine s
  handler := s.map Supplier.respond
  refuses _ _ _ _ := False

/-- A flush is no handler: a fault besides a device failure is passed on as it is. -/
def streaming : Operations Sink where
  Call := StreamPacker.Call
  engine := StreamPacker.Call.engine
  handler := some StreamPacker.makeRoom
  refuses
    | .pack v => (packing (some StreamPacker.makeRoom)).refuses v
    | .flush => fun c fault d => fault.isDevice = false ∧
        ∃ r, StreamPacker.drainAndFlush c.toRegion = (.error fault, r) ∧ d = c.within r

/-- The operations of packers and unpackers with any handler, of those with a growing buffer or a
source, and of packers to a stream.  A handler may do and answer anything, as long as it keeps the
region inside its buffer. -/
inductive Provided : {σ : Type} → Operations σ → Prop
  | packing {σ : Type} {handler : Option (Handler σ)}
      (hin : ∀ respond, handler = some respond → respond.Contained) :
      Provided (Operations.packing handler)
  | reading {σ : Type} {s : Option (Supplier σ)}
      (hin : ∀ respond, s.map Supplier.respond = some respond → respond.Contained) :
      Provided (Operations.reading s)
  | growing : Provided (Operations.packing (some GrowingPacker.grow))
  | refilled : Provided (Operations.reading (some StreamUnpacker.supplier))
  | streaming : Provided Operations.streaming

variable (ops : Operations σ)

/-- Make calls one after another: what each of them comes to, and the context afterwards. -/
def runAll : List ops.Call → Context σ → List (Except Fault Status) × Context σ
  | [], c => ([], c)
  | call :: calls, c =>
      let (result, c) := (ops.engine call).run c
      let (results, c) := runAll calls c
      (result :: results, c)

/-- A call of a running context that goes well: it is complete, or its arguments are refused. -/
inductive Goes (c : Context σ) (call : ops.Call) : Except Fault Status × Context σ → Prop
  | complete {d : Context σ} (hd : d.status = .ok) : Goes c call (.ok .ok, d)
  | refused {fault : Fault} {d : Context σ} (h : ops.refuses call c fault d)
      (hd : d.status = .ok) : Goes c call (.error fault, d)

/-- A call of a running context that fails: it returns the status that is latched from then on, or
the handler has raised a fault when it was asked on the way. -/
inductive Fails (c : Context σ) : Except Fault Status × Context σ → Prop
  | stopped {d : Context σ} (hd : d.status ≠ .ok) : Fails c (.ok d.status, d)
  | escaped {respond : Handler σ} {p : List UInt8} {e : Context σ} {n : Nat} {fault : Fault}
      {r : Region σ} {d : Context σ} (hh : ops.handler = some respond)
      (he : Unpacker.Moves ops.handler c p e) (hn : e.limit < e.current + n)
      (hr : respond n e.toRegion = (.error fault, r)) (hs : d.status = .errorInHandler)
      (hf : d.fault = some fault) : Fails c (.error fault, d)

/-- Calls that all go well lead from the one context to the other. -/
inductive Went : Context σ → List ops.Call → List (Except Fault Status) → Context σ → Prop
  | nil (c : Context σ) : Went c [] [] c
  | cons {c d e : Context σ} {call : ops.Call} {calls : List ops.Call}
      {result : Except Fault Status} {results : List (Except Fault Status)}
      (hrun : (ops.engine call).run c = (result, d)) (h : ops.Goes c call (result, d))
      (hrest : Went d calls results e) : Went c (call :: calls) (result :: results) e

/-- What a family of operations has to show. -/
structure Latches (Inv : Context σ → Prop) : Prop where
  status_eq : ∀ c, Inv c → c.status = .ok
  /-- As long as the invariant holds, a call goes well and keeps it, or fails. -/
  step : ∀ c call, Inv c →
    (ops.Goes c call ((ops.engine call).run c) ∧ Inv ((ops.engine call).run c).2) ∨
      ops.Fails c ((ops.engine call).run c)
  latched : ∀ c call, c.status ≠ .ok → (ops.engine call).run c = (.ok .stopped, c)

/-! ### The families -/

variable {ops}

/-- Where asking for bytes fails, so does the operation. -/
theorem Fails.of_asked {adapt : Status → Status} {n : Nat} {short : Status} {c d : Context σ}
    {halt : Halt} (h : Asked ops.handler adapt n short c (.error halt d)) (hshort : short ≠ .ok)
    (hadapt : ∀ answer, answer ≠ .ok → adapt answer ≠ .ok) : ops.Fails c (halt.result, d) := by
  rcases h.latched hshort hadapt with ⟨rfl, hd⟩ | ⟨respond, fault, r, hh, hn, hr, rfl, hs, hf⟩
  · exact .stopped hd
  · exact .escaped hh .refl hn hr hs hf

theorem Fails.latched {c d : Context σ} {result : Except Fault Status}
    (h : ops.Fails c (result, d)) : d.status ≠ .ok := by
  cases h with
  | stopped hd => exact hd
  | escaped hh he hn hr hs hf =>
      rw [hs]
      decide

section packing

variable {handler : Option (Handler σ)} {Inv : Context σ → Prop} {c : Context σ}

/-- Packing keeps whatever making room and appending an encoding keep. -/
theorem packing_step (v : Value) (hc : c.status = .ok) (hinv : Inv c)
    (hreserve : ∀ n d, Packer.reserve handler n c = .ok () d → d.Ready n ∧ Inv d)
    (happend : ∀ (f : Frame) (d : Context σ), d.Ready f.size → Inv d →
      Inv (d.append f.bytes.toArray)) :
    ((packing handler).Goes c v ((Packer.pack handler v).run c) ∧
      Inv ((Packer.pack handler v).run c).2) ∨
    (packing handler).Fails c ((Packer.pack handler v).run c) := by
  have hpack := Packer.packed_pack hc v fun n d hr => (hreserve n d hr).1
  cases hp : Packer.pack handler v c with
  | ok u d =>
      rw [hp] at hpack
      rw [run_of_ok hp]
      cases hpack with
      | @appended f d hv hr =>
          obtain ⟨hready, hd⟩ := hreserve _ _ hr
          exact .inl ⟨.complete hready.status_eq, happend f d hready hd⟩
  | error halt d =>
      rw [hp] at hpack
      rw [run_of_error hp]
      cases hpack with
      | refused hv => exact .inl ⟨.refused ⟨hv, .inl rfl⟩ hc, hinv⟩
      | tooLarge hv hr =>
          obtain ⟨hready, hd⟩ := hreserve _ _ hr
          exact .inl ⟨.refused ⟨hv, .inr hr⟩ hready.status_eq, hd⟩
      | noRoom hn hr =>
          right
          exact .of_asked (Packer.asked_reserve hr) (by decide) fun _ h => h

theorem latches_packing (hin : ∀ respond, handler = some respond → respond.Contained) :
    (packing handler).Latches (Context.Ready 0) where
  status_eq _ hc := hc.status_eq
  step c v hc := by
    apply packing_step v hc.status_eq hc
    · intro n d hr
      have hd := (Packer.asked_reserve hr).ready hc hin
      exact ⟨hd, hd.mono (Nat.zero_le n)⟩
    · intro f d hd _
      exact hd.append_bytes
  latched _ _ h := run_of_latched h _

end packing

theorem latches_reading {s : Option (Supplier σ)}
    (hin : ∀ respond, s.map Supplier.respond = some respond → respond.Contained) :
    (reading s).Latches (Context.Ready 0) where
  status_eq _ hc := hc.status_eq
  step c call hc := by
    obtain ⟨p, hcalled, -⟩ := Unpacker.called_run hin hc call
    change ((reading s).Goes c call ((call.engine s).run c) ∧
      ((call.engine s).run c).2.Ready 0) ∨ (reading s).Fails c ((call.engine s).run c)
    generalize (call.engine s).run c = outcome at hcalled ⊢
    cases hcalled with
    | complete h hd => exact .inl ⟨.complete hd.status_eq, hd⟩
    | halted hs h =>
        right
        rcases h.latched hs with ⟨rfl, hd⟩ | ⟨respond, fault, n, r, e, hh, he, hn, hr, rfl, hd⟩
        · exact .stopped hd
        · exact .escaped hh he hn hr hd.1 hd.2
  latched _ call h := Unpacker.run_call_of_latched h call

theorem raises_any (s : Sink) : s.Raises fun _ => True :=
  ⟨fun _ _ => trivial, fun _ _ _ _ => trivial⟩

theorem streaming_flush {c : StreamPacker} (hc : c.Live) :
    (streaming.Goes c .flush (StreamPacker.flush.run c) ∧ (StreamPacker.flush.run c).2.Live) ∨
      streaming.Fails c (StreamPacker.flush.run c) := by
  have hcalled := StreamPacker.called_flush hc (raises_any c.peer)
  cases hd : StreamPacker.drainAndFlush c.toRegion with
  | mk result r =>
      cases result with
      | ok u =>
          have hf : StreamPacker.flush c = .ok () (c.within r) := by
            rw [StreamPacker.flush_eq hc.status_eq, hd]
          rw [run_of_ok hf] at hcalled ⊢
          cases hcalled with
          | flushed h hp => exact .inl ⟨.complete h.live.status_eq, h.live⟩
      | error fault =>
          cases hn : fault.isDevice with
          | true =>
              have hf : StreamPacker.flush c =
                  stop .errorInHandler (c.within (r.keepFault fault)) := by
                rw [StreamPacker.flush_eq hc.status_eq, hd]
                exact if_pos hn
              have hne : Status.errorInHandler ≠ .ok := by decide
              have hlatched : ((c.within (r.keepFault fault)).latch .errorInHandler).status ≠ .ok :=
                hne
              rw [run_of_error hf]
              exact .inr (.stopped hlatched)
          | false =>
              have hf : StreamPacker.flush c = .error (.fault fault) (c.within r) := by
                rw [StreamPacker.flush_eq hc.status_eq, hd]
                exact if_neg (by simp [hn])
              rw [run_of_error hf] at hcalled ⊢
              cases hcalled with
              | interrupted _ _ hlive _ _ =>
                  exact .inl ⟨.refused ⟨hn, r, hd, rfl⟩ hlive.status_eq, hlive⟩

theorem streaming_pack {c : StreamPacker} (hc : c.Live) (v : Value) :
    (streaming.Goes c (.pack v) ((StreamPacker.pack v).run c) ∧
      ((StreamPacker.pack v).run c).2.Live) ∨
    streaming.Fails c ((StreamPacker.pack v).run c) := by
  have hreserve : ∀ n d, Packer.reserve (some StreamPacker.makeRoom) n c = .ok () d →
      d.Ready n ∧ d.Live := by
    intro n d hr
    have hreserved := StreamPacker.reserved_reserve hc (raises_any c.peer) n
    have hroom := Packer.reserve_ok hr
    rw [hr] at hreserved
    cases hreserved with
    | there => exact ⟨hc.ready hroom, hc⟩
    | drained hd => exact ⟨hd.ready hroom, hd⟩
  have hstep : ((packing (some StreamPacker.makeRoom)).Goes c v ((StreamPacker.pack v).run c) ∧
      ((StreamPacker.pack v).run c).2.Live) ∨
      (packing (some StreamPacker.makeRoom)).Fails c ((StreamPacker.pack v).run c) :=
    packing_step v hc.status_eq hc hreserve fun f d hd hlive => hlive.append_bytes hd.le_limit
  generalize (StreamPacker.pack v).run c = outcome at hstep ⊢
  rcases hstep with ⟨hgoes, hlive⟩ | hfails
  · refine .inl ⟨?_, hlive⟩
    cases hgoes with
    | complete hd => exact .complete hd
    | refused h hd => exact .refused h hd
  · right
    cases hfails with
    | stopped hd => exact .stopped hd
    | escaped hh he hn hr hs hf => exact .escaped hh he hn hr hs hf

theorem latches_streaming : streaming.Latches Context.Live where
  status_eq _ hc := hc.status_eq
  step c call hc := by
    cases call with
    | pack v => exact streaming_pack hc v
    | flush => exact streaming_flush hc
  latched _ call h := StreamPacker.run_call_of_latched h call

theorem grow_contained : Handler.Contained GrowingPacker.grow := by
  intro n r _ _ _
  have hold := GrowingPacker.le_grownSize (max r.bytes.size GrowingPacker.leastSize) r.current n
  show GrowingPacker.grownSize _ _ _ ≤ (r.bytes ++ Bytes.zeros _).size
  rw [Array.size_append, Bytes.size_zeros]
  omega

/-! ### Sequences of calls -/

section runs

variable {Inv : Context σ → Prop} (h : ops.Latches Inv)

include h

theorem Latches.runAll_of_latched {c : Context σ} (hc : c.status ≠ .ok) (calls : List ops.Call) :
    ops.runAll calls c = (calls.map fun _ => .ok .stopped, c) := by
  induction calls with
  | nil => rfl
  | cons call calls ih =>
      rw [runAll, h.latched c call hc]
      dsimp only
      rw [ih]
      rfl

/-- All calls go well, or one of them fails, and those after it do nothing. -/
theorem Latches.runAll {c d : Context σ} (hc : Inv c) {calls : List ops.Call}
    {results : List (Except Fault Status)} (hrun : ops.runAll calls c = (results, d)) :
    (d.status = .ok ∧ ops.Went c calls results d) ∨
    ∃ before call after passed result e, calls = before ++ call :: after ∧
      results = passed ++ result :: after.map (fun _ => .ok .stopped) ∧ ops.Went c before passed e ∧
      (ops.engine call).run e = (result, d) ∧ ops.Fails e (result, d) := by
  induction calls generalizing c results with
  | nil =>
      obtain ⟨rfl, rfl⟩ := by simpa [Operations.runAll] using hrun
      exact .inl ⟨h.status_eq _ hc, .nil _⟩
  | cons call calls ih =>
      rw [Operations.runAll] at hrun
      have hstep := h.step c call hc
      cases hcall : (ops.engine call).run c with
      | mk result c' =>
          rw [hcall] at hrun hstep
          cases hrest : ops.runAll calls c' with
          | mk rest e =>
              obtain ⟨rfl, rfl⟩ : result :: rest = results ∧ e = d := by
                simpa [hrest] using hrun
              -- the invariant holds up to the first call that fails, then the latch answers
              rcases hstep with ⟨hgoes, hc'⟩ | hfails
              · rcases ih hc' hrest with ⟨hd, hwent⟩ |
                  ⟨before, call', after, passed, result', e', rfl, rfl, hwent, hrun', hfails⟩
                · exact .inl ⟨hd, .cons hcall hgoes hwent⟩
                · exact .inr ⟨call :: before, call', after, result :: passed, result', e', rfl, rfl,
                    .cons hcall hgoes hwent, hrun', hfails⟩
              · rw [h.runAll_of_latched hfails.latched] at hrest
                obtain ⟨rfl, rfl⟩ := Prod.mk.inj hrest
                exact .inr ⟨[], call, calls, [], result, c, rfl, rfl, .nil c, hcall, hfails⟩

end runs

/-- A context that was bound to a region has the invariant of each family. -/
theorem Provided.latches (hops : ops.Provided) {c₀ c : Context σ} {buffer : Buffer} {start : Int}
    {stop : Option Int} (hbind : c₀.bind buffer start stop = (.ok .ok, c)) :
    ∃ Inv, ops.Latches Inv ∧ Inv c := by
  have hstatus : c.status = .ok := by
    unfold Context.bind at hbind
    split at hbind
    · simp at hbind
    · dsimp only at hbind
      split at hbind
      · simp at hbind
      · simp [Status.ok, Status.wrongByteOrder] at hbind
      · obtain rfl := (Prod.ext_iff.mp hbind).2
        rfl
  have hlive := Context.live_bind hbind hstatus
  have hready : c.Ready 0 := hlive.ready hlive.inBounds.current_le
  cases hops with
  | packing hin => exact ⟨_, latches_packing hin, hready⟩
  | reading hin => exact ⟨_, latches_reading hin, hready⟩
  | growing => exact ⟨_, latches_packing grow_contained.of_eq_some, hready⟩
  | refilled => exact ⟨_, latches_reading StreamUnpacker.refill_contained.of_eq_some, hready⟩
  | streaming => exact ⟨_, latches_streaming, hlive⟩

theorem meaning?_of_not_named {s : Status} (h : ∀ entry ∈ Status.named, s ≠ entry.2) :
    s.meaning? = none := by
  simp only [Status.named, List.forall_mem_cons] at h
  obtain ⟨-, hend, hover, hunder, hmalformed, horder, hhandler, hstopped, -⟩ := h
  unfold Status.meaning?
  rw [if_neg hend, if_neg hover, if_neg hunder, if_neg hmalformed, if_neg horder, if_neg hhandler,
    if_neg hstopped]

/-- One check at the end is enough.  After a context was bound to a region, either all calls go
well, and the check passes; or one of them is the first to fail.  Then its status is latched, all
calls after it are stopped and leave the context as that one has left it, and the check reports
this status, with the fault of the handler as its cause.  A code that is none of the library's is
reported by its number.

Whatever is called on a context with a latched status, no handler is asked: all handlers lead to the
same, and the state behind them does not change. -/
theorem one_check_suffices (hops : ops.Provided) {c₀ c d : Context σ} {buffer : Buffer}
    {start : Int} {stop : Option Int} {calls : List ops.Call}
    {results : List (Except Fault Status)}
    (hbind : c₀.bind buffer start stop = (.ok .ok, c))
    (hrun : ops.runAll calls c = (results, d)) :
    (d.status = .ok ∧ d.check = .ok () ∧ ops.Went c calls results d) ∨
    (d.status ≠ .ok ∧
      (∃ before call after passed result e, calls = before ++ call :: after ∧
        results = passed ++ result :: after.map (fun _ => .ok .stopped) ∧
        ops.Went c before passed e ∧ (ops.engine call).run e = (result, d) ∧
        ops.Fails e (result, d)) ∧
      (∃ e, d.check = .error e ∧ e.status = d.status ∧ e.cause = d.fault ∧
        ((∀ entry ∈ Status.named, d.status ≠ entry.2) → e.message = toString d.status.code)) ∧
      (∀ call, (ops.engine call).run d = (.ok .stopped, d)) ∧
      (∀ handler v, (Packer.pack handler v).run d = (.ok .stopped, d)) ∧
      (∀ handler request, (Packer.give handler request).run d = (.ok .stopped, d)) ∧
      ∀ s (call : Unpacker.Call), (call.engine s).run d = (.ok .stopped, d)) := by
  obtain ⟨Inv, hlatches, hinv⟩ := hops.latches hbind
  rcases hlatches.runAll hinv hrun with ⟨hd, hwent⟩ |
    ⟨before, call, after, passed, result, e, hcalls, hresults, hwent, hcall, hfails⟩
  · left
    refine ⟨hd, ?_, hwent⟩
    rw [Context.check, Status.raise, if_pos hd]
  · right
    have hd := hfails.latched
    have hcheck : d.check = .error (d.status.error none d.fault) := by
      rw [Context.check, Status.raise, if_neg hd]
    refine ⟨hd, ⟨before, call, after, passed, result, e, hcalls, hresults, hwent, hcall, hfails⟩,
      ⟨_, hcheck, rfl, rfl, fun hnamed => ?_⟩, ?_, ?_, ?_, ?_⟩
    · rw [Status.error, meaning?_of_not_named hnamed]
      rfl
    · intro call
      exact hlatches.latched d call hd
    · intro handler v
      exact run_of_latched hd _
    · intro handler request
      exact Packer.run_give_of_latched hd
    · intro s call
      exact Unpacker.run_call_of_latched hd call

/-- A number without an encoding is refused, and packing goes on.  The next text does not fit, and
the sink breaks off the write: the flush after it is stopped, and the check reports the fault. -/
theorem one_check_suffices_sink_fault :
    ∃ (c d : StreamPacker) (calls : List StreamPacker.Call) (results : List (Except Fault Status)),
      StreamPacker.new { replies := [.fault (.outside .runtime "full")] } 4 {} = .ok c ∧
      calls = [.pack (.str #[0x61, 0x62]), .pack (.unsigned (-1)), .pack (.str #[0x63]), .flush] ∧
      results = [.ok .ok, .error (.negative (-1)), .error (.outside .runtime "full"),
        .ok .stopped] ∧
      streaming.runAll calls c = (results, d) ∧
      ∃ e, d.check = .error e ∧ e.status = .errorInHandler ∧
        e.cause = some (.outside .runtime "full") := by
  obtain ⟨c₀, c, calls, results, hnew, hbind, hcalls, hresults, hrun, hstatus, hfault⟩ :
      ∃ (c₀ c : StreamPacker) (calls : List StreamPacker.Call)
        (results : List (Except Fault Status)),
      StreamPacker.new { replies := [.fault (.outside .runtime "full")] } 4 {} = .ok c ∧
      c₀.bind c₀.buffer 0 none = (.ok .ok, c) ∧
      calls = [.pack (.str #[0x61, 0x62]), .pack (.unsigned (-1)), .pack (.str #[0x63]), .flush] ∧
      results = [.ok .ok, .error (.negative (-1)), .error (.outside .runtime "full"),
        .ok .stopped] ∧
      (streaming.runAll calls c).1 = results ∧
      (streaming.runAll calls c).2.status = .errorInHandler ∧
      (streaming.runAll calls c).2.fault = some (.outside .runtime "full") :=
    ⟨{ kind := .streamPacker, assumptions := {}, buffer := ⟨Bytes.zeros 4, #[]⟩,
       peer := { replies := [.fault (.outside .runtime "full")] } }, _, _, _, rfl, rfl, rfl, rfl,
      by cbv, by cbv, by cbv⟩
  have hd : streaming.runAll calls c = (results, (streaming.runAll calls c).2) := by
    rw [← hrun]
  refine ⟨c, _, calls, results, hnew, hcalls, hresults, hd, ?_⟩
  rcases one_check_suffices .streaming hbind hd with ⟨hok, -⟩ | ⟨-, -, ⟨e, he, hs, hcause, -⟩, -⟩
  · rw [hstatus] at hok
    exact absurd hok (by decide)
  · exact ⟨e, he, hs.trans hstatus, hcause.trans hfault⟩

end Operations
end MessagePack
