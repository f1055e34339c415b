import MessagePack.Proofs.Renewing
import MessagePack.Proofs.ReorderedSessions

/-! # Sessions that start over

A context can be bound anew at any time: when it is stopped, in the middle of an item, after its
handler has put another buffer in its place.  From then on it is a new context
(`Sessions.bind_renews`): whatever is called afterwards answers the same, asks the handler for the
same and leaves the same behind.  A range that does not lie in the buffer changes nothing.

The calls on a context are heedless (`Context.Heedless`), so both courses can be followed side by
side. -/

namespace MessagePack

variable {σ : Type}

/-! ### Answers -/

/-- The same item, where `k` buffers came before the first one. -/
def Sight.later (k : Nat) (s : Sight) : Sight := { s with item := s.item.later k }

/-- The same answer, where `k` buffers came before the first one. -/
def Answer.later (k : Nat) : Answer → Answer
  | item sight => item (sight.map (Sight.later k))
  | decoded sight => decoded (sight.map (Sight.later k))
  | detached same sight => detached same (sight.map (Sight.later k))
  | items sights ending => items (sights.map (Option.map (Sight.later k))) ending
  | answer => answer

theorem Sight.of_later (b : Buffer) (retired : Array Bytes) (i : Item Span) :
    Sight.of (b.recalling retired) (i.later retired.size) = (Sight.of b i).later retired.size := by
  cases i <;>
    simp [Sight.of, Sight.later, Item.later, Item.mapPayload, Item.payload?, Span.view_later]

namespace Context

/-- What a call answers and leaves behind, in a context after all that. -/
def recalled (past : Past) (result : Except Failure Answer × Context σ) :
    Except Failure Answer × Context σ :=
  (result.1.map (Answer.later past.retired.size), result.2.recalling past)

/-- The context is the other one, as far as can be seen.  The last item is the old one until there
is another. -/
structure Alike (past : Past) (fresh c : Context σ) : Prop where
  status : c.status = fresh.status
  check : c.check = fresh.check
  bytes : c.bytes = fresh.bytes
  start : c.start = fresh.start
  current : c.current = fresh.current
  limit : c.limit = fresh.limit
  order : c.order = fresh.order
  errorNumber : c.errorNumber = fresh.errorNumber
  fault : c.fault = fresh.fault
  peer : c.peer = fresh.peer
  last : fresh.item ≠ none → c.last = fresh.last
  kept : fresh.item = none → c.item = past.item

theorem alike_recalling (c : Context σ) (past : Past) : Alike past c (c.recalling past) where
  status := rfl
  check := rfl
  bytes := rfl
  start := rfl
  current := rfl
  limit := rfl
  order := rfl
  errorNumber := rfl
  fault := rfl
  peer := rfl
  last h := by
    obtain ⟨item, hitem⟩ := Option.ne_none_iff_exists'.mp h
    exact last_recalling hitem past
  kept h := by rw [recalling, h]

/-- The call does the same whatever was before.  It leaves the assumptions alone. -/
structure Heedless (f : Context σ → Except Failure Answer × Context σ) : Prop where
  recalling_eq : ∀ c past, f (c.recalling past) = recalled past (f c)
  assumptions_eq : ∀ c, (f c).2.assumptions = c.assumptions

theorem Heedless.look (g : Context σ → Except Failure Answer)
    (hg : ∀ c past, g (c.recalling past) = (g c).map (Answer.later past.retired.size)) :
    Heedless fun c => (g c, c) where
  recalling_eq c past := congrArg (·, c.recalling past) (hg c past)
  assumptions_eq _ := rfl

theorem bind_recalling (c : Context σ) (past : Past) (buffer : Buffer) (start : Int)
    (stop : Option Int) :
    (c.recalling past).bind (buffer.recalling past.retired) start stop =
      Prod.map id (·.recalling past) (c.bind buffer start stop) := by
  have hassumptions : (c.recalling past).assumptions = c.assumptions := rfl
  have hbytes : (buffer.recalling past.retired).bytes = buffer.bytes := rfl
  unfold bind
  simp only [hbytes, hassumptions]
  cases range? buffer.bytes.size start stop with
  | error fault => rfl
  | ok range =>
      cases c.assumptions.select with
      | error fault => rfl
      | ok order =>
          cases order with
          | none =>
              let bound : Context σ := { c with
                buffer, start := range.1, current := range.1, limit := range.2
                status := .ok, errorNumber := 0, fault := none, order := none }
              exact congrArg (Prod.mk _) (latch_recalling bound past .wrongByteOrder)
          | some order => rfl

theorem assumptions_bind (c : Context σ) (buffer : Buffer) (start : Int) (stop : Option Int) :
    (c.bind buffer start stop).2.assumptions = c.assumptions := by
  unfold bind
  cases range? buffer.bytes.size start stop with
  | error fault => rfl
  | ok range =>
      cases hselect : c.assumptions.select with
      | error fault => simp only [hselect]
      | ok order =>
          cases order with
          | none =>
              simp only [hselect]
              rfl
          | some order => simp only [hselect]

end Context

open Context

/-! ### The calls -/

theorem Engine.Heedless.run_recalling {operation : Engine σ Unit} (h : Engine.Heedless operation)
    (c : Context σ) (past : Past) :
    operation.run (c.recalling past) = Prod.map id (·.recalling past) (operation.run c) := by
  have hr := h.recalling_eq c past
  unfold Engine.run
  rw [hr]
  cases operation c with
  | ok u d => rfl
  | error halt d => cases halt <;> rfl

theorem Engine.Heedless.assumptions_run {operation : Engine σ Unit}
    (h : Engine.Heedless operation) (c : Context σ) :
    (operation.run c).2.assumptions = c.assumptions := by
  have hsame := h.assumptions_eq c
  unfold Unpacker.after at hsame
  cases hr : operation c with
  | ok u d =>
      rw [Engine.run_of_ok hr]
      rw [hr] at hsame
      exact hsame
  | error halt d =>
      rw [Engine.run_of_error hr]
      rw [hr] at hsame
      exact hsame

theorem Engine.Heedless.call {operation : Engine σ Unit} (h : Engine.Heedless operation) :
    Context.Heedless fun c => Session.ofStatus (operation.run c) where
  recalling_eq c past := by
    rw [h.run_recalling]
    obtain ⟨result, d⟩ := operation.run c
    cases result <;> rfl
  assumptions_eq c := by
    rw [Session.ofStatus_eq]
    exact h.assumptions_run c

namespace Session

theorem resolve_recalling (c : Context σ) (past : Past) :
    resolve (c.recalling past) = resolve c := by
  funext mark
  cases mark <;> rfl

theorem heedless_bind {buffer : Context σ → Buffer} {start : Context σ → Int}
    {stop : Context σ → Option Int}
    (hsame : ∀ c past, buffer (c.recalling past) = (buffer c).recalling past.retired ∧
      start (c.recalling past) = start c ∧ stop (c.recalling past) = stop c) :
    Heedless fun c => ofStatus (c.bind (buffer c) (start c) (stop c)) where
  recalling_eq c past := by
    obtain ⟨hb, hstart, hstop⟩ := hsame c past
    rw [hb, hstart, hstop, bind_recalling]
    obtain ⟨result, d⟩ := c.bind (buffer c) (start c) (stop c)
    cases result <;> rfl
  assumptions_eq c := by
    rw [ofStatus_eq]
    exact assumptions_bind c _ _ _

theorem heedless_step (common : Step) : Heedless fun c : Context σ => step c common := by
  cases common with
  | check =>
      simp only [step_check]
      refine .look (fun c => (c.check.map fun _ => Answer.nothing).mapError Failure.stop) ?_
      intro c past
      have hcheck : (c.recalling past).check = c.check := rfl
      rw [hcheck]
      cases c.check <;> rfl
  | remaining | describe | order | contents => exact .look _ fun _ _ => rfl
  | latch status =>
      refine ⟨fun c past => ?_, fun _ => rfl⟩
      exact congrArg (Prod.mk _) (latch_recalling c past status)
  | init bytes first last =>
      apply heedless_bind
      intro c past
      rw [resolve_recalling]
      exact ⟨c.buffer.replace_recalling past.retired bytes, rfl, rfl⟩
  | rebind first last =>
      apply heedless_bind
      intro c past
      rw [resolve_recalling]
      exact ⟨rfl, rfl, rfl⟩
  | poke pos data => exact ⟨fun _ _ => rfl, fun _ => rfl⟩

end Session

theorem PackStep.heedless {handler : Option (Handler σ)}
    (hh : ∀ respond, handler = some respond → respond.Heedless) (step : PackStep) :
    Heedless fun c => step.run handler c := by
  cases step with
  | pack value => exact (Packer.heedless_pack hh value).call
  | give request => exact (Packer.heedless_give hh request).call
  | packed => exact .look _ fun _ _ => rfl
  | common step => exact Session.heedless_step step

theorem GrowingStep.heedless (step : GrowingStep) : Heedless step.run := by
  cases step with
  | packing step => exact step.heedless fun _ h => Option.some.inj h ▸ GrowingPacker.grow_heedless
  | take n =>
      refine ⟨fun c past => ?_, fun c => ?_⟩
      · unfold run
        dsimp only
        rw [GrowingPacker.take_recalling]
        rfl
      · unfold run GrowingPacker.take
        dsimp only
        split_ifs <;> rfl

theorem FlushingStep.heedless (step : FlushingStep) : Heedless step.run := by
  cases step with
  | packing step =>
      exact step.heedless fun _ h => Option.some.inj h ▸ StreamPacker.makeRoom_heedless
  | flush => exact StreamPacker.heedless_flush.call

namespace UnpackSession

theorem sight_recalling {c : Context σ} {item : Item Span} (h : c.item = some item) (past : Past) :
    sight (c.recalling past) = (sight c).map (Sight.later past.retired.size) := by
  have hitem : (c.recalling past).item = some (item.later past.retired.size) := by
    rw [recalling, h]
  rw [sight, sight, hitem, h]
  exact congrArg some (Sight.of_later c.buffer past.retired item)

variable {s : Option (Supplier σ)}
  (hh : ∀ respond, s.map Supplier.respond = some respond → respond.Heedless)

include hh

theorem heedless_decode : Heedless fun c =>
    (decoded ((Unpacker.decode s).run c).1 ((Unpacker.decode s).run c).2,
      ((Unpacker.decode s).run c).2) where
  recalling_eq c past := by
    rw [(Unpacker.heedless_decode hh).run_recalling]
    cases hrun : (Unpacker.decode s).run c with
    | mk answer d =>
    cases answer with
    | error fault => rfl
    | ok status =>
        by_cases hs : status = .ok
        · subst hs
          obtain ⟨item, hitem⟩ := (Unpacker.decoded_iff.mpr hrun).item_of_ok
          simp only [Prod.map, id, decoded, if_true, sight_recalling hitem]
          rfl
        · simp only [Prod.map, id, decoded, if_neg hs]
          rfl
  assumptions_eq c := (Unpacker.heedless_decode hh).assumptions_run c

theorem heedless_items (atMost : Option Nat) : Heedless fun c =>
    (.ok (.items (Unpacker.items s sight atMost c).1 (Unpacker.items s sight atMost c).2.1),
      (Unpacker.items s sight atMost c).2.2) where
  recalling_eq c past := by
    have hitems := Unpacker.itemsLoop_recalling hh
      (fun (c : Context σ) ⟨item, h⟩ => sight_recalling h past) atMost #[] c
    unfold Unpacker.items
    rw [Array.map_empty] at hitems
    rw [hitems]
    rfl
  assumptions_eq c := Unpacker.assumptions_itemsLoop hh atMost #[] c

end UnpackSession

/-! ### Sessions -/

/-- The step is a call on the context, as all are but those on items that were decoded before. -/
def UnpackStep.IsCall : UnpackStep → Prop
  | decode | skip _ | items _ | common _ => True
  | hold _ | look _ | detach .. | text _ | view _ | describeItem _ | same .. => False

namespace Sessions

/-- A step that is a call on the context, as all are but those on items that were decoded before.
The handlers do not heed what was before either. -/
inductive Calls : {σ : Type} → (s : Sessions σ) → s.Step → Prop
  | packing {σ : Type} {handler : Option (Handler σ)}
      (hh : ∀ respond, handler = some respond → respond.Heedless) (step : PackStep) :
      Calls (Sessions.packing handler) step
  | growing (step : GrowingStep) : Calls Sessions.growing step
  | flushing (step : FlushingStep) : Calls Sessions.flushing step
  | decode {σ : Type} {supplier : Option (Supplier σ)}
      (hh : ∀ respond, supplier.map Supplier.respond = some respond → respond.Heedless) :
      Calls (Sessions.unpacking supplier) UnpackStep.decode
  | skip {σ : Type} {supplier : Option (Supplier σ)}
      (hh : ∀ respond, supplier.map Supplier.respond = some respond → respond.Heedless)
      (count : Int) : Calls (Sessions.unpacking supplier) (UnpackStep.skip count)
  | items {σ : Type} {supplier : Option (Supplier σ)}
      (hh : ∀ respond, supplier.map Supplier.respond = some respond → respond.Heedless)
      (atMost : Option Nat) : Calls (Sessions.unpacking supplier) (UnpackStep.items atMost)
  | common {σ : Type} {supplier : Option (Supplier σ)} (step : Session.Step) :
      Calls (Sessions.unpacking supplier) (UnpackStep.common step)

/-- Make a call on a context. -/
def call (s : Sessions σ) (step : s.Step) (c : Context σ) : Except Failure Answer × Context σ :=
  ((s.run step { context := c }).1, (s.run step { context := c }).2.context)

/-- What each of the calls answers, and the context after it. -/
def trace (s : Sessions σ) : List s.Step → Context σ → List (Except Failure Answer × Context σ)
  | [], _ => []
  | step :: steps, c => s.call step c :: s.trace steps (s.call step c).2

/-- The context after the calls. -/
def after (s : Sessions σ) : List s.Step → Context σ → Context σ
  | [], c => c
  | step :: steps, c => s.after steps (s.call step c).2

theorem Calls.heedless {s : Sessions σ} {step : s.Step} (h : s.Calls step) :
    Heedless (s.call step) := by
  cases h with
  | packing hh step => exact step.heedless hh
  | growing step => exact step.heedless
  | flushing step => exact step.heedless
  | @decode _ supplier hh =>
      have hcall : (Sessions.unpacking supplier).call UnpackStep.decode = _ := funext fun c =>
        congrArg (fun x => (x.1, x.2.context)) (UnpackSession.run_decode supplier { context := c })
      rw [hcall]
      exact UnpackSession.heedless_decode hh
  | skip hh count => exact (Unpacker.heedless_skip hh count).call
  | items hh atMost => exact UnpackSession.heedless_items hh atMost
  | common step => exact Session.heedless_step step

section calls

variable {s : Sessions σ} {steps : List s.Step} (hsteps : ∀ step ∈ steps, s.Calls step)

include hsteps

theorem assumptions_after (c : Context σ) : (s.after steps c).assumptions = c.assumptions := by
  induction steps generalizing c with
  | nil => rfl
  | cons step steps ih =>
      obtain ⟨hstep, hsteps⟩ := List.forall_mem_cons.mp hsteps
      exact (ih hsteps _).trans (hstep.heedless.assumptions_eq c)

/-- Calls take the same course in a context that has something behind it. -/
theorem trace_recalling (c : Context σ) (past : Past) :
    s.trace steps (c.recalling past) = (s.trace steps c).map (recalled past) := by
  induction steps generalizing c with
  | nil => rfl
  | cons step steps ih =>
      obtain ⟨hstep, hsteps⟩ := List.forall_mem_cons.mp hsteps
      rw [trace, trace, hstep.heedless.recalling_eq]
      exact congrArg (_ :: ·) (ih hsteps _)

end calls

/-- What binding a context anew to a range of a buffer comes to: a context which cannot be told from
a new one by whatever is called afterwards, or an error that leaves the context as it was. -/
inductive Renewed (s : Sessions σ) (c : Context σ) (buffer : Buffer) (start : Int)
    (stop : Option Int) : Except Fault Status × Context σ → Prop
  | fresh {fresh d : Context σ}
      (hrange : 0 ≤ start ∧ start ≤ stop.getD buffer.bytes.size ∧
        stop.getD buffer.bytes.size ≤ buffer.bytes.size)
      (hnew : Context.new c.kind c.assumptions buffer.bytes start stop c.peer = .ok fresh)
      (hitem : fresh.item = none) (hd : Alike ⟨buffer.retired, c.log, c.item⟩ fresh d)
      (htrace : ∀ steps : List s.Step, (∀ step ∈ steps, s.Calls step) →
        List.Forall₂
          (fun x y => y.1 = x.1.map (Answer.later buffer.retired.size) ∧
            Alike ⟨buffer.retired, c.log, c.item⟩ x.2 y.2)
          (s.trace steps fresh) (s.trace steps d)) :
      Renewed s c buffer start stop (.ok fresh.status, d)
  | refused
      (hrange : ¬ (0 ≤ start ∧ start ≤ stop.getD buffer.bytes.size ∧
        stop.getD buffer.bytes.size ≤ buffer.bytes.size)) :
      Renewed s c buffer start stop
        (.error (.badRegion start (stop.getD buffer.bytes.size) buffer.bytes.size), c)

theorem renewed_bind (s : Sessions σ) {c : Context σ} {order : Option ByteOrder}
    (hc : c.assumptions.select = .ok order) (buffer : Buffer) (start : Int) (stop : Option Int) :
    s.Renewed c buffer start stop (c.bind buffer start stop) := by
  by_cases hrange : 0 ≤ start ∧ start ≤ stop.getD buffer.bytes.size ∧
      stop.getD buffer.bytes.size ≤ buffer.bytes.size
  · have hrange? : range? buffer.bytes.size start stop = .ok _ := if_pos hrange
    obtain ⟨fresh, hnew, hitem, hbind⟩ := bind_recalls hc hrange?
    rw [hbind]
    refine .fresh hrange hnew hitem (alike_recalling fresh _) fun steps hsteps => ?_
    rw [trace_recalling hsteps, List.forall₂_map_right_iff, List.forall₂_same]
    exact fun x _ => ⟨rfl, alike_recalling x.2 _⟩
  · have hrange? : range? buffer.bytes.size start stop = .error _ := if_neg hrange
    rw [Context.bind, hrange?]
    exact .refused hrange

/-- After any calls the byte order can be selected as it was at first. -/
theorem select_after {s : Sessions σ} {kind : Kind} {a : Assumptions} {bytes : Bytes} {start : Int}
    {stop : Option Int} {peer : σ} {c : Context σ}
    (hnew : Context.new kind a bytes start stop peer = .ok c) {before : List s.Step}
    (hbefore : ∀ step ∈ before, s.Calls step) :
    (s.after before c).assumptions = a ∧
      ∃ order, (s.after before c).assumptions.select = .ok order := by
  obtain ⟨hassumptions, order, hselect, -⟩ := select_new hnew
  have hafter : (s.after before c).assumptions = a :=
    (assumptions_after hbefore c).trans hassumptions
  exact ⟨hafter, order, hafter ▸ hselect⟩

/-- Whatever was called on a context, binding it anew makes it a new context for the range, with the
same assumptions, or changes nothing. -/
theorem init_renews {s : Sessions σ} {kind : Kind} {a : Assumptions} {bytes : Bytes} {start : Int}
    {stop : Option Int} {peer : σ} {c : Context σ}
    (hnew : Context.new kind a bytes start stop peer = .ok c) {before : List s.Step}
    (hbefore : ∀ step ∈ before, s.Calls step) (data : Bytes) (first : Int) (last : Option Int) :
    (s.after before c).assumptions = a ∧
      s.Renewed (s.after before c) ((s.after before c).buffer.replace data) first last
        ((s.after before c).init data first last) ∧
      s.Renewed (s.after before c) (s.after before c).buffer first last
        ((s.after before c).rebind first last) := by
  obtain ⟨hassumptions, order, hselect⟩ := select_after hnew hbefore
  exact ⟨hassumptions, renewed_bind s hselect _ first last, renewed_bind s hselect _ first last⟩

/-- A context that was stopped in the middle of an item, by a fault of its handler. -/
theorem init_renews_stopped :
    ∃ c, Context.new .unpacker {} #[0xCD, 1] 0 none
        (Script.ofActions [{ errorNumber := some 5, fault := some .outOfBounds }] 0) = .ok c ∧
      ∃ d, d = (unpacking (some Script.supplier)).after [UnpackStep.decode] c ∧
        d.status = .errorInHandler ∧ d.errorNumber = 5 ∧ d.current = 1 ∧
        (unpacking (some Script.supplier)).Renewed d (d.buffer.replace #[0xC0]) 0 none
          (d.init #[0xC0] 0 none) := by
  have hnew : Context.new .unpacker {} #[0xCD, 1] 0 none
      (Script.ofActions [{ errorNumber := some 5, fault := some .outOfBounds }] 0) = .ok _ := rfl
  refine ⟨_, hnew, _, rfl, rfl, rfl, rfl, (init_renews hnew ?_ #[0xC0] 0 none).2.1⟩
  intro step hstep
  obtain rfl : step = UnpackStep.decode := List.mem_singleton.mp hstep
  exact .decode fun _ h => Option.some.inj h ▸ Script.respond_heedless

/-! ### Unpackers with a source -/

/-- Decoding, skipping and binding anew are calls on an unpacker, looking at its items is not. -/
theorem Calls.of_isCall {supplier : Option (Supplier σ)}
    (hh : ∀ respond, supplier.map Supplier.respond = some respond → respond.Heedless)
    {step : UnpackStep} (h : step.IsCall) : Calls (unpacking supplier) step := by
  cases step with
  | decode => exact .decode hh
  | skip count => exact .skip hh count
  | items atMost => exact .items hh atMost
  | common step => exact .common step
  | hold | look | detach | text | view | describeItem | same => exact h.elim

/-- Reading from a source does not heed what was before.  So an unpacker that is bound anew goes on
like a new one with what is left of its source. -/
theorem stream_unpacker_renewed {source : Source} {size : Nat} {a : Assumptions}
    {c : StreamUnpacker} (hnew : StreamUnpacker.new source size a = .ok c)
    {before : List UnpackStep} (hbefore : ∀ step ∈ before, step.IsCall) {d : StreamUnpacker}
    (hd : (unpacking (some StreamUnpacker.supplier)).after before c = d) (buffer : Buffer)
    (first : Int) (last : Option Int) :
    (unpacking (some StreamUnpacker.supplier)).Renewed d buffer first last
      (d.bind buffer first last) := by
  have hh : ∀ respond, (some StreamUnpacker.supplier).map Supplier.respond = some respond →
      respond.Heedless := fun _ h => Option.some.inj h ▸ StreamUnpacker.refill_heedless
  have hselect := select_after (s := unpacking (some StreamUnpacker.supplier)) hnew
    fun step h => Calls.of_isCall hh (hbefore step h)
  rw [hd] at hselect
  obtain ⟨-, order, hselect⟩ := hselect
  exact renewed_bind _ hselect buffer first last

end Sessions
end MessagePack
