import MessagePack.Proofs.Giving
import MessagePack.Proofs.Queueing
import MessagePack.Proofs.Reordering
import MessagePack.Session.Packing
import MessagePack.Session.Unpacking

/-! # The byte order is unobservable

A session with a packer or an unpacker takes the same course under all assumptions that select a
byte order: each step answers the same, and leaves a context that differs in its assumptions and
its byte order only (`Sessions.order_unobservable`).  What a handler or a stream is asked for is
part of that, since they can note it in their own state, the context's peer.

A step is steady if it does the same in a context that is moved under other assumptions, as long as
an invariant holds of contexts that are not stopped (`Context.Steady`).  The invariant is that of
`Operations.Latches`, which the calls keep unless they latch; binding the context anew establishes
it again.

Three steps are left out (`Session.Step.Blind`, `GrowingStep.Blind`).  One asks for the byte order.
One clears the latch and leaves the region as it is: a handler that failed may have left the cursor
outside.  One takes a negative number of bytes out, which may leave a region that ends outside its
buffer (`Sessions.negative_take_shows_order`). -/

namespace MessagePack

variable {σ α β : Type}

/-! ### Sessions -/

namespace UnpackSession

/-- A step that leaves the items alone that were kept. -/
def onContext (f : Context σ → α × Context σ) (u : UnpackSession σ) : α × UnpackSession σ :=
  ((f u.context).1, { u with context := (f u.context).2 })

/-- The same session under other assumptions and with another byte order. -/
def under (u : UnpackSession σ) (a : Assumptions) (order : ByteOrder) : UnpackSession σ :=
  { u with context := u.context.under a order }

/-- All of a session but the assumptions of its context and the byte order. -/
def visible (u : UnpackSession σ) : UnpackSession σ :=
  { u with context := { u.context with assumptions := {}, order := none } }

theorem find_under (u : UnpackSession σ) (a : Assumptions) (order : ByteOrder) (slot : Slot) :
    (u.under a order).find slot = u.find slot := by
  cases slot <;> rfl

end UnpackSession

/-- The step does not ask for the byte order, nor let a stopped context go on as it is. -/
def Session.Step.Blind (step : Session.Step) : Prop := step ≠ .order ∧ step ≠ .latch .ok

namespace PackStep

def Blind : PackStep → Prop
  | common step => step.Blind
  | pack _ | give _ | packed => True

end PackStep

namespace GrowingStep

/-- No negative number of bytes is taken out either. -/
def Blind : GrowingStep → Prop
  | packing step => step.Blind
  | take n => ∀ k, n = some k → 0 ≤ k

theorem count_eq {n : Option Int} (h : (take n).Blind) : ∃ m : Option Nat, n = m.map Nat.cast := by
  cases n with
  | none => exact ⟨none, rfl⟩
  | some k => exact ⟨some k.toNat, congrArg some (Int.toNat_of_nonneg (h k rfl)).symm⟩

end GrowingStep

namespace FlushingStep

def Blind : FlushingStep → Prop
  | packing step => step.Blind
  | flush => True

end FlushingStep

namespace UnpackStep

def Blind : UnpackStep → Prop
  | common step => step.Blind
  | _ => True

end UnpackStep

/-- The sessions that contexts of a kind can have.  A packer keeps no items. -/
structure Sessions (σ : Type) where
  Step : Type
  run : Step → UnpackSession σ → Except Failure Answer × UnpackSession σ
  /-- The step neither asks for the byte order nor clears the latch, and takes no negative number of
  bytes out. -/
  Blind : Step → Prop

namespace Sessions

/-- Sessions with a packer. -/
def packing (handler : Option (Handler σ)) : Sessions σ where
  Step := PackStep
  run step := UnpackSession.onContext fun c => step.run handler c
  Blind := PackStep.Blind

/-- Sessions with a packer that has a growing buffer. -/
def growing : Sessions Unit where
  Step := GrowingStep
  run step := UnpackSession.onContext step.run
  Blind := GrowingStep.Blind

/-- Sessions with a packer that has a sink. -/
def flushing : Sessions Sink where
  Step := FlushingStep
  run step := UnpackSession.onContext step.run
  Blind := FlushingStep.Blind

/-- Sessions with an unpacker. -/
def unpacking (s : Option (Supplier σ)) : Sessions σ where
  Step := UnpackStep
  run step u := u.run s step
  Blind := UnpackStep.Blind

/-- The sessions with all kinds of contexts.  A handler may do and answer anything, as long as it
keeps the region inside its buffer. -/
inductive Provided : {σ : Type} → Sessions σ → Prop
  | packing {σ : Type} {handler : Option (Handler σ)}
      (hin : ∀ respond, handler = some respond → respond.Contained) :
      Provided (Sessions.packing handler)
  | growing : Provided Sessions.growing
  | flushing : Provided Sessions.flushing
  | unpacking {σ : Type} {s : Option (Supplier σ)}
      (hin : ∀ respond, s.map Supplier.respond = some respond → respond.Contained) :
      Provided (Sessions.unpacking s)
  | refilled : Provided (Sessions.unpacking (some StreamUnpacker.supplier))

/-- Take steps one after another: what each of them answers, and what can be seen afterwards. -/
def course (s : Sessions σ) :
    List s.Step → UnpackSession σ → List (Except Failure Answer × UnpackSession σ)
  | [], _ => []
  | step :: steps, u =>
      let (answer, u) := s.run step u
      (answer, u.visible) :: s.course steps u

/-- Make a context and take steps with it: what can be seen of the new context, and the course that
the session takes. -/
def transcript (s : Sessions σ) (kind : Kind) (a : Assumptions) (bytes : Bytes) (start : Int)
    (stop : Option Int) (peer : σ) (steps : List s.Step) :
    Except Fault (UnpackSession σ × List (Except Failure Answer × UnpackSession σ)) :=
  (Context.new kind a bytes start stop peer).map fun c =>
    (UnpackSession.visible { context := c }, s.course steps { context := c })

end Sessions

/-! ### Steps in a context -/

namespace Context

/-- The context has the byte order that its assumptions select, and the invariant holds of it
unless it is stopped. -/
structure Sound (Inv : Context σ → Prop) (c : Context σ) : Prop where
  selects : ∃ order, c.assumptions.select = .ok (some order) ∧ c.order = some order
  running : c.status = .ok → Inv c

/-- The invariant holds of live contexts, and as long as the buffer does not shrink, it does not
depend on the bytes. -/
structure Robust (Inv : Context σ → Prop) : Prop where
  of_live : ∀ c : Context σ, c.Live → Inv c
  modify : ∀ (c : Context σ) (bytes : Bytes), Inv c → c.bytes.size ≤ bytes.size →
    Inv (c.modifyBytes bytes)

theorem robust_ready : Robust (Ready 0 : Context σ → Prop) where
  of_live _ h := h.ready h.inBounds.current_le
  modify _ _ h hsize := ⟨h.le_limit, Nat.le_trans h.limit_le hsize, h.status_eq, h.order_eq⟩

theorem robust_live : Robust (Live : Context σ → Prop) where
  of_live _ h := h
  modify _ _ h hsize := ⟨⟨h.inBounds.start_le, h.inBounds.current_le,
    Nat.le_trans h.inBounds.limit_le hsize⟩, h.status_eq, h.order_eq⟩

/-- The step does the same under all assumptions that select a byte order, and the invariant holds
afterwards unless the context is stopped. -/
structure Steady (Inv : Context σ → Prop) (f : Context σ → α × Context σ) : Prop where
  under_eq : ∀ c : Context σ, c.Sound Inv → ∀ (a : Assumptions) (order : ByteOrder),
    a.select = .ok (some order) →
    f (c.under a order) = Prod.map id (fun d => d.under a order) (f c)
  running : ∀ c : Context σ, c.Sound Inv → (f c).2.status = .ok → Inv (f c).2

section steady

variable {Inv : Context σ → Prop} {f : Context σ → α × Context σ}

theorem Steady.sound (h : Steady Inv f) {c : Context σ} (hc : c.Sound Inv) :
    (f c).2.Sound Inv where
  selects := by
    obtain ⟨order, ha, ho⟩ := hc.selects
    have hself := h.under_eq c hc c.assumptions order ha
    rw [under_self ho] at hself
    have hd : (f c).2 = (f c).2.under c.assumptions order := congrArg Prod.snd hself
    rw [hd]
    exact ⟨order, ha, rfl⟩
  running := h.running c hc

theorem Steady.answering (h : Steady Inv f) (g : α → Context σ → β)
    (hg : ∀ x c a order, g x (c.under a order) = g x c) :
    Steady Inv fun c => (g (f c).1 (f c).2, (f c).2) where
  under_eq c hc a order ha := by
    rw [h.under_eq c hc a order ha]
    simp only [Prod.map, id, hg]
  running := h.running

theorem Steady.look (g : Context σ → α) (hg : ∀ c a order, g (c.under a order) = g c) :
    Steady Inv fun c => (g c, c) where
  under_eq c _ a order _ := by
    rw [hg]
    rfl
  running _ hc := hc.running

theorem Robust.steady_bind (hi : Robust Inv) {buffer : Context σ → Buffer}
    {start : Context σ → Int} {stop : Context σ → Option Int}
    (hsame : ∀ c a order, buffer (c.under a order) = buffer c ∧
      start (c.under a order) = start c ∧ stop (c.under a order) = stop c) :
    Steady Inv fun c => c.bind (buffer c) (start c) (stop c) where
  under_eq c hc a order ha := by
    obtain ⟨hb, hstart, hstop⟩ := hsame c a order
    obtain ⟨o, hselect, -⟩ := hc.selects
    rw [hb, hstart, hstop, bind_under hselect ha]
  running c hc hs := by
    generalize buffer c = b, start c = first, stop c = last at hs ⊢
    cases hbind : c.bind b first last with
    | mk answer d =>
        rw [hbind] at hs
        cases answer with
        | ok status => exact hi.of_live d (live_bind hbind hs)
        | error fault =>
            obtain ⟨o, hselect, -⟩ := hc.selects
            obtain rfl : d = c := by
              unfold bind at hbind
              cases hr : range? b.bytes.size first last with
              | error fault => simp [hr] at hbind; exact hbind.2.symm
              | ok range => simp [hr, hselect] at hbind
            exact hc.running hs

end steady
end Context

namespace Session

open Context

variable {Inv : Context σ → Prop}

theorem ofStatus_eq (x : Except Fault Status × Context σ) :
    ofStatus x = ((x.1.map Answer.status).mapError Failure.fault, x.2) := by
  obtain ⟨result, c⟩ := x
  cases result <;> rfl

theorem step_check (c : Context σ) :
    step c .check = ((c.check.map fun _ => Answer.nothing).mapError Failure.stop, c) := by
  unfold step
  cases c.check <;> rfl

theorem resolve_under (c : Context σ) (a : Assumptions) (order : ByteOrder) :
    resolve (c.under a order) = resolve c := by
  funext mark
  cases mark <;> rfl

theorem steady_ofStatus {f : Context σ → Except Fault Status × Context σ} (h : Steady Inv f) :
    Steady Inv fun c => ofStatus (f c) := by
  simp only [ofStatus_eq]
  exact h.answering (fun result _ => (result.map Answer.status).mapError Failure.fault)
    fun _ _ _ _ => rfl

theorem steady_step (hi : Robust Inv) {common : Step} (hb : common.Blind) :
    Steady Inv fun c => step c common := by
  cases common with
  | check =>
      simp only [step_check]
      exact .look (fun c => (c.check.map fun _ => Answer.nothing).mapError Failure.stop)
        fun _ _ _ => rfl
  | remaining | describe | contents => exact .look _ fun _ _ _ => rfl
  | order => exact absurd rfl hb.1
  | latch status =>
      refine ⟨fun _ _ _ _ _ => rfl, fun c _ hs => ?_⟩
      obtain rfl : status = .ok := hs
      exact absurd rfl hb.2
  | init bytes first last =>
      apply steady_ofStatus
      apply hi.steady_bind
      intro c a order
      rw [resolve_under]
      exact ⟨rfl, rfl, rfl⟩
  | rebind first last =>
      apply steady_ofStatus
      apply hi.steady_bind
      intro c a order
      rw [resolve_under]
      exact ⟨rfl, rfl, rfl⟩
  | poke pos data =>
      refine ⟨fun _ _ _ _ _ => rfl, fun c hc hs => ?_⟩
      exact hi.modify c _ (hc.running hs) (Bytes.le_size_splice c.bytes pos data)

end Session

/-! ### The steps of the families -/

namespace Operations

variable {ops : Operations σ} {Inv : Context σ → Prop}

theorem Latches.running (h : ops.Latches Inv) {c : Context σ} (hc : c.status = .ok → Inv c)
    (call : ops.Call) (hd : ((ops.engine call).run c).2.status = .ok) :
    Inv ((ops.engine call).run c).2 := by
  by_cases hs : c.status = .ok
  · rcases h.step c call (hc hs) with ⟨-, hinv⟩ | hfails
    · exact hinv
    · exact absurd hd hfails.latched
  · rw [h.latched c call hs] at hd
    exact absurd hd hs

theorem Latches.steady (h : ops.Latches Inv) (call : ops.Call)
    (hu : ∀ c : Context σ, (c.status = .ok → Inv c) → ∀ (a : Assumptions) (order : ByteOrder),
      order.Suits →
      ops.engine call (c.under a order) = Engine.under a order (ops.engine call c)) :
    Context.Steady Inv fun c => (ops.engine call).run c where
  under_eq c hc a order ha :=
    Engine.run_under (hu c hc.running a order (ByteOrder.suits_of_select ha))
  running _ hc := h.running hc.running call

end Operations

open Context Operations

section packing

variable {handler : Option (Handler σ)} {Inv : Context σ → Prop}

theorem PackStep.steady (hi : Robust Inv)
    (hpack : ∀ v, Steady Inv fun c => (Packer.pack handler v).run c) {step : PackStep}
    (hb : step.Blind) : Steady Inv fun c => step.run handler c := by
  cases step with
  | pack v => exact Session.steady_ofStatus (hpack v)
  | give request =>
      refine Session.steady_ofStatus (f := fun c => (Packer.give handler request).run c) ?_
      cases hv : request.value with
      | ok v =>
          simp only [Packer.run_give hv]
          exact hpack v
      | error fault =>
          simp only [Packer.run_give_of_error hv]
          exact .look _ fun _ _ _ => rfl
  | packed => exact .look _ fun _ _ _ => rfl
  | common step => exact Session.steady_step hi hb

theorem steady_pack (hin : ∀ respond, handler = some respond → respond.Contained) (v : Value) :
    Steady (Ready 0) fun c => (Packer.pack handler v).run c :=
  (latches_packing hin).steady v fun _ hc _ _ ho => Packer.pack_under hin v hc ho

end packing

namespace GrowingPacker

/-- Taking bytes out moves the cursor back over as many, or there is nothing to take. -/
theorem take_cases {c : GrowingPacker} (hb : c.InBounds) (n : Option Nat) :
    (take c (n.map Nat.cast)).2 = c ∨ ∃ taken bytes, taken ≤ c.current - c.start ∧
      c.bytes.size ≤ bytes.size ∧
      (take c (n.map Nat.cast)).2 = { c.modifyBytes bytes with current := c.current - taken } := by
  rw [take_natCast hb]
  unfold takeFirst
  dsimp only
  split_ifs
  · exact .inl rfl
  · exact .inr ⟨_, _, Nat.min_le_right _ _, Bytes.le_size_splice _ _ _, rfl⟩

theorem status_take (c : GrowingPacker) (n : Option Int) : (take c n).2.status = c.status := by
  unfold take
  dsimp only
  split_ifs <;> rfl

theorem steady_take (n : Option Nat) :
    Steady Live fun c : GrowingPacker => take c (n.map Nat.cast) where
  under_eq c _ a order _ := take_under c _ a order
  running c hc hs := (take_eq (hc.running (by rwa [status_take] at hs)) n).2.2

/-- Packing never runs out of room. -/
theorem steady_grow (v : Value) : Steady Live fun c => (pack v).run c where
  under_eq c hc a order ha := Engine.run_under (Packer.pack_under grow_contained.of_eq_some v
    (fun hs => (hc.running hs).ready (hc.running hs).inBounds.current_le)
    (ByteOrder.suits_of_select ha))
  running c hc hd := by
    by_cases hs : c.status = .ok
    · exact (run_pack (hc.running hs) v).1
    · have hrun : (pack v).run c = (.ok .stopped, c) := Engine.run_of_latched hs _
      rw [hrun] at hd
      exact absurd hd hs

end GrowingPacker

theorem GrowingStep.steady {step : GrowingStep} (hb : step.Blind) : Steady Live step.run := by
  cases step with
  | packing step => exact PackStep.steady robust_live GrowingPacker.steady_grow hb
  | take n =>
      obtain ⟨m, rfl⟩ := count_eq hb
      exact (GrowingPacker.steady_take m).answering (fun taken _ => Except.ok (Answer.bytes taken))
        fun _ _ _ _ => rfl

theorem FlushingStep.steady {step : FlushingStep} (hb : step.Blind) : Steady Live step.run := by
  cases step with
  | packing step =>
      have hin := StreamPacker.makeRoom_contained.of_eq_some
      refine PackStep.steady robust_live (fun v => ?_) hb
      apply latches_streaming.steady (.pack v)
      intro c hc a order ho
      exact Packer.pack_under hin v (fun hs => (hc hs).ready (hc hs).inBounds.current_le) ho
  | flush =>
      apply Session.steady_ofStatus
      apply latches_streaming.steady .flush
      intro c _ a order _
      exact StreamPacker.flush_under c a order

namespace Unpacker

variable {s : Option (Supplier σ)}
  (hin : ∀ respond, s.map Supplier.respond = some respond → respond.Contained)

include hin

theorem steady_call (call : Call) : Steady (Ready 0) fun c => (call.engine s).run c :=
  (latches_reading hin).steady call fun _ hc _ _ ho => call_under hin ho call hc

theorem ready_itemsLoop {observe : Context σ → α} (atMost : Option Nat) (found : Array α)
    {c : Context σ} (hc : c.status = .ok → c.Ready 0)
    (hd : (itemsLoop s observe atMost found c).2.2.status = .ok) :
    (itemsLoop s observe atMost found c).2.2.Ready 0 := by
  fun_induction itemsLoop s observe atMost found c with
  | case1 found c => exact hc hd
  | case2 atMost found c hmost d hdec ih => exact ih (fun _ => ready_decode hin hc hdec) hd
  | case3 atMost found c hmost halt d hdec =>
      have hrun : ((Call.engine s .decode).run c).2 = d := by
        rw [Call.engine, Engine.run_of_error hdec]
      have h := (latches_reading hin).running hc .decode
      exact hrun ▸ h (hrun ▸ hd)

theorem steady_items {observe : Context σ → α}
    (hobs : ∀ c a order, observe (c.under a order) = observe c) (atMost : Option Nat) :
    Steady (Ready 0) fun c =>
      let (found, ending, d) := items s observe atMost c
      ((found, ending), d) where
  under_eq c hc a order ha := by
    have hitems := itemsLoop_under hin (ByteOrder.suits_of_select ha) (hobs · a order) atMost #[]
      hc.running
    unfold items
    rw [hitems]
    rfl
  running c hc := ready_itemsLoop hin atMost #[] hc.running

end Unpacker

/-! ### Steps of a session -/

namespace UnpackSession

/-- What a step that decodes answers. -/
def decoded : Except Fault Status → Context σ → Except Failure Answer
  | .ok status, c => .ok (if status = .ok then .decoded (sight c) else .status status)
  | .error fault, _ => .error (.fault fault)

theorem run_decode (s : Option (Supplier σ)) (u : UnpackSession σ) :
    u.run s .decode = onContext (fun c => (decoded ((Unpacker.decode s).run c).1
      ((Unpacker.decode s).run c).2, ((Unpacker.decode s).run c).2)) u := by
  unfold run onContext
  dsimp only
  cases (Unpacker.decode s).run u.context with
  | mk result d => cases result <;> rfl

/-- The step does the same in a session under other assumptions, and the context stays sound. -/
structure Steady (Inv : Context σ → Prop) (f : UnpackSession σ → α × UnpackSession σ) : Prop where
  under_eq : ∀ u : UnpackSession σ, u.context.Sound Inv → ∀ (a : Assumptions)
    (order : ByteOrder), a.select = .ok (some order) →
    f (u.under a order) = Prod.map id (fun v => v.under a order) (f u)
  sound : ∀ u : UnpackSession σ, u.context.Sound Inv → (f u).2.context.Sound Inv

variable {Inv : Context σ → Prop}

theorem steady_onContext {f : Context σ → α × Context σ} (h : Context.Steady Inv f) :
    Steady Inv (onContext f) where
  under_eq u hu a order ha := by
    have hf : f (u.under a order).context = _ := h.under_eq u.context hu a order ha
    unfold onContext
    rw [hf]
    rfl
  sound _ hu := h.sound hu

theorem steady_of_context_eq {f : UnpackSession σ → α × UnpackSession σ}
    (hf : ∀ u a order, f (u.under a order) = Prod.map id (fun v => v.under a order) (f u))
    (hc : ∀ u, (f u).2.context = u.context) : Steady Inv f where
  under_eq u _ a order _ := hf u a order
  sound u hu := by rwa [hc]

theorem steady_run {s : Option (Supplier σ)}
    (hin : ∀ respond, s.map Supplier.respond = some respond → respond.Contained)
    {step : UnpackStep} (hb : step.Blind) :
    Steady (Ready 0 : Context σ → Prop) fun u => u.run s step := by
  cases step with
  | decode =>
      simp only [run_decode]
      apply steady_onContext
      apply (Unpacker.steady_call hin .decode).answering decoded
      intro result c a order
      cases result <;> rfl
  | skip count =>
      exact steady_onContext (Session.steady_ofStatus (Unpacker.steady_call hin (.skip count)))
  | items atMost =>
      have hsight : ∀ (c : Context σ) a order, sight (c.under a order) = sight c :=
        fun _ _ _ => rfl
      have hitems := (Unpacker.steady_items hin hsight atMost).answering
        (fun found _ => (.ok (.items found.1 found.2) : Except Failure Answer)) fun _ _ _ _ => rfl
      exact steady_onContext hitems
  | common step => exact steady_onContext (Session.steady_step robust_ready hb)
  | hold name => exact steady_of_context_eq (fun _ _ _ => rfl) fun _ => rfl
  | look slot =>
      apply steady_of_context_eq _ fun _ => rfl
      intro u a order
      simp only [run, find_under]
      rfl
  | detach slot name =>
      apply steady_of_context_eq
      · intro u a order
        simp only [run, find_under]
        cases u.find slot <;> rfl
      · intro u
        simp only [run]
        cases u.find slot <;> rfl
  | text slot | view slot =>
      apply steady_of_context_eq _ fun _ => rfl
      intro u a order
      simp only [run, onItem, find_under]
      rfl
  | describeItem slot =>
      apply steady_of_context_eq _ fun _ => rfl
      intro u a order
      simp only [run, describe, find_under]
      rfl
  | same first second =>
      apply steady_of_context_eq _ fun _ => rfl
      intro u a order
      simp only [run, same, find_under]
      rfl

end UnpackSession

/-! ### Courses -/

namespace Sessions

/-- Every step that is blind to the byte order is steady. -/
structure Steady (s : Sessions σ) (Inv : Context σ → Prop) : Prop where
  robust : Robust Inv
  step : ∀ step, s.Blind step → UnpackSession.Steady Inv (s.run step)

theorem Provided.steady {s : Sessions σ} (hs : s.Provided) : ∃ Inv, s.Steady Inv := by
  cases hs with
  | packing hin =>
      exact ⟨_, robust_ready, fun _ hb =>
        UnpackSession.steady_onContext (PackStep.steady robust_ready (steady_pack hin) hb)⟩
  | growing =>
      exact ⟨_, robust_live, fun _ hb => UnpackSession.steady_onContext (GrowingStep.steady hb)⟩
  | flushing =>
      exact ⟨_, robust_live, fun _ hb => UnpackSession.steady_onContext (FlushingStep.steady hb)⟩
  | unpacking hin => exact ⟨_, robust_ready, fun _ hb => UnpackSession.steady_run hin hb⟩
  | refilled =>
      have hin := StreamUnpacker.refill_contained.of_eq_some
      exact ⟨_, robust_ready, fun _ hb => UnpackSession.steady_run hin hb⟩

section courses

variable {s : Sessions σ} {Inv : Context σ → Prop} (h : s.Steady Inv)

include h

/-- A session takes the same course under other assumptions. -/
theorem Steady.course_under {a : Assumptions} {order : ByteOrder}
    (ha : a.select = .ok (some order)) {steps : List s.Step}
    (hsteps : ∀ step ∈ steps, s.Blind step) {u : UnpackSession σ} (hu : u.context.Sound Inv) :
    s.course steps (u.under a order) = s.course steps u := by
  induction steps generalizing u with
  | nil => rfl
  | cons step steps ih =>
      have hstep := h.step step (hsteps step List.mem_cons_self)
      have hrest : ∀ step ∈ steps, s.Blind step := fun step hmem =>
        hsteps step (List.mem_cons_of_mem _ hmem)
      rw [course, course, hstep.under_eq u hu a order ha]
      exact congrArg (List.cons _) (ih hrest (hstep.sound u hu))

/-- Whichever order the assumptions select, the session is made and takes the same course. -/
theorem Steady.transcript_eq {a b : Assumptions} {o order : ByteOrder}
    (ha : a.select = .ok (some o)) (hb : b.select = .ok (some order)) (kind : Kind)
    (bytes : Bytes) (start : Int) (stop : Option Int) (peer : σ) {steps : List s.Step}
    (hsteps : ∀ step ∈ steps, s.Blind step) :
    s.transcript kind b bytes start stop peer steps =
      s.transcript kind a bytes start stop peer steps := by
  unfold transcript
  rw [Context.new_under ha hb]
  cases hnew : Context.new kind a bytes start stop peer with
  | error fault => rfl
  | ok c =>
      obtain ⟨rfl, ho⟩ := order_new hnew ha
      have hc : c.Sound Inv :=
        ⟨⟨o, ha, ho⟩, fun hs => h.robust.of_live c (live_new hnew hs)⟩
      have hcourse := h.course_under hb hsteps (u := { context := c }) hc
      exact congrArg (fun course => Except.ok (_, course)) hcourse

end courses

/-- On a little-endian host without an assumption for the whole process, a context that is told
that layout, or nothing, reverses the words of its host; one that is asked to be portable goes byte
by byte.  A session is the same with both, from the new context to the last step. -/
theorem order_unobservable {s : Sessions σ} (hs : s.Provided) {a : Assumptions}
    (hhost : a.host = some .little) (hprocess : a.processWide = none)
    (horder : a.order = none ∨ a.order = some "little") (kind : Kind) (bytes : Bytes)
    (start : Int) (stop : Option Int) (peer : σ) {steps : List s.Step}
    (hsteps : ∀ step ∈ steps, s.Blind step) :
    a.select = .ok (some .swapped) ∧
    { a with order := some "portable" }.select = .ok (some .portable) ∧
    s.transcript kind { a with order := some "portable" } bytes start stop peer steps =
      s.transcript kind a bytes start stop peer steps := by
  obtain ⟨Inv, h⟩ := hs.steady
  have hswapped : a.select = .ok (some .swapped) := by
    unfold Assumptions.select
    rw [hhost, hprocess]
    rcases horder with ho | ho <;> rw [ho] <;> rfl
  have hportable : { a with order := some "portable" }.select = .ok (some .portable) := rfl
  exact ⟨hswapped, hportable,
    h.transcript_eq hswapped hportable kind bytes start stop peer hsteps⟩

/-- A number is read from two chunks, and the item after it is passed over. -/
theorem order_unobservable_refilled :
    (unpacking (some StreamUnpacker.supplier)).transcript .streamUnpacker
        { order := some "portable" } (Bytes.zeros 4) 0 (some 0)
        { manner := .read, chunks := [.data #[0xCD, 0x01], .data #[0x2C, 0xC0]] }
        [.decode, .skip 1] =
      (unpacking (some StreamUnpacker.supplier)).transcript .streamUnpacker {} (Bytes.zeros 4) 0
        (some 0) { manner := .read, chunks := [.data #[0xCD, 0x01], .data #[0x2C, 0xC0]] }
        [.decode, .skip 1] := by
  refine (order_unobservable (a := {}) .refilled rfl rfl (.inl rfl) .streamUnpacker
    (Bytes.zeros 4) 0 (some 0) _ ?_).2.2
  intro step hmem
  rcases List.mem_pair.mp hmem with rfl | rfl <;> trivial

/-- The order shows in how a number is refused that a negative count has left no room for. -/
theorem negative_take_shows_order :
    ∃ steps : List GrowingStep,
      steps = [.packing (.pack .nil), .take (some (-1 : Int)), .packing (.pack (.unsigned 300))] ∧
      (growing.transcript .growingPacker {} (Bytes.zeros 5) 0 none () steps).map
        (fun t => t.2.map Prod.fst) =
        .ok [.ok (.status .ok), .ok (.bytes #[0xC0, 0, 0, 0]), .error (.fault .fieldRange)] ∧
      (growing.transcript .growingPacker { order := some "portable" } (Bytes.zeros 5) 0 none ()
        steps).map (fun t => t.2.map Prod.fst) =
        .ok [.ok (.status .ok), .ok (.bytes #[0xC0, 0, 0, 0]), .error (.fault .outOfBounds)] :=
  ⟨_, rfl, by cbv, by cbv⟩

end Sessions
end MessagePack
