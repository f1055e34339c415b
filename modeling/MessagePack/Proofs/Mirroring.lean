import MessagePack.Proofs.Bounding
import MessagePack.Proofs.Lockstep

/-! # Handlers that mirror each other

Two handlers may do the same to regions that differ by a map of what is behind them
(`Supplier.Mirrors`).  Then so does all that is built from the steps of reading: calls, sequences of
items, and whole sessions, which answer the same step by step and leave the same but for that map
(`Sessions.transcript_mapPeer`).

The steps of an item follow by `Lockstep`.  Mirroring is needed only in contexts that can go on, and
a session keeps them so (`Context.Confined`). -/

namespace MessagePack

open Engine Context

variable {σ τ α β : Type}

/-! ### Other peers -/

/-- The same region with something else behind its handler. -/
def Region.mapPeer (f : σ → τ) (r : Region σ) : Region τ := { r with peer := f r.peer }

/-- The same context with something else behind its handler. -/
def Context.mapPeer (f : σ → τ) (c : Context σ) : Context τ :=
  { c with peer := f c.peer }

/-- The same session with something else behind the handler of its context. -/
def UnpackSession.mapPeer (f : σ → τ) (u : UnpackSession σ) : UnpackSession τ :=
  { u with context := u.context.mapPeer f }

namespace Context

theorem toRegion_mapPeer (f : σ → τ) (c : Context σ) :
    (c.mapPeer f).toRegion = c.toRegion.mapPeer f := rfl

theorem Ready.mapPeer {n : Nat} {c : Context σ} (h : c.Ready n) (f : σ → τ) :
    (c.mapPeer f).Ready n := ⟨h.le_limit, h.limit_le, h.status_eq, h.order_eq⟩

theorem bind_mapPeer (f : σ → τ) (c : Context σ) (buffer : Buffer) (start : Int)
    (stop : Option Int) :
    (c.mapPeer f).bind buffer start stop =
      Prod.map id (fun d => d.mapPeer f) (c.bind buffer start stop) := by
  unfold bind
  cases range? buffer.bytes.size start stop with
  | error fault => rfl
  | ok range =>
      have ha : (c.mapPeer f).assumptions = c.assumptions := rfl
      dsimp only
      rw [ha]
      cases c.assumptions.select with
      | error fault => rfl
      | ok order => cases order <;> rfl

theorem new_mapPeer (f : σ → τ) (kind : Kind) (a : Assumptions) (bytes : Bytes) (start : Int)
    (stop : Option Int) (peer : σ) :
    Context.new kind a bytes start stop (f peer) =
      (Context.new kind a bytes start stop peer).map fun c => c.mapPeer f := by
  have hbind : Context.rebind { kind, assumptions := a, buffer := ⟨bytes, #[]⟩, peer := f peer }
      start stop = _ :=
    bind_mapPeer f { kind, assumptions := a, buffer := ⟨bytes, #[]⟩, peer } ⟨bytes, #[]⟩ start stop
  unfold Context.new rebind at *
  dsimp only at hbind ⊢
  rw [hbind]
  cases Context.bind { kind, assumptions := a, buffer := ⟨bytes, #[]⟩, peer } ⟨bytes, #[]⟩ start
    stop with
  | mk result d => cases result <;> rfl

end Context

/-! ### Handlers -/

/-- As long as the peers are of this kind, the handlers do the same to regions that differ by
`f`. -/
structure Supplier.Mirrors (f : σ → τ) (Peer : σ → Prop) (s : Supplier σ) (t : Supplier τ) :
    Prop where
  respond : ∀ n r, Peer r.peer →
    t.respond n (r.mapPeer f) = Prod.map id (fun r' => r'.mapPeer f) (s.respond n r)
  confined : s.respond.Confined (fun _ => True) Peer
  contained : s.respond.Contained

namespace Engine

/-- The result of a step with something else behind the handler. -/
def mapPeer (f : σ → τ) :
    EStateM.Result Halt (Context σ) α → EStateM.Result Halt (Context τ) α
  | .ok a c => .ok a (c.mapPeer f)
  | .error halt c => .error halt (c.mapPeer f)

theorem run_mapPeer {f : σ → τ} {operation : Engine σ Unit} {operation' : Engine τ Unit}
    {c : Context σ} (h : operation' (c.mapPeer f) = mapPeer f (operation c)) :
    operation'.run (c.mapPeer f) = Prod.map id (fun d => d.mapPeer f) (operation.run c) := by
  unfold run
  rw [h]
  cases operation c with
  | ok x d => rfl
  | error halt d => cases halt <;> rfl

theorem running_mapPeer {f : σ → τ} {next : Unit → Engine σ α} {next' : Unit → Engine τ α}
    {c : Context σ} (h : c.status = .ok → next' () (c.mapPeer f) = mapPeer f (next () c)) :
    (running >>= next') (c.mapPeer f) = mapPeer f ((running >>= next) c) := by
  by_cases hc : c.status = .ok
  · have hr : running (c.mapPeer f) = .ok () (c.mapPeer f) := running_eq hc
    rw [bind_of_ok hr, bind_of_ok (running_eq hc)]
    exact h hc
  · have hr : running (c.mapPeer f) = .error (.status .stopped) (c.mapPeer f) :=
      running_of_latched hc
    rw [bind_of_error hr, bind_of_error (running_of_latched hc)]
    rfl

/-- In a context that can go on the steps do the same, and it can go on afterwards. -/
structure Mirrored (f : σ → τ) (Peer : σ → Prop) (m : Nat) (step : Engine σ α)
    (step' : Engine τ α) (n : Nat) : Prop where
  eq : ∀ c : Context σ, c.Ready m → Peer c.peer → step' (c.mapPeer f) = mapPeer f (step c)
  ready : ∀ (c : Context σ) (a : α) (d : Context σ), c.Ready m → Peer c.peer →
    step c = .ok a d → d.Ready n ∧ Peer d.peer

end Engine

namespace Supplier.Mirrors

open Unpacker

variable {f : σ → τ} {Peer : σ → Prop} {s : Supplier σ} {t : Supplier τ}
  (hm : s.Mirrors f Peer t)

include hm

theorem require (m n : Nat) (short : Status) :
    Mirrored f Peer m (Unpacker.require (some s) n short) (Unpacker.require (some t) n short)
      n where
  eq c hc hp := by
    by_cases h : c.current + n ≤ c.limit
    · have hstep : Unpacker.require (some s) n short c = .ok () c := if_pos h
      rw [hstep]
      exact if_pos h
    · have hshort := Nat.not_le.mp h
      have hshort' : (c.mapPeer f).limit < (c.mapPeer f).current + n := hshort
      have hrespond := hm.respond n c.toRegion hp
      have hstep : Unpacker.require (some s) n short c = _ := ensure_of_lt hshort
      have hstep' : Unpacker.require (some t) n short (c.mapPeer f) = _ := ensure_of_lt hshort'
      rw [hstep, hstep', toRegion_mapPeer, hrespond]
      cases s.respond n c.toRegion with
      | mk answer r =>
          cases answer with
          | error fault => rfl
          | ok status =>
              dsimp only [Prod.map, id]
              have hlimit : (r.mapPeer f).limit = r.limit := rfl
              have hcurrent : (r.mapPeer f).current = r.current := rfl
              rw [hlimit, hcurrent]
              split_ifs <;> rfl
  ready c _ d hc hp hd := by
    have ha : Asked (some s.respond) (atEnd short) n short c
        (Unpacker.require (some s) n short c) := asked_ensure
    rw [hd] at ha
    refine ⟨ha.ready hc hm.contained.of_eq_some, ?_⟩
    cases ha with
    | there => exact hp
    | granted hh hn hr =>
        have hpeer := hm.confined.peer n c.toRegion hp
        rw [Option.some.inj hh, hr] at hpeer
        exact hpeer

theorem lockstep : Lockstep (some s) (some t) fun p step step' q =>
    Mirrored f Peer p.bytes step step' q.bytes where
  bind h hn := {
    eq := fun c hc hp => by
      rename_i step step' next next'
      have hstep := h.eq c hc hp
      cases hr : step c with
      | ok a d =>
          rw [hr] at hstep
          obtain ⟨hd, hpd⟩ := h.ready c a d hc hp hr
          rw [bind_of_ok hstep, bind_of_ok hr]
          exact (hn a).eq d hd hpd
      | error halt d =>
          rw [hr] at hstep
          rw [bind_of_error hstep, bind_of_error hr]
          rfl
    ready := fun c b e hc hp hb => by
      rename_i step step' next next'
      cases hr : step c with
      | ok a d =>
          rw [bind_of_ok hr] at hb
          obtain ⟨hd, hpd⟩ := h.ready c a d hc hp hr
          exact (hn a).ready d b e hd hpd hb
      | error halt d =>
          rw [bind_of_error hr] at hb
          cases hb }
  pure p a := ⟨fun _ _ _ => rfl, fun c b d hc hp hb => by cases hb; exact ⟨hc, hp⟩⟩
  malformed p q := ⟨fun _ _ _ => rfl, fun c a d _ _ ha => by cases ha⟩
  require n := hm.require 0 n _
  forward h h' := {
    eq := fun c hc _ => by
      rw [h c hc, h' _ (hc.mapPeer f)]
      rfl
    ready := fun c a d hc hp ha => by
      rw [h c hc] at ha
      cases ha
      exact ⟨hc.forward, hp⟩ }
  present item _ := ⟨fun _ _ _ => rfl, fun c a d hc hp ha => by cases ha; exact ⟨hc.holding _, hp⟩⟩
  payload kind n := ⟨fun _ _ _ => rfl, fun c a d hc hp ha => by
    cases ha
    exact ⟨(hc.holding _).forward, hp⟩⟩

/-! ### Calls -/

theorem decode {c : Context σ} (hc : c.Confined Peer) :
    Unpacker.decode (some t) (c.mapPeer f) = mapPeer f (Unpacker.decode (some s) c) :=
  running_mapPeer fun hs =>
    (hm.lockstep.decodeItem (hm.require 0 1 _)).eq c (hc.ready hs) hc.peer

theorem skipLoop (count : Nat) {c : Context σ} (hc : c.Ready 0) (hp : Peer c.peer) :
    Unpacker.skipLoop (some t) count (c.mapPeer f) =
      mapPeer f (Unpacker.skipLoop (some s) count c) := by
  have hitem := hm.lockstep.skipItem (hm.require 0 1 _)
  fun_induction Unpacker.skipLoop (some s) count c with
  | case1 c =>
      rw [Unpacker.skipLoop]
      rfl
  | case2 c count more d hskip ih =>
      have hskip' := hitem.eq c hc hp
      rw [hskip] at hskip'
      obtain ⟨hd, hpd⟩ := hitem.ready c more d hc hp hskip
      rw [skipLoop_of_ok hskip']
      exact ih hd hpd
  | case3 c count halt d hskip =>
      have hskip' := hitem.eq c hc hp
      rw [hskip] at hskip'
      exact skipLoop_of_error hskip'

theorem skip (count : Int) {c : Context σ} (hc : c.Confined Peer) :
    Unpacker.skip (some t) count (c.mapPeer f) = mapPeer f (Unpacker.skip (some s) count c) :=
  running_mapPeer fun hs => hm.skipLoop count.toNat (hc.ready hs) hc.peer

theorem settled_call (call : Call) {c : Context σ} (hc : c.Confined Peer) :
    Settled (fun _ => True) Peer (raisedFault ((call.engine (some s)).run c).1)
      ((call.engine (some s)).run c).2 :=
  Unpacker.settled_call hm.contained.of_eq_some hm.confined.of_eq_some call hc

/-- The items are the same, provided that what is behind the handler is not what is observed of
them. -/
theorem itemsLoop {observe : Context σ → α} {observe' : Context τ → α}
    (hobs : ∀ c : Context σ, observe' (c.mapPeer f) = observe c) (atMost : Option Nat)
    (found : Array α) {c : Context σ} (hc : c.Confined Peer) :
    Unpacker.itemsLoop (some t) observe' atMost found (c.mapPeer f) =
      Prod.map id (Prod.map id fun d => d.mapPeer f)
        (Unpacker.itemsLoop (some s) observe atMost found c) := by
  fun_induction Unpacker.itemsLoop (some s) observe atMost found c with
  | case1 found c =>
      rw [Unpacker.itemsLoop, if_pos rfl]
      rfl
  | case2 atMost found c hmost d hdec ih =>
      have hdec' := hm.decode hc
      have hd := (hm.settled_call .decode hc).confined
      rw [Call.engine, run_of_ok hdec] at hd
      rw [hdec] at hdec'
      rw [itemsLoop_of_ok hmost hdec', hobs]
      exact ih hd
  | case3 atMost found c hmost halt d hdec =>
      have hdec' := hm.decode hc
      rw [hdec] at hdec'
      rw [itemsLoop_of_error hmost hdec']
      cases halt <;> rfl

end Supplier.Mirrors

/-! ### Sessions -/

theorem Session.step_mapPeer (f : σ → τ) (c : Context σ) (step : Session.Step) :
    Session.step (c.mapPeer f) step =
      Prod.map id (fun d => d.mapPeer f) (Session.step c step) := by
  have hresolve : resolve (c.mapPeer f) = resolve c := by
    funext mark
    cases mark <;> rfl
  have hbind : ∀ buffer start stop, ofStatus ((c.mapPeer f).bind buffer start stop) =
      Prod.map id (fun d => d.mapPeer f) (ofStatus (c.bind buffer start stop)) := by
    intro buffer start stop
    rw [bind_mapPeer, ofStatus_eq, ofStatus_eq]
    rfl
  cases step with
  | check =>
      have hcheck : (c.mapPeer f).check = c.check := rfl
      rw [step_check, step_check, hcheck]
      rfl
  | remaining | describe | order | contents | latch | poke => rfl
  | init bytes first last =>
      show ofStatus ((c.mapPeer f).bind _ _ _) = _
      rw [hbind, hresolve]
      rfl
  | rebind first last =>
      show ofStatus ((c.mapPeer f).bind _ _ _) = _
      rw [hbind, hresolve]
      rfl

namespace UnpackSession

theorem find_mapPeer (f : σ → τ) (u : UnpackSession σ) (slot : Slot) :
    (u.mapPeer f).find slot = u.find slot := by
  cases slot <;> rfl

variable {f : σ → τ} {Peer : σ → Prop} {s : Supplier σ} {t : Supplier τ}
  (hm : s.Mirrors f Peer t)

include hm

theorem run_mapPeer {u : UnpackSession σ} (hu : u.context.Confined Peer) (step : UnpackStep) :
    (u.mapPeer f).run (some t) step =
      Prod.map id (fun v => v.mapPeer f) (u.run (some s) step) := by
  cases step with
  | decode =>
      have hrun : (Unpacker.decode (some t)).run (u.mapPeer f).context = _ :=
        Engine.run_mapPeer (hm.decode hu)
      rw [run_decode, run_decode]
      unfold onContext
      dsimp only
      rw [hrun]
      cases (Unpacker.decode (some s)).run u.context with
      | mk result d => cases result <;> rfl
  | skip count =>
      have hrun : (Unpacker.skip (some t) count).run (u.mapPeer f).context = _ :=
        Engine.run_mapPeer (hm.skip count hu)
      unfold run
      dsimp only
      rw [hrun, Session.ofStatus_eq, Session.ofStatus_eq]
      rfl
  | items atMost =>
      have hsight : ∀ c : Context σ, sight (c.mapPeer f) = sight c := fun _ => rfl
      have hitems : Unpacker.items (some t) sight atMost (u.mapPeer f).context = _ :=
        hm.itemsLoop hsight atMost #[] hu
      unfold run
      dsimp only
      rw [hitems]
      rfl
  | common step =>
      have hstep : Session.step (u.mapPeer f).context step = _ :=
        Session.step_mapPeer f u.context step
      unfold run
      dsimp only
      rw [hstep]
      rfl
  | hold name => rfl
  | look slot =>
      simp only [run, find_mapPeer]
      rfl
  | detach slot name =>
      simp only [run, find_mapPeer]
      cases u.find slot <;> rfl
  | text slot | view slot =>
      simp only [run, onItem, find_mapPeer]
      rfl
  | describeItem slot =>
      simp only [run, describe, find_mapPeer]
      rfl
  | same first second =>
      simp only [run, same, find_mapPeer]
      rfl

end UnpackSession

namespace Sessions

theorem course_cons (s : Option (Supplier σ)) (step : UnpackStep) (steps : List UnpackStep)
    (u : UnpackSession σ) :
    (unpacking s).course (step :: steps) u =
      ((u.run s step).1, (u.run s step).2.visible) ::
        (unpacking s).course steps (u.run s step).2 := rfl

variable {f : σ → τ} {Peer : σ → Prop} {s : Supplier σ} {t : Supplier τ}
  (hm : s.Mirrors f Peer t)

include hm

theorem course_mapPeer {steps : List UnpackStep} (hsteps : ∀ step ∈ steps, step.Blind)
    {u : UnpackSession σ} (hu : u.context.Confined Peer) :
    (unpacking (some t)).course steps (u.mapPeer f) =
      ((unpacking (some s)).course steps u).map (Prod.map id fun v => v.mapPeer f) := by
  induction steps generalizing u with
  | nil => rfl
  | cons step steps ih =>
      have hstep := UnpackSession.run_mapPeer hm hu step
      have hnext := UnpackSession.settled_run (s := some s) hm.contained.of_eq_some
        hm.confined.of_eq_some (hsteps step List.mem_cons_self) hu
      have hrest := ih (fun step h => hsteps step (List.mem_cons_of_mem _ h)) hnext.confined
      have hcons := course_cons (some t) step steps (u.mapPeer f)
      rw [hstep] at hcons
      exact hcons.trans (congrArg (List.cons _) hrest)

/-- The session is made, or refused, and takes its course. -/
theorem transcript_mapPeer {kind : Kind} {a : Assumptions} {bytes : Bytes} {start : Int}
    {stop : Option Int} {peer : σ} (hp : Peer peer) {steps : List UnpackStep}
    (hsteps : ∀ step ∈ steps, step.Blind) :
    (unpacking (some t)).transcript kind a bytes start stop (f peer) steps =
      ((unpacking (some s)).transcript kind a bytes start stop peer steps).map
        (Prod.map (fun v => v.mapPeer f) (List.map (Prod.map id fun v => v.mapPeer f))) := by
  unfold transcript
  rw [new_mapPeer]
  cases hnew : Context.new kind a bytes start stop peer with
  | error fault => rfl
  | ok c =>
      have hcourse := course_mapPeer hm hsteps (u := { context := c }) (confined_new hp hnew)
      exact congrArg (fun course => Except.ok (_, course)) hcourse

end Sessions
end MessagePack
