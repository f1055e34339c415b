import MessagePack.Proofs.Latching
import MessagePack.Proofs.Lockstep
import MessagePack.Proofs.Recognition
import MessagePack.Proofs.Skipping

/-! # Calls under another byte order

A context can be moved under other assumptions, with the byte order that they select
(`Context.under`).  All strategies load and store the same where the bytes are in the buffer and
the number fits into the field, and no call asks for anything else: before a field is loaded or
stored, its bytes have been made available, and no handler is told the byte order.  So a call does
the same before and after the move.

`Engine.Indifferent` says this of one step.  It is closed under sequences and holds of a step that
takes bytes which are there, so it holds of decoding and skipping
(`Unpacker.lockstep_indifferent`).  What packing comes to is known without reference to the byte
order, which leaves the room to be made (`Packer.pack_under`). -/

namespace MessagePack

variable {σ α β : Type}

namespace Context

/-- The same context under other assumptions and with another byte order. -/
def under (c : Context σ) (a : Assumptions) (order : ByteOrder) : Context σ :=
  { c with assumptions := a, order := some order }

@[simp] theorem toRegion_under (c : Context σ) (a : Assumptions) (order : ByteOrder) :
    (c.under a order).toRegion = c.toRegion := rfl

theorem Ready.under {n : Nat} {c : Context σ} (h : c.Ready n) (a : Assumptions)
    {order : ByteOrder} (ho : order.Suits) : (c.under a order).Ready n :=
  ⟨h.le_limit, h.limit_le, h.status_eq, order, rfl, ho⟩

theorem under_self {c : Context σ} {order : ByteOrder} (h : c.order = some order) :
    c.under c.assumptions order = c := by
  rw [under, ← h]

/-- Contexts whose assumptions select an order can be moved before or after they are bound. -/
theorem bind_under {c : Context σ} {a : Assumptions} {o order : ByteOrder}
    (hc : c.assumptions.select = .ok (some o)) (ha : a.select = .ok (some order))
    (buffer : Buffer) (start : Int) (stop : Option Int) :
    (c.under a order).bind buffer start stop =
      Prod.map id (fun d => d.under a order) (c.bind buffer start stop) := by
  unfold bind
  cases range? buffer.bytes.size start stop with
  | error fault => rfl
  | ok range =>
      have ha' : (c.under a order).assumptions.select = .ok (some order) := ha
      dsimp only
      rw [hc, ha']
      rfl

theorem new_under {a b : Assumptions} {o order : ByteOrder} (ha : a.select = .ok (some o))
    (hb : b.select = .ok (some order)) (kind : Kind) (bytes : Bytes) (start : Int)
    (stop : Option Int) (peer : σ) :
    Context.new kind b bytes start stop peer =
      (Context.new kind a bytes start stop peer).map fun c => c.under b order := by
  unfold Context.new rebind bind
  cases hr : range? bytes.size start stop with
  | error fault =>
      simp only [hr]
      rfl
  | ok range =>
      simp only [hr, ha, hb]
      rfl

theorem order_new {kind : Kind} {a : Assumptions} {bytes : Bytes} {start : Int}
    {stop : Option Int} {peer : σ} {c : Context σ} {order : ByteOrder}
    (h : Context.new kind a bytes start stop peer = .ok c) (ha : a.select = .ok (some order)) :
    c.assumptions = a ∧ c.order = some order := by
  have hc := new_under ha ha kind bytes start stop peer
  rw [h] at hc
  have hself : c = c.under a order := Except.ok.inj hc
  rw [hself]
  exact ⟨rfl, rfl⟩

end Context

namespace Engine

open Unpacker

/-- The result of a step in a context that is moved. -/
def under (a : Assumptions) (order : ByteOrder) :
    EStateM.Result Halt (Context σ) α → EStateM.Result Halt (Context σ) α
  | .ok x c => .ok x (c.under a order)
  | .error halt c => .error halt (c.under a order)

/-- In a context in which `m` bytes are there, the step does the same under all assumptions.  It
leads to one in which `n` bytes are there, unless it is halted. -/
structure Indifferent (m : Nat) (step : Engine σ α) (n : Nat) : Prop where
  under_eq : ∀ c : Context σ, c.Ready m → ∀ (a : Assumptions) (order : ByteOrder), order.Suits →
    step (c.under a order) = under a order (step c)
  ready : ∀ (c : Context σ) (x : α) (d : Context σ), c.Ready m → step c = .ok x d → d.Ready n

theorem run_under {operation : Engine σ Unit} {c : Context σ} {a : Assumptions}
    {order : ByteOrder} (h : operation (c.under a order) = under a order (operation c)) :
    operation.run (c.under a order) =
      Prod.map id (fun d => d.under a order) (operation.run c) := by
  unfold run
  rw [h]
  cases operation c with
  | ok x d => rfl
  | error halt d => cases halt <;> rfl

theorem running_under {next : Unit → Engine σ α} {c : Context σ} {a : Assumptions}
    {order : ByteOrder}
    (h : c.status = .ok → next () (c.under a order) = under a order (next () c)) :
    (running >>= next) (c.under a order) = under a order ((running >>= next) c) := by
  by_cases hc : c.status = .ok
  · have hr : running (c.under a order) = .ok () (c.under a order) := running_eq hc
    rw [bind_of_ok hr, bind_of_ok (running_eq hc)]
    exact h hc
  · have hr : running (c.under a order) = .error (.status .stopped) (c.under a order) :=
      running_of_latched hc
    rw [bind_of_error hr, bind_of_error (running_of_latched hc)]
    rfl

theorem ensure_under (handler : Option (Handler σ)) (adapt : Status → Status) (n : Nat)
    (short : Status) (c : Context σ) (a : Assumptions) (order : ByteOrder) :
    ensure handler adapt n short (c.under a order) =
      under a order (ensure handler adapt n short c) := by
  by_cases h : c.current + n ≤ c.limit
  · have hc : ensure handler adapt n short c = .ok () c := if_pos h
    rw [hc]
    exact if_pos h
  · have hshort := Nat.not_le.mp h
    cases handler with
    | none =>
        have hc : ensure none adapt n short c = stop short c := if_neg h
        rw [hc]
        exact if_neg h
    | some respond =>
        have hshort' : (c.under a order).limit < (c.under a order).current + n := hshort
        rw [ensure_of_lt hshort, ensure_of_lt hshort', Context.toRegion_under]
        cases respond n c.toRegion with
        | mk answer r =>
            cases answer with
            | error fault => rfl
            | ok status =>
                dsimp only
                split_ifs <;> rfl

section steps

variable {m n k : Nat}

theorem Indifferent.bind {step : Engine σ α} {next : α → Engine σ β}
    (h : Indifferent m step n) (hn : ∀ x, Indifferent n (next x) k) :
    Indifferent m (step >>= next) k where
  under_eq c hc a order ho := by
    have hstep := h.under_eq c hc a order ho
    cases hr : step c with
    | ok x d =>
        rw [hr] at hstep
        rw [bind_of_ok hstep, bind_of_ok hr]
        exact (hn x).under_eq d (h.ready c x d hc hr) a order ho
    | error halt d =>
        rw [hr] at hstep
        rw [bind_of_error hstep, bind_of_error hr]
        rfl
  ready c y e hc hy := by
    cases hr : step c with
    | ok x d =>
        rw [bind_of_ok hr] at hy
        exact (hn x).ready d y e (h.ready c x d hc hr) hy
    | error halt d =>
        rw [bind_of_error hr] at hy
        cases hy

theorem Indifferent.pure (x : α) : Indifferent n (Pure.pure x : Engine σ α) n where
  under_eq _ _ _ _ _ := rfl
  ready c y d hc hy := by
    cases hy
    exact hc

theorem Indifferent.gets (f : Region σ → β) {next : β → Engine σ α}
    (h : ∀ y, Indifferent m (next y) n) :
    Indifferent m (do let c ← get; next (f c.toRegion) : Engine σ α) n where
  under_eq c := (h (f c.toRegion)).under_eq c
  ready c := (h (f c.toRegion)).ready c

theorem indifferent_malformed : Indifferent m (stop .malformedInput : Engine σ α) n where
  under_eq _ _ _ _ _ := rfl
  ready c x d _ hx := by cases hx

theorem indifferent_present (item : Item Span) :
    Indifferent n (present item : Engine σ Unit) n where
  under_eq _ _ _ _ _ := rfl
  ready c x d hc hx := by
    cases hx
    exact hc.holding _

theorem Indifferent.of_takes {value : List UInt8 → α} {step : Engine σ α} (h : Takes n value step) :
    Indifferent n step 0 where
  under_eq c hc a order ho := by
    rw [h _ (hc.under a ho), h c hc]
    rfl
  ready c x d hc hx := by
    rw [h c hc] at hx
    cases hx
    exact hc.forward

theorem indifferent_takePayload (kind : Blob) :
    Indifferent n (takePayload kind n : Engine σ Unit) 0 :=
  .gets (fun r => kind.item ⟨.borrowed r.buffer.generation, r.current, n⟩) fun item =>
    (indifferent_present item).bind fun _ => .of_takes takes_advance

end steps
end Engine

/-! ### Reading -/

namespace Unpacker

open Engine

section items

variable {s : Option (Supplier σ)}
  (hin : ∀ respond, s.map Supplier.respond = some respond → respond.Contained)

include hin

theorem indifferent_require (n : Nat) (short : Status) :
    Indifferent 0 (require s n short : Engine σ Unit) n where
  under_eq c _ a order _ := ensure_under _ _ n short c a order
  ready c _ d hc hd := by
    have ha : Asked (s.map Supplier.respond) (atEnd short) n short c (require s n short c) :=
      asked_ensure
    rw [hd] at ha
    exact ha.ready hc hin

/-- No step of reading an item depends on the byte order. -/
theorem lockstep_indifferent : Lockstep s s fun {α} p (step _ : Engine σ α) q =>
    Indifferent p.bytes step q.bytes where
  bind := .bind
  pure _ a := .pure a
  malformed _ _ := indifferent_malformed
  require n := indifferent_require hin n _
  forward h _ := .of_takes h
  present item _ := indifferent_present item
  payload kind _ := indifferent_takePayload kind

theorem indifferent_decodeItem : Indifferent 0 (decodeItem s) 0 :=
  (lockstep_indifferent hin).decodeItem (indifferent_require hin 1 _)

theorem indifferent_skipItem : Indifferent 0 (skipItem s) 0 :=
  (lockstep_indifferent hin).skipItem (indifferent_require hin 1 _)

section calls

variable {a : Assumptions} {order : ByteOrder} (ho : order.Suits)

include ho

theorem skipLoop_under (count : Nat) {c : Context σ} (hc : c.Ready 0) :
    skipLoop s count (c.under a order) = under a order (skipLoop s count c) := by
  have hitem := indifferent_skipItem hin
  fun_induction skipLoop s count c with
  | case1 c =>
      rw [skipLoop]
      rfl
  | case2 c count more d hskip ih =>
      have hskip' := hitem.under_eq c hc a order ho
      rw [hskip] at hskip'
      rw [skipLoop_of_ok hskip']
      exact ih (hitem.ready c more d hc hskip)
  | case3 c count halt d hskip =>
      have hskip' := hitem.under_eq c hc a order ho
      rw [hskip] at hskip'
      exact skipLoop_of_error hskip'

theorem decode_under {c : Context σ} (hc : c.status = .ok → c.Ready 0) :
    decode s (c.under a order) = under a order (decode s c) :=
  running_under fun hs => (indifferent_decodeItem hin).under_eq c (hc hs) a order ho

theorem call_under (call : Call) {c : Context σ} (hc : c.status = .ok → c.Ready 0) :
    call.engine s (c.under a order) = under a order (call.engine s c) := by
  cases call with
  | decode => exact decode_under hin ho hc
  | skip count => exact running_under fun hs => skipLoop_under hin ho count.toNat (hc hs)

end calls

theorem ready_decode {c d : Context σ} {u : Unit} (hc : c.status = .ok → c.Ready 0)
    (h : decode s c = .ok u d) : d.Ready 0 := by
  by_cases hs : c.status = .ok
  · have hd : decode s c = decodeItem s c := bind_of_ok (running_eq hs)
    exact (indifferent_decodeItem hin).ready c u d (hc hs) (hd.symm.trans h)
  · have hd : decode s c = .error (.status .stopped) c := bind_of_error (running_of_latched hs)
    cases hd.symm.trans h

theorem itemsLoop_under {a : Assumptions} {order : ByteOrder} (ho : order.Suits)
    {observe : Context σ → α} (hobs : ∀ c : Context σ, observe (c.under a order) = observe c)
    (atMost : Option Nat) (found : Array α) {c : Context σ} (hc : c.status = .ok → c.Ready 0) :
    itemsLoop s observe atMost found (c.under a order) =
      Prod.map id (Prod.map id fun d => d.under a order)
        (itemsLoop s observe atMost found c) := by
  fun_induction itemsLoop s observe atMost found c with
  | case1 found c =>
      rw [itemsLoop, if_pos rfl]
      rfl
  | case2 atMost found c hmost d hdec ih =>
      have hdec' := decode_under hin (a := a) ho hc
      rw [hdec] at hdec'
      rw [itemsLoop_of_ok hmost hdec', hobs]
      exact ih fun _ => ready_decode hin hc hdec
  | case3 atMost found c hmost halt d hdec =>
      have hdec' := decode_under hin (a := a) ho hc
      rw [hdec] at hdec'
      rw [itemsLoop_of_error hmost hdec']
      rfl

end items
end Unpacker

/-! ### Packing -/

namespace Packer

open Engine

/-- Packing asks for room, and then appends the encoding whatever the byte order is. -/
theorem pack_under {handler : Option (Handler σ)}
    (hin : ∀ respond, handler = some respond → respond.Contained) (v : Value) {c : Context σ}
    (hc : c.status = .ok → c.Ready 0) {a : Assumptions} {order : ByteOrder} (ho : order.Suits) :
    pack handler v (c.under a order) = under a order (pack handler v c) := by
  by_cases hs : c.status = .ok
  · have hs' : (c.under a order).status = .ok := hs
    have hreserve : ∀ n, reserve handler n (c.under a order) =
        under a order (reserve handler n c) := fun n => ensure_under handler id n _ c a order
    have hready : ∀ n d, reserve handler n c = .ok () d → d.Ready n := fun n d hr =>
      (asked_reserve hr).ready (hc hs) hin
    cases hv : v.frame with
    | ok f =>
        have hfits := Value.fits_of_frame hv
        have hroom := hreserve f.size
        cases hr : reserve handler f.size c with
        | ok u d =>
            have hd := hready _ _ hr
            rw [hr] at hroom
            rw [pack_of_reserve hs' hv hfits hroom (hd.under a ho),
              pack_of_reserve hs hv hfits hr hd]
            rfl
        | error halt d =>
            rw [hr] at hroom
            rw [pack_of_reserve_error hs' hv hroom, pack_of_reserve_error hs hv hr]
            rfl
    | error fault =>
        by_cases hf : ∃ bits, v = .float bits
        · obtain ⟨bits, rfl⟩ := hf
          have hroom := hreserve Frame.floatSize
          cases hr : reserve handler Frame.floatSize c with
          | ok u d =>
              have hd := hready _ _ hr
              rw [hr] at hroom
              rw [pack_tooLarge hs' hv hroom ⟨order, rfl, ho⟩, pack_tooLarge hs hv hr hd.order_eq]
              rfl
          | error halt d =>
              rw [hr] at hroom
              rw [pack_float hs', pack_float hs, bind_of_error hroom, bind_of_error hr]
              rfl
        · have hplain : ∀ d : Context σ, lift v.frame d = .error (.fault fault) d := by
            intro d
            rw [hv, lift]
          have hne : ∀ bits, v ≠ .float bits := fun bits h => hf ⟨bits, h⟩
          rw [pack_of_ne_float hs' hne, pack_of_ne_float hs hne, bind_of_error (hplain _),
            bind_of_error (hplain c)]
          rfl
  · exact running_under fun h => absurd h hs

end Packer

theorem GrowingPacker.take_under (c : GrowingPacker) (n : Option Int) (a : Assumptions)
    (order : ByteOrder) :
    take (c.under a order) n = Prod.map id (fun d => d.under a order) (take c n) := by
  unfold take
  dsimp only [Context.toRegion_under]
  split_ifs <;> rfl

/-- Neither writing nor a new buffer lets the region end outside the buffer. -/
theorem StreamPacker.makeRoom_contained : Handler.Contained makeRoom := by
  intro n r _ hlimit _
  have hdrain : (drain r).2.limit = r.limit ∧ (drain r).2.bytes = r.bytes := by
    unfold drain
    split <;> exact ⟨rfl, rfl⟩
  unfold makeRoom
  split
  · rename_i fault r' hr
    rw [hr] at hdrain
    obtain ⟨hl, hb⟩ := hdrain
    have hle : r'.limit ≤ r'.bytes.size := by rwa [hl, hb]
    split <;> exact hle
  · rename_i r' hr
    rw [hr] at hdrain
    obtain ⟨hl, hb⟩ := hdrain
    split
    · show r'.limit ≤ r'.bytes.size
      rwa [hl, hb]
    · exact (Bytes.size_zeros n).ge

theorem StreamPacker.flush_under (c : StreamPacker) (a : Assumptions) (order : ByteOrder) :
    flush (c.under a order) = Engine.under a order (flush c) := by
  apply Engine.running_under
  intro _
  dsimp only [Context.toRegion_under]
  cases drainAndFlush c.toRegion with
  | mk result r =>
      cases result with
      | ok u => rfl
      | error fault =>
          dsimp only
          split_ifs <;> rfl

end MessagePack
