import MessagePack.Packer.Argument
import MessagePack.Packer.Growing
import MessagePack.Packer.Streaming
import MessagePack.Proofs.Answering
import MessagePack.Proofs.Filling
import MessagePack.Proofs.Recognition
import MessagePack.Proofs.Skipping
import MessagePack.Script
import MessagePack.Unpacker.Unchanged

/-! # What a context has behind it

A context that is bound anew keeps the buffers that were retired, the records of its log, and the
last item until there is another one.  `Context.recalling` puts such a past behind a context, and
binding comes to that: a new context, which recalls the past of the old one
(`Context.bind_recalls`).

No call heeds the past (`Engine.Heedless`): what it does to a context that recalls something is what
it does to the context alone, except that the buffers have other numbers.  This is closed under
sequences of steps, and the one step that can do anything is to ask the handler; so it holds of
decoding, skipping and packing with every handler that does not heed the past either
(`Handler.Heedless`). -/

namespace MessagePack

variable {σ α β : Type}

/-- What a context has behind it: the buffers that were retired, the records that were logged, and
the item that was decoded last. -/
structure Past where
  retired : Array Bytes
  log : Array Record
  item : Option (Item Span)

/-! ### Putting a past behind -/

/-- The same range, where `k` buffers came before the first one. -/
def Span.later (k : Nat) (s : Span) : Span :=
  match s.origin with
  | .borrowed generation => { s with origin := .borrowed (k + generation) }
  | .owned _ => s

/-- The same item, where `k` buffers came before the first one. -/
def Item.later (k : Nat) (i : Item Span) : Item Span := i.mapPayload (Span.later k)

namespace Buffer

/-- The same buffer, after others. -/
def recalling (b : Buffer) (retired : Array Bytes) : Buffer :=
  { b with retired := retired ++ b.retired }

theorem generation_recalling (b : Buffer) (retired : Array Bytes) :
    (b.recalling retired).generation = retired.size + b.generation := Array.size_append

theorem replace_recalling (b : Buffer) (retired : Array Bytes) (bytes : Bytes) :
    (b.recalling retired).replace bytes = (b.replace bytes).recalling retired := by
  simp only [replace, recalling, Array.push_eq_append, Array.append_assoc]

theorem lookup_recalling (b : Buffer) (retired : Array Bytes) (generation : Nat) :
    (b.recalling retired).lookup (retired.size + generation) = b.lookup generation := by
  unfold lookup
  rw [generation_recalling]
  by_cases h : generation = b.generation
  · rw [if_pos (congrArg _ h), if_pos h]
    rfl
  · rw [if_neg (fun hk => h (Nat.add_left_cancel hk)), if_neg h]
    simp [recalling, Array.getElem?_append_right]

end Buffer

theorem Span.view_later (b : Buffer) (retired : Array Bytes) (s : Span) :
    (s.later retired.size).view (b.recalling retired) = s.view b := by
  obtain ⟨origin, start, length⟩ := s
  cases origin with
  | owned bytes => rfl
  | borrowed generation =>
      unfold view later
      dsimp only
      rw [Buffer.lookup_recalling]

theorem Item.resolve_later (b : Buffer) (retired : Array Bytes) (i : Item Span) :
    (i.later retired.size).resolve (b.recalling retired) = i.resolve b := by
  cases i <;> simp [later, resolve, mapPayload, Span.view_later]

/-- The same region, after all that. -/
def Region.recalling (r : Region σ) (past : Past) : Region σ :=
  { r with buffer := r.buffer.recalling past.retired, log := past.log ++ r.log }

section region

variable (r : Region σ) (past : Past)

@[simp] theorem Region.bytes_recalling : (r.recalling past).bytes = r.bytes := rfl

@[simp] theorem Region.start_recalling : (r.recalling past).start = r.start := rfl

@[simp] theorem Region.current_recalling : (r.recalling past).current = r.current := rfl

@[simp] theorem Region.limit_recalling : (r.recalling past).limit = r.limit := rfl

@[simp] theorem Region.peer_recalling : (r.recalling past).peer = r.peer := rfl

@[simp] theorem Region.unread_recalling : (r.recalling past).unread = r.unread := rfl

@[simp] theorem Region.done_recalling : (r.recalling past).done = r.done := rfl

@[simp] theorem Region.note_recalling (topic : Topic) (level : Level) (message : String) :
    (r.recalling past).note topic level message = (r.note topic level message).recalling past := by
  unfold note recalling
  simp only [Array.push_eq_append, Array.append_assoc]
  rfl

@[simp] theorem Region.replace_recalling (bytes : Bytes) :
    (r.recalling past).buffer.replace bytes = (r.buffer.replace bytes).recalling past.retired :=
  r.buffer.replace_recalling past.retired bytes

end region

namespace Context

/-- The same context, after all that.  The item of the past is the last one only as long as there is
no other. -/
def recalling (c : Context σ) (past : Past) : Context σ :=
  { c.within (c.toRegion.recalling past) with
    item := match c.item with
      | some item => some (item.later past.retired.size)
      | none => past.item }

theorem latch_recalling (c : Context σ) (past : Past) (status : Status) :
    (c.recalling past).latch status = (c.latch status).recalling past := by
  unfold latch
  rw [show (c.recalling past).note .latch .debug ("stopped: " ++ status.name) =
    (c.note .latch .debug ("stopped: " ++ status.name)).recalling past from
      c.toRegion.note_recalling past _ _ _]
  rfl

/-- Once an item was decoded, it is the last one, with the same bytes. -/
theorem last_recalling {c : Context σ} {item : Item Span} (h : c.item = some item) (past : Past) :
    (c.recalling past).last = c.last := by
  have hitem : (c.recalling past).item = some (item.later past.retired.size) := by
    rw [recalling, h]
  rw [last, last, hitem, h]
  exact congrArg some (Item.resolve_later c.buffer past.retired item)

/-- Binding to a range that lies in the buffer gives the new context for it, and nothing of what the
context was before but its past. -/
theorem bind_recalls {c : Context σ} {order : Option ByteOrder}
    (hc : c.assumptions.select = .ok order) {buffer : Buffer} {start : Int} {stop : Option Int}
    {range : Nat × Nat} (h : range? buffer.bytes.size start stop = .ok range) :
    ∃ fresh, Context.new c.kind c.assumptions buffer.bytes start stop c.peer = .ok fresh ∧
      fresh.item = none ∧ c.bind buffer start stop =
        (.ok fresh.status, fresh.recalling ⟨buffer.retired, c.log, c.item⟩) := by
  unfold Context.new rebind bind
  dsimp only
  rw [h, hc]
  cases order with
  | none =>
      refine ⟨_, rfl, rfl, ?_⟩
      simp [recalling, Region.recalling, Buffer.recalling, within, latch, Region.note]
      rfl
  | some order =>
      refine ⟨_, rfl, rfl, ?_⟩
      simp [recalling, Region.recalling, Buffer.recalling, within]

end Context

/-! ### Steps that do not heed the past -/

/-- The handler does the same to a region, whatever was before. -/
def Handler.Heedless (respond : Handler σ) : Prop :=
  ∀ n r past, respond n (r.recalling past) = Prod.map id (·.recalling past) (respond n r)

namespace Engine

open Unpacker

/-- The result of a step in a context after all that. -/
def recalling (past : Past) :
    EStateM.Result Halt (Context σ) α → EStateM.Result Halt (Context σ) α
  | .ok x c => .ok x (c.recalling past)
  | .error halt c => .error halt (c.recalling past)

/-- The step does the same whatever was before.  It leaves the assumptions alone. -/
structure Heedless (step : Engine σ α) : Prop where
  recalling_eq : ∀ c past, step (c.recalling past) = recalling past (step c)
  assumptions_eq : ∀ c, (after step c).assumptions = c.assumptions

theorem Heedless.bind {step : Engine σ α} {next : α → Engine σ β} (h : Heedless step)
    (hn : ∀ x, Heedless (next x)) : Heedless (step >>= next) where
  recalling_eq c past := by
    have hstep := h.recalling_eq c past
    cases hr : step c with
    | ok x d =>
        rw [hr] at hstep
        rw [bind_of_ok hstep, bind_of_ok hr]
        exact (hn x).recalling_eq d past
    | error halt d =>
        rw [hr] at hstep
        rw [bind_of_error hstep, bind_of_error hr]
        rfl
  assumptions_eq c := by
    have hstep := h.assumptions_eq c
    unfold after at hstep ⊢
    cases hr : step c with
    | ok x d =>
        rw [hr] at hstep
        rw [bind_of_ok hr]
        exact ((hn x).assumptions_eq d).trans hstep
    | error halt d =>
        rw [hr] at hstep
        rw [bind_of_error hr]
        exact hstep

theorem Heedless.pure (x : α) : Heedless (Pure.pure x : Engine σ α) :=
  ⟨fun _ _ => rfl, fun _ => rfl⟩

theorem Heedless.gets (f : Context σ → β) (hf : ∀ c past, f (c.recalling past) = f c)
    {next : β → Engine σ α} (h : ∀ y, Heedless (next y)) :
    Heedless (do let c ← get; next (f c) : Engine σ α) where
  recalling_eq c past := by
    show next (f (c.recalling past)) (c.recalling past) = recalling past (next (f c) c)
    rw [hf]
    exact (h (f c)).recalling_eq c past
  assumptions_eq c := (h (f c)).assumptions_eq c

theorem heedless_running : Heedless (running : Engine σ Unit) where
  recalling_eq c past := by
    by_cases h : c.status = .ok
    · rw [running_eq h, running_eq (c := c.recalling past) h]
      rfl
    · rw [running_of_latched h, running_of_latched (c := c.recalling past) h]
      rfl
  assumptions_eq c := by
    unfold after
    by_cases h : c.status = .ok
    · rw [running_eq h]
    · rw [running_of_latched h]

theorem heedless_stop (status : Status) : Heedless (stop status : Engine σ α) where
  recalling_eq c past := by
    unfold stop
    rw [Context.latch_recalling]
    rfl
  assumptions_eq _ := rfl

theorem heedless_lift (result : Except Fault α) : Heedless (lift result : Engine σ α) := by
  cases result <;> exact ⟨fun _ _ => rfl, fun _ => rfl⟩

theorem heedless_orderFor (access : Access) : Heedless (orderFor access : Engine σ ByteOrder) where
  recalling_eq c past := by
    have horder : (c.recalling past).order = c.order := rfl
    unfold orderFor
    rw [horder]
    cases c.order <;> rfl
  assumptions_eq c := by
    unfold after orderFor
    cases c.order <;> rfl

theorem heedless_advance (n : Nat) : Heedless (advance n : Engine σ Unit) :=
  ⟨fun _ _ => rfl, fun _ => rfl⟩

theorem heedless_readByte : Heedless (readByte : Engine σ UInt8) where
  recalling_eq c past := by
    have hbyte : (c.recalling past).bytes[(c.recalling past).current]? = c.bytes[c.current]? := rfl
    unfold readByte
    rw [hbyte]
    cases c.bytes[c.current]? <;> rfl
  assumptions_eq c := by
    unfold after readByte
    cases c.bytes[c.current]? <;> rfl

theorem heedless_load (width : Nat) (f : Bytes → Nat → Except Fault α) :
    Heedless (do
      let c ← get
      let x ← lift (f c.bytes c.current)
      set { c with current := c.current + width }
      return x : Engine σ α) where
  recalling_eq c past := by
    have hbytes : (c.recalling past).bytes = c.bytes := rfl
    have hcurrent : (c.recalling past).current = c.current := rfl
    rw [get_bind, get_bind, hbytes, hcurrent]
    cases hf : f c.bytes c.current <;> rfl
  assumptions_eq c := by
    unfold after
    rw [get_bind]
    cases hf : f c.bytes c.current <;> rfl

theorem heedless_readField (width : Nat) : Heedless (readField width : Engine σ Nat) := by
  unfold readField
  split_ifs
  · exact heedless_readByte.bind fun _ => .pure _
  · exact (heedless_orderFor _).bind fun order => heedless_load width (order.load width)

theorem heedless_readSingle : Heedless (readSingle : Engine σ DoubleBits) :=
  (heedless_orderFor _).bind fun order => heedless_load 4 order.loadSingle

theorem heedless_readDouble : Heedless (readDouble : Engine σ DoubleBits) :=
  (heedless_orderFor _).bind fun order => heedless_load 8 order.loadDouble

/-- The handler is asked for the same bytes of the same region. -/
theorem heedless_ensure {handler : Option (Handler σ)}
    (hh : ∀ respond, handler = some respond → respond.Heedless) (adapt : Status → Status) (n : Nat)
    (short : Status) : Heedless (ensure handler adapt n short : Engine σ Unit) where
  recalling_eq c past := by
    by_cases h : c.current + n ≤ c.limit
    · have hc : ensure handler adapt n short c = .ok () c := if_pos h
      rw [hc]
      exact if_pos h
    · have hshort := Nat.not_le.mp h
      cases handler with
      | none =>
          have hc : ensure none adapt n short c = stop short c := if_neg h
          rw [hc, ← (heedless_stop short).recalling_eq]
          exact if_neg h
      | some respond =>
          have hshort' : (c.recalling past).limit < (c.recalling past).current + n := hshort
          have hask : respond n (c.recalling past).toRegion =
              Prod.map id (·.recalling past) (respond n c.toRegion) := hh respond rfl n _ past
          rw [ensure_of_lt hshort, ensure_of_lt hshort', hask]
          obtain ⟨answer, r⟩ := respond n c.toRegion
          have hwithin : ∀ q : Region σ, (c.recalling past).within (q.recalling past) =
              (c.within q).recalling past := fun _ => rfl
          have hstop : ∀ (status : Status) (q : Region σ),
              (stop status ((c.recalling past).within (q.recalling past)) :
                EStateM.Result Halt (Context σ) Unit) =
                recalling past (stop status (c.within q)) := fun status q =>
            (heedless_stop status).recalling_eq (c.within q) past
          cases answer with
          | error fault =>
              have hfault : ({ r.recalling past with fault := some fault } : Region σ) =
                  { r with fault := some fault }.recalling past := rfl
              simp only [Prod.map, id, hfault, hwithin, Context.latch_recalling]
              rfl
          | ok status =>
              have hshortage : (r.recalling past).noteShortage n =
                  (r.noteShortage n).recalling past := r.note_recalling past _ _ _
              have hroom : (r.recalling past).current + n ≤ (r.recalling past).limit ↔
                  r.current + n ≤ r.limit := Iff.rfl
              simp only [Prod.map, id, hshortage, hstop, hroom]
              split_ifs <;> rfl
  assumptions_eq c := by
    have ha : Asked handler adapt n short c (ensure handler adapt n short c) := asked_ensure
    unfold after
    generalize ensure handler adapt n short c = result at ha
    cases ha <;> rfl

end Engine

/-! ### Reading -/

namespace Unpacker

open Engine

theorem present_recalling (c : Context σ) (past : Past) (item : Item Span) :
    present (item.later past.retired.size) (c.recalling past) = recalling past (present item c) :=
  rfl

theorem heedless_present {item : Item Span} (h : item.payload? = none) :
    Heedless (present item : Engine σ Unit) where
  recalling_eq c past := by
    have hlater : item.later past.retired.size = item := by
      cases item <;> first | rfl | cases h
    rw [← present_recalling, hlater]
  assumptions_eq _ := rfl

/-- The payload of an item is a range of the present buffer, whatever its number. -/
theorem heedless_takePayload (kind : Blob) (n : Nat) :
    Heedless (takePayload kind n : Engine σ Unit) where
  recalling_eq c past := by
    have hitem : kind.item ⟨.borrowed (c.recalling past).buffer.generation, c.current, n⟩ =
        Item.later past.retired.size
          (kind.item ⟨.borrowed c.buffer.generation, c.current, n⟩) := by
      rw [Item.later, Blob.mapPayload_item]
      have hgeneration : (c.recalling past).buffer.generation =
          past.retired.size + c.buffer.generation := c.buffer.generation_recalling past.retired
      rw [hgeneration]
      rfl
    unfold takePayload
    rw [get_bind, get_bind]
    show (present (kind.item ⟨_, c.current, n⟩) >>= fun _ => advance n) (c.recalling past) = _
    rw [hitem]
    rfl
  assumptions_eq _ := rfl

/-- A context that has decoded an item has it. -/
theorem presents_decode {s : Option (Supplier σ)} {c d : Context σ} (h : decode s c = .ok () d) :
    ∃ item, d.item = some item := by
  exact (decoded_iff.mpr (run_of_ok h)).item_of_ok

section items

variable {s : Option (Supplier σ)}
  (hh : ∀ respond, s.map Supplier.respond = some respond → respond.Heedless)

include hh

theorem heedless_require (n : Nat) (short : Status) :
    Heedless (require s n short : Engine σ Unit) := heedless_ensure hh _ n short

theorem pacing_heedless : Pacing s s fun {α} _ (step _ : Engine σ α) _ => Heedless step where
  bind h hn := h.bind hn
  pure x := .pure x
  require n := heedless_require hh n _
  readByte := heedless_readByte
  readField := heedless_readField
  readSingle := heedless_readSingle
  readDouble := heedless_readDouble
  advance := heedless_advance
  present _ h := heedless_present h
  payload := heedless_takePayload

theorem heedless_decode : Heedless (decode s : Engine σ Unit) :=
  heedless_running.bind fun _ =>
    (pacing_heedless hh).decodeItem (heedless_require hh 1 _) fun _ => heedless_stop _

theorem heedless_skipItem : Heedless (skipItem s : Engine σ Nat) :=
  (pacing_heedless hh).skipItem (heedless_require hh 1 _) fun _ => heedless_stop _

theorem heedless_skipLoop (count : Nat) : Heedless (skipLoop s count : Engine σ Unit) where
  recalling_eq c past := by
    have hitem := heedless_skipItem hh
    fun_induction skipLoop s count c with
    | case1 c =>
        rw [skipLoop]
        rfl
    | case2 c count more d hskip ih =>
        have hskip' := hitem.recalling_eq c past
        rw [hskip] at hskip'
        rw [skipLoop_of_ok hskip']
        exact ih
    | case3 c count halt d hskip =>
        have hskip' := hitem.recalling_eq c past
        rw [hskip] at hskip'
        exact skipLoop_of_error hskip'
  assumptions_eq c := by
    have hitem := heedless_skipItem hh
    unfold after
    fun_induction skipLoop s count c with
    | case1 c => rfl
    | case2 c count more d hskip ih =>
        have hsame := hitem.assumptions_eq c
        rw [after, hskip] at hsame
        exact ih.trans hsame
    | case3 c count halt d hskip =>
        have hsame := hitem.assumptions_eq c
        rw [after, hskip] at hsame
        exact hsame

theorem heedless_skip (count : Int) : Heedless (skip s count : Engine σ Unit) :=
  heedless_running.bind fun _ => heedless_skipLoop hh count.toNat

theorem itemsLoop_recalling {past : Past} {observe : Context σ → α} {translate : α → α}
    (hobs : ∀ c : Context σ, (∃ item, c.item = some item) →
      observe (c.recalling past) = translate (observe c))
    (atMost : Option Nat) (found : Array α) (c : Context σ) :
    itemsLoop s observe atMost (found.map translate) (c.recalling past) =
      Prod.map (Array.map translate) (Prod.map id (·.recalling past))
        (itemsLoop s observe atMost found c) := by
  have hdecode := heedless_decode hh
  fun_induction itemsLoop s observe atMost found c with
  | case1 found c =>
      rw [itemsLoop, if_pos rfl]
      rfl
  | case2 atMost found c hmost d hdec ih =>
      have hdec' := hdecode.recalling_eq c past
      rw [hdec] at hdec'
      rw [itemsLoop_of_ok hmost hdec', hobs d (presents_decode hdec), ← Array.map_push]
      exact ih
  | case3 atMost found c hmost halt d hdec =>
      have hdec' := hdecode.recalling_eq c past
      rw [hdec] at hdec'
      rw [itemsLoop_of_error hmost hdec']
      rfl

theorem assumptions_itemsLoop {observe : Context σ → α} (atMost : Option Nat) (found : Array α)
    (c : Context σ) : (itemsLoop s observe atMost found c).2.2.assumptions = c.assumptions := by
  have hdecode := heedless_decode hh
  fun_induction itemsLoop s observe atMost found c with
  | case1 => rfl
  | case2 atMost found c hmost d hdec ih =>
      have hsame := hdecode.assumptions_eq c
      rw [after, hdec] at hsame
      exact ih.trans hsame
  | case3 atMost found c hmost halt d hdec =>
      have hsame := hdecode.assumptions_eq c
      rw [after, hdec] at hsame
      exact hsame

end items

end Unpacker

/-! ### Packing -/

namespace Packer

open Engine

theorem writing_heedless : Writing (Heedless (σ := σ)) where
  bind := .bind
  atCursor h := .gets (fun c => c.current) (fun _ _ => rfl) h
  nothing := .pure _
  orderFor := heedless_orderFor
  writeByte pos b := {
    recalling_eq := fun c past => by
      have hbytes : (c.recalling past).bytes = c.bytes := rfl
      unfold writeByte
      simp only [hbytes]
      split_ifs <;> rfl
    assumptions_eq := fun c => by
      unfold Unpacker.after writeByte
      split_ifs <;> rfl }
  store order width pos n := {
    recalling_eq := fun c past => by
      have hbytes : (c.recalling past).bytes = c.bytes := rfl
      rw [get_bind, get_bind, hbytes]
      obtain ⟨result, bytes⟩ := order.store width c.bytes pos n
      cases result <;> rfl
    assumptions_eq := fun c => by
      unfold Unpacker.after
      rw [get_bind]
      obtain ⟨result, bytes⟩ := order.store width c.bytes pos n
      cases result <;> rfl }
  advance := heedless_advance
  writePayload payload := {
    recalling_eq := fun c past => by
      unfold writePayload
      split_ifs <;> rfl
    assumptions_eq := fun c => by
      unfold Unpacker.after writePayload
      split_ifs <;> rfl }

theorem heedless_write (access : Access) (f : Frame) : Heedless (write access f : Engine σ Unit) :=
  writing_heedless.write access f

theorem heedless_pack {handler : Option (Handler σ)}
    (hh : ∀ respond, handler = some respond → respond.Heedless) (v : Value) :
    Heedless (pack handler v : Engine σ Unit) := by
  refine heedless_running.bind fun _ => ?_
  have hreserve : ∀ n, Heedless (reserve handler n : Engine σ Unit) := fun n =>
    heedless_ensure hh id n .bufferOverflow
  cases v with
  | float bits =>
      exact (hreserve _).bind fun _ => (heedless_orderFor _).bind fun _ =>
        (heedless_lift _).bind fun f => heedless_write _ f
  | unsigned | signed | double | nil | boolean | array | map | str | bin | ext =>
      exact (heedless_lift _).bind fun f => (hreserve _).bind fun _ => heedless_write _ f

theorem heedless_give {handler : Option (Handler σ)}
    (hh : ∀ respond, handler = some respond → respond.Heedless) (request : Request) :
    Heedless (give handler request : Engine σ Unit) :=
  heedless_running.bind fun _ => (heedless_lift _).bind fun v => heedless_pack hh v

end Packer

/-! ### The handlers of the library -/

theorem GrowingPacker.grow_heedless : Handler.Heedless grow := by
  intro n r past
  simp only [grow, Region.noteGrowth, Region.note_recalling, Region.bytes_recalling,
    Region.current_recalling]
  rfl

theorem StreamPacker.drain_recalling (r : Region Sink) (past : Past) :
    drain (r.recalling past) = Prod.map id (·.recalling past) (drain r) := by
  simp only [drain, Region.peer_recalling, Region.done_recalling]
  obtain ⟨result, sink⟩ := r.peer.writeAll r.done 0
  cases result <;> rfl

theorem StreamPacker.makeRoom_heedless : Handler.Heedless makeRoom := by
  intro n r past
  unfold makeRoom
  rw [drain_recalling]
  obtain ⟨result, r⟩ := drain r
  cases result with
  | error fault =>
      simp only [Prod.map, id]
      split_ifs <;> rfl
  | ok u =>
      simp only [Prod.map, id, Region.noteGrowth, Region.note_recalling, Region.replace_recalling,
        Region.bytes_recalling, Region.current_recalling, Region.limit_recalling]
      split_ifs <;> rfl

namespace StreamUnpacker

theorem makeRoom_recalling (n : Nat) (r : Region Source) (past : Past) :
    makeRoom n (r.recalling past) = (makeRoom n r).recalling past := by
  by_cases hgrow : n > r.bytes.size
  · have hgrow' : n > (r.recalling past).bytes.size := hgrow
    simp only [makeRoom, if_pos hgrow, if_pos hgrow', Region.noteGrowth, Region.note_recalling,
      Region.replace_recalling]
    rfl
  · have hgrow' : ¬ n > (r.recalling past).bytes.size := hgrow
    by_cases hmove : r.limit - r.current ≠ 0 ∧ r.current ≠ 0
    · have hmove' : (r.recalling past).limit - (r.recalling past).current ≠ 0 ∧
          (r.recalling past).current ≠ 0 := hmove
      simp only [makeRoom, if_neg hgrow, if_neg hgrow', if_pos hmove, if_pos hmove']
      rfl
    · have hmove' : ¬ ((r.recalling past).limit - (r.recalling past).current ≠ 0 ∧
          (r.recalling past).current ≠ 0) := hmove
      simp only [makeRoom, if_neg hgrow, if_neg hgrow', if_neg hmove, if_neg hmove']
      rfl

theorem readOnce_recalling (r : Region Source) (past : Past) :
    readOnce (r.recalling past) = Prod.map id (·.recalling past) (readOnce r) := by
  simp only [readOnce, Region.peer_recalling, Region.bytes_recalling, Region.limit_recalling]
  obtain ⟨delivery, source⟩ := r.peer.read (r.bytes.size - r.limit)
  cases delivery with
  | ended | absent => rfl
  | fault fault =>
      dsimp only
      split_ifs <;> rfl
  | data bytes =>
      dsimp only
      split_ifs <;> rfl

theorem refill_heedless : Handler.Heedless refill := by
  intro n r past
  unfold refill
  rw [makeRoom_recalling]
  rw [Region.current_recalling, Region.limit_recalling]
  generalize n + (r.current - r.limit) = needed
  generalize makeRoom n r = r
  fun_induction fill needed r with
  | case1 r hshort answer d hread =>
      have hread' := readOnce_recalling r past
      rw [hread] at hread'
      exact fill_of_some hread' hshort
  | case2 r hshort d hread ih =>
      have hread' := readOnce_recalling r past
      rw [hread] at hread'
      exact (fill_of_none hread' hshort).trans ih
  | case3 r henough => exact fill_of_le (Nat.not_lt.mp henough)

end StreamUnpacker

namespace Script

theorem perform_recalling (n : Nat) (r : Region Script) (past : Past) (deed : Deed) :
    perform n (r.recalling past) deed = (perform n r deed).recalling past := by
  cases deed with
  | swap size pos | feed data =>
      simp only [perform, Region.replace_recalling, Region.done_recalling, Region.unread_recalling]
      rfl
  | extend | fit | moveEnd | drain | compact => rfl

theorem act_recalling (n : Nat) (action : Action) (r : Region Script) (past : Past) :
    act n action (r.recalling past) = Prod.map id (·.recalling past) (act n action r) := by
  obtain ⟨errorNumber, deed, fault, answer⟩ := action
  cases deed with
  | none => cases fault <;> rfl
  | some deed =>
      have hdeed := perform_recalling n
        { r with errorNumber := errorNumber.getD r.errorNumber } past deed
      cases fault <;> exact congrArg (Prod.mk _) hdeed

theorem respond_heedless : Handler.Heedless respond := by
  intro n r past
  have hasked : noteAsked n (r.recalling past) = (noteAsked n r).recalling past := rfl
  unfold respond
  simp only [hasked, Region.peer_recalling]
  cases (noteAsked n r).peer.next? with
  | none => rfl
  | some next => exact act_recalling n next.1 { noteAsked n r with peer := next.2 } past

end Script

/-! ### Taking out and flushing -/

theorem GrowingPacker.take_recalling (c : GrowingPacker) (n : Option Int) (past : Past) :
    take (c.recalling past) n = Prod.map id (·.recalling past) (take c n) := by
  have hbytes : (c.recalling past).bytes = c.bytes := rfl
  have hstart : (c.recalling past).start = c.start := rfl
  have hcurrent : (c.recalling past).current = c.current := rfl
  simp only [take, hbytes, hstart, hcurrent]
  split_ifs <;> rfl

namespace StreamPacker

theorem drainAndFlush_recalling (r : Region Sink) (past : Past) :
    drainAndFlush (r.recalling past) = Prod.map id (·.recalling past) (drainAndFlush r) := by
  unfold drainAndFlush
  rw [drain_recalling]
  obtain ⟨result, r⟩ := drain r
  cases result <;> rfl

theorem heedless_flush : Engine.Heedless flush := by
  refine Engine.heedless_running.bind fun _ => ⟨fun c past => ?_, fun c => ?_⟩
  · have hdrain : drainAndFlush (c.recalling past).toRegion =
        Prod.map id (·.recalling past) (drainAndFlush c.toRegion) :=
      drainAndFlush_recalling c.toRegion past
    rw [hdrain]
    obtain ⟨result, r⟩ := drainAndFlush c.toRegion
    cases result with
    | ok u => rfl
    | error fault =>
        simp only [Prod.map, id]
        split_ifs
        · exact (Engine.heedless_stop .errorInHandler).recalling_eq
            (c.within (r.keepFault fault)) past
        · rfl
  · unfold Unpacker.after
    cases hdrain : drainAndFlush c.toRegion with
    | mk result r =>
        cases result with
        | ok u => simp only [hdrain]; rfl
        | error fault =>
            simp only [hdrain]
            split_ifs <;> rfl

end StreamPacker

end MessagePack
