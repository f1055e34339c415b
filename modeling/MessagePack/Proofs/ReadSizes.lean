import MessagePack.Proofs.Foreseeing
import MessagePack.Proofs.ItemReading
import MessagePack.Session.Streams

/-! # Readers with reads of different sizes

A reader of items tries a call again and again, with more bytes each time.  In the end it has come
to what the call comes to on all the bytes that are to be expected before the source has nothing
(`ItemReader.settled_complete`).  Which these are does not depend on the number of bytes that are
read at a time, as long as there are some; so that number does not show in any answer
(`ItemReader.shownOf_unsized`). -/

namespace MessagePack

open Engine Unpacker

/-- What is to be heard of the source when it has nothing. -/
def Outlook.reply (o : Outlook) : Except Failure Bool :=
  match o.stall.1 with
  | .fault fault => .error (.fault fault)
  | .data _ | .absent | .ended => .ok false

theorem Outlook.reply_ne_true (o : Outlook) : o.reply ≠ .ok true := by
  unfold reply
  split <;> simp

namespace ItemReader

/-- What can be expected of the unread bytes and of the source. -/
def outlook (r : ItemReader) : Outlook := r.source.outlook r.unread.toList

/-! ### Reading on -/

/-- What reading on can come to, if this is to be expected. -/
inductive MoreOf (r : ItemReader) : Except Failure Bool × ItemReader → Prop
  | more {e : ItemReader} (h : e.outlook = r.outlook) : MoreOf r (.ok true, e)
  | stalled {answer : Except Failure Bool} {e : ItemReader} (hr : r.outlook.reply = answer)
      (hb : r.outlook.bytes = r.unread.toList) (he : e.unread = r.unread)
      (h : e.outlook = r.outlook.past) : MoreOf r (answer, e)

theorem moreOf_more {r : ItemReader} {status : Status} (hsize : 0 < r.readSize)
    (hs : status = .endOfInput ∨ status = .bufferUnderflow) : MoreOf r (r.more status) := by
  have hread : Source.Proceeds r.unread.toList r.source _ :=
    r.source.proceeds_read _ hsize
  unfold more
  rw [if_pos hs]
  dsimp only
  generalize r.source.read r.readSize = result at hread
  cases hread with
  | @more bytes t hb h =>
      dsimp only
      rw [if_neg (by simp [hb])]
      refine .more ?_
      show t.outlook (r.unread ++ bytes).toList = _
      rw [Array.toList_append]
      exact h
  | @nothing delivery t hstall hb hd h =>
      have hreply : r.outlook.reply = _ := Outlook.reply.eq_1 r.outlook
      have hdelivery : r.outlook.stall.1 = delivery := hstall
      rw [hdelivery] at hreply
      cases delivery with
      | absent | ended | fault => exact .stalled hreply hb rfl h
      | data bytes =>
          dsimp only
          rw [if_pos (hd bytes rfl)]
          exact .stalled hreply hb rfl h

/-! ### Trying until there is enough -/

theorem fault_attempt {r : ItemReader} {order : ByteOrder}
    (ha : r.context.assumptions.select = .ok (some order)) (call : Call) :
    (r.attempt (call.engine none)).2.context.fault = none := by
  obtain ⟨c, hrebind, hc, -, -⟩ := bound_rebind ha
  have hfault : c.fault = none := by
    unfold Context.rebind Context.bind at hrebind
    simp only [Context.range?_whole, ha, Prod.mk.injEq] at hrebind
    rw [← hrebind.2]
  obtain ⟨p, hcalled, -⟩ := called_run (s := none) (by simp)
    (hc.live.ready hc.live.inBounds.current_le) call
  have hkept : ((call.engine none).run c).2.fault = none := hcalled.fault.trans hfault
  unfold attempt
  rw [hrebind]
  dsimp only
  cases hd : call.engine none c with
  | ok u d =>
      rw [run_of_ok hd] at hkept
      exact hkept
  | error halt d =>
      rw [run_of_error hd] at hkept
      exact hkept

/-- What trying comes to in the end, if this is to be expected: what the call comes to on all the
bytes, and if they are too few, what is heard of the source then. -/
inductive Settled (a : Assumptions) (call : Call) (o : Outlook) :
    Except Failure (Option Status) × ItemReader → Prop
  | done {r : ItemReader} {d : Context Unit} (hd : OnBytes a o.bytes call (.ok .ok) d)
      (hcurrent : r.context.current = d.current) (hle : r.context.current ≤ r.unread.size)
      (hsight : call.sight r.context = call.sight d) (ho : r.outlook = o) :
      Settled a call o (.ok none, r)
  | malformed {r : ItemReader} {d : Context Unit}
      (hd : OnBytes a o.bytes call (.ok .malformedInput) d) (ho : r.outlook = o) :
      Settled a call o (.error (.stop (Status.malformedInput.error none none)), r)
  | short {status : Status} {answer : Except Failure (Option Status)} {r : ItemReader}
      {d : Context Unit} (hr : o.reply.map (fun _ => some status) = answer)
      (hs : status = .endOfInput ∨ status = .bufferUnderflow)
      (hd : OnBytes a o.bytes call (.ok status) d) (hb : r.unread.toList = o.bytes)
      (ho : r.outlook = o.past) : Settled a call o (answer, r)

theorem outlook_of_receives {r d : ItemReader} (h : Receives r [] 0 d)
    (hsource : d.source = r.source) : d.outlook = r.outlook := by
  rw [outlook, outlook, hsource, h.unread_zero, List.append_nil]

/-- An attempt that has stopped in `d` for want of bytes. -/
structure Wants (a : Assumptions) (call : Call) (r : ItemReader) (status : Status)
    (d : ItemReader) : Prop where
  onBytes : ∃ x, OnBytes a r.unread.toList call (.ok status) x
  status_cases : status = .endOfInput ∨ status = .bufferUnderflow
  unread : d.unread = r.unread
  outlook : d.outlook = r.outlook

theorem Wants.settled {a : Assumptions} {call : Call} {r d e : ItemReader} {status : Status}
    {reply : Except Failure Bool} (h : Wants a call r status d) (hreply : d.outlook.reply = reply)
    (hb : d.outlook.bytes = d.unread.toList) (he : e.unread = d.unread)
    (ho : e.outlook = d.outlook.past) :
    Settled a call r.outlook (reply.map fun _ => some status, e) := by
  obtain ⟨⟨x, hx⟩, hfew, hunread, houtlook⟩ := h
  rw [houtlook] at hreply hb ho
  rw [hunread] at hb he
  rw [← hb] at hx
  refine .short ?_ hfew hx ?_ ho
  · rw [hreply]
  · rw [he, hb]

section complete

variable {a : Assumptions} {order : ByteOrder} (ha : a.select = .ok (some order))
  {r : ItemReader} (hr : r.context.assumptions = a)

include ha hr

theorem wants_attempt {call : Call} {status : Status} {d : ItemReader}
    (hattempt : r.attempt (call.engine none) = (.error (.status status), d)) :
    Receives r [] 0 d ∧ (Wants a call r status d ∨ d.outlook = r.outlook ∧
      (∃ x, OnBytes a r.outlook.bytes call (.ok .malformedInput) x) ∧
        d.more status = (.error (.stop (Status.malformedInput.error none none)), d)) := by
  have hselect : r.context.assumptions.select = .ok (some order) := hr ▸ ha
  obtain ⟨c, x, hc, hx, hd, hsource, hcases⟩ := attempt_stopped hselect hattempt
  rw [List.append_nil] at hc
  have hbytes := onBytes_stopped ha hc hx
  have ho := outlook_of_receives hd hsource
  refine ⟨hd, ?_⟩
  rcases hcases with ⟨hfew, -⟩ | ⟨rfl, e, he, -⟩
  · obtain ⟨y, hy⟩ := hbytes [] (.inl rfl)
    rw [List.append_nil] at hy
    refine .inl ⟨⟨y, hy⟩, hfew, ?_, ho⟩
    apply Array.toList_inj.mp
    rw [hd.unread_zero, List.append_nil]
  · refine .inr ⟨ho, hbytes r.source.ready (.inr rfl), ?_⟩
    have hfault := fault_attempt hselect call
    have hattempted := attempted_attempt hselect call
    rw [hattempt] at hfault hattempted
    have hstatus : d.context.status = .malformedInput := by
      cases hattempted with
      | stopped _ _ hstatus => exact hstatus
    unfold more
    rw [if_neg (by decide), Context.check, hstatus, hfault]
    rfl

theorem settled_complete (hsize : 0 < r.readSize) (call : Call) :
    Settled a call r.outlook (r.complete (call.engine none)) := by
  fun_induction complete (call.engine none) r with
  | case1 r d hattempt =>
      have h := attempted_attempt (hr ▸ ha) call
      rw [hattempt] at h
      cases h with
      | @complete c x hc hx h =>
          obtain ⟨hle, hbytes⟩ := onBytes_complete ha hc hx
          obtain ⟨y, hy, hcurrent, hsight⟩ := hbytes r.source.ready
          refine .done hy hcurrent.symm ?_ hsight.symm (outlook_of_receives h rfl)
          rw [← List.append_nil r.unread.toList, ← h.unread_zero] at hle
          exact hle
  | case2 r fault d hattempt =>
      have h := attempted_attempt (hr ▸ ha) call
      rw [hattempt] at h
      cases h
  | case3 r status d hattempt failure e hmore =>
      obtain ⟨hd, hwants | ⟨ho, ⟨x, hx⟩, hmalformed⟩⟩ := wants_attempt ha hr hattempt
      · have h := moreOf_more (hd.readSize ▸ hsize) hwants.status_cases
        rw [hmore] at h
        cases h with
        | stalled hreply hb he h => exact hwants.settled hreply hb he h
      · obtain ⟨hfailure, rfl⟩ := Prod.mk.inj (hmore.symm.trans hmalformed)
        obtain rfl := Except.error.inj hfailure
        exact .malformed hx ho
  | case4 r status d hattempt e hmore =>
      obtain ⟨hd, hwants | ⟨-, -, hmalformed⟩⟩ := wants_attempt ha hr hattempt
      · have h := moreOf_more (hd.readSize ▸ hsize) hwants.status_cases
        rw [hmore] at h
        cases h with
        | stalled hreply hb he h => exact hwants.settled hreply hb he h
      · cases hmore.symm.trans hmalformed
  | case5 r status d hattempt e hmore ih =>
      obtain ⟨hd, hwants | ⟨-, -, hmalformed⟩⟩ := wants_attempt ha hr hattempt
      · have h := moreOf_more (hd.readSize ▸ hsize) hwants.status_cases
        have hreads := readsOn_more (r := d) hwants.status_cases
        rw [hmore] at h hreads
        cases h with
        | more ho =>
            rw [← hwants.outlook, ← ho]
            cases hreads with
            | more he =>
                exact ih ((he.assumptions.trans hd.assumptions).trans hr)
                  (he.readSize ▸ hd.readSize ▸ hsize)
        | stalled hreply => exact absurd hreply (Outlook.reply_ne_true _)
      · cases hmore.symm.trans hmalformed

theorem receives_complete (call : Call) :
    ∃ next, Receives r next 0 (r.complete (call.engine none)).2 := by
  have h := completed_complete (hr ▸ ha) call
  generalize r.complete (call.engine none) = result at h
  cases h with
  | done h | ended h | raised h | malformed h => exact ⟨_, h⟩

end complete

/-! ### Two readers -/

/-- A reader that reads some bytes at a time. -/
structure Reads (a : Assumptions) (r : ItemReader) : Prop where
  assumptions : r.context.assumptions = a
  readSize_pos : 0 < r.readSize

/-- Of the two readers the same is to be expected. -/
structure Alike (a : Assumptions) (r r' : ItemReader) : Prop where
  left : Reads a r
  right : Reads a r'
  outlook_eq : r'.outlook = r.outlook

/-- Two results of trying: both are complete and show the same, or both fail alike. -/
inductive Concur (a : Assumptions) (call : Call) : Except Failure (Option Status) × ItemReader →
    Except Failure (Option Status) × ItemReader → Prop
  | done {r r' : ItemReader} (h : Alike a r r')
      (hcurrent : r'.context.current = r.context.current)
      (hle : r.context.current ≤ r.unread.size) (hle' : r'.context.current ≤ r'.unread.size)
      (hsight : call.sight r'.context = call.sight r.context) :
      Concur a call (.ok none, r) (.ok none, r')
  | ended {status : Status} {r r' : ItemReader} (h : Alike a r r')
      (hsize : r'.unread.size = r.unread.size) :
      Concur a call (.ok (some status), r) (.ok (some status), r')
  | failed {failure : Failure} {r r' : ItemReader} (h : Alike a r r') :
      Concur a call (.error failure, r) (.error failure, r')

theorem Receives.reads {a : Assumptions} {r d : ItemReader} {next : List UInt8} {k : Nat}
    (h : Receives r next k d) (hr : Reads a r) : Reads a d :=
  ⟨h.assumptions.trans hr.assumptions, h.readSize ▸ hr.readSize_pos⟩

theorem outlook_consume {r : ItemReader} (hle : r.context.current ≤ r.unread.size) :
    r.consume.outlook = r.outlook.drop r.context.current := by
  have hunread : r.consume.unread.toList = r.unread.toList.drop r.context.current := by
    show (Bytes.slice r.unread _ r.unread.size).toList = _
    rw [Bytes.toList_slice, List.take_of_length_le]
    rw [List.length_drop, Array.length_toList]
  have hlength : r.context.current ≤ r.unread.toList.length := by rwa [Array.length_toList]
  have hbytes : r.consume.unread.toList ++ r.source.ready =
      (r.unread.toList ++ r.source.ready).drop r.context.current := by
    rw [hunread, List.drop_append_of_le_length hlength]
  show Outlook.mk (r.consume.unread.toList ++ r.source.ready) _ _ = _
  rw [hbytes]
  rfl

theorem detach_item (c : Context Unit) :
    c.item.map (Item.detach c.buffer) = c.last.map (Item.mapPayload Span.ofBytes) := by
  rw [Context.last]
  cases c.item with
  | none => rfl
  | some i => cases i <;> rfl

section alike

variable {a : Assumptions} {order : ByteOrder} (ha : a.select = .ok (some order))
  {r r' : ItemReader} (h : Alike a r r')

include ha h

theorem Alike.complete (call : Call) :
    Concur a call (r.complete (call.engine none)) (r'.complete (call.engine none)) := by
  have hleft := settled_complete ha h.left.assumptions h.left.readSize_pos call
  have hright := settled_complete ha h.right.assumptions h.right.readSize_pos call
  obtain ⟨next, hr⟩ := receives_complete ha h.left.assumptions call
  obtain ⟨next', hr'⟩ := receives_complete ha h.right.assumptions call
  rw [h.outlook_eq] at hright
  generalize r.complete (call.engine none) = result at hleft hr
  generalize r'.complete (call.engine none) = result' at hright hr'
  have halike : result'.2.outlook = result.2.outlook → Alike a result.2 result'.2 :=
    fun ho => ⟨hr.reads h.left, hr'.reads h.right, ho⟩
  -- what the call comes to on all the bytes tells the cases apart
  have hone : ∀ {x y : Context Unit} {status status' : Status},
      OnBytes a r.outlook.bytes call (.ok status) x →
        OnBytes a r.outlook.bytes call (.ok status') y → status = status' :=
    fun hx hy => Except.ok.inj (hy.unique hx).1
  have hfew : ∀ {status : Status}, status = .endOfInput ∨ status = .bufferUnderflow →
      status ≠ .ok ∧ status ≠ .malformedInput := by
    rintro _ (rfl | rfl) <;> decide
  cases hleft with
  | done hd hcurrent hle hsight ho =>
      cases hright with
      | done hd' hcurrent' hle' hsight' ho' =>
          obtain ⟨-, rfl⟩ := hd.unique hd'
          exact .done (halike (ho'.trans ho.symm)) (hcurrent'.trans hcurrent.symm) hle hle'
            (hsight'.trans hsight.symm)
      | malformed hd' => exact absurd (hone hd hd') (by decide)
      | short _ hs hd' => exact absurd (hone hd' hd) (hfew hs).1
  | malformed hd ho =>
      cases hright with
      | done hd' => exact absurd (hone hd hd') (by decide)
      | malformed hd' ho' => exact .failed (halike (ho'.trans ho.symm))
      | short _ hs hd' => exact absurd (hone hd' hd) (hfew hs).2
  | @short status answer e x hanswer hs hd hb ho =>
      cases hright with
      | done hd' => exact absurd (hone hd hd') (hfew hs).1
      | malformed hd' => exact absurd (hone hd hd') (hfew hs).2
      | @short status' answer' e' x' hanswer' hs' hd' hb' ho' =>
          obtain rfl := hone hd hd'
          obtain rfl : answer = answer' := hanswer.symm.trans hanswer'
          have hunread : e'.unread = e.unread := Array.toList_inj.mp (hb'.trans hb.symm)
          cases hreply : r.outlook.reply with
          | error failure =>
              rw [hreply] at hanswer
              obtain rfl := hanswer
              exact .failed (halike (ho'.trans ho.symm))
          | ok more =>
              rw [hreply] at hanswer
              obtain rfl := hanswer
              exact .ended (halike (ho'.trans ho.symm)) (congrArg Array.size hunread)

omit ha in
theorem Alike.consume (hcurrent : r'.context.current = r.context.current)
    (hle : r.context.current ≤ r.unread.size) (hle' : r'.context.current ≤ r'.unread.size) :
    Alike a r.consume r'.consume where
  left := ⟨h.left.assumptions, h.left.readSize_pos⟩
  right := ⟨h.right.assumptions, h.right.readSize_pos⟩
  outlook_eq := by rw [outlook_consume hle, outlook_consume hle', h.outlook_eq, hcurrent]

theorem Alike.next : r'.next.1 = r.next.1 ∧ Alike a r.next.2 r'.next.2 := by
  have hcall := h.complete ha .decode
  unfold ItemReader.next
  rw [Call.engine] at hcall
  generalize r.complete (decode none) = result at hcall
  generalize r'.complete (decode none) = result' at hcall
  cases hcall with
  | @done e e' h' hcurrent hle hle' hsight =>
      have hlast : e'.context.last = e.context.last := hsight
      have hitem : e'.context.item.map (Item.detach e'.context.buffer) =
          e.context.item.map (Item.detach e.context.buffer) := by
        rw [detach_item, detach_item, hlast]
      exact ⟨congrArg Except.ok hitem, h'.consume hcurrent hle hle'⟩
  | @ended status e e' h' hsize =>
      dsimp only
      split_ifs
      · exact ⟨rfl, h'⟩
      · refine ⟨?_, ⟨h'.left.assumptions, h'.left.readSize_pos⟩,
          ⟨h'.right.assumptions, h'.right.readSize_pos⟩, h'.outlook_eq⟩
        rw [truncated, truncated, hsize]
  | failed h' => exact ⟨rfl, h'⟩

theorem Alike.skip (count : Int) :
    (r'.skip count).1 = (r.skip count).1 ∧ Alike a (r.skip count).2 (r'.skip count).2 := by
  have hcall := h.complete ha (.skip count)
  unfold ItemReader.skip
  rw [Call.engine] at hcall
  generalize r.complete (Unpacker.skip none count) = result at hcall
  generalize r'.complete (Unpacker.skip none count) = result' at hcall
  cases hcall with
  | done h' hcurrent hle hle' hsight => exact ⟨rfl, h'.consume hcurrent hle hle'⟩
  | ended h' hsize => exact ⟨rfl, h'⟩
  | failed h' => exact ⟨rfl, h'⟩

theorem Alike.allLoop (found : Array (Item Span)) :
    (r'.allLoop found).1 = (r.allLoop found).1 ∧
      Alike a (r.allLoop found).2 (r'.allLoop found).2 := by
  fun_induction ItemReader.allLoop found r generalizing r' with
  | case1 found r failure d hnext | case2 found r d hnext =>
      obtain ⟨hanswer, h'⟩ := h.next ha
      rw [hnext] at hanswer h'
      rw [allLoop_eq]
      generalize r'.next = result at hanswer h'
      obtain ⟨answer, d'⟩ := result
      obtain rfl := hanswer
      exact ⟨rfl, h'⟩
  | case3 found r item d hnext ih =>
      obtain ⟨hanswer, h'⟩ := h.next ha
      rw [hnext] at hanswer h'
      rw [allLoop_eq]
      generalize r'.next = result at hanswer h'
      obtain ⟨answer, d'⟩ := result
      obtain rfl := hanswer
      exact ih h'

theorem Alike.step (step : ReadStep) :
    (step.run r').1 = (step.run r).1 ∧ Alike a (step.run r).2 (step.run r').2 := by
  cases step with
  | next =>
      obtain ⟨hanswer, h'⟩ := h.next ha
      exact ⟨congrArg (Except.map ReadAnswer.item) hanswer, h'⟩
  | all =>
      obtain ⟨hanswer, h'⟩ := h.allLoop ha #[]
      exact ⟨congrArg (Except.map ReadAnswer.items) hanswer, h'⟩
  | skip count =>
      obtain ⟨hanswer, h'⟩ := h.skip ha count
      exact ⟨congrArg (Except.map fun _ => ReadAnswer.skipped) hanswer, h'⟩

end alike

/-! ### Sequences of steps -/

/-- What steps answer, one after another, whatever each of them comes to. -/
def shownAll : List ReadStep → ItemReader → List (Except Failure ReadAnswer)
  | [], _ => []
  | step :: steps, r => (step.run r).1 :: shownAll steps (step.run r).2

theorem Alike.shownAll {a : Assumptions} {order : ByteOrder} (ha : a.select = .ok (some order))
    {r r' : ItemReader} (h : Alike a r r') (steps : List ReadStep) :
    shownAll steps r' = shownAll steps r := by
  induction steps generalizing r r' with
  | nil => rfl
  | cons step steps ih =>
      obtain ⟨hanswer, h'⟩ := h.step ha step
      exact congrArg₂ List.cons hanswer (ih h')

/-- What the steps of a new reader answer. -/
def shownOf (source : Source) (a : Assumptions) (steps : List ReadStep) (readSize : Nat) :
    Except Refusal (List (Except Failure ReadAnswer)) :=
  (new source readSize a).map (shownAll steps)

/-- The size of the reads does not show, whatever the source does.  Each step answers the same, in
turn: an item, all items to the end, the end itself, an item that the source breaks off, malformed
bytes, or a fault of the source. -/
theorem shownOf_unsized (source : Source) (a : Assumptions) (steps : List ReadStep)
    {size size' : Nat} (hsize : 0 < size) (hsize' : 0 < size') :
    shownOf source a steps size = shownOf source a steps size' := by
  unfold shownOf
  cases hc : Context.checked (Context.new .unpacker a #[] 0 none ()) with
  | error refusal =>
      have hnew : ∀ readSize, new source readSize a = .error refusal := by
        intro readSize
        rw [new, hc]
      rw [hnew, hnew]
  | ok context =>
      have hnew : ∀ readSize, new source readSize a = .ok { context, source, readSize } := by
        intro readSize
        rw [new, hc]
      obtain ⟨-, -, -, hassumptions, order, ha⟩ := new_eq (hnew size)
      have halike : Alike a { context, source, readSize := size }
          { context, source, readSize := size' } :=
        ⟨⟨hassumptions, hsize⟩, ⟨hassumptions, hsize'⟩, rfl⟩
      rw [hnew, hnew]
      exact congrArg Except.ok (halike.shownAll ha steps).symm

end ItemReader
end MessagePack
