import MessagePack.Proofs.Conserving
import MessagePack.Proofs.Demanding
import MessagePack.Proofs.Foreseeing

/-! # Unpackers with buffers of different sizes

Two unpackers of the same stream hold different parts of it in their buffers, since the one reads on
when the other one has enough.  But the outlook is the same for both, and what they come to depends
on nothing else (`StreamUnpacker.shownOf_unsized`): the same items, the same end, and the same after
they have been bound to their unread bytes again.

They go through each item in step (`lockstep_tally`).  Where bytes are asked for, both have them or
both come to the place where the source has nothing (`StreamUnpacker.met_require`), though perhaps
only one of them reads. -/

namespace MessagePack

open Engine Unpacker

namespace StreamUnpacker

/-! ### Asking for bytes -/

/-- What asking for `n` bytes can come to, if this is to be expected. -/
inductive Met (n : Nat) (short : Status) (o : Outlook) (fault : Option Fault) :
    EStateM.Result Halt StreamUnpacker Unit → Prop
  | there {d : StreamUnpacker} (hn : n ≤ o.bytes.length) (hd : d.Ready n)
      (ho : outlook d.toRegion = o) (hf : d.fault = fault) : Met n short o fault (.ok () d)
  | declined {answer : Status} {d : StreamUnpacker} (hn : o.bytes.length < n)
      (ha : o.answer = .ok answer) (hs : d.status = atEnd short answer)
      (ho : outlook d.toRegion = o.past) (hf : d.fault = o.kept fault) :
      Met n short o fault (.error (.status (atEnd short answer)) d)
  | raised {raised : Fault} {d : StreamUnpacker} (hn : o.bytes.length < n)
      (ha : o.answer = .error raised) (hs : d.status = .errorInHandler)
      (ho : outlook d.toRegion = o.past) (hf : d.fault = some raised) :
      Met n short o fault (.error (.fault raised) d)

theorem length_le_outlook (c : StreamUnpacker) :
    c.ahead.length ≤ (outlook c.toRegion).bytes.length := by
  rw [outlook, Source.outlook, List.length_append]
  exact Nat.le_add_right _ _

theorem met_require {m : Nat} {c : StreamUnpacker} (hc : c.Ready m) (n : Nat) (short : Status) :
    Met n short (outlook c.toRegion) c.fault (require (some supplier) n short c) := by
  have hasked : Asked (some refill) (atEnd short) n short c
      (require (some supplier) n short c) := asked_ensure
  have hready : ∀ d, require (some supplier) n short c = .ok () d → d.Ready n := by
    intro d hd
    rw [hd] at hasked
    exact hasked.ready hc refill_contained.of_eq_some
  have hcurrent : c.current ≤ c.limit := Nat.le_trans (Nat.le_add_right _ _) hc.le_limit
  have hforeseen : Foreseen n (outlook c.toRegion) c.fault (refill n c.toRegion) :=
    foreseen_refill hc.limit_le hcurrent
  generalize require (some supplier) n short c = result at hasked hready
  cases hasked with
  | there h =>
      have hd := hready c rfl
      exact .there (Nat.le_trans hd.le_length (length_le_outlook c)) hd rfl rfl
  | granted hh h hr hroom =>
      cases hh
      rw [hr] at hforeseen
      generalize hanswer : (.ok .ok : Except Fault Status) = answer at hforeseen
      cases hforeseen with
      | enough hn ho hf => exact .there hn (hready _ rfl) ho hf
      | stalled => exact absurd hanswer.symm (Outlook.answer_ne_ok _)
  | alone hh => cases hh
  | declined hh h hr hs =>
      cases hh
      rw [hr] at hforeseen
      generalize hanswer : (.ok _ : Except Fault Status) = answer at hforeseen
      cases hforeseen with
      | enough => exact absurd (Except.ok.inj hanswer) hs
      | stalled hn ho hf => exact .declined hn hanswer.symm rfl ho hf
  | broken hh h hr hroom =>
      cases hh
      have hfilled := filled_refill n hc.limit_le hcurrent
      rw [hr] at hfilled
      cases hfilled with
      | enough _ _ henough => exact absurd henough (Nat.not_le.mpr hroom)
      | stopped _ _ _ ha => exact absurd rfl ha
  | raised hh h hr =>
      cases hh
      rw [hr] at hforeseen
      generalize hanswer : (.error _ : Except Fault Status) = answer at hforeseen
      cases hforeseen with
      | enough => cases hanswer
      | stalled hn ho hf => exact .raised hn hanswer.symm rfl ho rfl

/-! ### Steps -/

/-- Both contexts can go on, and the same is to be expected.  Once an item is complete, it is the
same. -/
structure Twins (p : Stage) (c d : StreamUnpacker) : Prop where
  left : c.Ready p.bytes
  right : d.Ready p.bytes
  outlook_eq : outlook d.toRegion = outlook c.toRegion
  fault_eq : d.fault = c.fault
  last_eq : p = .presented → d.last = c.last

/-- Two results of a step: both go on with the same value, or both halt alike. -/
inductive Tally {α : Type} (p : Stage) :
    EStateM.Result Halt StreamUnpacker α → EStateM.Result Halt StreamUnpacker α → Prop
  | ok {a : α} {c d : StreamUnpacker} (h : Twins p c d) : Tally p (.ok a c) (.ok a d)
  | halted {halt : Halt} {c d : StreamUnpacker} (hh : halt ≠ .status .ok)
      (hs : d.status = c.status) (ho : outlook d.toRegion = outlook c.toRegion)
      (hf : d.fault = c.fault) : Tally p (.error halt c) (.error halt d)

section twins

variable {n : Nat} {c d : StreamUnpacker} (h : Twins (.room n) c d)

include h

theorem Twins.tally_require (m : Nat) {short : Status} (hshort : short ≠ .ok) :
    Tally (.room m) (require (some supplier) m short c) (require (some supplier) m short d) := by
  have hc := met_require h.left m short
  have hd := met_require h.right m short
  rw [h.outlook_eq, h.fault_eq] at hd
  generalize require (some supplier) m short c = result at hc
  generalize require (some supplier) m short d = result' at hd
  cases hc with
  | there hn hready ho hf =>
      cases hd with
      | there _ hready' ho' hf' =>
          exact .ok ⟨hready, hready', ho'.trans ho.symm, hf'.trans hf.symm, by simp⟩
      | declined hn' | raised hn' => exact absurd hn (Nat.not_le.mpr hn')
  | declined hn ha hs ho hf =>
      cases hd with
      | there hn' => exact absurd hn' (Nat.not_le.mpr hn)
      | declined _ ha' hs' ho' hf' =>
          obtain rfl := Except.ok.inj (ha.symm.trans ha')
          have hne := atEnd_ne_ok hshort fun hok =>
            Outlook.answer_ne_ok _ (ha.trans (congrArg Except.ok hok))
          exact .halted (fun hh => hne (Halt.status.inj hh)) (hs'.trans hs.symm)
            (ho'.trans ho.symm) (hf'.trans hf.symm)
      | raised _ ha' => cases ha.symm.trans ha'
  | raised hn ha hs ho hf =>
      cases hd with
      | there hn' => exact absurd hn' (Nat.not_le.mpr hn)
      | declined _ ha' => cases ha.symm.trans ha'
      | raised _ ha' hs' ho' hf' =>
          obtain rfl := Except.error.inj (ha.symm.trans ha')
          exact .halted (by simp) (hs'.trans hs.symm) (ho'.trans ho.symm) (hf'.trans hf.symm)

theorem Twins.take_ahead : d.ahead.take n = c.ahead.take n := by
  have hbytes : d.ahead ++ d.peer.ready = c.ahead ++ c.peer.ready :=
    congrArg Outlook.bytes h.outlook_eq
  have htake := congrArg (List.take n) hbytes
  have hc : n ≤ c.ahead.length := h.left.le_length
  have hd : n ≤ d.ahead.length := h.right.le_length
  rwa [List.take_append_of_le_length hd, List.take_append_of_le_length hc] at htake

omit h in
theorem outlook_forward {c : StreamUnpacker} (hc : c.Ready n) :
    outlook (c.forward n).toRegion = (outlook c.toRegion).drop n := by
  have hbytes : (c.forward n).ahead ++ c.peer.ready = (c.ahead ++ c.peer.ready).drop n := by
    rw [Context.ahead_forward, List.drop_append_of_le_length hc.le_length]
  show Outlook.mk ((c.forward n).ahead ++ c.peer.ready) _ _ = _
  rw [hbytes]
  rfl

theorem Twins.forward : Twins (.room 0) (c.forward n) (d.forward n) where
  left := Context.Ready.forward h.left
  right := Context.Ready.forward h.right
  outlook_eq := by
    have hc : c.Ready n := h.left
    have hd : d.Ready n := h.right
    rw [outlook_forward hc, outlook_forward hd, h.outlook_eq]
  fault_eq := h.fault_eq
  last_eq := by simp

end twins

theorem lockstep_tally : Lockstep (some supplier) (some supplier)
    fun p step step' q => ∀ c d, Twins p c d → Tally q (step c) (step' d) where
  bind {_ _ _ _ _ step step' next next'} h hn c d hcd := by
    have hstep := h c d hcd
    generalize hr : step c = result at hstep
    generalize hr' : step' d = result' at hstep
    cases hstep with
    | ok h' =>
        rw [bind_of_ok hr, bind_of_ok hr']
        exact hn _ _ _ h'
    | halted hh hs ho hf =>
        rw [bind_of_error hr, bind_of_error hr']
        exact .halted hh hs ho hf
  pure p a c d h := .ok h
  malformed p q c d h := .halted (by decide) rfl h.outlook_eq h.fault_eq
  require n c d h := h.tally_require n (by decide)
  forward {α n value step step'} h h' c d hcd := by
    rw [h c hcd.left, h' d hcd.right, hcd.take_ahead]
    exact .ok hcd.forward
  present item hi c d h := by
    have hlast : item.resolve d.buffer = item.resolve c.buffer :=
      Item.mapPayload_congr fun p hp => by simp [hi] at hp
    exact .ok ⟨h.left.holding _, h.right.holding _, h.outlook_eq, h.fault_eq,
      fun _ => congrArg some hlast⟩
  payload kind n c d h := by
    obtain ⟨hleft, hright, ho, hf, -⟩ := h.forward
    refine .ok ⟨hleft.holding _, hright.holding _, ho, hf, fun _ => ?_⟩
    have hc : c.Ready n := h.left
    have hd : d.Ready n := h.right
    have hview := Context.view_ahead hc.le_length
    have hview' := Context.view_ahead hd.le_length
    rw [h.take_ahead, ← hview] at hview'
    show some ((kind.item _).mapPayload _) = some ((kind.item _).mapPayload _)
    rw [Blob.mapPayload_item, Blob.mapPayload_item]
    exact congrArg (fun p => some (kind.item p)) hview'

/-! ### Calls -/

/-- How far a complete call has got. -/
def stageOf : Call → Stage
  | .decode => .presented
  | .skip _ => .room 0

theorem Twins.tally_skipLoop {c d : StreamUnpacker} (h : Twins (.room 0) c d) (count : Nat) :
    Tally (.room 0) (skipLoop (some supplier) count c) (skipLoop (some supplier) count d) := by
  have hbegin : ∀ c d, Twins (.room 0) c d → Tally (.room 1)
      (require (some supplier) 1 .endOfInput c) (require (some supplier) 1 .endOfInput d) :=
    fun c d h => h.tally_require 1 (by decide)
  fun_induction skipLoop (some supplier) count c generalizing d with
  | case1 c =>
      rw [skipLoop]
      exact .ok h
  | case2 c count more c' hskip ih =>
      have hitem := lockstep_tally.skipItem hbegin c d h
      rw [hskip] at hitem
      generalize hskip' : skipItem (some supplier) d = result at hitem
      cases hitem with
      | ok h' =>
          rw [skipLoop_of_ok hskip']
          exact ih h'
  | case3 c count halt c' hskip =>
      have hitem := lockstep_tally.skipItem hbegin c d h
      rw [hskip] at hitem
      generalize hskip' : skipItem (some supplier) d = result at hitem
      cases hitem with
      | halted hh hs ho hf =>
          rw [skipLoop_of_error hskip']
          exact .halted hh hs ho hf

theorem Twins.tally_call {c d : StreamUnpacker} (h : Twins (.room 0) c d) (call : Call) :
    Tally (stageOf call) (call.engine (some supplier) c) (call.engine (some supplier) d) := by
  have hc : running c = .ok () c := running_eq h.left.status_eq
  have hd : running d = .ok () d := running_eq h.right.status_eq
  cases call with
  | decode =>
      have hleft : decode (some supplier) c = decodeItem (some supplier) c := bind_of_ok hc
      have hright : decode (some supplier) d = decodeItem (some supplier) d := bind_of_ok hd
      rw [Call.engine, hleft, hright]
      exact lockstep_tally.decodeItem (fun c d h => h.tally_require 1 (by decide)) c d h
  | skip count =>
      have hleft : Unpacker.skip (some supplier) count c = _ := bind_of_ok hc
      have hright : Unpacker.skip (some supplier) count d = _ := bind_of_ok hd
      rw [Call.engine, hleft, hright]
      exact h.tally_skipLoop count.toNat

/-- Of the two unpackers the same is to be expected, also if they have been stopped. -/
structure Alike (a : Assumptions) (c d : StreamUnpacker) : Prop where
  left : Sound a c
  right : Sound a d
  status_eq : d.status = c.status
  outlook_eq : outlook d.toRegion = outlook c.toRegion
  fault_eq : d.fault = c.fault

/-- Two results of a call: both are complete and show the same, or both are halted alike. -/
inductive Concur (a : Assumptions) (call : Call) :
    EStateM.Result Halt StreamUnpacker Unit → EStateM.Result Halt StreamUnpacker Unit → Prop
  | complete {c d : StreamUnpacker} (h : Alike a c d) (hs : call.sight d = call.sight c) :
      Concur a call (.ok () c) (.ok () d)
  | halted {halt : Halt} {c d : StreamUnpacker} (hh : halt ≠ .status .ok) (h : Alike a c d) :
      Concur a call (.error halt c) (.error halt d)

section alike

variable {a : Assumptions} {c d : StreamUnpacker}

theorem Sound.engine (hc : Sound a c) (call : Call) :
    match call.engine (some supplier) c with
    | .ok _ c' | .error _ c' => Sound a c' := by
  cases hr : call.engine (some supplier) c with
  | ok u c' =>
      obtain ⟨-, -, hsound, -⟩ := hc.call (run_of_ok hr)
      exact hsound
  | error halt c' =>
      obtain ⟨-, -, hsound, -⟩ := hc.call (run_of_error hr)
      exact hsound

variable (h : Alike a c d)

include h

theorem Alike.call (call : Call) :
    Concur a call (call.engine (some supplier) c) (call.engine (some supplier) d) := by
  have hleft := h.left.engine call
  have hright := h.right.engine call
  by_cases hs : c.status = .ok
  · have hs' : d.status = .ok := h.status_eq.trans hs
    have htally := Twins.tally_call
      ⟨h.left.ready hs, h.right.ready hs', h.outlook_eq, h.fault_eq, by simp⟩ call
    generalize call.engine (some supplier) c = result at hleft htally
    generalize call.engine (some supplier) d = result' at hright htally
    cases htally with
    | ok h' =>
        refine .complete ⟨hleft, hright, ?_, h'.outlook_eq, h'.fault_eq⟩ ?_
        · exact h'.right.status_eq.trans h'.left.status_eq.symm
        · cases call with
          | decode => exact h'.last_eq rfl
          | skip count => rfl
    | halted hh hs ho hf => exact .halted hh ⟨hleft, hright, hs, ho, hf⟩
  · have hs' : d.status ≠ .ok := fun hd => hs (h.status_eq.symm.trans hd)
    have hlatched : ∀ {e : StreamUnpacker}, e.status ≠ .ok →
        call.engine (some supplier) e = .error (.status .stopped) e := by
      intro e he
      cases call <;> exact bind_of_error (running_of_latched he)
    rw [hlatched hs, hlatched hs']
    exact .halted (by decide) h

theorem Alike.itemsLoop (atMost : Option Nat) (found : Array (Option (Item Bytes))) :
    let left := Unpacker.itemsLoop (some supplier) Context.last atMost found c
    let right := Unpacker.itemsLoop (some supplier) Context.last atMost found d
    right.1 = left.1 ∧ right.2.1 = left.2.1 ∧ Alike a left.2.2 right.2.2 := by
  intro left right
  subst left right
  fun_induction Unpacker.itemsLoop (some supplier) Context.last atMost found c generalizing d with
  | case1 =>
      rw [Unpacker.itemsLoop, if_pos rfl]
      exact ⟨rfl, rfl, h⟩
  | case2 atMost found c hmore c' hdecode ih =>
      have hcall := h.call .decode
      rw [Call.engine, hdecode] at hcall
      generalize hdecode' : decode (some supplier) d = result at hcall
      cases hcall with
      | complete h' hs =>
          rw [itemsLoop_of_ok hmore hdecode']
          have hlast : Context.last _ = c'.last := hs
          rw [hlast]
          exact ih h'
  | case3 atMost found c hmore halt c' hdecode =>
      have hcall := h.call .decode
      rw [Call.engine, hdecode] at hcall
      generalize hdecode' : decode (some supplier) d = result at hcall
      cases hcall with
      | halted hh h' =>
          rw [itemsLoop_of_error hmore hdecode']
          refine ⟨rfl, ?_, h'⟩
          simp only [ending, h'.status_eq, h'.fault_eq]

theorem Alike.resume {order : Option ByteOrder} (ha : a.select = .ok order) :
    (d.rebind d.current (some d.limit)).1 = (c.rebind c.current (some c.limit)).1 ∧
      Alike a (Event.after .resume c) (Event.after .resume d) := by
  obtain ⟨-, -, hc⟩ := h.left.event ha .resume
  obtain ⟨-, -, hd⟩ := h.right.event ha .resume
  have hrest : (d.rebind d.current (some d.limit)).1 = (c.rebind c.current (some c.limit)).1 ∧
      (d.rebind d.current (some d.limit)).2.status =
        (c.rebind c.current (some c.limit)).2.status ∧
      outlook (d.rebind d.current (some d.limit)).2.toRegion =
        outlook (c.rebind c.current (some c.limit)).2.toRegion ∧
      (d.rebind d.current (some d.limit)).2.fault =
        (c.rebind c.current (some c.limit)).2.fault := by
    unfold Context.rebind Context.bind
    rw [h.left.range?_unread, h.right.range?_unread]
    dsimp only
    rw [h.left.assumptions, h.right.assumptions, ha]
    cases order with
    | none | some => exact ⟨rfl, rfl, h.outlook_eq, rfl⟩
  exact ⟨hrest.1, hc, hd, hrest.2.1, hrest.2.2.1, hrest.2.2.2⟩

end alike

/-! ### Events -/

/-- What an event shows. -/
inductive Shown
  | call (outcome : Outcome)
  | items (found : Array (Option (Item Bytes))) (ending : Ending)
  | resumed (result : Except Fault Status)

namespace Event

/-- What is seen of an event, with items as they are right after they were read. -/
def shown : Event → StreamUnpacker → Shown
  | .call request, c =>
      let (result, d) := (request.engine (some supplier)).run c
      .call (result, if result = .ok .ok then request.sight d else none)
  | .items atMost, c =>
      let (found, ending, _) := Unpacker.items (some supplier) Context.last atMost c
      .items found ending
  | .resume, c => .resumed (c.rebind c.current (some c.limit)).1

end Event

/-- What is seen of events, one after another. -/
def shownAll : List Event → StreamUnpacker → List Shown
  | [], _ => []
  | event :: events, c => event.shown c :: shownAll events (event.after c)

section events

variable {a : Assumptions} {order : Option ByteOrder} (ha : a.select = .ok order)
  {c d : StreamUnpacker} (h : Alike a c d)

include ha h

theorem Alike.event (event : Event) :
    event.shown d = event.shown c ∧ Alike a (event.after c) (event.after d) := by
  cases event with
  | call request =>
      have hcall := h.call request
      simp only [Event.shown, Event.after]
      generalize hr : request.engine (some supplier) c = result at hcall
      generalize hr' : request.engine (some supplier) d = result' at hcall
      cases hcall with
      | complete h' hs =>
          rw [run_of_ok hr, run_of_ok hr']
          dsimp only
          rw [hs]
          exact ⟨rfl, h'⟩
      | @halted halt _ _ hh h' =>
          have hresult : halt.result ≠ .ok .ok := by
            intro hok
            cases halt with
            | status status => exact hh (congrArg Halt.status (Except.ok.inj hok))
            | fault fault => cases hok
          rw [run_of_error hr, run_of_error hr']
          dsimp only
          rw [if_neg hresult, if_neg hresult]
          exact ⟨rfl, h'⟩
  | items atMost =>
      obtain ⟨hitems, hending, h'⟩ := h.itemsLoop atMost #[]
      exact ⟨congrArg₂ Shown.items hitems hending, h'⟩
  | resume =>
      obtain ⟨hresult, h'⟩ := h.resume ha
      exact ⟨congrArg Shown.resumed hresult, h'⟩

theorem Alike.shownAll (events : List Event) : shownAll events d = shownAll events c := by
  induction events generalizing c d with
  | nil => rfl
  | cons event events ih =>
      obtain ⟨hshown, h'⟩ := h.event ha event
      exact congrArg₂ List.cons hshown (ih h')

end events

/-! ### New unpackers -/

/-- Whatever the sizes of their buffers are, two new unpackers begin alike, or neither can be
made. -/
theorem alike_new (source : Source) (a : Assumptions) (size size' : Nat) :
    (∃ fault, new source size a = .error fault ∧ new source size' a = .error fault) ∨
      ∃ c d, new source size a = .ok c ∧ new source size' a = .ok d ∧ Alike a c d := by
  have hrange : ∀ size, Context.range? (Bytes.zeros size).size 0 (some 0) = .ok (0, 0) :=
    fun size => by simp [Context.range?]
  refine (Context.new_alike (hrange size) (hrange size')).imp_right ?_
  rintro ⟨c, d, hc, hd, hstatus, hfault, hfault'⟩
  obtain ⟨hleft, hahead, hpeer, -⟩ := sound_new hc
  obtain ⟨hright, hahead', hpeer', -⟩ := sound_new hd
  refine ⟨c, d, hc, hd, hleft, hright, hstatus, ?_, hfault'.trans hfault.symm⟩
  have houtlook : ∀ {e : StreamUnpacker}, e.ahead = [] → e.peer = source →
      outlook e.toRegion = source.outlook [] := by
    rintro e he rfl
    exact congrArg e.peer.outlook he
  rw [houtlook hahead hpeer, houtlook hahead' hpeer']

/-- What is seen of events that happen to a new unpacker. -/
def shownOf (source : Source) (a : Assumptions) (events : List Event) (size : Nat) :
    Except Fault (List Shown) := (new source size a).map (shownAll events)

/-- The size of the buffer does not show, whatever the source does.  Each call comes to the same, in
turn, with the same item, and sequences of items have the same items and the same end.  So it is
after the unpacker has been stopped, and bound to its unread bytes. -/
theorem shownOf_unsized (source : Source) (a : Assumptions) (events : List Event)
    (size size' : Nat) : shownOf source a events size = shownOf source a events size' := by
  unfold shownOf
  rcases alike_new source a size size' with ⟨fault, hc, hd⟩ | ⟨c, d, hc, hd, h⟩
  · rw [hc, hd]
  · obtain ⟨-, -, -, order, ha, -⟩ := sound_new hc
    rw [hc, hd]
    exact congrArg Except.ok (h.shownAll ha events).symm

end StreamUnpacker
end MessagePack
