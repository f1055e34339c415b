import MessagePack.Proofs.Demanding
import MessagePack.Proofs.ItemReading

/-! # Reading on demand

On a connection that waits for an answer, one byte asked for too many is a deadlock.  Both readers
of a source ask for no more than the call needs: an unpacker, whose handler is asked step by step,
and a reader of items, which tries a call again and again.  Whenever they have the source read, the
bytes that have arrived leave it open what the call comes to (`reads_on_demand`).

For both this comes down to a call without a handler that runs short on these bytes
(`onDemand_of_short`). -/

namespace MessagePack

open Engine Unpacker Source

/-! ### Calls on demand -/

/-- The source has been read for a call on these unread bytes, each time while it was not decided
yet what the call comes to.  So it has not been read at all if that was decided from the beginning,
nor for passing over nothing. -/
structure OnDemand (call : Call) (unread : List UInt8) (s t : Source) : Prop where
  reads : ∃ next, Demands call.Undecided unread s next t
  arrived : call.Arrived unread → t = s
  malformed : call.Malformed unread → t = s
  nothing : ∀ count ≤ 0, call = .skip count → t = s

theorem onDemand_of_short {call : Call} {b next : List UInt8} {s t : Source}
    (h : Demands (Short (call.engine none)) b s next t) : OnDemand call b s t := by
  have hreads := h.mono fun _ => Short.undecided
  refine ⟨⟨next, hreads⟩, ?_, ?_, ?_⟩
  · intro harrived
    exact (hreads.untouched fun hP => hP.1 harrived).2
  · intro hmalformed
    exact (hreads.untouched fun hP => hP.2 hmalformed).2
  · rintro count hcount rfl
    exact (hreads.untouched fun hP => hP.1 (Call.arrived_of_nonpos hcount b)).2

namespace StreamUnpacker

/-- A call of an unpacker reads on demand.  If it is decided what the call comes to, it comes to
that. -/
structure Prompt (call : Call) (c : StreamUnpacker)
    (outcome : Except Fault Status × StreamUnpacker) : Prop where
  onDemand : OnDemand call c.ahead c.peer outcome.2.peer
  complete : c.status = .ok → call.Arrived c.ahead → outcome.1 = .ok .ok
  malformed : c.status = .ok → call.Malformed c.ahead → outcome.1 = .ok .malformedInput

theorem prompt_call {c : StreamUnpacker} (hc : c.status = .ok → c.Ready 0) (call : Call) :
    Prompt call c ((call.engine (some supplier)).run c) := by
  by_cases hs : c.status = .ok
  · have hfrugal := frugal_call call (hc hs)
    obtain ⟨w, hw, hahead⟩ := exists_live c.ahead
    have harrived : call.Arrived c.ahead → ∃ x, call.engine none w = .ok () x := by
      intro h
      exact Call.complete_of_arrived hw (hahead.symm ▸ h)
    have hmalformed : call.Malformed c.ahead →
        ∃ x, call.engine none w = .error (.status .malformedInput) x := by
      intro h
      exact Call.stops_of_malformed hw (hahead.symm ▸ h)
    cases hr : call.engine (some supplier) c with
    | ok u d =>
        rw [hr] at hfrugal
        rw [run_of_ok hr]
        cases hfrugal with
        | @complete _ _ next hd hreads hfree =>
            have hdemand := onDemand_of_short hreads
            refine ⟨hdemand, fun _ _ => rfl, ?_⟩
            intro _ h
            obtain ⟨rfl, -⟩ := hreads.untouched fun hP => hP.undecided.2 h
            obtain ⟨x, hx, -⟩ := hfree w [] hw (by simpa using hahead)
            obtain ⟨y, hy⟩ := hmalformed h
            cases hx.symm.trans hy
    | error halt d =>
        rw [hr] at hfrugal
        rw [run_of_error hr]
        cases hfrugal with
        | @halted _ _ next hreads hfree =>
            have hdemand := onDemand_of_short hreads
            refine ⟨hdemand, ?_, ?_⟩
            · intro _ h
              obtain ⟨-, hstops⟩ := hfree (hdemand.arrived h)
              obtain ⟨x, hx⟩ := hstops w hw hahead
              obtain ⟨y, hy⟩ := harrived h
              cases hx.symm.trans hy
            · intro _ h
              obtain ⟨rfl, -⟩ := hfree (hdemand.malformed h)
              rfl
  · rw [run_call_of_latched hs call]
    have hnone : ∀ P : List UInt8 → Prop, Demands P c.ahead c.peer [] c.peer := fun _ => .done _ _
    exact ⟨onDemand_of_short (hnone _), fun h => absurd h hs, fun h => absurd h hs⟩

end StreamUnpacker

/-! ### Readers of items -/

namespace ItemReader

variable {r d : ItemReader} {order : ByteOrder} {call : Call} {status : Status}

/-- Reading on is one read, and what it delivers is behind the unread bytes. -/
theorem more_reads (hs : status = .endOfInput ∨ status = .bufferUnderflow) :
    (r.more status).2.source = (r.source.read r.readSize).2 ∧
      (r.more status).2.unread.toList = r.unread.toList ++ (r.source.read r.readSize).1.bytes ∧
      (r.more status).2.context.assumptions = r.context.assumptions := by
  unfold more
  rw [if_pos hs]
  dsimp only
  generalize r.source.read r.readSize = result
  obtain ⟨delivery, t⟩ := result
  cases delivery with
  | absent | ended | fault => exact ⟨rfl, (List.append_nil _).symm, rfl⟩
  | data bytes =>
      dsimp only
      split_ifs with hempty
      · obtain rfl := Array.isEmpty_iff.mp hempty
        exact ⟨rfl, (List.append_nil _).symm, rfl⟩
      · exact ⟨rfl, Array.toList_append, rfl⟩

/-- An attempt that has stopped runs short on the unread bytes, and the reader reads on once, or
they are malformed and it does not. -/
theorem demands_more (ha : r.context.assumptions.select = .ok (some order))
    (hattempt : r.attempt (call.engine none) = (.error (.status status), d)) :
    ∃ bytes, Demands (Short (call.engine none)) r.unread.toList r.source bytes
        (d.more status).2.source ∧
      (d.more status).2.unread.toList = r.unread.toList ++ bytes ∧
      (d.more status).2.context.assumptions = r.context.assumptions := by
  obtain ⟨c, x, hc, hx, hd, hsource, ⟨hfew, -⟩ | ⟨rfl, e, he, -⟩⟩ := attempt_stopped ha hattempt
  · have hshort : Short (call.engine none) r.unread.toList := by
      obtain ⟨_, hhalt, -, -, hstops⟩ := stops_alike (τ := Unit) hc.live hx
      obtain rfl := Halt.status.inj hhalt
      intro w hw hahead
      rw [List.append_nil] at hc
      obtain ⟨y, hy⟩ := hstops w [] hw (by rw [hahead, hc.ahead_eq, List.append_nil]) (.inl rfl)
      exact ⟨status, y, hy, hfew⟩
    obtain ⟨hread, hunread, hassumptions⟩ := more_reads (r := d) hfew
    rw [hd.unread_zero, List.append_nil, hsource] at hunread
    rw [hsource] at hread
    refine ⟨_, ?_, hunread, hassumptions.trans hd.assumptions⟩
    rw [hread, ← List.append_nil (Delivery.bytes _)]
    exact .read _ hshort (.done _ _)
  · rw [he, hsource]
    exact ⟨[], .done _ _, hd.unread_zero, hd.assumptions⟩

theorem demands_complete (ha : r.context.assumptions.select = .ok (some order)) (call : Call) :
    ∃ next, Demands (Short (call.engine none)) r.unread.toList r.source next
      (r.complete (call.engine none)).2.source := by
  fun_induction complete (call.engine none) r with
  | case1 r d hattempt | case2 r fault d hattempt =>
      have hsource := attempt_source (call.engine none) r
      rw [hattempt] at hsource
      exact ⟨[], hsource ▸ .done _ _⟩
  | case3 r status d hattempt failure e hmore | case4 r status d hattempt e hmore =>
      obtain ⟨bytes, hread, -⟩ := demands_more ha hattempt
      rw [hmore] at hread
      exact ⟨bytes, hread⟩
  | case5 r status d hattempt e hmore ih =>
      obtain ⟨bytes, hread, hunread, hassumptions⟩ := demands_more ha hattempt
      rw [hmore] at hread hunread hassumptions
      obtain ⟨next, hrest⟩ := ih (hassumptions.symm ▸ ha)
      exact ⟨bytes ++ next, hread.trans (hunread ▸ hrest)⟩

theorem source_conclude (outcome : Except Failure (Option Status) × ItemReader) :
    (conclude call outcome).2.source = outcome.2.source := by
  obtain ⟨_ | _ | status, r⟩ := outcome
  · rfl
  · cases call with
    | decode => cases hitem : r.context.item <;> simp only [conclude, hitem, consume]
    | skip count => rfl
  · cases call with
    | decode =>
        simp only [conclude]
        split_ifs <;> rfl
    | skip count => rfl

section answers

variable {a : Assumptions} {chunks : List Chunk} {b : List UInt8} {answer : Answer} {k : Nat}
  {x : Context Unit}

theorem Answers.of_complete (h : Answers a chunks b call answer k)
    (hx : OnBytes a b call (.ok .ok) x) :
    ∃ d, OnBytes a b call (.ok .ok) d ∧ answer.Shows call d := by
  cases h with
  | complete _ h =>
      obtain ⟨d, hd, -, hshows⟩ := h []
      rw [List.append_nil] at hd
      exact ⟨d, hd, hshows⟩
  | ended _ h => cases (h.unique hx).1
  | stopped h hs => exact absurd (Except.ok.inj (h.unique hx).1).symm hs
  | raised h hs =>
      obtain rfl := Except.ok.inj (h.unique hx).1
      rcases hs with hs | hs <;> exact absurd hs (by decide)

theorem Answers.of_malformed (h : Answers a chunks b call answer k)
    (hx : OnBytes a b call (.ok .malformedInput) x) :
    ∃ e : StopError, answer = .failed (.stop e) ∧ e.status = .malformedInput := by
  cases h with
  | complete _ h =>
      obtain ⟨d, hd, -⟩ := h []
      rw [List.append_nil] at hd
      cases (hd.unique hx).1
  | ended _ h => cases (h.unique hx).1
  | stopped h => exact ⟨_, rfl, (Except.ok.inj (h.unique hx).1).symm⟩
  | raised h hs =>
      obtain rfl := Except.ok.inj (h.unique hx).1
      rcases hs with hs | hs <;> exact absurd hs (by decide)

end answers

/-- A call of a reader reads on demand.  If it is decided what the call comes to on the unread
bytes, it comes to that. -/
structure Prompt (a : Assumptions) (call : Call) (r : ItemReader) (outcome : Answer × ItemReader) :
    Prop where
  onDemand : OnDemand call r.unread.toList r.source outcome.2.source
  complete : call.Arrived r.unread.toList →
    ∃ d, OnBytes a r.unread.toList call (.ok .ok) d ∧ outcome.1.Shows call d
  malformed : call.Malformed r.unread.toList →
    ∃ e : StopError, outcome.1 = .failed (.stop e) ∧ e.status = .malformedInput

theorem prompt_answer {a : Assumptions} (ha : a.select = .ok (some order))
    (hr : r.context.assumptions = a) (call : Call) : Prompt a call r (r.answer call) := by
  obtain ⟨next, hreads⟩ := demands_complete (hr.symm ▸ ha) call
  rw [← source_conclude, ← answer_eq] at hreads
  have hdemand := onDemand_of_short hreads
  obtain ⟨more, hanswered⟩ := answered_answer ha hr call
  have hanswers : (r.answer call).2.source = r.source →
      ∃ k, Answers a r.source.chunks r.unread.toList call (r.answer call).1 k := by
    intro hsame
    have hcontent := hanswered.receives.content
    rw [hsame] at hcontent
    obtain rfl : more = [] := by simpa using hcontent
    have h := hanswered.answers
    rw [List.append_nil] at h
    exact ⟨_, h⟩
  obtain ⟨w, hnew, hw⟩ := bound_new ha r.unread.toList
  refine ⟨hdemand, ?_, ?_⟩
  · intro h
    obtain ⟨x, hx⟩ := Call.complete_of_arrived hw.live (hw.ahead_eq.symm ▸ h)
    obtain ⟨k, hanswers⟩ := hanswers (hdemand.arrived h)
    exact hanswers.of_complete ⟨w, hnew, run_of_ok hx⟩
  · intro h
    obtain ⟨x, hx⟩ := Call.stops_of_malformed hw.live (hw.ahead_eq.symm ▸ h)
    obtain ⟨k, hanswers⟩ := hanswers (hdemand.malformed h)
    exact hanswers.of_malformed ⟨w, hnew, run_of_error hx⟩

theorem assumptions_afterAll {a : Assumptions} (ha : a.select = .ok (some order))
    (hr : r.context.assumptions = a) (calls : List Call) :
    (afterAll calls r).context.assumptions = a := by
  obtain ⟨next, h⟩ := receives_afterAll ha hr calls
  exact h.assumptions.trans hr

end ItemReader

/-! ### Sessions -/

namespace StreamUnpacker

/-- The calls that a step makes, each with the context that it is made in.  A sequence of items
decodes one after another. -/
def callsOf (c : StreamUnpacker) : UnpackStep → List (Call × StreamUnpacker)
  | .decode => [(.decode, c)]
  | .skip count => [(.skip count, c)]
  | .items atMost =>
    let contexts := c :: (Unpacker.items (some supplier) id atMost c).1.toList
    (contexts.take (atMost.getD contexts.length)).map fun d => (.decode, d)
  | _ => []

/-- The calls that steps make, one after another. -/
def callsOfAll : List UnpackStep → UnpackSession Source → List (Call × StreamUnpacker)
  | [], _ => []
  | step :: steps, u =>
    callsOf u.context step ++ callsOfAll steps (u.run (some supplier) step).2

/-- The context is sound, whatever the source is going to raise. -/
abbrev Confined (c : StreamUnpacker) : Prop := Context.Confined (Source.Raises fun _ => True) c

theorem Confined.call {c : StreamUnpacker} (hc : Confined c) (call : Call) :
    Confined ((call.engine (some supplier)).run c).2 :=
  (settled_call (s := some supplier) refill_contained.of_eq_some refill_confined.of_eq_some
    call hc).confined

theorem Confined.items {c : StreamUnpacker} (hc : Confined c) (atMost : Option Nat)
    (found : Array StreamUnpacker) (hfound : ∀ d ∈ found, Confined d) :
    ∀ d ∈ (itemsLoop (some supplier) id atMost found c).1, Confined d := by
  fun_induction itemsLoop (some supplier) id atMost found c with
  | case1 found c => exact hfound
  | case2 atMost found c hmost d hdec ih =>
      have hd := hc.call .decode
      rw [Call.engine, run_of_ok hdec] at hd
      refine ih hd ?_
      intro e he
      rcases Array.mem_push.mp he with hold | rfl
      · exact hfound e hold
      · exact hd
  | case3 atMost found c hmost halt d hdec => exact hfound

theorem Confined.callsOf {c : StreamUnpacker} (hc : Confined c) (step : UnpackStep) :
    ∀ begun ∈ callsOf c step, Confined begun.2 := by
  intro begun hbegun
  unfold StreamUnpacker.callsOf at hbegun
  split at hbegun
  · obtain rfl := List.mem_singleton.mp hbegun
    exact hc
  · obtain rfl := List.mem_singleton.mp hbegun
    exact hc
  · obtain ⟨d, hd, rfl⟩ := List.mem_map.mp hbegun
    rcases List.mem_cons.mp (List.mem_of_mem_take hd) with rfl | hd
    · exact hc
    · exact hc.items _ #[] (by simp) d (Array.mem_toList_iff.mp hd)
  · exact absurd hbegun List.not_mem_nil

theorem Confined.callsOfAll {u : UnpackSession Source} (hu : Confined u.context)
    {steps : List UnpackStep} (hsteps : ∀ step ∈ steps, step.Blind) :
    ∀ begun ∈ callsOfAll steps u, Confined begun.2 := by
  induction steps generalizing u with
  | nil => exact fun _ h => absurd h List.not_mem_nil
  | cons step steps ih =>
      have hnext : Confined (u.run (some supplier) step).2.context :=
        (UnpackSession.settled_run refill_contained.of_eq_some refill_confined.of_eq_some
          (hsteps step List.mem_cons_self) hu).confined
      intro begun hbegun
      rcases List.mem_append.mp hbegun with h | h
      · exact hu.callsOf step begun h
      · exact ih hnext (fun step h => hsteps step (List.mem_cons_of_mem _ h)) begun h

end StreamUnpacker

/-- Nothing is read ahead of need.  Whatever the source does, and whatever is called, with every new
region in between: whenever an unpacker of a source has it read in the middle of a call, be it of
its own or one of a sequence of items, the bytes that have arrived since the cursor was where the
call began do not decide yet what the call comes to.  The same goes for a reader of items, from one
attempt to the next.

So a call whose bytes have all arrived comes to its end without the source, and so does one that
meets a malformed byte, or passes over nothing. -/
theorem reads_on_demand {source : Source} {size : Nat} {a : Assumptions} :
    (∀ c, StreamUnpacker.new source size a = .ok c →
      ∀ steps : List UnpackStep, (∀ step ∈ steps, step.Blind) →
        ∀ call d, (call, d) ∈ StreamUnpacker.callsOfAll steps { context := c } →
          StreamUnpacker.Prompt call d ((call.engine (some StreamUnpacker.supplier)).run d)) ∧
    (∀ r₀, ItemReader.new source size a = .ok r₀ → ∀ calls call,
      ItemReader.Prompt a call (ItemReader.afterAll calls r₀)
        ((ItemReader.afterAll calls r₀).answer call)) := by
  constructor
  · intro c hnew steps hsteps call d hcall
    have hc : StreamUnpacker.Confined c := Context.confined_new (fun _ _ => trivial) hnew
    have hd : StreamUnpacker.Confined d := StreamUnpacker.Confined.callsOfAll hc hsteps _ hcall
    exact StreamUnpacker.prompt_call hd.ready call
  · intro r₀ hnew calls call
    obtain ⟨-, -, -, hassumptions, order, ha⟩ := ItemReader.new_eq hnew
    exact ItemReader.prompt_answer ha (ItemReader.assumptions_afterAll ha hassumptions calls) call

/-- An array that holds a malformed byte, which has come with the item before.  It is found without
asking for more. -/
theorem reads_on_demand_malformed :
    ∃ (c d : StreamUnpacker) (r₀ : ItemReader),
      StreamUnpacker.new { manner := .read, chunks := [.data #[0x05, 0x92, 0xC0, 0xC1],
        .data #[0x06]] } 4 {} = .ok c ∧
      ItemReader.new { manner := .read, chunks := [.data #[0x05, 0x92, 0xC0, 0xC1],
        .data #[0x06]] } 4 {} = .ok r₀ ∧
      (.skip 1, d) ∈ StreamUnpacker.callsOfAll [.decode, .skip 1] { context := c } ∧
      d.ahead = [0x92, 0xC0, 0xC1] ∧ d.peer.journal = #[⟨4, .count 4⟩] ∧
      (((Call.skip 1).engine (some StreamUnpacker.supplier)).run d).1 = .ok .malformedInput ∧
      (((Call.skip 1).engine (some StreamUnpacker.supplier)).run d).2.peer = d.peer ∧
      ((ItemReader.afterAll [.decode] r₀).answer (.skip 1)).2.source =
        (ItemReader.afterAll [.decode] r₀).source := by
  have hmeets : (Call.skip 1).Malformed [0x92, 0xC0, 0xC1] :=
    .within (.fixarray (n := 2) (by decide)) (.after .nil .nil (.here []))
  obtain ⟨c, d, r₀, hnew, hreader, hcall, hstatus, hahead, hjournal, hunread⟩ :
      ∃ (c d : StreamUnpacker) (r₀ : ItemReader),
      StreamUnpacker.new { manner := .read, chunks := [.data #[0x05, 0x92, 0xC0, 0xC1],
        .data #[0x06]] } 4 {} = .ok c ∧
      ItemReader.new { manner := .read, chunks := [.data #[0x05, 0x92, 0xC0, 0xC1],
        .data #[0x06]] } 4 {} = .ok r₀ ∧
      (.skip 1, d) ∈ StreamUnpacker.callsOfAll [.decode, .skip 1] { context := c } ∧
      d.status = .ok ∧ d.ahead = [0x92, 0xC0, 0xC1] ∧ d.peer.journal = #[⟨4, .count 4⟩] ∧
      (ItemReader.afterAll [.decode] r₀).unread.toList = [0x92, 0xC0, 0xC1] :=
    ⟨_, _, _, rfl, rfl, List.mem_append_right _ List.mem_cons_self, by cbv, by cbv, by cbv,
      by cbv⟩
  have hblind : ∀ step ∈ [UnpackStep.decode, .skip 1], step.Blind := by
    intro step hmem
    fin_cases hmem <;> trivial
  have hunpacker := reads_on_demand.1 c hnew [.decode, .skip 1] hblind (.skip 1) d hcall
  have hitems := reads_on_demand.2 r₀ hreader [.decode] (.skip 1)
  exact ⟨c, d, r₀, hnew, hreader, hcall, hahead, hjournal,
    hunpacker.malformed hstatus (hahead ▸ hmeets), hunpacker.onDemand.malformed (hahead ▸ hmeets),
    hitems.onDemand.malformed (hunread ▸ hmeets)⟩

end MessagePack
