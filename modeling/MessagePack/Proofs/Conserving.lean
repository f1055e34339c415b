import MessagePack.Proofs.Filling
import MessagePack.Proofs.Replaying

/-! # Reading from a stream loses no byte

The bytes that an unpacker of a stream has passed over, followed by those that are unread in its
buffer, are the bytes that the source has delivered (`StreamUnpacker.stream_conserved`).  This
holds after every call and at every point within one, whatever the source does in between, and
also after calls that were stopped or broken off; so a context that is bound to its own unread
bytes goes on where reading has stopped.

Each part of a path keeps the account (`Conserves`): passing over bytes moves them from the one
side to the other, and a refill, complete or not, only adds what was delivered.  The account
determines which bytes are passed over (`Conserves.unique`). -/

namespace MessagePack
namespace StreamUnpacker

open Engine Unpacker

/-! ### The account -/

/-- From `c` to `d` the bytes `p` were passed over, and the source has delivered `next`, which
comes after the bytes that were unread. -/
structure Conserves (c : StreamUnpacker) (p next : List UInt8) (d : StreamUnpacker) : Prop where
  account : p ++ d.ahead = c.ahead ++ next
  content : c.peer.content = next ++ d.peer.content
  current_le : d.current ≤ d.limit
  limit_le : d.limit ≤ d.bytes.size
  assumptions : d.assumptions = c.assumptions

theorem gains_refill (n : Nat) {r : Region Source} (hlimit : r.limit ≤ r.bytes.size)
    (hcurrent : r.current ≤ r.limit) :
    ∃ more, Gains (makeRoom n r) more (refill n r).2 ∧ more <+: r.peer.ready ∧
      ((refill n r).1 = .ok .ok → r.peer.ready = more ++ (refill n r).2.peer.ready) := by
  have hfilled := filled_refill n hlimit hcurrent
  have hpeer : (makeRoom n r).peer = r.peer := peer_makeRoom n r
  generalize refill n r = result at hfilled
  cases hfilled with
  | enough hgains hready hroom =>
      rw [hpeer] at hready
      exact ⟨_, hgains, ⟨_, hready.symm⟩, fun _ => hready⟩
  | stopped hgains hready hless ha =>
      rw [hpeer] at hready
      exact ⟨_, hgains, hready ▸ List.prefix_refl _, fun h => absurd h ha⟩

section account

variable {c d e : StreamUnpacker} {p q next more : List UInt8}

theorem Conserves.refl (hcurrent : c.current ≤ c.limit) (hlimit : c.limit ≤ c.bytes.size) :
    Conserves c [] [] c := by
  refine ⟨?_, rfl, hcurrent, hlimit, rfl⟩
  rw [List.nil_append, List.append_nil]

theorem Conserves.trans (h : Conserves c p next d) (h' : Conserves d q more e) :
    Conserves c (p ++ q) (next ++ more) e := by
  refine ⟨?_, ?_, h'.current_le, h'.limit_le, h'.assumptions.trans h.assumptions⟩
  · rw [List.append_assoc, h'.account, ← List.append_assoc, h.account, List.append_assoc]
  · rw [h.content, h'.content, List.append_assoc]

theorem Conserves.same (h : Conserves c p next d) (hbuffer : e.buffer = d.buffer)
    (hcurrent : e.current = d.current) (hlimit : e.limit = d.limit) (hpeer : e.peer = d.peer)
    (ha : e.assumptions = d.assumptions) : Conserves c p next e := by
  have hahead : e.ahead = d.ahead := by
    rw [Context.ahead, Context.ahead, Region.unread, Region.unread, Region.bytes, Region.bytes,
      hbuffer, hcurrent, hlimit]
  refine ⟨?_, ?_, ?_, ?_, ha.trans h.assumptions⟩
  · rw [hahead]
    exact h.account
  · rw [hpeer]
    exact h.content
  · rw [hcurrent, hlimit]
    exact h.current_le
  · rw [hlimit, Region.bytes, hbuffer]
    exact h.limit_le

/-- The bytes that are passed over, and those that are delivered, can be told from both ends. -/
theorem Conserves.unique (h : Conserves c p next d) (h' : Conserves c q more d) : q = p := by
  have hnext : next = more := List.append_cancel_right (h.content.symm.trans h'.content)
  have hall : q ++ d.ahead = p ++ d.ahead := by rw [h.account, h'.account, hnext]
  exact List.append_cancel_right hall

theorem Conserves.forward (h : Conserves c p next d) {k : Nat} (hk : d.current + k ≤ d.limit) :
    Conserves c (p ++ d.ahead.take k) next (d.forward k) := by
  refine ⟨?_, h.content, hk, h.limit_le, h.assumptions⟩
  rw [Context.ahead_forward, List.append_assoc, List.take_append_drop, h.account]

theorem Conserves.refill (h : Conserves c p next d) {n : Nat} {r : Region Source}
    (hgains : Gains (makeRoom n d.toRegion) more r) :
    Conserves c p (next ++ more) (d.within r) := by
  obtain ⟨hunread, hzero, -, -, -⟩ := makeRoom_spec n h.limit_le
  have hmore : Conserves d [] more (d.within r) := by
    refine ⟨?_, ?_, ?_, hgains.limit_le, rfl⟩
    · show r.unread.toList = d.unread.toList ++ more
      rw [← hunread]
      exact hgains.unread
    · have hcontent := hgains.content
      rw [peer_makeRoom] at hcontent
      exact hcontent
    · show r.current ≤ r.limit
      rw [hgains.current, hzero]
      exact Nat.zero_le _
  have htrans := h.trans hmore
  rwa [List.append_nil] at htrans

theorem Conserves.granted (h : Conserves c p next d) {adapt : Status → Status} {n : Nat}
    {short : Status} (ha : Asked (some StreamUnpacker.refill) adapt n short d (.ok () e)) :
    ∃ more, Conserves c p (next ++ more) e ∧ d.peer.ready = more ++ e.peer.ready := by
  cases ha with
  | there =>
      refine ⟨[], ?_, rfl⟩
      rwa [List.append_nil]
  | granted hh hn hr =>
      obtain ⟨more, hgains, -, hready⟩ := gains_refill n h.limit_le h.current_le
      rw [Option.some.inj hh, hr] at hgains hready
      exact ⟨more, h.refill hgains, hready rfl⟩

theorem Conserves.refused (h : Conserves c p next d) {adapt : Status → Status} {n : Nat}
    {short : Status} {halt : Halt}
    (ha : Asked (some StreamUnpacker.refill) adapt n short d (.error halt e)) :
    ∃ more, Conserves c p (next ++ more) e ∧ more <+: d.peer.ready := by
  cases ha with
  | alone hh => exact absurd hh (Option.some_ne_none _)
  | declined hh hn hr | broken hh hn hr | raised hh hn hr =>
      obtain ⟨more, hgains, hready, -⟩ := gains_refill n h.limit_le h.current_le
      rw [Option.some.inj hh, hr] at hgains
      exact ⟨more, (h.refill hgains).same rfl rfl rfl rfl rfl, hready⟩

end account

/-! ### Calls -/

/-- A call can lead from `c` to `d`, and passes over these bytes on the way. -/
inductive Passed (c : StreamUnpacker) (p : List UInt8) (d : StreamUnpacker) : Prop
  | moved (h : Moves (some refill) c p d)
  | halted {short : Status} {halt : Halt} (h : Halted (some refill) short c p halt d)

theorem Passed.after {c d e : StreamUnpacker} {p q : List UInt8} (h' : Passed d q e)
    (h : Moves (some refill) c p d) : Passed c (p ++ q) e := by
  cases h' with
  | moved h' => exact .moved (h.trans h')
  | halted h' => exact .halted (h'.after h)

theorem Passed.of_called {c : StreamUnpacker} {p : List UInt8}
    {outcome : Except Fault Status × StreamUnpacker} (h : Called (some refill) c p outcome) :
    Passed c p outcome.2 := by
  cases h with
  | complete h hd => exact .moved h
  | halted _ h => exact .halted h

section calls

variable {c d : StreamUnpacker} {p : List UInt8} (hcurrent : c.current ≤ c.limit)
  (hlimit : c.limit ≤ c.bytes.size)

include hcurrent hlimit

theorem conserves_of_moves (h : Moves (some StreamUnpacker.refill) c p d) :
    ∃ next, Conserves c p next d ∧ c.peer.ready = next ++ d.peer.ready := by
  induction h with
  | refl => exact ⟨[], .refl hcurrent hlimit, rfl⟩
  | forward h k hk ih =>
      obtain ⟨next, hnext, hready⟩ := ih
      exact ⟨next, hnext.forward hk, hready⟩
  | asked h ha ih =>
      obtain ⟨next, hnext, hready⟩ := ih
      obtain ⟨more, hmore, hready'⟩ := hnext.granted ha
      refine ⟨next ++ more, hmore, ?_⟩
      rw [hready, hready', List.append_assoc]
  | present h item ih =>
      obtain ⟨next, hnext, hready⟩ := ih
      exact ⟨next, hnext.same rfl rfl rfl rfl rfl, hready⟩

theorem conserves_of_passed (h : Passed c p d) :
    ∃ next, Conserves c p next d ∧ next <+: c.peer.ready := by
  cases h with
  | moved h =>
      obtain ⟨next, hnext, hready⟩ := conserves_of_moves hcurrent hlimit h
      exact ⟨next, hnext, _, hready.symm⟩
  | halted h =>
      cases h with
      | refused h ha =>
          obtain ⟨next, hnext, hready⟩ := conserves_of_moves hcurrent hlimit h
          obtain ⟨more, hmore, hprefix⟩ := hnext.refused ha
          refine ⟨next ++ more, hmore, ?_⟩
          rw [hready]
          exact (List.prefix_append_right_inj next).mpr hprefix
      | malformed h =>
          obtain ⟨next, hnext, hready⟩ := conserves_of_moves hcurrent hlimit h
          exact ⟨next, hnext.same rfl rfl rfl rfl rfl, _, hready.symm⟩

theorem passed_unique {q : List UInt8} (h : Passed c p d) (h' : Passed c q d) : q = p := by
  obtain ⟨next, hnext, -⟩ := conserves_of_passed hcurrent hlimit h
  obtain ⟨more, hmore, -⟩ := conserves_of_passed hcurrent hlimit h'
  exact hnext.unique hmore

end calls

/-! ### What the source hands out -/

/-- These bytes are what the source delivers before it says that there is nothing. -/
def Awaited (r : Region Source) (rest : List UInt8) : Prop :=
  r.peer.ready = rest ∧ r.current ≤ r.limit ∧ r.limit ≤ r.bytes.size

theorem supplier_handsOut : supplier.HandsOut Awaited where
  advance := by
    rintro r rest k ⟨rfl, -, hlimit⟩ hk
    exact ⟨rfl, hk, hlimit⟩
  ok := by
    rintro r rest n r' ⟨rfl, hcurrent, hlimit⟩ hshort h
    obtain ⟨hunread, hzero, -, -, -⟩ := makeRoom_spec n hlimit
    have hfilled := filled_refill n hlimit hcurrent
    rw [show refill n r = (.ok .ok, r') from h] at hfilled
    cases hfilled with
    | enough hgains hready hroom =>
        rw [peer_makeRoom] at hready
        refine ⟨_, _, hready, ?_, hroom, hgains.limit_le, rfl, ?_, hgains.limit_le⟩
        · rw [hgains.unread, hunread]
        · rw [hgains.current, hzero]
          exact Nat.zero_le _
    | stopped _ _ _ ha => exact absurd rfl ha
  ended := by
    rintro r rest n r' ⟨rfl, hcurrent, hlimit⟩ hshort h
    obtain ⟨-, hzero, hleft, -, -⟩ := makeRoom_spec n hlimit
    have hsize := Region.size_unread hlimit
    have hfilled := filled_refill n hlimit hcurrent
    rw [show refill n r = (.ok .endOfInput, r') from h] at hfilled
    cases hfilled with
    | stopped hgains hready hless ha =>
        rw [peer_makeRoom] at hready
        rw [hgains.limit, hgains.current, hzero, hleft] at hless
        rw [hsize, hready]
        omega

/-- A context without a handler that has all bytes which the source delivers next. -/
def whole (c : StreamUnpacker) : Context Unit where
  kind := .unpacker
  assumptions := c.assumptions
  order := c.order
  buffer := ⟨(c.ahead ++ c.peer.ready).toArray, #[]⟩
  limit := (c.ahead ++ c.peer.ready).length
  peer := ()

theorem ahead_whole (c : StreamUnpacker) : c.whole.ahead = c.ahead ++ c.peer.ready := by
  rw [Context.ahead_eq]
  exact List.take_length

theorem live_whole {c : StreamUnpacker} (hc : c.Ready 0) : c.whole.Live :=
  ⟨⟨Nat.le_refl _, Nat.zero_le _, Nat.le_refl _⟩, rfl, hc.order_eq⟩

/-- The source refills the one context with the bytes that the other one has already. -/
theorem refilled_of_ready {c : StreamUnpacker} {w : Context Unit} (hc : c.Ready 0) (hw : w.Live)
    (h : w.ahead = c.ahead ++ c.peer.ready) : Refilled Awaited 0 c w where
  ready := hc.le_limit
  limit_le := hc.limit_le
  status_eq := hc.status_eq
  order_eq := hc.order_eq
  live := hw
  supply := ⟨_, ⟨rfl, hc.le_limit, hc.limit_le⟩, h.symm⟩

/-- An item that is decoded was passed over byte by byte. -/
theorem denotes_of_moves {c d : StreamUnpacker} (hc : c.Ready 0) {p : List UInt8}
    (hp : Moves (some refill) c p d) (hd : decode (some supplier) c = .ok () d) :
    ∃ i, Denotes p i ∧ d.last = some i := by
  obtain ⟨q, i, hq, -, hi, hlast⟩ :=
    denotes_of_complete (s := some supplier) refill_contained.of_eq_some hc hd
  obtain rfl : q = p := passed_unique hc.le_limit hc.limit_le (.moved hp) (.moved hq)
  exact ⟨i, hi, hlast⟩

/-! ### Events -/

/-- What can happen to an unpacker of a stream. -/
inductive Event
  | call (call : Call)
  /-- Read items, at most so many. -/
  | items (atMost : Option Nat)
  /-- Bind the context to its own unread bytes, which clears the latch. -/
  | resume
  deriving DecidableEq, Repr

namespace Event

/-- The context after an event. -/
def after : Event → StreamUnpacker → StreamUnpacker
  | .call request, c => ((request.engine (some supplier)).run c).2
  | .items atMost, c => (Unpacker.items (some supplier) Context.last atMost c).2.2
  | .resume, c => (c.rebind c.current (some c.limit)).2

/-- The event passes over these bytes. -/
def Passes (event : Event) (c : StreamUnpacker) (p : List UInt8) : Prop :=
  match event with
  | .resume => p = []
  | .call _ | .items _ => Passed c p (event.after c)

end Event

/-- The context after events, one after another. -/
def afterAll : List Event → StreamUnpacker → StreamUnpacker
  | [], c => c
  | event :: events, c => afterAll events (event.after c)

/-- The events pass over these bytes, one after another. -/
def Passes : List Event → StreamUnpacker → List UInt8 → Prop
  | [], _, p => p = []
  | event :: events, c, p =>
      ∃ first rest, event.Passes c first ∧ Passes events (event.after c) rest ∧ p = first ++ rest

/-- What every event keeps: the region is in its buffer, and a context that is not stopped can go
on. -/
structure Sound (a : Assumptions) (c : StreamUnpacker) : Prop where
  current_le : c.current ≤ c.limit
  limit_le : c.limit ≤ c.bytes.size
  assumptions : c.assumptions = a
  ready : c.status = .ok → c.Ready 0

section events

variable {a : Assumptions} {c d : StreamUnpacker}

theorem Conserves.sound {p next : List UInt8} (h : Conserves c p next d) (hc : Sound a c)
    (hready : d.status = .ok → d.Ready 0) : Sound a d :=
  ⟨h.current_le, h.limit_le, h.assumptions.trans hc.assumptions, hready⟩

theorem Sound.call (hc : Sound a c) {call : Call} {result : Except Fault Status}
    (hrun : (call.engine (some supplier)).run c = (result, d)) :
    ∃ p, Passed c p d ∧ Sound a d ∧
      (result = .ok .ok → c.Ready 0 ∧ Moves (some refill) c p d) ∧
      (call = .decode → result = .ok .endOfInput → p = []) := by
  by_cases hs : c.status = .ok
  · have hready := hc.ready hs
    obtain ⟨p, hcalled, hend⟩ :=
      called_run (s := some supplier) refill_contained.of_eq_some hready call
    rw [hrun] at hcalled hend
    have hpassed : Passed c p d := .of_called hcalled
    obtain ⟨next, hnext, -⟩ := conserves_of_passed hc.current_le hc.limit_le hpassed
    refine ⟨p, hpassed, hnext.sound hc ?_, ?_, hend⟩
    · intro hd
      rcases hcalled.latched with hok | hlatched
      · exact (hcalled.moves hok).2
      · exact absurd hd hlatched
    · intro hok
      exact ⟨hready, (hcalled.moves hok).1⟩
  · rw [run_call_of_latched hs call] at hrun
    obtain ⟨rfl, rfl⟩ := Prod.mk.inj hrun
    refine ⟨[], .moved .refl, hc, ?_, fun _ _ => rfl⟩
    intro hok
    simp [Status.ok, Status.stopped] at hok

theorem Sound.itemsLoop (hc : Sound a c) (atMost : Option Nat)
    (found : Array (Option (Item Bytes))) :
    ∃ p, Passed c p (itemsLoop (some supplier) Context.last atMost found c).2.2 ∧
      Sound a (Unpacker.itemsLoop (some supplier) Context.last atMost found c).2.2 := by
  fun_induction Unpacker.itemsLoop (some supplier) Context.last atMost found c with
  | case1 => exact ⟨[], .moved .refl, hc⟩
  | case2 atMost found c hmore d hdecode ih =>
      have hrun : (Call.decode.engine (some supplier)).run c = (.ok .ok, d) := run_of_ok hdecode
      obtain ⟨p, -, hd, hmoves, -⟩ := hc.call hrun
      obtain ⟨q, hpassed, hlast⟩ := ih hd
      exact ⟨p ++ q, hpassed.after (hmoves rfl).2, hlast⟩
  | case3 atMost found c hmore halt d hdecode =>
      have hrun : (Call.decode.engine (some supplier)).run c = (halt.result, d) :=
        run_of_error hdecode
      obtain ⟨p, hpassed, hd, -⟩ := hc.call hrun
      exact ⟨p, hpassed, hd⟩

theorem Sound.range?_unread (hc : Sound a c) :
    Context.range? c.bytes.size c.current (some c.limit) = .ok (c.current, c.limit) := by
  have hcurrent := hc.current_le
  have hlimit := hc.limit_le
  have hle : (0 : Int) ≤ c.current ∧ (c.current : Int) ≤ c.limit ∧
      (c.limit : Int) ≤ c.bytes.size := by omega
  rw [Context.range?, Option.getD_some, if_pos hle]
  rfl

/-- Binding a context to its own unread bytes keeps them, and what the source has.  The context can
go on then, unless its assumptions contradict the host. -/
theorem Sound.resume {order : Option ByteOrder} (ha : a.select = .ok order) (hc : Sound a c) :
    ∃ status d, c.rebind c.current (some c.limit) = (.ok status, d) ∧ Conserves c [] [] d ∧
      d.peer = c.peer ∧ Sound a d ∧ ∀ o, order = some o → status = .ok ∧ d.Live := by
  have hrebind : ∃ status d, c.rebind c.current (some c.limit) = (.ok status, d) ∧
      Conserves c [] [] d ∧ d.peer = c.peer ∧
      ∀ o, order = some o → status = .ok ∧ d.status = .ok := by
    have hrefl := Conserves.refl hc.current_le hc.limit_le
    unfold Context.rebind Context.bind
    rw [hc.range?_unread]
    dsimp only
    rw [hc.assumptions, ha]
    cases order with
    | none =>
        refine ⟨_, _, rfl, hrefl.same rfl rfl rfl rfl hc.assumptions.symm, rfl, ?_⟩
        intro o ho
        cases ho
    | some order =>
        exact ⟨_, _, rfl, hrefl.same rfl rfl rfl rfl hc.assumptions.symm, rfl,
          fun _ _ => ⟨rfl, rfl⟩⟩
  obtain ⟨status, d, hd, hsame, hpeer, hok⟩ := hrebind
  refine ⟨status, d, hd, hsame, hpeer, hsame.sound hc ?_, ?_⟩
  · intro hs
    have hlive := Context.live_bind hd hs
    exact hlive.ready hlive.inBounds.current_le
  · intro o ho
    obtain ⟨hstatus, hs⟩ := hok o ho
    exact ⟨hstatus, Context.live_bind hd hs⟩

theorem Sound.event {order : Option ByteOrder} (ha : a.select = .ok order) (hc : Sound a c)
    (event : Event) : ∃ p, event.Passes c p ∧ Sound a (event.after c) := by
  cases event with
  | call request =>
      have hrun : (request.engine (some supplier)).run c =
          (((request.engine (some supplier)).run c).1, Event.after (.call request) c) := rfl
      obtain ⟨p, hpassed, hd, -⟩ := hc.call hrun
      exact ⟨p, hpassed, hd⟩
  | items atMost => exact hc.itemsLoop atMost #[]
  | resume =>
      obtain ⟨status, d, h, -, -, hd, -⟩ := hc.resume ha
      have hafter : Event.after .resume c = d := congrArg Prod.snd h
      rw [hafter]
      exact ⟨[], rfl, hd⟩

/-- Whatever an event passes over, the account is kept. -/
theorem Sound.conserves {order : Option ByteOrder} (ha : a.select = .ok order) (hc : Sound a c)
    {event : Event} {p : List UInt8} (h : event.Passes c p) :
    ∃ next, Conserves c p next (event.after c) ∧ next <+: c.peer.ready := by
  cases event with
  | call | items => exact conserves_of_passed hc.current_le hc.limit_le h
  | resume =>
      obtain rfl : p = [] := h
      obtain ⟨status, d, hd, hsame, -⟩ := hc.resume ha
      have hafter : Event.after .resume c = d := congrArg Prod.snd hd
      rw [hafter]
      exact ⟨[], hsame, List.nil_prefix⟩

theorem Sound.passes {order : Option ByteOrder} (ha : a.select = .ok order) (hc : Sound a c)
    (events : List Event) :
    ∃ p next, Passes events c p ∧ Conserves c p next (afterAll events c) ∧
      Sound a (afterAll events c) := by
  induction events generalizing c with
  | nil => exact ⟨[], [], rfl, .refl hc.current_le hc.limit_le, hc⟩
  | cons event events ih =>
      obtain ⟨p, hp, hd⟩ := hc.event ha event
      obtain ⟨next, hnext, -⟩ := hc.conserves ha hp
      obtain ⟨q, more, hq, hmore, he⟩ := ih hd
      exact ⟨p ++ q, next ++ more, ⟨p, q, hp, hq, rfl⟩, hnext.trans hmore, he⟩

theorem Sound.passes_unique {order : Option ByteOrder} (ha : a.select = .ok order)
    (hc : Sound a c) {events : List Event} {p q : List UInt8} (h : Passes events c p)
    (h' : Passes events c q) : q = p := by
  induction events generalizing c p q with
  | nil => exact Eq.trans h' (Eq.symm h)
  | cons event events ih =>
      obtain ⟨first, rest, hfirst, hrest, rfl⟩ := h
      obtain ⟨first', rest', hfirst', hrest', rfl⟩ := h'
      obtain ⟨next, hnext, -⟩ := hc.conserves ha hfirst
      obtain ⟨more, hmore, -⟩ := hc.conserves ha hfirst'
      obtain ⟨-, -, hd⟩ := hc.event ha event
      rw [hnext.unique hmore, ih hd hrest hrest']

end events

/-! ### New unpackers -/

/-- A new unpacker is sound, unless the assumptions cannot be met at all. -/
theorem sound_new {source : Source} {size : Nat} {a : Assumptions} {c : StreamUnpacker}
    (h : new source size a = .ok c) :
    Sound a c ∧ c.ahead = [] ∧ c.peer = source ∧
      ∃ order, a.select = .ok order ∧ (c.status = .ok → ∃ o, order = some o) := by
  have hrange : Context.range? (Bytes.zeros size).size 0 (some 0) = .ok (0, 0) := by
    simp [Context.range?]
  obtain ⟨hbytes, hcurrent, hlimit⟩ := Context.region_new h hrange
  obtain ⟨hassumptions, horder⟩ := Context.select_new h
  have hnone : c.ahead = [] := by
    rw [Context.ahead_eq, hlimit, Nat.zero_sub, List.take_zero]
  refine ⟨⟨?_, ?_, hassumptions, ?_⟩, hnone, (Context.peer_new h).1, horder⟩
  · rw [hcurrent]
    exact Nat.zero_le _
  · rw [hlimit]
    exact Nat.zero_le _
  · intro hs
    have hc := Context.live_new h hs
    exact hc.ready hc.inBounds.current_le

/-- Reading goes on from `d` in `e`: every sequence of calls comes to what it comes to without a
handler on the bytes that are unread in `d` and those that the source delivers next, up to a call
that the source breaks off. -/
structure GoesOn (d e : StreamUnpacker) : Prop where
  live : e.Live
  ahead : e.ahead = d.ahead
  peer : e.peer = d.peer
  same : ∀ w : Context Unit, w.Live → w.ahead = d.ahead ++ d.peer.ready → ∀ calls,
    SameUntil supplier Awaited (outcomes (some supplier) calls e).1 (outcomes none calls w).1

theorem Sound.goesOn {a : Assumptions} {d : StreamUnpacker} (hd : Sound a d) {o : ByteOrder}
    (ha : a.select = .ok (some o)) :
    ∃ e, d.rebind d.current (some d.limit) = (.ok .ok, e) ∧ GoesOn d e := by
  obtain ⟨status, e, h, hsame, hpeer, -, hok⟩ := hd.resume ha
  obtain ⟨rfl, hlive⟩ := hok o rfl
  have hahead : e.ahead = d.ahead := by
    have haccount := hsame.account
    rwa [List.nil_append, List.append_nil] at haccount
  refine ⟨e, h, hlive, hahead, hpeer, ?_⟩
  intro w hw hwhole calls
  have hready : e.Ready 0 := hlive.ready hlive.inBounds.current_le
  have hrefilled := refilled_of_ready hready hw (by rw [hwhole, hahead, hpeer])
  exact (hrefilled.outcomes supplier_handsOut calls).1

/-- Reading from a stream conserves bytes.  Whatever the source does, whatever is called, and
however often the context is bound to its own unread bytes: the bytes that were passed over,
followed by the unread ones, are those that the source has delivered, also in the middle of the
next call.

A complete call that decodes passes over its item exactly.  One that finds the end of the input
passes over nothing, nor does any call if no bytes are unread and the source has none ready; so
what stops there, be it the end or a failure of the source, can be resumed with the next item.
Wherever reading has stopped, the context that is bound to its unread bytes goes on with them. -/
theorem stream_conserved {source : Source} {size : Nat} {a : Assumptions} {c d : StreamUnpacker}
    {events : List Event} (hnew : new source size a = .ok c) (hd : afterAll events c = d) :
    ∃ passed delivered, (∀ p, Passes events c p ↔ p = passed) ∧
      source.content = delivered ++ d.peer.content ∧ passed ++ d.ahead = delivered ∧
      (∀ p e, Moves (some refill) d p e → ∃ next, d.peer.content = next ++ e.peer.content ∧
        passed ++ p ++ e.ahead = delivered ++ next) ∧
      (∀ p e, decode (some supplier) d = .ok () e → Passes [.call .decode] d p →
        ∃ i, Denotes p i ∧ e.last = some i) ∧
      (∀ p e, (decode (some supplier)).run d = (.ok .endOfInput, e) →
        Passes [.call .decode] d p → p = []) ∧
      (d.ahead = [] → d.peer.ready = [] → ∀ p event, Passes [event] d p → p = []) ∧
      (c.status = .ok → ∃ e, d.rebind d.current (some d.limit) = (.ok .ok, e) ∧ GoesOn d e) := by
  obtain ⟨hc, hahead, hpeer, order, ha, horder⟩ := sound_new hnew
  obtain ⟨passed, delivered, hpassed, haccount, hsound⟩ := hc.passes ha events
  rw [hd] at haccount hsound
  have hcontent : source.content = delivered ++ d.peer.content := by
    rw [← hpeer]
    exact haccount.content
  have hconserved : passed ++ d.ahead = delivered := by
    rw [haccount.account, hahead, List.nil_append]
  have hsingle : ∀ {event p}, Passes [event] d p → event.Passes d p := by
    rintro event p ⟨first, rest, hfirst, rfl, rfl⟩
    rwa [List.append_nil]
  refine ⟨passed, delivered, ?_, hcontent, hconserved, ?_, ?_, ?_, ?_, ?_⟩
  · intro p
    constructor
    · intro hp
      exact hc.passes_unique ha hpassed hp
    · rintro rfl
      exact hpassed
  · intro p e hp
    obtain ⟨next, hnext, -⟩ := conserves_of_moves hsound.current_le hsound.limit_le hp
    refine ⟨next, hnext.content, ?_⟩
    rw [List.append_assoc, hnext.account, ← List.append_assoc, hconserved]
  · intro p e hdecode hp
    have hrun : (Call.decode.engine (some supplier)).run d = (.ok .ok, e) := run_of_ok hdecode
    obtain ⟨q, hq, -, hmoves, -⟩ := hsound.call hrun
    obtain ⟨hready, hq'⟩ := hmoves rfl
    have hafter : Event.after (.call .decode) d = e := congrArg Prod.snd hrun
    have hpassed : Passed d p e := hafter ▸ hsingle hp
    obtain rfl : q = p := passed_unique hsound.current_le hsound.limit_le hpassed hq
    exact denotes_of_moves hready hq' hdecode
  · intro p e hend hp
    have hrun : (Call.decode.engine (some supplier)).run d = (.ok .endOfInput, e) := hend
    obtain ⟨q, hq, -, -, hnothing⟩ := hsound.call hrun
    have hafter : Event.after (.call .decode) d = e := congrArg Prod.snd hrun
    have hpassed : Passed d p e := hafter ▸ hsingle hp
    obtain rfl : q = p := passed_unique hsound.current_le hsound.limit_le hpassed hq
    exact hnothing rfl rfl
  · intro hunread hnothing p event hp
    obtain ⟨next, hnext, hprefix⟩ := hsound.conserves ha (hsingle hp)
    rw [hnothing, List.prefix_nil] at hprefix
    have hnil := hnext.account
    rw [hunread, hprefix, List.append_nil, List.append_eq_nil_iff] at hnil
    exact hnil.1
  · intro hs
    obtain ⟨o, rfl⟩ := horder hs
    exact hsound.goesOn ha

/-- A text that is delivered in two parts, with more than was asked for; then the device fails
between two items, and the context is bound to its unread bytes to read the last one. -/
theorem stream_conserved_device_failure :
    ∃ (c d : StreamUnpacker) (source : Source) (events : List Event),
      source = { manner := .readOver, chunks := [.data #[0xA2, 0x61], .data #[0x62, 0xC0, 0x05],
        .fault (.device (some 5)), .data #[0x92]] } ∧
      events = [.call .decode, .call (.skip 2), .call .decode, .resume, .call .decode] ∧
      new source 1 {} = .ok c ∧ afterAll events c = d ∧ d.last = some (.array 2) ∧
      ∀ p, Passes events c p ↔ p = [0xA2, 0x61, 0x62, 0xC0, 0x05, 0x92] := by
  obtain ⟨source, c, events, hsource, hevents, hnew, hlast, hahead, hcontent, hall⟩ :
      ∃ (source : Source) (c : StreamUnpacker) (events : List Event),
      source = { manner := .readOver, chunks := [.data #[0xA2, 0x61], .data #[0x62, 0xC0, 0x05],
        .fault (.device (some 5)), .data #[0x92]] } ∧
      events = [.call .decode, .call (.skip 2), .call .decode, .resume, .call .decode] ∧
      new source 1 {} = .ok c ∧ (afterAll events c).last = some (.array 2) ∧
      (afterAll events c).ahead = [] ∧ (afterAll events c).peer.content = [] ∧
      source.content = [0xA2, 0x61, 0x62, 0xC0, 0x05, 0x92] :=
    ⟨_, _, _, rfl, rfl, rfl, by cbv, by cbv, by cbv, rfl⟩
  obtain ⟨passed, delivered, hpasses, hdelivered, hconserved, -⟩ := stream_conserved hnew rfl
  rw [hcontent, List.append_nil, hall] at hdelivered
  rw [hahead, List.append_nil] at hconserved
  rw [hconserved, ← hdelivered] at hpasses
  exact ⟨c, _, source, events, hsource, hevents, hnew, rfl, hlast, hpasses⟩

end StreamUnpacker
end MessagePack
