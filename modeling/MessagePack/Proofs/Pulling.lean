import MessagePack.Proofs.Bounding
import MessagePack.Proofs.Conserving

/-! # The loop of a refill

A read of no bytes yields none, which would be taken for the end of the input and latched.  So a
full buffer must never be read into, and it never is: room is made for all that is needed before the
loop begins, and the loop reads only as long as less than that is there (`StreamUnpacker.Front`).

`StreamUnpacker.Pulls` is the loop as it runs, with the region at each of its reads.  What one read
keeps is `StreamUnpacker.front_more` and `StreamUnpacker.front_stopped`, and by induction along the
loop it holds at every read (`StreamUnpacker.Pulls.front`).  Each read but the last has brought a
byte at least, so there are no more reads than missing bytes (`StreamUnpacker.Pulls.length_le`); and
the answer is told by the last delivery (`StreamUnpacker.Pulls.ends`).  Together they say what a
refill comes to from any place that reading can get to (`StreamUnpacker.refill_pulls_until_enough`).
-/

namespace MessagePack

/-! ### Deliveries -/

namespace Delivery

/-- The read delivers nothing.  That there is nothing at the moment is told apart from an empty byte
string, but not by a count of bytes. -/
def Nothing (manner : Manner) (delivery : Delivery) : Prop :=
  delivery = .data #[] ∨ delivery = .ended ∨ delivery = .absent ∧ manner = .readInto

/-- The device fails. -/
def Fails (delivery : Delivery) : Prop :=
  ∃ fault : Fault, delivery = .fault fault ∧ fault.isDevice = true

section verdict

variable {manner : Manner} {delivery : Delivery}

theorem Nothing.bytes_eq_nil (h : delivery.Nothing manner) : delivery.bytes = [] := by
  rcases h with rfl | rfl | ⟨rfl, -⟩ <;> rfl

theorem Fails.bytes_eq_nil (h : delivery.Fails) : delivery.bytes = [] := by
  obtain ⟨fault, rfl, -⟩ := h
  rfl

theorem nothing_of_data {bytes : Bytes} (h : (data bytes).bytes = []) :
    (data bytes).Nothing manner := by
  obtain rfl : bytes = #[] := Array.toList_eq_nil_iff.mp h
  exact .inl rfl

theorem verdict_eq_endOfInput_iff (hnone : delivery.bytes = []) :
    delivery.verdict manner = .ok .endOfInput ↔ delivery.Nothing manner := by
  cases delivery with
  | data bytes =>
      obtain rfl : bytes = #[] := Array.toList_eq_nil_iff.mp hnone
      exact ⟨fun _ => .inl rfl, fun _ => rfl⟩
  | ended => exact ⟨fun _ => .inr (.inl rfl), fun _ => rfl⟩
  | absent => simp [verdict, Nothing]
  | fault raised =>
      cases hdevice : raised.isDevice <;>
        simp [verdict, Nothing, hdevice, Status.endOfInput, Status.errorInHandler]

theorem verdict_eq_errorInHandler_iff :
    delivery.verdict manner = .ok .errorInHandler ↔ delivery.Fails := by
  cases delivery with
  | data | ended => simp [verdict, Fails, Status.endOfInput, Status.errorInHandler]
  | absent =>
      cases manner <;> simp [verdict, Fails, Status.endOfInput, Status.errorInHandler]
  | fault raised => simp [verdict, Fails]

end verdict
end Delivery

namespace Source

/-- The source has nothing in its queue but bytes, reads that deliver nothing and failures of its
device. -/
def Plain (s : Source) : Prop :=
  s.Raises (fun fault => fault.isDevice = true) ∧ (.absent ∈ s.chunks → s.manner = .readInto)

theorem Plain.read {s : Source} (h : s.Plain) (size : Nat) :
    (s.read size).2.Plain ∧ ((s.read size).1.bytes = [] →
      (s.read size).1.Nothing s.manner ∨ (s.read size).1.Fails) := by
  obtain ⟨hraises, habsent⟩ := h
  have hread := hraises.read size
  unfold Source.read at hread ⊢
  cases hs : s.chunks with
  | nil =>
      rw [hs] at hread
      refine ⟨⟨hread.1, fun h => nomatch h⟩, fun _ => .inl ?_⟩
      show (exhausted s.manner).Nothing s.manner
      unfold exhausted
      split
      · exact .inr (.inl rfl)
      · exact .inl rfl
  | cons chunk rest =>
      rw [hs] at hread habsent
      have hrest : .absent ∈ rest → s.manner = .readInto := fun h =>
        habsent (List.mem_cons_of_mem _ h)
      cases chunk with
      | absent =>
          exact ⟨⟨hread.1, hrest⟩, fun _ => .inl (.inr (.inr ⟨rfl, habsent List.mem_cons_self⟩))⟩
      | fault raised => exact ⟨⟨hread.1, hrest⟩, fun _ => .inr ⟨raised, rfl, hread.2 raised rfl⟩⟩
      | data bytes =>
          simp only [deliver] at hread ⊢
          split_ifs at hread ⊢ with hwhole
          · exact ⟨⟨hread.1, hrest⟩, fun h => .inl (Delivery.nothing_of_data h)⟩
          · refine ⟨⟨hread.1, fun h => ?_⟩, fun h => .inl (Delivery.nothing_of_data h)⟩
            rcases List.mem_cons.mp h with h | h
            · cases h
            · exact hrest h

end Source

namespace StreamUnpacker

/-! ### The loop -/

/-- The loop of a refill as it runs, with the region at each of its reads.  It reads as long as
bytes are missing, and a read that brings none ends it. -/
inductive Pulls (needed : Nat) :
    Region Source → List (Region Source) → Except Fault Status × Region Source → Prop
  | enough {r : Region Source} (h : needed ≤ r.limit) : Pulls needed r [] (.ok .ok, r)
  | more {r r' : Region Source} {reads : List (Region Source)}
      {outcome : Except Fault Status × Region Source} (h : r.limit < needed)
      (hread : readOnce r = (none, r')) (rest : Pulls needed r' reads outcome) :
      Pulls needed r (r :: reads) outcome
  | stopped {r r' : Region Source} {answer : Except Fault Status} (h : r.limit < needed)
      (hread : readOnce r = (some answer, r')) : Pulls needed r [r] (answer, r')

/-- What the next read into the free part of the buffer yields. -/
def yielded (r : Region Source) : Delivery := (r.peer.read (r.bytes.size - r.limit)).1

/-- What the source records of this read. -/
def readEvent (r : Region Source) : ReadEvent := ⟨r.bytes.size - r.limit, (yielded r).outcome⟩

/-- The bytes that were brought by the reads into these regions. -/
def brought (reads : List (Region Source)) : List UInt8 := reads.flatMap fun q => (yielded q).bytes

/-- What the loop keeps: these bytes are unread and at the front of the buffer, which is large
enough for all that is needed. -/
structure Front (needed : Nat) (b : List UInt8) (r : Region Source) : Prop where
  start : r.start = 0
  current : r.current = 0
  unread : (Bytes.slice r.bytes 0 r.limit).toList = b
  limit_le : r.limit ≤ r.bytes.size
  size : needed ≤ r.bytes.size

section loop

variable {needed : Nat} {b : List UInt8} {r r' : Region Source} {reads : List (Region Source)}
  {outcome : Except Fault Status × Region Source}

theorem Pulls.unique {reads' : List (Region Source)}
    {outcome' : Except Fault Status × Region Source} (h : Pulls needed r reads outcome)
    (h' : Pulls needed r reads' outcome') : reads' = reads ∧ outcome' = outcome := by
  induction h generalizing reads' outcome' with
  | enough h =>
      cases h' with
      | enough => exact ⟨rfl, rfl⟩
      | more h' | stopped h' => omega
  | more h hread rest ih =>
      cases h' with
      | enough h' => omega
      | more _ hread' rest' =>
          cases hread.symm.trans hread'
          obtain ⟨rfl, rfl⟩ := ih rest'
          exact ⟨rfl, rfl⟩
      | stopped _ hread' => cases hread.symm.trans hread'
  | stopped h hread =>
      cases h' with
      | enough h' => omega
      | more _ hread' => cases hread.symm.trans hread'
      | stopped _ hread' =>
          cases hread.symm.trans hread'
          exact ⟨rfl, rfl⟩

theorem pulls_fill (needed : Nat) (r : Region Source) :
    ∃ reads, Pulls needed r reads (fill needed r) := by
  fun_induction fill needed r with
  | case1 r hshort answer r' hread => exact ⟨[r], .stopped hshort hread⟩
  | case2 r hshort r' hread ih =>
      obtain ⟨reads, hrest⟩ := ih
      exact ⟨r :: reads, .more hshort hread hrest⟩
  | case3 r henough => exact ⟨[], .enough (Nat.not_lt.mp henough)⟩

/-! ### What a read keeps -/

theorem Front.length (h : Front needed b r) : b.length = r.limit := by
  rw [← h.unread, Array.length_toList, Bytes.size_slice, Nat.min_eq_left h.limit_le, Nat.sub_zero]

theorem Front.unread_eq (h : Front needed b r) : r.unread.toList = b := by
  rw [Region.unread, h.current]
  exact h.unread

theorem front_makeRoom (needed : Nat) (hlimit : r.limit ≤ r.bytes.size) :
    Front needed r.unread.toList (makeRoom needed r) := by
  obtain ⟨hunread, hcurrent, -, hle, hsize⟩ := makeRoom_spec needed hlimit
  rw [Region.unread, hcurrent] at hunread
  exact ⟨rfl, hcurrent, hunread, hle, hsize⟩

theorem front_more (h : Front needed b r) (hread : readOnce r = (none, r')) :
    Front needed (b ++ (yielded r).bytes) r' ∧ (yielded r).bytes ≠ [] ∧
      r'.peer = (r.peer.read (r.bytes.size - r.limit)).2 := by
  have hreads := reads_readOnce r
  rw [hread] at hreads
  unfold yielded
  generalize r.peer.read (r.bytes.size - r.limit) = result at hreads
  cases hreads with
  | @bytes bytes t hb =>
      have hcurrent : r.current ≤ r.limit := h.current ▸ Nat.zero_le _
      have hunread := unread_received hcurrent h.limit_le t bytes
      have hfront : (received r t bytes).current = 0 := h.current
      rw [h.unread_eq, Region.unread, hfront] at hunread
      have hsize := size_received r t bytes
      have hlimit : (received r t bytes).limit = r.limit + bytes.size := rfl
      have hinside := h.limit_le
      have hneeded := h.size
      have hle : (received r t bytes).limit ≤ (received r t bytes).bytes.size := by omega
      have hlarge : needed ≤ (received r t bytes).bytes.size := by omega
      refine ⟨⟨h.start, h.current, hunread, hle, hlarge⟩, ?_, rfl⟩
      intro hnil
      rw [Array.toList_eq_nil_iff.mp hnil] at hb
      cases hb

theorem front_stopped {answer : Except Fault Status} (h : Front needed b r)
    (hread : readOnce r = (some answer, r')) :
    Front needed b r' ∧ (yielded r).bytes = [] ∧
      answer = (yielded r).verdict r.peer.manner ∧
      r'.peer = (r.peer.read (r.bytes.size - r.limit)).2 := by
  have hreads := reads_readOnce r
  have hmanner : (r.peer.read (r.bytes.size - r.limit)).2.manner = r.peer.manner := rfl
  rw [hread] at hreads
  unfold yielded
  generalize r.peer.read (r.bytes.size - r.limit) = result at hreads hmanner
  cases hreads with
  | nothing hd ha =>
      rw [hmanner] at ha
      exact ⟨⟨h.start, h.current, h.unread, h.limit_le, h.size⟩, Delivery.bytes_eq_nil hd, ha.symm,
        rfl⟩

/-! ### What the loop keeps -/

theorem Pulls.front (h : Pulls needed r reads outcome) (hr : Front needed b r) :
    (∀ before q after, reads = before ++ q :: after →
      Front needed (b ++ brought before) q ∧ q.limit < needed) ∧
      Front needed (b ++ brought reads) outcome.2 := by
  induction h generalizing b with
  | enough h =>
      refine ⟨?_, ?_⟩
      · intro before q after heq
        simp at heq
      · rwa [brought, List.flatMap_nil, List.append_nil]
  | @more r r' reads outcome hshort hread rest ih =>
      obtain ⟨hr', -⟩ := front_more hr hread
      obtain ⟨hfront, hlast⟩ := ih hr'
      refine ⟨?_, ?_⟩
      · intro before q after heq
        cases before with
        | nil =>
            obtain ⟨rfl, -⟩ := List.cons.inj heq
            rw [brought, List.flatMap_nil, List.append_nil]
            exact ⟨hr, hshort⟩
        | cons first before =>
            obtain ⟨rfl, hrest⟩ := List.cons.inj heq
            rw [brought, List.flatMap_cons, ← List.append_assoc]
            exact hfront before q after hrest
      · rwa [brought, List.flatMap_cons, ← List.append_assoc]
  | @stopped r r' answer hshort hread =>
      obtain ⟨hr', hnone, -⟩ := front_stopped hr hread
      refine ⟨?_, ?_⟩
      · intro before q after heq
        obtain ⟨rfl, rfl⟩ : before = [] ∧ r = q := by
          cases before with
          | nil => exact ⟨rfl, (List.cons.inj heq).1⟩
          | cons first before => simp at heq
        rw [brought, List.flatMap_nil, List.append_nil]
        exact ⟨hr, hshort⟩
      · rwa [brought, List.flatMap_singleton, hnone, List.append_nil]

theorem Pulls.length_le (h : Pulls needed r reads outcome) (hr : Front needed b r) :
    reads.length ≤ needed - r.limit := by
  induction h generalizing b with
  | enough => exact Nat.zero_le _
  | @more r r' reads outcome hshort hread rest ih =>
      obtain ⟨hr', hsome, -⟩ := front_more hr hread
      have hle := ih hr'
      have hpos := List.length_pos_iff.mpr hsome
      have hlength := hr'.length
      rw [List.length_append, hr.length] at hlength
      rw [List.length_cons]
      omega
  | stopped hshort =>
      rw [List.length_singleton]
      omega

theorem Pulls.journal (h : Pulls needed r reads outcome) (hr : Front needed b r) :
    outcome.2.peer.journal = r.peer.journal ++ (reads.map readEvent).toArray := by
  have hpush : ∀ r : Region Source, (r.peer.read (r.bytes.size - r.limit)).2.journal =
      r.peer.journal.push (readEvent r) := fun _ => rfl
  induction h generalizing b with
  | enough => simp
  | @more r r' reads outcome hshort hread rest ih =>
      obtain ⟨hr', -, hpeer⟩ := front_more hr hread
      rw [ih hr', hpeer, hpush, List.map_cons]
      simp
  | @stopped r r' answer hshort hread =>
      obtain ⟨-, -, -, hpeer⟩ := front_stopped hr hread
      rw [hpeer, hpush]
      simp

/-- How the loop ends.  All reads have brought bytes and there are enough; or the last one has
brought none, and its delivery tells why. -/
inductive Ends (needed : Nat) (manner : Manner) :
    List (Region Source) → Except Fault Status × Region Source → Prop
  | enough {reads : List (Region Source)} {r : Region Source}
      (hb : ∀ q ∈ reads, (yielded q).bytes ≠ []) (h : needed ≤ r.limit) :
      Ends needed manner reads (.ok .ok, r)
  | stopped {reads : List (Region Source)} {q r : Region Source}
      (hb : ∀ q ∈ reads, (yielded q).bytes ≠ []) (hq : (yielded q).bytes = [])
      (h : r.limit < needed) : Ends needed manner (reads ++ [q]) ((yielded q).verdict manner, r)

theorem Ends.cons {manner : Manner} (h : Ends needed manner reads outcome)
    (hr : (yielded r).bytes ≠ []) : Ends needed manner (r :: reads) outcome := by
  cases h with
  | enough hb h => exact .enough (List.forall_mem_cons.mpr ⟨hr, hb⟩) h
  | @stopped reads q last hb hq h =>
      have hall : ∀ q ∈ r :: reads, (yielded q).bytes ≠ [] := List.forall_mem_cons.mpr ⟨hr, hb⟩
      exact .stopped hall hq h

theorem Ends.iff_of_bytes {manner : Manner} {P : Delivery → Prop} {status : Status}
    (h : Ends needed manner reads outcome) (hs : status ≠ .ok)
    (hnone : ∀ delivery, P delivery → delivery.bytes = [])
    (hiff : ∀ delivery : Delivery, delivery.bytes = [] →
      (delivery.verdict manner = .ok status ↔ P delivery)) :
    outcome.1 = .ok status ↔ ∃ q ∈ reads, P (yielded q) := by
  cases h with
  | enough hb h =>
      constructor
      · intro hok
        exact absurd (Except.ok.inj hok).symm hs
      · rintro ⟨q, hq, hP⟩
        exact absurd (hnone _ hP) (hb q hq)
  | @stopped reads q r hb hq h =>
      rw [hiff _ hq]
      constructor
      · intro hP
        exact ⟨q, by simp, hP⟩
      · rintro ⟨q', hq', hP⟩
        rcases List.mem_append.mp hq' with hmem | hmem
        · exact absurd (hnone _ hP) (hb q' hmem)
        · rwa [List.mem_singleton.mp hmem] at hP

theorem Pulls.ends (h : Pulls needed r reads outcome) (hr : Front needed b r) :
    Ends needed r.peer.manner reads outcome := by
  induction h generalizing b with
  | enough h => exact .enough (List.forall_mem_nil _) h
  | @more r r' reads outcome hshort hread rest ih =>
      obtain ⟨hr', hsome, hpeer⟩ := front_more hr hread
      have hends := ih hr'
      rw [hpeer] at hends
      exact hends.cons hsome
  | @stopped r r' answer hshort hread =>
      obtain ⟨hr', hnone, rfl, -⟩ := front_stopped hr hread
      have hless : r'.limit < needed := by
        rw [← hr'.length, hr.length]
        exact hshort
      have hall : ∀ q ∈ ([] : List (Region Source)), (yielded q).bytes ≠ [] :=
        List.forall_mem_nil _
      exact .stopped hall hnone hless

theorem Pulls.plain (h : Pulls needed r reads outcome) (hr : Front needed b r)
    (hplain : r.peer.Plain) :
    ∀ q ∈ reads, (yielded q).bytes = [] →
      (yielded q).Nothing r.peer.manner ∨ (yielded q).Fails := by
  induction h generalizing b with
  | enough => exact List.forall_mem_nil _
  | @more r r' reads outcome hshort hread rest ih =>
      obtain ⟨hr', -, hpeer⟩ := front_more hr hread
      obtain ⟨hplain', hyield⟩ := hplain.read (r.bytes.size - r.limit)
      have hrest := ih hr' (hpeer ▸ hplain')
      rw [hpeer] at hrest
      exact List.forall_mem_cons.mpr ⟨hyield, hrest⟩
  | stopped => exact List.forall_mem_singleton.mpr (hplain.read _).2

end loop

/-! ### Refilling -/

/-- What refilling the region for `needed` bytes comes to, with these reads. -/
structure Pulled (needed : Nat) (r : Region Source) (reads : List (Region Source))
    (outcome : Except Fault Status × Region Source) : Prop where
  /-- The loop runs like this and not otherwise. -/
  runs : ∀ reads' outcome', Pulls needed (makeRoom needed r) reads' outcome' ↔
    reads' = reads ∧ outcome' = outcome
  /-- Each read asks for a byte at least, with the unread bytes and those that were brought before
  it at the front of the buffer. -/
  asks : ∀ before q after, reads = before ++ q :: after →
    q.start = 0 ∧ q.current = 0 ∧ 1 ≤ q.bytes.size - q.limit ∧
      (Bytes.slice q.bytes 0 q.limit).toList = r.unread.toList ++ brought before
  /-- These are all reads of the source. -/
  journal : outcome.2.peer.journal = r.peer.journal ++ (reads.map readEvent).toArray
  few : reads.length ≤ needed - (r.limit - r.current)
  ok_iff : outcome.1 = .ok .ok ↔ (needed : Int) ≤ outcome.2.remaining
  ended_iff : outcome.1 = .ok .endOfInput ↔ ∃ q ∈ reads, (yielded q).Nothing r.peer.manner
  failed_iff : outcome.1 = .ok .errorInHandler ↔ ∃ q ∈ reads, (yielded q).Fails
  /-- If the reads of the source deliver bytes, deliver nothing or fail, these are all the answers
  that there can be. -/
  answers : r.peer.Plain → outcome.1 = .ok .ok ∨ outcome.1 = .ok .endOfInput ∨
    outcome.1 = .ok .errorInHandler

section refilling

variable {needed : Nat} {r : Region Source}

/-- Whatever the region, as long as it lies in its buffer and bytes are missing. -/
theorem pulled_refill (hcurrent : r.current ≤ r.limit) (hlimit : r.limit ≤ r.bytes.size) :
    ∃ reads, Pulled needed r reads (refill needed r) := by
  rw [refill_eq hcurrent]
  have hfront := front_makeRoom needed hlimit
  have hpeer : (makeRoom needed r).peer = r.peer := peer_makeRoom needed r
  have hleft : (makeRoom needed r).limit = r.limit - r.current := rfl
  obtain ⟨reads, hpulls⟩ := pulls_fill needed (makeRoom needed r)
  obtain ⟨hreads, hlast⟩ := hpulls.front hfront
  have hends := hpulls.ends hfront
  have hjournal := hpulls.journal hfront
  have hplain := hpulls.plain hfront
  have hfew := hpulls.length_le hfront
  rw [hpeer] at hends hjournal hplain
  rw [hleft] at hfew
  refine ⟨reads, ?_, ?_, hjournal, hfew, ?_, ?_, ?_, ?_⟩
  · intro reads' outcome'
    constructor
    · exact hpulls.unique
    · rintro ⟨rfl, rfl⟩
      exact hpulls
  · intro before q after heq
    obtain ⟨hq, hmissing⟩ := hreads before q after heq
    have hfree := Nat.sub_pos_of_lt (Nat.lt_of_lt_of_le hmissing hq.size)
    exact ⟨hq.start, hq.current, hfree, hq.unread⟩
  · rw [Region.remaining, hlast.current, Int.natCast_zero, Int.sub_zero, Int.ofNat_le]
    generalize fill needed (makeRoom needed r) = outcome at hends
    cases hends with
    | enough hb h => exact ⟨fun _ => h, fun _ => rfl⟩
    | stopped hb hq h =>
        exact ⟨fun hok => absurd hok (Delivery.verdict_ne_ok _ _),
          fun henough => absurd h (Nat.not_lt.mpr henough)⟩
  · exact hends.iff_of_bytes (by decide) (fun _ => Delivery.Nothing.bytes_eq_nil) fun _ =>
      Delivery.verdict_eq_endOfInput_iff
  · exact hends.iff_of_bytes (by decide) (fun _ => Delivery.Fails.bytes_eq_nil) fun _ _ =>
      Delivery.verdict_eq_errorInHandler_iff
  · intro hp
    have hyields := hplain hp
    generalize fill needed (makeRoom needed r) = outcome at hends
    cases hends with
    | enough => exact .inl rfl
    | @stopped reads q r' hb hq h =>
        rcases hyields q (by simp) hq with hnothing | hfails
        · exact .inr (.inl ((Delivery.verdict_eq_endOfInput_iff hq).mpr hnothing))
        · exact .inr (.inr (Delivery.verdict_eq_errorInHandler_iff.mpr hfails))

end refilling

/-! ### All states -/

open Unpacker

/-- The states that an unpacker of this source gets to, between the calls on it and in the middle of
one that reads.  The latch is cleared by binding the unpacker anew, and not from outside. -/
inductive Reachable (source : Source) (size : Nat) (a : Assumptions) : StreamUnpacker → Prop
  | new {c : StreamUnpacker} (h : StreamUnpacker.new source size a = .ok c) :
      Reachable source size a c
  | call {u : UnpackSession Source} {step : UnpackStep} (h : Reachable source size a u.context)
      (hstep : step ≠ .common (.latch .ok)) :
      Reachable source size a (u.run (some supplier) step).2.context
  | within {c d : StreamUnpacker} {p : List UInt8} (h : Reachable source size a c)
      (hs : c.status = .ok) (hmoves : Moves (some refill) c p d) : Reachable source size a d

section reachable

variable {source : Source} {size needed : Nat} {a : Assumptions} {c : StreamUnpacker}

theorem Reachable.confined (h : Reachable source size a c) :
    Context.Confined (Source.Raises fun _ => True) c := by
  induction h with
  | new h => exact Context.confined_new (fun _ _ => trivial) h
  | @call u step _ hstep ih =>
      -- asking for the byte order is not blind, but leaves the unpacker as it is
      by_cases horder : step = .common .order
      · rw [horder]
        exact ih
      · have hblind : step.Blind := by
          cases step with
          | common step =>
              exact ⟨fun h => horder (congrArg _ h), fun h => hstep (congrArg _ h)⟩
          | _ => trivial
        exact (UnpackSession.settled_run refill_contained.of_eq_some refill_confined.of_eq_some
          hblind ih).confined
  | within _ hs hmoves ih => exact (hmoves.confined refill_confined.of_eq_some ih hs).1

/-- A full buffer is never taken for the end of the input.  Whatever size the buffer begins with and
wherever reading has got to, if more is needed than is there, each read asks for a byte at least,
and what was unread stays at the front of the buffer.  The loop ends after at most as many reads as
bytes are missing: with enough bytes, because a read has delivered nothing, or because the device
has failed. -/
theorem refill_pulls_until_enough (hc : Reachable source size a c) :
    ∃ reads, Pulled needed c.toRegion reads (refill needed c.toRegion) :=
  pulled_refill hc.confined.inBounds.current_le hc.confined.inBounds.limit_le

end reachable

/-- The buffer is full, with the first byte of a text of five at its end.  A second byte of the text
comes, then the device fails. -/
theorem refill_pulls_until_enough_in_text :
    ∃ (c : StreamUnpacker) (reads : List (Region Source)),
      Reachable { manner := .readInto, chunks := [.data #[0x05, 0xA5, 0x61], .data #[0x62],
        .fault (.device (some 5))] } 3 {} c ∧
      c.limit = c.bytes.size ∧ c.ahead = [0x61] ∧ c.limit < c.current + 5 ∧
      Pulled 5 c.toRegion reads (refill 5 c.toRegion) ∧ reads.length = 2 ∧
      (refill 5 c.toRegion).1 = .ok .errorInHandler := by
  obtain ⟨b, c, hnew, hcall, hstatus, hin, hfull, hahead, hshort, hbefore, hafter, hfailed⟩ :
      ∃ b c : StreamUnpacker,
      StreamUnpacker.new { manner := .readInto, chunks := [.data #[0x05, 0xA5, 0x61],
        .data #[0x62], .fault (.device (some 5))] } 3 {} = .ok b ∧
      (UnpackSession.run (some supplier) { context := b } .decode).2.context = c ∧
      c.status = .ok ∧ c.current + 1 ≤ c.limit ∧ (c.forward 1).limit = (c.forward 1).bytes.size ∧
      (c.forward 1).ahead = [0x61] ∧ (c.forward 1).limit < (c.forward 1).current + 5 ∧
      (c.forward 1).peer.journal.size = 1 ∧
      (refill 5 (c.forward 1).toRegion).2.peer.journal.size = 3 ∧
      (refill 5 (c.forward 1).toRegion).1 = .ok .errorInHandler :=
    ⟨_, _, rfl, rfl, by cbv, by cbv, by cbv, by cbv, by cbv, by cbv, by cbv, by cbv⟩
  have hdecode : (.decode : UnpackStep) ≠ .common (.latch .ok) := by decide
  have hreach := @Reachable.call _ _ _ { context := b } _ (.new hnew) hdecode
  rw [hcall] at hreach
  have hc := hreach.within hstatus (Moves.refl.forward 1 hin)
  obtain ⟨reads, hpulled⟩ := refill_pulls_until_enough hc
  refine ⟨c.forward 1, reads, hc, hfull, hahead, hshort, hpulled, ?_, hfailed⟩
  have hcount := congrArg Array.size hpulled.journal
  rw [hafter, Array.size_append, hbefore, List.size_toArray, List.length_map] at hcount
  omega

end StreamUnpacker
end MessagePack
