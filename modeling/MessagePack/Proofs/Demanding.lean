import MessagePack.Proofs.Arriving
import MessagePack.Proofs.Bounding
import MessagePack.Proofs.Lockstep

/-! # Reading in want of bytes

An unpacker of a source has it read only when the bytes that have arrived are not enough: whenever
the source is read in the middle of a call, the call without a handler runs short on these bytes
(`StreamUnpacker.frugal_call`).

The reads are traced by `Source.Demands`, together with the bytes that were there at each of them.
A refill reads only as long as bytes are missing that it was asked for, and it is asked for no more
than the step without a handler wants (`StreamUnpacker.sparing_require`).  What the steps of an item
have in common with that is `Lockstep`. -/

namespace MessagePack

open Engine Unpacker

/-! ### Reads -/

namespace Source

/-- The source has come from one state to another by reads, which have delivered some bytes.  At
each of these reads, the bytes that were there to begin with and those that were delivered since
satisfy `P`. -/
inductive Demands (P : List UInt8 → Prop) : List UInt8 → Source → List UInt8 → Source → Prop
  | done (b : List UInt8) (s : Source) : Demands P b s [] s
  | read {b next : List UInt8} {s t : Source} (size : Nat) (h : P b)
      (rest : Demands P (b ++ (s.read size).1.bytes) (s.read size).2 next t) :
      Demands P b s ((s.read size).1.bytes ++ next) t

variable {P Q : List UInt8 → Prop} {b b' next more : List UInt8} {s t u : Source}

theorem Demands.trans (h : Demands P b s next t) (h' : Demands P (b ++ next) t more u) :
    Demands P b s (next ++ more) u := by
  induction h with
  | done b s => rwa [List.append_nil] at h'
  | read size hb rest ih =>
      rw [List.append_assoc]
      rw [← List.append_assoc] at h'
      exact .read size hb (ih h')

theorem Demands.shift (h : Demands P b s next t) (hPQ : ∀ more, P (b ++ more) → Q (b' ++ more)) :
    Demands Q b' s next t := by
  induction h generalizing b' with
  | done b s => exact .done b' s
  | @read b next s t size hb rest ih =>
      refine .read size ?_ (ih ?_)
      · have hQ := hPQ []
        rw [List.append_nil, List.append_nil] at hQ
        exact hQ hb
      · intro more hP
        rw [List.append_assoc] at hP ⊢
        exact hPQ _ hP

theorem Demands.mono (h : Demands P b s next t) (hPQ : ∀ b, P b → Q b) : Demands Q b s next t :=
  h.shift fun _ => hPQ _

/-- Every read is recorded, so a source that is as it was has not been read. -/
theorem Demands.size_journal (h : Demands P b s next t) :
    s.journal.size ≤ t.journal.size ∧
      (t.journal.size ≤ s.journal.size → next = [] ∧ t = s) := by
  induction h with
  | done b s => exact ⟨Nat.le_refl _, fun _ => ⟨rfl, rfl⟩⟩
  | @read b next s t size hb rest ih =>
      have hpush : (s.read size).2.journal.size = s.journal.size + 1 := Array.size_push _
      have hle := ih.1
      refine ⟨by omega, ?_⟩
      intro h
      omega

theorem Demands.still (h : Demands P b s next t) (h' : Demands Q b' t more s) :
    next = [] ∧ t = s := h.size_journal.2 h'.size_journal.1

theorem Demands.untouched (h : Demands P b s next t) (hP : ¬ P b) : next = [] ∧ t = s := by
  cases h with
  | done => exact ⟨rfl, rfl⟩
  | read size hb => exact absurd hb hP

end Source

open Source

/-! ### Refilling -/

namespace StreamUnpacker

/-- The source has been read for want of bytes, and what it has delivered is behind the unread
ones. -/
def Demanded (needed : Nat) (r r' : Region Source) : Prop :=
  ∃ next, Demands (fun b => b.length < needed) r.unread.toList r.peer next r'.peer ∧
    r'.unread.toList = r.unread.toList ++ next ∧
    r.peer.journal.size < r'.peer.journal.size

theorem Demanded.trans {needed : Nat} {r r' r'' : Region Source} (h : Demanded needed r r')
    (h' : Demanded needed r' r'') : Demanded needed r r'' := by
  obtain ⟨next, hreads, hunread, hlt⟩ := h
  obtain ⟨more, hreads', hunread', hlt'⟩ := h'
  refine ⟨next ++ more, hreads.trans (hunread ▸ hreads'), ?_, Nat.lt_trans hlt hlt'⟩
  rw [hunread', hunread, List.append_assoc]

theorem demanded_readOnce {needed : Nat} {r : Region Source} (hcurrent : r.current ≤ r.limit)
    (hlimit : r.limit ≤ r.bytes.size) (hshort : r.limit < r.current + needed) :
    Demanded needed r (readOnce r).2 := by
  have hlength : r.unread.toList.length < needed := by
    rw [Array.length_toList, Region.size_unread hlimit]
    omega
  obtain ⟨hpeer, hunread⟩ := (reads_readOnce r).delivery hcurrent hlimit
  refine ⟨_, ?_, hunread, ?_⟩
  · rw [hpeer, ← List.append_nil (Delivery.bytes _)]
    exact .read _ hlength (.done _ _)
  · rw [hpeer]
    exact Nat.lt_of_lt_of_eq (Nat.lt_succ_self _) (Array.size_push _).symm

theorem demanded_fill {needed : Nat} {r : Region Source} (hcurrent : r.current = 0)
    (hshort : r.limit < needed) (hsize : needed ≤ r.bytes.size) :
    Demanded needed r (fill needed r).2 := by
  have honce : ∀ r : Region Source, r.current = 0 → r.limit < needed → needed ≤ r.bytes.size →
      Demanded needed r (readOnce r).2 ∧ ReadsOnce r (readOnce r) := by
    intro r hcurrent hshort hsize
    have hle : r.current ≤ r.limit := hcurrent ▸ Nat.zero_le _
    have hfree := Nat.lt_of_lt_of_le hshort hsize
    refine ⟨demanded_readOnce hle (Nat.le_of_lt hfree) ?_, readsOnce_readOnce hle hfree⟩
    rwa [hcurrent, Nat.zero_add]
  fun_induction fill needed r with
  | case1 r _ answer r' h =>
      obtain ⟨hread, -⟩ := honce r hcurrent hshort hsize
      rwa [h] at hread
  | case2 r _ r' h ih =>
      obtain ⟨hread, hreads⟩ := honce r hcurrent hshort hsize
      rw [h] at hread hreads
      cases hreads with
      | more hgains =>
          by_cases hless : r'.limit < needed
          · exact hread.trans
              (ih (hgains.current.trans hcurrent) hless (Nat.le_trans hsize hgains.size_le))
          · rwa [fill_of_le (Nat.not_lt.mp hless)]
  | case3 r henough => exact absurd hshort henough

/-- A refill for bytes that are missing reads the source only as long as they are. -/
theorem demanded_refill {needed : Nat} {r : Region Source} (hlimit : r.limit ≤ r.bytes.size)
    (hshort : r.limit < r.current + needed) (hcurrent : r.current ≤ r.limit) :
    Demanded needed r (refill needed r).2 := by
  obtain ⟨hunread, hzero, hleft, -, hsize⟩ := makeRoom_spec needed hlimit
  have hlt : (makeRoom needed r).limit < needed := by omega
  have h := demanded_fill hzero hlt hsize
  rw [Demanded, hunread, peer_makeRoom] at h
  rwa [refill_eq hcurrent]

end StreamUnpacker

/-! ### Steps -/

/-- What a step comes to, beside a step without a handler.  Whenever it has the source read, the
other one runs short.  Where it goes on, it leaves what the other one leaves of all that has
arrived, whatever follows; where it halts, it has had the source read, or meets a malformed byte as
the other one does. -/
inductive Frugal {α : Type} (n : Nat) (c : StreamUnpacker) (step : Engine Unit α) :
    EStateM.Result Halt StreamUnpacker α → Prop
  | complete {a : α} {d : StreamUnpacker} {next : List UInt8} (hd : d.Ready n)
      (hreads : Demands (Short step) c.ahead c.peer next d.peer)
      (hfree : ∀ (w : Context Unit) more, w.Live → w.ahead = c.ahead ++ next ++ more →
        ∃ x, step w = .ok a x ∧ x.Live ∧ x.ahead = d.ahead ++ more) :
      Frugal n c step (.ok a d)
  | halted {halt : Halt} {d : StreamUnpacker} {next : List UInt8}
      (hreads : Demands (Short step) c.ahead c.peer next d.peer)
      (hfree : d.peer = c.peer → halt = .status .malformedInput ∧
        ∀ w : Context Unit, w.Live → w.ahead = c.ahead →
          ∃ x, step w = .error (.status .malformedInput) x) :
      Frugal n c step (.error halt d)

section bind

variable {α β : Type} {m n : Nat} {c d : StreamUnpacker} {step : Engine Unit α}
  {next : α → Engine Unit β} {a : α}

theorem Short.bind {b : List UInt8} (h : Short step b) : Short (step >>= next) b := by
  intro w hw hahead
  obtain ⟨status, x, hx, hs⟩ := h w hw hahead
  exact ⟨status, x, bind_of_error hx, hs⟩

theorem Frugal.bind_ok (h : Frugal m c step (.ok a d))
    {result : EStateM.Result Halt StreamUnpacker β} (h' : Frugal n d (next a) result) :
    Frugal n c (step >>= next) result := by
  cases h with
  | @complete _ _ bytes hd hreads hfree =>
      have hlater : ∀ more, Short (next a) (d.ahead ++ more) →
          Short (step >>= next) (c.ahead ++ bytes ++ more) := by
        intro more hshort w hw hahead
        obtain ⟨x, hx, hlive, hxahead⟩ := hfree w more hw hahead
        obtain ⟨status, y, hy, hs⟩ := hshort x hlive hxahead
        exact ⟨status, y, (bind_of_ok hx).trans hy, hs⟩
      have hfirst : Demands (Short (step >>= next)) c.ahead c.peer bytes d.peer :=
        hreads.mono fun _ => Short.bind
      cases h' with
      | @complete b e more he hreads' hfree' =>
          refine .complete he (hfirst.trans (hreads'.shift hlater)) ?_
          intro w rest hw hahead
          obtain ⟨x, hx, hlive, hxahead⟩ := hfree w (more ++ rest) hw (by
            rw [hahead]
            simp only [List.append_assoc])
          obtain ⟨y, hy, hylive, hyahead⟩ := hfree' x rest hlive (by
            rw [hxahead, List.append_assoc])
          exact ⟨y, (bind_of_ok hx).trans hy, hylive, hyahead⟩
      | @halted halt e more hreads' hfree' =>
          refine .halted (hfirst.trans (hreads'.shift hlater)) ?_
          intro hpeer
          obtain ⟨rfl, hsame⟩ := hreads.still (hpeer ▸ hreads')
          obtain ⟨rfl, hmalformed⟩ := hfree' (hpeer.trans hsame.symm)
          refine ⟨rfl, ?_⟩
          intro w hw hahead
          obtain ⟨x, hx, hlive, hxahead⟩ := hfree w [] hw (by
            rw [hahead, List.append_nil, List.append_nil])
          rw [List.append_nil] at hxahead
          obtain ⟨y, hy⟩ := hmalformed x hlive hxahead
          exact ⟨y, (bind_of_ok hx).trans hy⟩

theorem Frugal.bind_error {halt : Halt} (h : Frugal m c step (.error halt d)) :
    Frugal n c (step >>= next) (.error halt d) := by
  cases h with
  | halted hreads hfree =>
      refine .halted (hreads.mono fun _ => Short.bind) ?_
      intro hpeer
      obtain ⟨rfl, hmalformed⟩ := hfree hpeer
      refine ⟨rfl, ?_⟩
      intro w hw hahead
      obtain ⟨x, hx⟩ := hmalformed w hw hahead
      exact ⟨x, bind_of_error hx⟩

end bind

/-- The step is frugal beside the other one wherever it can be taken. -/
def Sparing {α : Type} (m : Nat) (step : Engine Source α) (step' : Engine Unit α) (n : Nat) :
    Prop := ∀ c : StreamUnpacker, c.Ready m → Frugal n c step' (step c)

namespace StreamUnpacker

section steps

variable {m n : Nat}

theorem short_require {short : Status} (hs : short = .endOfInput ∨ short = .bufferUnderflow)
    {b : List UInt8} (h : b.length < n) : Short (require none n short) b := by
  intro w hw hahead
  rw [← hahead, ← Nat.zero_add n] at h
  exact ⟨short, _, require_of_lt hw h short, hs⟩

/-- A handler is asked for no more than what is missing without one. -/
theorem sparing_require {short : Status} (hs : short = .endOfInput ∨ short = .bufferUnderflow) :
    Sparing m (require (some supplier) n short) (require none n short) n := by
  intro c hc
  have hthere : ∀ {b : List UInt8}, n ≤ b.length → ∀ (w : Context Unit) more, w.Live →
      w.ahead = b ++ more →
        ∃ x, require none n short w = .ok () x ∧ x.Live ∧ x.ahead = b ++ more := by
    intro b hle w more hw hahead
    have hroom : 0 + n ≤ w.ahead.length := by
      rw [hahead, List.length_append]
      omega
    exact ⟨w, require_of_le hw hroom short, hw, hahead⟩
  have hasked : Asked (some refill) (atEnd short) n short c
      (require (some supplier) n short c) := asked_ensure
  have hready : ∀ d, require (some supplier) n short c = .ok () d → d.Ready n := by
    intro d hd
    rw [hd] at hasked
    exact hasked.ready hc refill_contained.of_eq_some
  have hrefill : c.limit < c.current + n → Demanded n c.toRegion (refill n c.toRegion).2 :=
    fun h => demanded_refill hc.limit_le h (Nat.le_trans (Nat.le_add_right _ _) hc.le_limit)
  generalize require (some supplier) n short c = result at hasked hready
  cases hasked with
  | there h =>
      have hd := hready c rfl
      refine .complete hd (.done _ _) ?_
      rw [List.append_nil]
      exact hthere hd.le_length
  | granted hh h hr hroom =>
      cases hh
      obtain ⟨next, hreads, hunread, -⟩ := hrefill h
      rw [hr] at hreads hunread
      have hd := hready _ rfl
      refine .complete hd (hreads.mono fun _ => short_require hs) ?_
      have hahead : c.ahead ++ next = (c.within _).ahead := hunread.symm
      rw [hahead]
      exact hthere hd.le_length
  | alone hh h => cases hh
  | declined hh h hr | broken hh h hr | raised hh h hr =>
      cases hh
      obtain ⟨next, hreads, -, hlt⟩ := hrefill h
      rw [hr] at hreads hlt
      refine .halted (hreads.mono fun _ => short_require hs) ?_
      intro hpeer
      rw [← hpeer] at hlt
      exact absurd hlt (Nat.lt_irrefl _)

end steps

/-- Without a handler in between, nothing is read, and the two steps do the same. -/
theorem frugal_of_ok {α : Type} {n : Nat} {c d : StreamUnpacker} {step : Engine Unit α} {a : α}
    (hd : d.Ready n) (hpeer : d.peer = c.peer)
    (hfree : ∀ (w : Context Unit) more, w.Live → w.ahead = c.ahead ++ more →
      ∃ x, step w = .ok a x ∧ x.Live ∧ x.ahead = d.ahead ++ more) :
    Frugal n c step (.ok a d) := by
  have hreads : Demands (Short step) c.ahead c.peer [] d.peer := by
    rw [hpeer]
    exact .done _ _
  refine .complete hd hreads ?_
  rwa [List.append_nil]

theorem ready_of_ahead {n : Nat} {c : StreamUnpacker} (hc : c.Ready n) {w : Context Unit}
    (hw : w.Live) {more : List UInt8} (h : w.ahead = c.ahead ++ more) :
    w.Ready n ∧ w.ahead.take n = c.ahead.take n ∧ (w.forward n).Live ∧
      (w.forward n).ahead = (c.forward n).ahead ++ more := by
  obtain ⟨hlive, hahead⟩ := forward_extend hw h hc.le_length
  refine ⟨?_, ?_, hlive, hahead⟩
  · apply hw.ready
    apply (Context.le_limit_iff hw).mpr
    rw [h, List.length_append]
    exact Nat.le_trans hc.le_length (Nat.le_add_right _ _)
  · rw [h, List.take_append_of_le_length hc.le_length]

theorem lockstep_sparing : Lockstep (some supplier) (none : Option (Supplier Unit))
    fun p step step' q => Sparing p.bytes step step' q.bytes where
  bind {_ _ _ _ _ step step' next next'} h hn c hc := by
    have hstep := h c hc
    cases hr : step c with
    | ok a d =>
        rw [hr] at hstep
        rw [bind_of_ok hr]
        cases hstep with
        | complete hd hreads hfree =>
            exact (Frugal.complete hd hreads hfree).bind_ok (hn a d hd)
    | error halt d =>
        rw [hr] at hstep
        rw [bind_of_error hr]
        exact hstep.bind_error
  pure p a c hc := frugal_of_ok hc rfl fun w more hw h => ⟨w, rfl, hw, h⟩
  malformed p q c _ := .halted (.done _ _) fun _ => ⟨rfl, fun w _ _ => ⟨_, rfl⟩⟩
  require n := sparing_require (.inr rfl)
  forward {α n value step step'} h h' c hc := by
    have hc : c.Ready n := hc
    rw [h c hc]
    refine frugal_of_ok hc.forward rfl ?_
    intro w more hw hahead
    obtain ⟨hready, htake, hlive, hrest⟩ := ready_of_ahead hc hw hahead
    refine ⟨w.forward n, ?_, hlive, hrest⟩
    rw [h' w hready, htake]
  present item _ c hc :=
    frugal_of_ok (hc.holding _) rfl fun w more hw h => ⟨_, rfl, hw.holding _, h⟩
  payload kind n c hc := by
    refine frugal_of_ok (hc.holding _).forward rfl ?_
    intro w more hw hahead
    obtain ⟨-, -, hlive, hrest⟩ := ready_of_ahead hc hw hahead
    exact ⟨_, rfl, hlive.holding _, hrest⟩

/-! ### Calls -/

theorem skipLoop_succ {σ : Type} (s : Option (Supplier σ)) (count : Nat) :
    (skipLoop s (count + 1) : Engine σ Unit) =
      (skipItem s >>= (fun more => skipLoop s (count + more) : Nat → Engine σ Unit)) := by
  funext c
  cases hitem : skipItem s c with
  | ok more d =>
      rw [skipLoop_of_ok hitem]
      simp only [Bind.bind, EStateM.bind, hitem]
  | error halt d =>
      rw [skipLoop_of_error hitem]
      simp only [Bind.bind, EStateM.bind, hitem]

theorem frugal_skipLoop (count : Nat) {c : StreamUnpacker} (hc : c.Ready 0) :
    Frugal 0 c (skipLoop none count) (skipLoop (some supplier) count c) := by
  have hitem := lockstep_sparing.skipItem (sparing_require (.inl rfl))
  fun_induction skipLoop (some supplier) count c with
  | case1 c =>
      refine frugal_of_ok hc rfl ?_
      intro w more hw h
      refine ⟨w, ?_, hw, h⟩
      rw [skipLoop]
  | case2 c count more d hskip ih =>
      have h := hitem c hc
      rw [hskip] at h
      rw [skipLoop_succ]
      cases h with
      | complete hd hreads hfree =>
          exact (Frugal.complete hd hreads hfree).bind_ok (ih hd)
  | case3 c count halt d hskip =>
      have h := hitem c hc
      rw [hskip] at h
      rw [skipLoop_succ]
      exact h.bind_error

theorem frugal_call (call : Call) {c : StreamUnpacker} (hc : c.Ready 0) :
    Frugal 0 c (call.engine none) (call.engine (some supplier) c) := by
  have hrunning : Frugal 0 c running (.ok () c) :=
    frugal_of_ok hc rfl fun w more hw h => ⟨w, running_eq hw.status_eq, hw, h⟩
  cases call with
  | decode =>
      have hcall : decode (some supplier) c = decodeItem (some supplier) c :=
        bind_of_ok (running_eq hc.status_eq)
      have h : Frugal 0 c (decode none) (decodeItem (some supplier) c) :=
        hrunning.bind_ok (lockstep_sparing.decodeItem (sparing_require (.inl rfl)) c hc)
      rw [← hcall] at h
      exact h
  | skip count =>
      have hcall : skip (some supplier) count c = skipLoop (some supplier) count.toNat c :=
        bind_of_ok (running_eq hc.status_eq)
      have h : Frugal 0 c (skip none count) (skipLoop (some supplier) count.toNat c) :=
        hrunning.bind_ok (frugal_skipLoop count.toNat hc)
      rw [← hcall] at h
      exact h

end StreamUnpacker

end MessagePack
