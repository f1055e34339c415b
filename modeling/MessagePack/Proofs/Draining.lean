import MessagePack.Packer.Streaming
import MessagePack.Proofs.PackCases

/-! # Draining to a sink

A write loop offers the same bytes until the sink has reported all of them, from wherever the last
report has left off.  However the sink cuts them up, it takes a prefix of the bytes, and all of
them if the loop ends (`Sink.written_writeAll`).

For a stream packer this settles what making room can do (`StreamPacker.reserved_reserve`): either
all that is packed has gone to the sink and the buffer is empty, or the sink has raised a fault, and
the packer is stopped. -/

namespace MessagePack

variable {P : Fault → Prop}

/-! ### Sinks -/

/-- The sink has raised a fault. -/
def SinkEvent.raised : SinkEvent → Bool
  | writeRaised _ | flushRaised => true
  | write _ _ | flush => false

namespace Sink

/-- The sink has raised a fault before. -/
def HasRaised (s : Sink) : Prop := ∃ event ∈ s.journal.toList, event.raised = true

/-- All faults that the sink is going to raise are of this kind. -/
structure Raises (P : Fault → Prop) (s : Sink) : Prop where
  replies : ∀ fault, Reply.fault fault ∈ s.replies → P fault
  flushes : ∀ faults, s.flushes = some faults → ∀ fault, some fault ∈ faults → P fault

theorem hasRaised_push {s t : Sink} {event : SinkEvent} (h : t.journal = s.journal.push event) :
    t.HasRaised ↔ s.HasRaised ∨ event.raised = true := by
  simp only [HasRaised, h, Array.toList_push, List.mem_append, List.mem_singleton]
  constructor
  · rintro ⟨e, he | rfl, hr⟩
    · exact .inl ⟨e, he, hr⟩
    · exact .inr hr
  · rintro (⟨e, he, hr⟩ | hr)
    · exact ⟨e, .inl he, hr⟩
    · exact ⟨event, .inr rfl, hr⟩

theorem Raises.tail {s t : Sink} (hs : s.Raises P) (hr : t.replies = s.replies.tail)
    (hf : t.flushes = s.flushes) : t.Raises P where
  replies fault h := hs.replies fault (List.mem_of_mem_tail (hr ▸ h))
  flushes := hf ▸ hs.flushes

/-- The sink has taken `data`, and has not raised a fault. -/
structure Takes (P : Fault → Prop) (s : Sink) (data : List UInt8) (t : Sink) : Prop where
  accepted : t.accepted.toList = s.accepted.toList ++ data
  raised : t.HasRaised ↔ s.HasRaised
  raises : t.Raises P

/-- The sink has taken some of `data`, and then raised a fault. -/
structure Breaks (P : Fault → Prop) (s : Sink) (data : List UInt8) (t : Sink) : Prop where
  accepted : ∃ k, t.accepted.toList = s.accepted.toList ++ data.take k
  raised : t.HasRaised
  raises : t.Raises P

section compose

variable {s t u : Sink} {front back : List UInt8} (h : Takes P s front t)

include h

theorem Takes.trans (h' : Takes P t back u) : Takes P s (front ++ back) u where
  accepted := by rw [h'.accepted, h.accepted, List.append_assoc]
  raised := h'.raised.trans h.raised
  raises := h'.raises

theorem Takes.breaks (h' : Breaks P t back u) : Breaks P s (front ++ back) u where
  accepted := by
    obtain ⟨k, hk⟩ := h'.accepted
    refine ⟨front.length + k, ?_⟩
    rw [hk, h.accepted, List.append_assoc, List.take_length_add_append]
  raised := h'.raised
  raises := h'.raises

end compose

/-- What offering `data` can come to: the sink takes as many bytes as it reports, at most all, and
all of them if it reports nothing; or it raises a fault and takes none. -/
inductive Offered (P : Fault → Prop) (s : Sink) (data : List UInt8) :
    Except Fault (Option Nat) × Sink → Prop
  | taken {t : Sink} (reported : Option Nat)
      (h : Takes P s (data.take (reported.getD data.length)) t) : Offered P s data (.ok reported, t)
  | raised {t : Sink} {fault : Fault} (hf : P fault) (h : Breaks P s [] t) :
      Offered P s data (.error fault, t)

/-- What writing all of `data` can come to. -/
inductive Written (P : Fault → Prop) (s : Sink) (data : List UInt8) :
    Except Fault Unit × Sink → Prop
  | complete {t : Sink} (h : Takes P s data t) : Written P s data (.ok (), t)
  | broken {t : Sink} {fault : Fault} (hf : P fault) (h : Breaks P s data t) :
      Written P s data (.error fault, t)

theorem take_of_ok {reply : Reply} {size taken : Nat} {reported : Option Nat}
    (h : take reply size = .ok (taken, reported)) {data : List UInt8} (hd : data.length = size) :
    data.take taken = data.take (reported.getD size) := by
  subst hd
  cases reply with
  | all | upTo | silent =>
      obtain ⟨rfl, rfl⟩ := by simpa [take] using h
      rfl
  | inExcess extra =>
      obtain ⟨rfl, rfl⟩ := by simpa [take] using h
      rw [Option.getD_some, List.take_length, List.take_of_length_le (Nat.le_add_right _ _)]
  | fault fault => simp [take] at h

theorem take_of_error {reply : Reply} {size : Nat} {fault : Fault}
    (h : take reply size = .error fault) : reply = .fault fault := by
  cases reply with
  | fault raised => rw [take, Except.error.injEq] at h; rw [h]
  | all | upTo | silent | inExcess => simp [take] at h

theorem offered_write {s : Sink} (hs : s.Raises P) (data : Bytes) :
    Offered P s data.toList (s.write data) := by
  have hmem : ∀ fault, s.replies.headD .all = .fault fault → .fault fault ∈ s.replies := by
    intro fault h
    cases hr : s.replies with
    | nil => simp [hr] at h
    | cons reply rest =>
        rw [hr, List.headD_cons] at h
        exact h ▸ List.mem_cons_self ..
  unfold write
  cases ht : take (s.replies.headD .all) data.size with
  | ok answer =>
      obtain ⟨taken, reported⟩ := answer
      refine .taken reported ⟨?_, ?_, hs.tail rfl rfl⟩
      · rw [Array.toList_append, Bytes.toList_slice, List.drop_zero, Nat.sub_zero,
          Array.length_toList, take_of_ok ht Array.length_toList]
      · exact (hasRaised_push rfl).trans (or_iff_left (by simp [SinkEvent.raised]))
  | error fault =>
      refine .raised (hs.replies fault (hmem fault (take_of_error ht)))
        ⟨⟨0, (List.append_nil _).symm⟩, ?_, hs.tail rfl rfl⟩
      exact (hasRaised_push rfl).mpr (.inr rfl)

/-- The loop goes on from the place that the last report has led to. -/
theorem written_writeAll {s : Sink} (hs : s.Raises P) (data : Bytes) (pos : Nat) :
    Written P s (data.toList.drop pos) (s.writeAll data pos) := by
  have hrest : ∀ pos, (Bytes.slice data pos data.size).toList = data.toList.drop pos := by
    intro pos
    rw [Bytes.toList_slice, List.take_of_length_le (by simp)]
  fun_induction writeAll s data pos with
  | case1 s pos hpos offered fault t h =>
      have hw := offered_write hs offered
      rw [h, hrest] at hw
      cases hw with
      | raised hf hb =>
          obtain ⟨k, hk⟩ := hb.accepted
          rw [List.take_nil] at hk
          exact .broken hf ⟨⟨0, hk⟩, hb.raised, hb.raises⟩
  | case2 s pos hpos offered t h =>
      have hw := offered_write hs offered
      rw [h, hrest] at hw
      cases hw with
      | taken reported ht =>
          rw [Option.getD_none, List.take_length] at ht
          exact .complete ht
  | case3 s pos hpos offered count t h ih =>
      have hw := offered_write hs offered
      rw [h, hrest] at hw
      cases hw with
      | taken reported ht =>
          have hback := ih ht.raises
          rw [Option.getD_some] at ht
          rw [← List.take_append_drop count (data.toList.drop pos), List.drop_drop]
          generalize t.writeAll data (pos + count) = result at hback ⊢
          cases hback with
          | complete h' => exact .complete (ht.trans h')
          | broken hf h' => exact .broken hf (ht.breaks h')
  | case4 s pos hpos =>
      rw [List.drop_eq_nil_of_le (by simpa using hpos)]
      exact .complete ⟨(List.append_nil _).symm, Iff.rfl, hs⟩

theorem written_flush {s : Sink} (hs : s.Raises P) : Written P s [] s.flush := by
  unfold flush
  cases hf : s.flushes with
  | none => exact .complete ⟨(List.append_nil _).symm, Iff.rfl, hs⟩
  | some faults =>
      have htail : ∀ t : Sink, t.replies = s.replies → t.flushes = some faults.tail →
          t.Raises P := by
        intro t hr ht
        refine ⟨hr ▸ hs.replies, fun rest hrest fault hfault => ?_⟩
        obtain rfl : faults.tail = rest := by simpa [ht] using hrest
        exact hs.flushes faults hf fault (List.mem_of_mem_tail hfault)
      dsimp only
      cases hhead : faults.headD none with
      | none =>
          refine .complete ⟨(List.append_nil _).symm, ?_, htail _ rfl rfl⟩
          exact (hasRaised_push rfl).trans (or_iff_left (by simp [SinkEvent.raised]))
      | some fault =>
          refine .broken (hs.flushes faults hf fault ?_)
            ⟨⟨0, (List.append_nil _).symm⟩, ?_, htail _ rfl rfl⟩
          · cases faults with
            | nil => simp at hhead
            | cons first rest =>
                rw [List.headD_cons] at hhead
                exact hhead ▸ List.mem_cons_self ..
          · exact (hasRaised_push rfl).mpr (.inr rfl)

end Sink

/-! ### Stream packers -/

namespace StreamPacker

open Engine Packer

/-- Draining writes all that is packed, and only then puts the cursor back. -/
inductive Drained (P : Fault → Prop) (r : Region Sink) : Except Fault Unit × Region Sink → Prop
  | complete {t : Sink} (h : r.peer.Takes P r.done.toList t) :
      Drained P r (.ok (), { r with peer := t, current := r.start })
  | broken {t : Sink} {fault : Fault} (hf : P fault) (h : r.peer.Breaks P r.done.toList t) :
      Drained P r (.error fault, { r with peer := t })

theorem drained_drain {r : Region Sink} (hs : r.peer.Raises P) : Drained P r (drain r) := by
  have hw : Sink.Written P r.peer r.done.toList _ := Sink.written_writeAll hs r.done 0
  unfold drain
  generalize r.peer.writeAll r.done 0 = result at hw ⊢
  cases hw with
  | complete h => exact .complete h
  | broken hf h => exact .broken hf h

/-- The bytes that the sink has taken. -/
def sent (c : StreamPacker) : List UInt8 := c.peer.accepted.toList

/-- A drained buffer is used again if it is large enough, and replaced otherwise. -/
theorem makeRoom_of_ok {n : Nat} {r r' : Region Sink} (h : drain r = (.ok (), r'))
    (hb : r'.InBounds) (hc : r'.current = r'.start) :
    ∃ s, makeRoom n r = (.ok .ok, s) ∧ s.InBounds ∧ s.current + n ≤ s.limit ∧
      s.current = s.start ∧ s.peer = r'.peer := by
  unfold makeRoom
  rw [h]
  dsimp only
  split_ifs with hroom
  · exact ⟨r', rfl, hb, hroom, hc, rfl⟩
  · refine ⟨_, rfl, ⟨Nat.le_refl _, Nat.zero_le _, ?_⟩, Nat.le_of_eq (Nat.zero_add n), rfl, rfl⟩
    exact Nat.le_of_eq (Bytes.size_zeros n).symm

/-- What making room can come to: it is there, or the buffer is drained, or the sink breaks that
off and the packer is stopped, whatever the fault. -/
inductive Reserved (P : Fault → Prop) (n : Nat) (c : StreamPacker) :
    EStateM.Result Halt StreamPacker Unit → Prop
  | there (h : c.current + n ≤ c.limit) : Reserved P n c (.ok () c)
  | drained {d : StreamPacker} (hd : d.Live) (h : c.peer.Takes P c.pending d.peer)
      (hp : d.pending = []) : Reserved P n c (.ok () d)
  | failed {d : StreamPacker} {halt : Halt} (h : c.peer.Breaks P c.pending d.peer)
      (hs : d.status = .errorInHandler) (hh : halt ≠ .status .ok) (hf : ∃ fault, P fault) :
      Reserved P n c (.error halt d)

theorem reserved_reserve {c : StreamPacker} (hc : c.Live) (hs : c.peer.Raises P) (n : Nat) :
    Reserved P n c (reserve (some makeRoom) n c) := by
  by_cases hroom : c.current + n ≤ c.limit
  · have hr : reserve (some makeRoom) n c = .ok () c := if_pos hroom
    rw [hr]
    exact .there hroom
  · have hshort := Nat.not_le.mp hroom
    have hd : Drained P c.toRegion _ := drained_drain hs
    generalize hr : drain c.toRegion = result at hd
    cases hd with
    | complete h =>
        have hb := hc.inBounds
        obtain ⟨r, hm, hb', hroom', hstart, hp⟩ := makeRoom_of_ok (n := n) hr
          ⟨Nat.le_refl _, Nat.le_trans hb.start_le hb.current_le, hb.limit_le⟩ rfl
        rw [reserve, ensure_of_ok hshort hm hroom']
        refine .drained ⟨hb', hc.status_eq, hc.order_eq⟩ ?_ (Context.pending_eq_nil hstart)
        show c.peer.Takes P c.pending r.peer
        rw [hp]
        exact h
    | @broken t fault hf h =>
        cases hfault : fault.isDevice with
        | true =>
            have hm : makeRoom n c.toRegion = (.ok .errorInHandler,
                Region.keepFault { c.toRegion with peer := t } fault) := by
              rw [makeRoom, hr]
              exact if_pos hfault
            rw [reserve, ensure_of_status hshort hm (by decide)]
            exact .failed h rfl (by decide) ⟨fault, hf⟩
        | false =>
            have hm : makeRoom n c.toRegion = (.error fault, { c.toRegion with peer := t }) := by
              rw [makeRoom, hr]
              exact if_neg (by simp [hfault])
            rw [reserve, ensure_of_fault hshort hm]
            exact .failed h rfl (by simp) ⟨fault, hf⟩

end StreamPacker
end MessagePack
