import MessagePack.Proofs.Queueing
import MessagePack.Proofs.StreamPacking

/-! # Packers with buffers of different sizes

When a buffer grows, or is written to the sink, depends on its size.  The values that are refused
and the bytes that come out do not: a growing packer answers as the queue of its pending bytes
(`GrowingPacker.shownOf_unsized`), and a packer with a sink that does not fail packs whatever has an
encoding, and has all of it written after a flush (`StreamPacker.shownOf_unsized`). -/

namespace MessagePack

/-- What packing a value comes to where room is always made. -/
def Value.packing (v : Value) : Except Fault Status := v.frame.map fun _ => .ok

/-! ### Growing buffers -/

namespace GrowingPacker

open Packer

theorem result_pack {c : GrowingPacker} (hc : c.Live) (v : Value) :
    ((pack v).run c).1 = v.packing := by
  have hpack := packed_pack hc.status_eq v fun n d hr =>
    (reserve_ok_pending hc hr).1.ready (reserve_ok hr)
  unfold pack Engine.run Value.packing
  generalize Packer.pack (some grow) v c = result at hpack ⊢
  cases hpack with
  | refused hv | tooLarge hv =>
      rw [hv]
      rfl
  | noRoom hn hr =>
      obtain ⟨e, he, -⟩ := reserve_grow hc _
      rw [hr] at he
      cases he
  | appended hv =>
      rw [hv]
      rfl

/-- Two packers have the same bytes pending, or were stopped before anything was packed. -/
inductive Alike : GrowingPacker → GrowingPacker → Prop
  | live {c d : GrowingPacker} (hc : c.Live) (hd : d.Live) (h : d.pending = c.pending) : Alike c d
  | idle {c d : GrowingPacker} (hc : c.status ≠ .ok) (hd : d.status ≠ .ok)
      (hc' : c.current = c.start) (hd' : d.current = d.start) : Alike c d

theorem Alike.pending_eq {c d : GrowingPacker} (h : Alike c d) : d.pending = c.pending := by
  cases h with
  | live hc hd h => exact h
  | idle hc hd hc' hd' => rw [Context.pending_eq_nil hc', Context.pending_eq_nil hd']

theorem take_of_idle {c : GrowingPacker} (h : c.current = c.start) (n : Option Nat) :
    take c (n.map Nat.cast) = (#[], c) := by
  have hnone : min ((n.map Nat.cast).getD (0 : Int)) 0 = 0 := by
    cases n with
    | none => rfl
    | some n => exact min_eq_right (Int.natCast_nonneg n)
  unfold take
  dsimp only
  rw [h, Int.sub_self, hnone, if_pos rfl]
  apply congrArg (·, c)
  apply Array.toList_inj.mp
  rw [Bytes.between, Bytes.toList_slice, Int.add_zero, Nat.sub_self, List.take_zero]

theorem Alike.call {c d : GrowingPacker} (h : Alike c d) (call : Call) :
    (call.run d).1 = (call.run c).1 ∧ Alike (call.run c).2 (call.run d).2 := by
  cases h with
  | live hc hd h =>
      cases call with
      | pack v =>
          obtain ⟨hlive, hpending, -⟩ := run_pack hc v
          obtain ⟨hlive', hpending', -⟩ := run_pack hd v
          have hresult : ((pack v).run d).1 = ((pack v).run c).1 :=
            (result_pack hd v).trans (result_pack hc v).symm
          have hrest : ((pack v).run d).2.pending = ((pack v).run c).2.pending := by
            rw [hpending, hpending', h]
          exact ⟨congrArg Response.result hresult, .live hlive hlive' hrest⟩
      | take n =>
          obtain ⟨htaken, hpending, hlive⟩ := take_eq hc n
          obtain ⟨htaken', hpending', hlive'⟩ := take_eq hd n
          have hbytes : (take d (n.map Nat.cast)).1 = (take c (n.map Nat.cast)).1 := by
            apply Array.toList_inj.mp
            rw [htaken, htaken', h]
          have hrest :
              (take d (n.map Nat.cast)).2.pending = (take c (n.map Nat.cast)).2.pending := by
            rw [hpending, hpending', h]
          exact ⟨congrArg Response.taken hbytes, .live hlive hlive' hrest⟩
  | idle hc hd hc' hd' =>
      cases call with
      | pack v =>
          have hleft : (pack v).run c = (.ok .stopped, c) := Engine.run_of_latched hc _
          have hright : (pack v).run d = (.ok .stopped, d) := Engine.run_of_latched hd _
          simp only [Call.run, hleft, hright]
          exact ⟨trivial, .idle hc hd hc' hd'⟩
      | take n =>
          simp only [Call.run, take_of_idle hc', take_of_idle hd']
          exact ⟨trivial, .idle hc hd hc' hd'⟩

theorem Alike.runAll {c d : GrowingPacker} (h : Alike c d) (calls : List Call) :
    (runAll calls d).1 = (runAll calls c).1 ∧ Alike (runAll calls c).2 (runAll calls d).2 := by
  induction calls generalizing c d with
  | nil => exact ⟨rfl, h⟩
  | cons call calls ih =>
      obtain ⟨hresponse, h'⟩ := h.call call
      obtain ⟨hresponses, hrest⟩ := ih h'
      exact ⟨congrArg₂ List.cons hresponse hresponses, hrest⟩

theorem alike_new (a : Assumptions) (size size' : Nat) :
    (∃ fault, new size a = .error fault ∧ new size' a = .error fault) ∨
      ∃ c d, new size a = .ok c ∧ new size' a = .ok d ∧ Alike c d := by
  refine (Context.new_alike (Context.range?_whole _) (Context.range?_whole _)).imp_right ?_
  rintro ⟨c, d, hc, hd, hstatus, -, -⟩
  obtain ⟨-, hc'⟩ := Context.peer_new hc
  obtain ⟨-, hd'⟩ := Context.peer_new hd
  refine ⟨c, d, hc, hd, ?_⟩
  by_cases hs : c.status = .ok
  · refine .live (Context.live_new hc hs) (Context.live_new hd (hstatus.trans hs)) ?_
    rw [Context.pending_eq_nil hc', Context.pending_eq_nil hd']
  · exact .idle hs (hstatus ▸ hs) hc' hd'

/-- What calls of a new packer answer, and the bytes that are left in it. -/
def shownOf (a : Assumptions) (calls : List Call) (size : Nat) :
    Except Fault (List Response × List UInt8) :=
  (new size a).map fun c => ((runAll calls c).1, (runAll calls c).2.pending)

/-- The size of the buffer does not show: the same values are refused, the same bytes are taken out,
and the same are left. -/
theorem shownOf_unsized (a : Assumptions) (calls : List Call) (size size' : Nat) :
    shownOf a calls size = shownOf a calls size' := by
  unfold shownOf
  rcases alike_new a size size' with ⟨fault, hc, hd⟩ | ⟨c, d, hc, hd, h⟩
  · rw [hc, hd]
  · obtain ⟨hresponses, h'⟩ := h.runAll calls
    rw [hc, hd]
    simp only [Except.map, hresponses, h'.pending_eq]

end GrowingPacker

/-! ### Sinks -/

/-- The sink never fails. -/
def Sink.Reliable (s : Sink) : Prop := s.Raises fun _ => False

namespace StreamPacker

/-- What a call comes to if the sink does not fail. -/
def Call.answer : Call → Except Fault Status
  | .pack v => v.packing
  | .flush => .ok .ok

/-- The bytes that the sink has taken, and those that are pending. -/
def total (c : StreamPacker) : List UInt8 := c.sent ++ c.pending

/-- A packer that can go on, with a sink that never fails. -/
structure Steady (c : StreamPacker) : Prop where
  live : c.Live
  reliable : c.peer.Reliable

theorem Steady.call {c : StreamPacker} (hc : Steady c) (call : Call) :
    (call.engine.run c).1 = call.answer ∧ Steady (call.engine.run c).2 ∧
      total (call.engine.run c).2 = total c ++ call.encoding ∧
      (call = .flush → (call.engine.run c).2.pending = []) := by
  have hcalled := called_run hc.live hc.reliable call
  generalize call.engine.run c = result at hcalled
  cases hcalled with
  | @packed v d e hk he hpeer hp hv =>
      obtain ⟨f, hv⟩ := hv
      have hsent : e.sent = d.sent := by rw [sent, hpeer, sent]
      refine ⟨?_, ⟨he, ?_⟩, ?_, by simp⟩
      · rw [Call.answer, Value.packing, hv]
        rfl
      · show Sink.Reliable e.peer
        rw [hpeer]
        exact hk.raises
      · rw [total, hsent, hp, ← List.append_assoc, hk.total]
        rfl
  | @refused v fault d hk hv =>
      refine ⟨?_, ⟨hk.live, hk.raises⟩, ?_, by simp⟩
      · rw [Call.answer, Value.packing, hv]
        rfl
      · rw [Call.encoding, Value.encoding, hv, List.append_nil]
        exact hk.total
  | flushed hk hp =>
      refine ⟨rfl, ⟨hk.live, hk.raises⟩, ?_, fun _ => hp⟩
      rw [Call.encoding, List.append_nil]
      exact hk.total
  | failed _ _ _ hf | stopped _ _ hf =>
      obtain ⟨fault, hf⟩ := hf
      exact hf.elim
  | interrupted hf => exact hf.elim

/-- Two packers have packed the same bytes, or were stopped before that. -/
inductive Alike : StreamPacker → StreamPacker → Prop
  | live {c d : StreamPacker} (hc : Steady c) (hd : Steady d) (h : total d = total c) : Alike c d
  | idle {c d : StreamPacker} (hc : c.status ≠ .ok) (hd : d.status ≠ .ok) (h : d.sent = c.sent) :
      Alike c d

theorem Alike.call {c d : StreamPacker} (h : Alike c d) (call : Call) :
    (call.engine.run d).1 = (call.engine.run c).1 ∧
      Alike (call.engine.run c).2 (call.engine.run d).2 := by
  cases h with
  | live hc hd h =>
      obtain ⟨hanswer, hlive, htotal, -⟩ := hc.call call
      obtain ⟨hanswer', hlive', htotal', -⟩ := hd.call call
      exact ⟨hanswer'.trans hanswer.symm, .live hlive hlive' (by rw [htotal, htotal', h])⟩
  | idle hc hd h =>
      rw [run_call_of_latched hc, run_call_of_latched hd]
      exact ⟨rfl, .idle hc hd h⟩

theorem Alike.runAll {c d : StreamPacker} (h : Alike c d) (calls : List Call) :
    (runAll calls d).1 = (runAll calls c).1 ∧ Alike (runAll calls c).2 (runAll calls d).2 := by
  induction calls generalizing c d with
  | nil => exact ⟨rfl, h⟩
  | cons call calls ih =>
      obtain ⟨hanswer, h'⟩ := h.call call
      obtain ⟨hanswers, hrest⟩ := ih h'
      exact ⟨congrArg₂ List.cons hanswer hanswers, hrest⟩

/-- After a flush, both sinks have the same. -/
theorem Alike.sent_flush {c d : StreamPacker} (h : Alike c d) :
    sent (flush.run d).2 = sent (flush.run c).2 := by
  cases h with
  | live hc hd h =>
      have hflushed : ∀ {c}, Steady c → sent (flush.run c).2 = total c := by
        intro c hc
        obtain ⟨-, -, htotal, hp⟩ := hc.call .flush
        have hp : (flush.run c).2.pending = [] := hp rfl
        have htotal : total (flush.run c).2 = total c ++ [] := htotal
        rwa [total, hp, List.append_nil, List.append_nil] at htotal
      rw [hflushed hc, hflushed hd, h]
  | idle hc hd h =>
      have hstopped : ∀ {c : StreamPacker}, c.status ≠ .ok → flush.run c = (.ok .stopped, c) :=
        fun hc => run_call_of_latched hc .flush
      rw [hstopped hc, hstopped hd]
      exact h

theorem alike_new {sink : Sink} (h : sink.Reliable) (a : Assumptions) (size size' : Nat) :
    (∃ fault, new sink size a = .error fault ∧ new sink size' a = .error fault) ∨
      ∃ c d, new sink size a = .ok c ∧ new sink size' a = .ok d ∧ Alike c d := by
  refine (Context.new_alike (Context.range?_whole _) (Context.range?_whole _)).imp_right ?_
  rintro ⟨c, d, hc, hd, hstatus, -, -⟩
  obtain ⟨hsink, hc'⟩ := Context.peer_new hc
  obtain ⟨hsink', hd'⟩ := Context.peer_new hd
  have hsent : sent d = sent c := by rw [sent, sent, hsink, hsink']
  refine ⟨c, d, hc, hd, ?_⟩
  by_cases hs : c.status = .ok
  · refine .live ⟨Context.live_new hc hs, hsink ▸ h⟩
      ⟨Context.live_new hd (hstatus.trans hs), hsink' ▸ h⟩ ?_
    rw [total, total, Context.pending_eq_nil hc', Context.pending_eq_nil hd', hsent]
  · exact .idle hs (hstatus ▸ hs) hsent

/-- What calls of a new packer come to, and the bytes that the sink has after a last flush. -/
def shownOf (sink : Sink) (a : Assumptions) (calls : List Call) (size : Nat) :
    Except Fault (List (Except Fault Status) × List UInt8) :=
  (new sink size a).map fun c =>
    let (results, d) := runAll calls c
    (results, sent (flush.run d).2)

/-- With a sink that never fails, the size of the buffer does not show: the same values are refused,
and the sink gets the same bytes, in whatever pieces it takes them. -/
theorem shownOf_unsized {sink : Sink} (hs : sink.Reliable) (a : Assumptions) (calls : List Call)
    (size size' : Nat) : shownOf sink a calls size = shownOf sink a calls size' := by
  unfold shownOf
  rcases alike_new hs a size size' with ⟨fault, hc, hd⟩ | ⟨c, d, hc, hd, h⟩
  · rw [hc, hd]
  · obtain ⟨hresults, h'⟩ := h.runAll calls
    rw [hc, hd]
    simp only [Except.map, hresults, h'.sent_flush]

end StreamPacker
end MessagePack
