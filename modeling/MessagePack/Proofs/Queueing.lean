import MessagePack.Proofs.PackCases

/-! # A growing packer is a queue of bytes

Packing puts the encoding of a value at the end of the packed bytes and never runs out of room
(`GrowingPacker.run_pack`); a value without an encoding changes nothing about them.  Taking removes
bytes from the front (`GrowingPacker.take_eq`).

So a growing packer answers any sequence of calls as a list of bytes does that is appended to and
cut at its front (`GrowingPacker.queues_bytes`), wherever the buffer grows in between and whatever
is left in it behind the cursor. -/

namespace MessagePack
namespace GrowingPacker

open Packer

/-! ### Single calls -/

section single

variable {c : GrowingPacker} (hc : c.Live)

include hc

theorem reserve_ok_pending {n : Nat} {d : GrowingPacker}
    (h : reserve (some grow) n c = .ok () d) : d.Live ∧ d.pending = c.pending := by
  obtain ⟨e, he, hlive, -, hdone⟩ := reserve_grow hc n
  rw [h, EStateM.Result.ok.injEq] at he
  obtain ⟨-, rfl⟩ := he
  exact ⟨hlive, congrArg Array.toList hdone⟩

theorem run_pack (v : Value) :
    ((pack v).run c).2.Live ∧ ((pack v).run c).2.pending = c.pending ++ v.encoding ∧
      (((pack v).run c).1 = .ok .ok ↔ ∃ f, v.frame = .ok f) := by
  have hpack := packed_pack hc.status_eq v fun n d hr =>
    (reserve_ok_pending hc hr).1.ready (reserve_ok hr)
  unfold pack Engine.run
  generalize Packer.pack (some grow) v c = result at hpack ⊢
  cases hpack with
  | refused hv => simp [Value.encoding, hv, hc]
  | noRoom hn hr =>
      obtain ⟨e, he, -⟩ := reserve_grow hc _
      rw [hr] at he
      cases he
  | tooLarge hv hr =>
      obtain ⟨hlive, hp⟩ := reserve_ok_pending hc hr
      simp [Value.encoding, hv, hlive, hp]
  | @appended f d hv hr =>
      obtain ⟨hlive, hp⟩ := reserve_ok_pending hc hr
      refine ⟨hlive.append_bytes (reserve_ok hr), ?_, by simp [hv]⟩
      show (d.append f.bytes.toArray).pending = _
      rw [Context.pending_append hlive, hp, Value.encoding_eq hv]

/-- Remove the first `m` of the packed bytes, of which there are as many at least. -/
def takeFirst (c : GrowingPacker) (m : Nat) : Bytes × GrowingPacker :=
  let taken := Bytes.slice c.bytes c.start (c.start + m)
  if m = 0 then (taken, c)
  else
    let kept := Bytes.slice c.bytes (c.start + m) c.current
    (taken, { c.modifyBytes (Bytes.splice c.bytes c.start kept) with current := c.current - m })

omit hc in
/-- A count that is not negative takes that many bytes, or as many as there are. -/
theorem take_natCast (hb : c.InBounds) (n : Option Nat) :
    take c (n.map Nat.cast) =
      takeFirst c (min (n.getD (c.current - c.start)) (c.current - c.start)) := by
  have hstart := hb.start_le
  have hsize : c.current ≤ c.bytes.size := Nat.le_trans hb.current_le hb.limit_le
  have hcount : min ((n.map Nat.cast).getD ((c.current : Int) - c.start)) (c.current - c.start) =
      (min (n.getD (c.current - c.start)) (c.current - c.start) : Nat) := by
    cases n with
    | none =>
        rw [Option.map_none, Option.getD_none, Option.getD_none]
        omega
    | some n =>
        rw [Option.map_some, Option.getD_some, Option.getD_some]
        omega
  have hle : min (n.getD (c.current - c.start)) (c.current - c.start) ≤ c.current - c.start :=
    Nat.min_le_right _ _
  unfold take takeFirst
  dsimp only
  rw [hcount]
  generalize min (n.getD (c.current - c.start)) (c.current - c.start) = m at hle
  have hfront : (c.start : Int) + m = (c.start + m : Nat) := by omega
  have hback : (c.current : Int) - m = (c.current - m : Nat) := by omega
  have hrest : c.start + m ≤ c.bytes.size := by omega
  have hkept : c.start + (Bytes.slice c.bytes (c.start + m) c.current).size = c.current - m := by
    rw [Bytes.size_slice]
    omega
  rw [hfront, hback, Bytes.between_natCast (by omega) hrest, Bytes.between_natCast hrest hsize,
    Bytes.replaceBetween_natCast hkept (by omega), Int.toNat_natCast]
  simp only [Int.natCast_eq_zero]

omit hc in
theorem slice_taken (m : Nat) :
    (Bytes.slice c.bytes c.start (c.start + min m (c.current - c.start))).toList =
      c.pending.take m := by
  rw [Context.pending, Region.done, Bytes.toList_slice, Bytes.toList_slice, List.take_take,
    Nat.add_sub_cancel_left]

omit hc in
theorem slice_kept (m : Nat) :
    (Bytes.slice c.bytes (c.start + min m (c.current - c.start)) c.current).toList =
      c.pending.drop m := by
  rw [Context.pending, Region.done, Bytes.toList_slice, Bytes.toList_slice, List.drop_take,
    List.drop_drop]
  rcases Nat.le_total m (c.current - c.start) with h | h
  · rw [Nat.min_eq_left h, Nat.sub_sub]
  · rw [Nat.min_eq_right h]
    simp [Nat.sub_eq_zero_of_le h]
    omega

/-- Taking out bytes removes them from the front of those that are pending. -/
theorem take_eq (n : Option Nat) :
    (take c (n.map Nat.cast)).1.toList = c.pending.take (n.getD c.pending.length) ∧
      (take c (n.map Nat.cast)).2.pending = c.pending.drop (n.getD c.pending.length) ∧
      (take c (n.map Nat.cast)).2.Live := by
  have hb := hc.inBounds
  rw [Context.length_pending hc, take_natCast hb]
  unfold takeFirst
  dsimp only
  generalize n.getD (c.current - c.start) = m
  have htaken := slice_taken (c := c) m
  have hkept := slice_kept (c := c) m
  generalize hkeep : Bytes.slice c.bytes (c.start + min m (c.current - c.start)) c.current = kept
    at hkept
  split_ifs with hzero
  · have hall : c.pending = kept.toList := by
      rw [← hkeep, hzero]
      rfl
    exact ⟨htaken, hall.trans hkept, hc⟩
  · -- the kept bytes are put at the start of the region, as if they were appended there
    have hrewound : Context.Live { c with current := c.start } :=
      ⟨⟨Nat.le_refl _, Nat.le_trans hb.start_le hb.current_le, hb.limit_le⟩, hc.status_eq,
        hc.order_eq⟩
    have hsize : kept.size = c.current - c.start - m := by
      rw [← Array.length_toList, hkept, List.length_drop, Context.length_pending hc]
    have hcurrent : c.current - min m (c.current - c.start) = c.start + kept.size := by
      have := hb.start_le
      omega
    have hmoved : ({ c.modifyBytes (Bytes.splice c.bytes c.start kept) with
        current := c.current - min m (c.current - c.start) } : GrowingPacker) =
        Context.append { c with current := c.start } kept := by
      rw [hcurrent]
      rfl
    have hroom : c.start + kept.size ≤ c.limit := by
      have := hb.current_le
      have := hb.start_le
      omega
    rw [hmoved]
    refine ⟨htaken, ?_, hrewound.append hroom⟩
    rw [Context.pending_append hrewound, Context.pending_eq_nil rfl, List.nil_append, hkept]

end single

/-! ### Sequences of calls -/

/-- A call of a growing packer. -/
inductive Call
  | pack (v : Value)
  | take (n : Option Nat)
  deriving DecidableEq, Repr

/-- What a call answers. -/
inductive Response
  | result (result : Except Fault Status)
  | taken (bytes : Bytes)
  deriving DecidableEq

namespace Call

/-- What a call does. -/
def run (c : GrowingPacker) : Call → Response × GrowingPacker
  | pack v =>
      let (result, c) := (GrowingPacker.pack v).run c
      (.result result, c)
  | take n =>
      let (taken, c) := GrowingPacker.take c (n.map Nat.cast)
      (.taken taken, c)

/-- What a call does to a queue of bytes: packing puts an encoding at the end, and taking removes as
many bytes as there are, or all of them, from the front. -/
def onQueue (queue : List UInt8) : Call → Response × List UInt8
  | pack v => (.result (.ok .ok), queue ++ v.encoding)
  | take n =>
      let n := n.getD queue.length
      (.taken (queue.take n).toArray, queue.drop n)

/-- What a call puts into the queue. -/
def encoding : Call → List UInt8
  | pack v => v.encoding
  | take _ => []

end Call

/-- Make calls one after another: what each of them answers, and the packer afterwards. -/
def runAll : List Call → GrowingPacker → List Response × GrowingPacker
  | [], c => ([], c)
  | call :: calls, c =>
      let (response, c) := call.run c
      let (responses, c) := runAll calls c
      (response :: responses, c)

/-- The same calls on a queue of bytes. -/
def queueAll : List Call → List UInt8 → List Response × List UInt8
  | [], queue => ([], queue)
  | call :: calls, queue =>
      let (response, queue) := call.onQueue queue
      let (responses, queue) := queueAll calls queue
      (response :: responses, queue)

/-- The bytes that were taken out. -/
def taken : List Response → List UInt8
  | [] => []
  | .result _ :: responses => taken responses
  | .taken bytes :: responses => bytes.toList ++ taken responses

/-- No byte gets lost in a queue, and none changes its place. -/
theorem taken_queueAll (calls : List Call) (queue : List UInt8) :
    taken (queueAll calls queue).1 ++ (queueAll calls queue).2 =
      queue ++ calls.flatMap Call.encoding := by
  induction calls generalizing queue with
  | nil => simp [queueAll, taken]
  | cons call calls ih =>
      cases call with
      | pack v =>
          have h := ih (queue ++ v.encoding)
          rwa [List.append_assoc] at h
      | take n =>
          have h := ih (queue.drop (n.getD queue.length))
          simp only [queueAll, Call.onQueue, taken, List.append_assoc, h, List.flatMap_cons,
            Call.encoding, List.nil_append]
          rw [← List.append_assoc, List.take_append_drop]

/-- A call answers as the queue does, and leaves what is in the queue. -/
theorem run_call {c : GrowingPacker} (hc : c.Live) {call : Call}
    (hvalid : ∀ v, call = .pack v → ∃ f, v.frame = .ok f) :
    (call.run c).1 = (call.onQueue c.pending).1 ∧ (call.run c).2.Live ∧
      (call.run c).2.pending = (call.onQueue c.pending).2 := by
  cases call with
  | pack v =>
      obtain ⟨hlive, hpending, hok⟩ := run_pack hc v
      exact ⟨congrArg Response.result (hok.mpr (hvalid v rfl)), hlive, hpending⟩
  | take n =>
      obtain ⟨htaken, hpending, hlive⟩ := take_eq hc n
      exact ⟨congrArg Response.taken (Array.toList_inj.mp htaken), hlive, hpending⟩

theorem runAll_eq_queueAll {c : GrowingPacker} (hc : c.Live) {calls : List Call}
    (hvalid : ∀ v, .pack v ∈ calls → ∃ f, v.frame = .ok f) :
    (runAll calls c).1 = (queueAll calls c.pending).1 ∧ (runAll calls c).2.Live ∧
      (runAll calls c).2.pending = (queueAll calls c.pending).2 := by
  induction calls generalizing c with
  | nil => exact ⟨rfl, hc, rfl⟩
  | cons call calls ih =>
      obtain ⟨hresponse, hlive, hpending⟩ := @run_call c hc call fun v hv =>
        hvalid v (by rw [hv]; exact List.mem_cons_self ..)
      obtain ⟨hresponses, hd, hrest⟩ := ih hlive fun v hv => hvalid v (List.mem_cons_of_mem _ hv)
      rw [hpending] at hresponses hrest
      refine ⟨?_, hd, hrest⟩
      show (call.run c).1 :: (runAll calls (call.run c).2).1 = _
      rw [hresponse, hresponses]
      rfl

theorem result_queueAll {calls : List Call} {queue : List UInt8} {result : Except Fault Status}
    (h : .result result ∈ (queueAll calls queue).1) : result = .ok .ok := by
  induction calls generalizing queue with
  | nil => simp [queueAll] at h
  | cons call calls ih =>
      cases call with
      | pack v =>
          rcases List.mem_cons.mp h with h | h
          · exact Response.result.inj h
          · exact ih h
      | take n =>
          rcases List.mem_cons.mp h with h | h
          · cases h
          · exact ih h

/-- A growing packer is an unbounded queue of bytes.  Make a packer with a buffer of any size, also
of none, and let values be packed and bytes be taken out in any order.  Every value that has an
encoding is packed.  All calls answer as they do on a queue of bytes, and what was taken out
followed by what is still packed are the encodings of the values.  However many bytes are asked for
next, exactly those are taken out that there are. -/
theorem queues_bytes {a : Assumptions} {order : ByteOrder} (ha : a.select = .ok (some order))
    (size : Nat) {calls : List Call} (hvalid : ∀ v, .pack v ∈ calls → ∃ f, v.frame = .ok f) :
    ∃ (c d : GrowingPacker) (responses : List Response), new size a = .ok c ∧
      runAll calls c = (responses, d) ∧
      (responses, d.pending) = queueAll calls [] ∧
      (∀ result, .result result ∈ responses → result = .ok .ok) ∧
      taken responses ++ d.pending = calls.flatMap Call.encoding ∧
      ∀ n : Option Nat, (take d (n.map Nat.cast)).1.size =
        min (n.getD d.pending.length) d.pending.length := by
  have hnew := Context.new_whole ha .growingPacker (Bytes.zeros size) ()
  obtain ⟨c, hc⟩ : ∃ c, new size a = .ok c := ⟨_, hnew⟩
  have hlive : c.Live := by
    refine Context.live_new hc ?_
    rw [new, hnew] at hc
    obtain rfl := Except.ok.inj hc
    rfl
  have hnil : c.pending = [] := Context.pending_eq_nil (Context.peer_new hc).2
  obtain ⟨hresponses, hd, hpending⟩ := runAll_eq_queueAll hlive hvalid
  rw [hnil] at hresponses hpending
  refine ⟨c, _, _, hc, rfl, Prod.ext hresponses hpending, fun result h => ?_, ?_, fun n => ?_⟩
  · rw [hresponses] at h
    exact result_queueAll h
  · rw [hresponses, hpending, taken_queueAll, List.nil_append]
  · obtain ⟨htaken, -⟩ := take_eq hd n
    rw [← Array.length_toList, htaken, List.length_take]

/-- The buffer is empty to begin with.  Two bytes are taken out of the middle of a text, and another
value goes over what they leave behind. -/
theorem queues_bytes_from_empty :
    ∃ (c d : GrowingPacker) (responses : List Response), new 0 {} = .ok c ∧
      runAll [.pack (.str #[0x61, 0x62, 0x63]), .take (some 2), .pack .nil, .take (some 9)] c =
        (responses, d) ∧
      responses = [.result (.ok .ok), .taken #[0xA3, 0x61], .result (.ok .ok),
        .taken #[0x62, 0x63, 0xC0]] := by
  have hvalid : ∀ v, .pack v ∈ [Call.pack (.str #[0x61, 0x62, 0x63]), .take (some 2), .pack .nil,
      .take (some 9)] → ∃ f, v.frame = .ok f := by
    intro v hv
    simp only [List.mem_cons, Call.pack.injEq, List.not_mem_nil, or_false, reduceCtorEq,
      false_or] at hv
    rcases hv with rfl | rfl
    · exact ⟨_, rfl⟩
    · exact ⟨_, rfl⟩
  obtain ⟨c, d, responses, hnew, hrun, hqueue, -⟩ := queues_bytes (a := {}) rfl 0 hvalid
  exact ⟨c, d, responses, hnew, hrun, congrArg Prod.fst hqueue⟩

end GrowingPacker
end MessagePack
