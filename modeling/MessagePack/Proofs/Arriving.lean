import MessagePack.Proofs.Extending

/-! # Bytes that are enough

Whether the bytes of an operation have arrived can be told from the wire format: they begin with
the item that is wanted, or with so many nested values (`Call.Arrived`).  So can whether they never
will, since they meet the byte that starts no item (`Call.Malformed`).

In either case the operation comes to its end without a handler, whatever follows these bytes
(`Call.complete_of_arrived`, `Call.stops_of_malformed`).  So where it runs short, neither is the
case (`Short.undecided`). -/

namespace MessagePack

variable {σ : Type}

/-- So many values with all that they contain, one after another. -/
inductive Nested : Nat → List UInt8 → Prop
  | nil : Nested 0 []
  | cons {n : Nat} {p q rest : List UInt8} {i : Item Bytes} (hp : Denotes p i)
      (hq : Nested i.contents q) (h : Nested n rest) : Nested (n + 1) (p ++ q ++ rest)

/-- Passing over so many values with all that they contain meets the byte that starts no item. -/
inductive Meets : Nat → List UInt8 → Prop
  | here {n : Nat} (rest : List UInt8) : Meets (n + 1) (0xC1 :: rest)
  | within {n : Nat} {p rest : List UInt8} {i : Item Bytes} (hp : Denotes p i)
      (h : Meets i.contents rest) : Meets (n + 1) (p ++ rest)
  | after {n : Nat} {p q rest : List UInt8} {i : Item Bytes} (hp : Denotes p i)
      (hq : Nested i.contents q) (h : Meets n rest) : Meets (n + 1) (p ++ q ++ rest)

namespace Unpacker

open Engine

/-! ### Passing over what has arrived -/

section loop

variable {c : Context σ} {p more : List UInt8}

theorem live_forward (hc : c.Live) (h : c.ahead = p ++ more) :
    (c.forward p.length).Live ∧ (c.forward p.length).ahead = more := by
  constructor
  · apply hc.forward
    apply (Context.le_limit_iff hc).mpr
    rw [h, List.length_append]
    exact Nat.le_add_right _ _
  · rw [Context.ahead_forward, h, List.drop_left]

theorem skipItem_of_denotes {i : Item Bytes} (hp : Denotes p i) (hc : c.Live)
    (h : c.ahead = p ++ more) : skipItem none c = .ok i.contents (c.forward p.length) := by
  obtain ⟨found, hscan, rfl⟩ := scan_append hp more
  have hskip := skipped_item hc
  rw [h, hscan] at hskip
  rw [Item.contents_mapPayload]
  exact hskip

theorem skipItem_of_malformed (hc : c.Live) (h : c.ahead.head? = some 0xC1) :
    ∃ d, skipItem none c = .error (.status .malformedInput) d := by
  have hstatus := status_scan_eq_malformedInput_iff.mpr h
  obtain ⟨d, hd, -⟩ := skipItem_stops hc (by rw [hstatus]; decide)
  rw [hstatus] at hd
  exact ⟨d, hd⟩

theorem skipLoop_of_nested {n : Nat} (hp : Nested n p) (hc : c.Live) (h : c.ahead = p ++ more) :
    skipLoop none n c = .ok () (c.forward p.length) := by
  induction hp generalizing c more with
  | nil =>
      rw [skipLoop]
      rfl
  | @cons n p q rest i hp hq _ ihq ih =>
      rw [List.append_assoc, List.append_assoc] at h
      obtain ⟨hd, hdq⟩ := live_forward hc h
      obtain ⟨he, hrest⟩ := live_forward hd hdq
      rw [skipLoop_of_ok (skipItem_of_denotes hp hc h), Nat.add_comm, skipLoop_add, ihq hd hdq]
      dsimp only
      rw [ih he hrest, Context.forward_forward, Context.forward_forward, List.length_append,
        List.length_append, Nat.add_assoc]

theorem skipLoop_of_meets {n : Nat} (hp : Meets n p) (hc : c.Live) (h : c.ahead = p) :
    ∃ d, skipLoop none n c = .error (.status .malformedInput) d := by
  induction hp generalizing c with
  | here rest =>
      obtain ⟨d, hd⟩ := skipItem_of_malformed hc (by rw [h]; rfl)
      exact ⟨d, skipLoop_of_error hd⟩
  | @within n p rest i hp _ ih =>
      obtain ⟨hd, hrest⟩ := live_forward hc h
      obtain ⟨e, he⟩ := ih hd hrest
      refine ⟨e, ?_⟩
      rw [skipLoop_of_ok (skipItem_of_denotes hp hc h), Nat.add_comm, skipLoop_add, he]
  | @after n p q rest i hp hq _ ih =>
      rw [List.append_assoc] at h
      obtain ⟨hd, hdq⟩ := live_forward hc h
      obtain ⟨he, hrest⟩ := live_forward hd hdq
      obtain ⟨x, hx⟩ := ih he hrest
      refine ⟨x, ?_⟩
      rw [skipLoop_of_ok (skipItem_of_denotes hp hc h), Nat.add_comm, skipLoop_add,
        skipLoop_of_nested hq hd hdq]
      exact hx

end loop

/-! ### Calls -/

namespace Call

/-- All bytes that the call needs are among these. -/
def Arrived (b : List UInt8) : Call → Prop
  | decode => ∃ p i, Denotes p i ∧ p <+: b
  | skip count => ∃ p, Nested count.toNat p ∧ p <+: b

/-- Among these is a byte that the call cannot get past. -/
def Malformed (b : List UInt8) : Call → Prop
  | decode => b.head? = some 0xC1
  | skip count => Meets count.toNat b

/-- Neither is it known that the call is complete, nor that it is malformed. -/
def Undecided (call : Call) (b : List UInt8) : Prop := ¬ call.Arrived b ∧ ¬ call.Malformed b

/-- To pass over nothing takes no bytes. -/
theorem arrived_of_nonpos {count : Int} (h : count ≤ 0) (b : List UInt8) :
    (skip count).Arrived b := by
  refine ⟨[], ?_, List.nil_prefix⟩
  rw [Int.toNat_of_nonpos h]
  exact .nil

variable {call : Call} {c : Context σ} (hc : c.Live)

include hc

theorem complete_of_arrived (h : call.Arrived c.ahead) : ∃ d, call.engine none c = .ok () d := by
  cases call with
  | decode =>
      obtain ⟨p, i, hp, more, hmore⟩ := h
      obtain ⟨found, hscan, -⟩ := scan_append hp more
      rw [Call.engine, decode_eq hc, ← hmore, hscan]
      exact ⟨_, rfl⟩
  | skip count =>
      obtain ⟨p, hp, more, hmore⟩ := h
      rw [Call.engine, skip_eq hc]
      exact ⟨_, skipLoop_of_nested hp hc hmore.symm⟩

theorem stops_of_malformed (h : call.Malformed c.ahead) :
    ∃ d, call.engine none c = .error (.status .malformedInput) d := by
  cases call with
  | decode =>
      have hstatus := status_scan_eq_malformedInput_iff.mpr h
      obtain ⟨d, hd, -⟩ := decode_stops hc (by rw [hstatus]; decide)
      rw [hstatus] at hd
      exact ⟨d, hd⟩
  | skip count =>
      rw [Call.engine, skip_eq hc]
      exact skipLoop_of_meets h hc rfl

end Call

/-! ### Running short -/

/-- Without a handler, the step stops in want of more than these bytes. -/
def Short {α : Type} (step : Engine Unit α) (b : List UInt8) : Prop :=
  ∀ w : Context Unit, w.Live → w.ahead = b → ∃ status d, step w = .error (.status status) d ∧
    (status = .endOfInput ∨ status = .bufferUnderflow)

theorem exists_live (b : List UInt8) : ∃ w : Context Unit, w.Live ∧ w.ahead = b := by
  have ha : ({} : Assumptions).select = .ok (some .swapped) := rfl
  obtain ⟨w, -, hw, hahead⟩ := Context.ahead_new ha .unpacker b.toArray ()
  exact ⟨w, hw, hahead⟩

theorem Short.undecided {call : Call} {b : List UInt8} (h : Short (call.engine none) b) :
    call.Undecided b := by
  obtain ⟨w, hw, hahead⟩ := exists_live b
  obtain ⟨status, d, hd, hs⟩ := h w hw hahead
  rw [← hahead]
  constructor
  · intro harrived
    obtain ⟨e, he⟩ := Call.complete_of_arrived hw harrived
    cases hd.symm.trans he
  · intro hmalformed
    obtain ⟨e, he⟩ := Call.stops_of_malformed hw hmalformed
    cases hd.symm.trans he
    rcases hs with hs | hs <;> exact absurd hs (by decide)

end Unpacker
end MessagePack
