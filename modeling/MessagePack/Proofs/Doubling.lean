import MessagePack.Packer.Growing
import Mathlib.Algebra.Group.Nat.Defs
import Mathlib.Order.Bounds.Basic

/-! # How far a growing buffer grows

A buffer that is too short is doubled until what is asked for fits behind the cursor.  The loop has
no bound of its own: `GrowingPacker.Doublings` is the loop as it runs, with the number of its
rounds, and says nothing of a loop that goes on for ever, as it would from no bytes
(`GrowingPacker.Doublings.size_pos`).  Since it begins with `leastSize` bytes at least, it ends
(`GrowingPacker.doublings_grownSize`), and no earlier size would have done
(`GrowingPacker.Doublings.isLeast`).

Growing looks at the cursor and at the length of the buffer, never at the region's old end.  So the
end becomes that of the buffer also where nothing has to be doubled, and besides that only zeros are
put behind the old bytes (`GrowingPacker.grows_least`). -/

namespace MessagePack
namespace GrowingPacker

/-! ### The loop -/

/-- From this size, the loop that doubles goes round so many times and ends with the last size. -/
inductive Doublings (cursor needed : Nat) : Nat → Nat → Nat → Prop
  | enough {size : Nat} (h : (needed : Int) ≤ size - cursor) : Doublings cursor needed size 0 size
  | double {size rounds last : Nat} (h : (size : Int) - cursor < needed)
      (rest : Doublings cursor needed (2 * size) rounds last) :
      Doublings cursor needed size (rounds + 1) last

section loop

variable {cursor needed size rounds last : Nat}

theorem Doublings.unique {rounds' last' : Nat} (h : Doublings cursor needed size rounds last)
    (h' : Doublings cursor needed size rounds' last') : rounds' = rounds ∧ last' = last := by
  induction h generalizing rounds' last' with
  | enough h =>
      cases h' with
      | enough => exact ⟨rfl, rfl⟩
      | double h' => omega
  | double h rest ih =>
      cases h' with
      | enough h' => omega
      | double _ rest' =>
          obtain ⟨rfl, rfl⟩ := ih rest'
          exact ⟨rfl, rfl⟩

theorem Doublings.last_eq (h : Doublings cursor needed size rounds last) :
    last = size * 2 ^ rounds := by
  induction h with
  | enough => rw [Nat.pow_zero, Nat.mul_one]
  | double h rest ih => rw [ih, Nat.pow_succ', Nat.mul_comm 2, Nat.mul_assoc]

theorem Doublings.isLeast (h : Doublings cursor needed size rounds last) :
    IsLeast {k | (needed : Int) ≤ (size * 2 ^ k : Nat) - cursor} rounds := by
  induction h with
  | enough h =>
      refine ⟨?_, fun k _ => Nat.zero_le k⟩
      rwa [Set.mem_ofPred_eq, Nat.pow_zero, Nat.mul_one]
  | @double size rounds last h rest ih =>
      have hshift : ∀ k, 2 * size * 2 ^ k = size * 2 ^ (k + 1) := by
        intro k
        rw [Nat.pow_succ', Nat.mul_comm 2, Nat.mul_assoc]
      obtain ⟨hroom, hleast⟩ := ih
      constructor
      · rwa [Set.mem_ofPred_eq, ← hshift]
      · intro k hk
        cases k with
        | zero =>
            rw [Set.mem_ofPred_eq, Nat.pow_zero, Nat.mul_one] at hk
            omega
        | succ k =>
            rw [Set.mem_ofPred_eq, ← hshift] at hk
            exact Nat.succ_le_succ (hleast hk)

theorem doublings_grownSize (h : 0 < size) (cursor needed : Nat) :
    ∃ rounds, Doublings cursor needed size rounds (grownSize size cursor needed) := by
  fun_induction grownSize size cursor needed with
  | case1 size hshort ih =>
      obtain ⟨rounds, hrest⟩ := ih (by omega)
      exact ⟨rounds + 1, .double (by omega) hrest⟩
  | case2 size hstop => exact ⟨0, .enough (by omega)⟩

end loop

/-! ### Growing -/

/-- The region `r'` is `r` with a buffer that was doubled so many times, and reaches to its end. -/
structure Grown (r : Region Unit) (rounds : Nat) (r' : Region Unit) : Prop where
  size : r'.bytes.size = max r.bytes.size 16 * 2 ^ rounds
  limit : r'.limit = r'.bytes.size
  kept : ∀ i < r.bytes.size, r'.bytes[i]? = r.bytes[i]?
  zeros : ∀ i, r.bytes.size ≤ i → i < r'.bytes.size → r'.bytes[i]? = some 0
  start : r'.start = r.start
  current : r'.current = r.current
  /-- The buffer is changed in place, and nothing else is changed but for a record in the log. -/
  rest : r' = { r with buffer := r.buffer.modify r'.bytes, limit := r'.limit, log := r'.log }

theorem grown_grow {needed rounds : Nat} {r : Region Unit}
    (h : Doublings r.current needed (max r.bytes.size leastSize) rounds
      (grownSize (max r.bytes.size leastSize) r.current needed)) :
    Grown r rounds (grow needed r).2 := by
  have hold : r.bytes.size ≤ grownSize (max r.bytes.size leastSize) r.current needed :=
    Nat.le_trans (Nat.le_max_left _ _) (le_grownSize _ _ _)
  have hbytes : (grow needed r).2.bytes = r.bytes ++
      Bytes.zeros (grownSize (max r.bytes.size leastSize) r.current needed - r.bytes.size) := rfl
  have hsize : (grow needed r).2.bytes.size =
      grownSize (max r.bytes.size leastSize) r.current needed := by
    rw [hbytes, Array.size_append, Bytes.size_zeros, Nat.add_sub_of_le hold]
  refine ⟨hsize.trans h.last_eq, hsize.symm, ?_, ?_, rfl, rfl, rfl⟩
  · intro i hi
    rw [hbytes, Array.getElem?_append_left hi]
  · intro i hi hnew
    rw [hsize] at hnew
    rw [hbytes, Array.getElem?_append_right hi, Bytes.zeros, Array.getElem?_replicate,
      if_pos (by omega)]

/-- Growing ends with the least doubling that is enough.  Whatever the length of the buffer, also if
it is none, and wherever the cursor is and the region begins and ends in it: the loop ends after a
certain number of rounds, which is the least with which the buffer and the region leave `needed`
bytes from the cursor on.  The old bytes stay and zeros follow them, the start and the cursor stay
as they are, and the answer is always `ok`. -/
theorem grows_least (needed : Nat) (r : Region Unit) :
    ∃ rounds r', grow needed r = (.ok .ok, r') ∧ Grown r rounds r' ∧
      (∀ k last, Doublings r.current needed (max r.bytes.size 16) k last ↔
        k = rounds ∧ last = r'.limit) ∧
      IsLeast {k | (needed : Int) ≤ (max r.bytes.size 16 * 2 ^ k : Nat) - r.current} rounds ∧
      needed ≤ r'.remaining := by
  have hpos : 0 < max r.bytes.size leastSize :=
    Nat.lt_of_lt_of_le (by decide) (Nat.le_max_right _ _)
  obtain ⟨rounds, hloop⟩ := doublings_grownSize hpos r.current needed
  have hgrown := grown_grow hloop
  refine ⟨rounds, _, rfl, hgrown, ?_, hloop.isLeast, ?_⟩
  · intro k last
    constructor
    · exact hloop.unique
    · rintro ⟨rfl, rfl⟩
      exact hloop
  · have hroom : (needed : Int) ≤ (max r.bytes.size leastSize * 2 ^ rounds : Nat) - r.current :=
      hloop.isLeast.1
    rwa [← hloop.last_eq] at hroom

/-- The region ended before its buffer, which has room for 14 bytes behind the cursor. -/
example :
    let r : Region Unit :=
      { kind := .growingPacker, buffer := ⟨Bytes.zeros 20, #[]⟩
        start := 2, current := 6, limit := 6, peer := () }
    (grow 14 r).2.limit = 20 ∧ (grow 15 r).2.limit = 40 := by
  cbv

end GrowingPacker
end MessagePack
