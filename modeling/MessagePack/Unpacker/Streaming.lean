import MessagePack.Stream.Source
import MessagePack.Unpacker

/-! # Unpacking from a stream

The region is refilled from a source.  Unread bytes move to the front of the
buffer, or to a larger buffer if the item does not fit; then the source is read
until there is enough.  Payloads of earlier items are lost by that.

A device failure stops the context with `Status.errorInHandler`; the failure is
kept as the context's fault.
-/

namespace MessagePack

/-- An unpacker with a source. -/
abbrev StreamUnpacker := Context Source

namespace StreamUnpacker

/-- The size of a buffer that is given none. -/
def defaultSize : Nat := 4096

/-- Move the unread bytes to the front of a buffer for `needed` bytes. -/
def makeRoom (needed : Nat) (r : Region Source) : Region Source :=
  let left := r.limit - r.current
  let size := r.bytes.size
  let r :=
    if needed > size then
      let r := r.noteGrowth size needed
      let bytes := Bytes.splice (Bytes.zeros (max needed (2 * size))) 0 r.unread
      { r with buffer := r.buffer.replace bytes }
    else if left ≠ 0 ∧ r.current ≠ 0 then r.modifyBytes (Bytes.splice r.bytes 0 r.unread)
    else r
  { r with start := 0, current := 0, limit := left }

/-- Read once into the free part of the buffer.  No answer means that there are more bytes than
before; a read that yields nothing is the end of the input. -/
def readOnce (r : Region Source) : Option (Except Fault Status) × Region Source :=
  match r.peer.read (r.bytes.size - r.limit) with
  | (.ended, source) => (some (.ok .endOfInput), { r with peer := source })
  | (.absent, source) =>
    let answer := if source.manner = .readInto then .ok .endOfInput else .error .noData
    (some answer, { r with peer := source })
  | (.fault fault, source) =>
    let r := { r with peer := source }
    if fault.isDevice then (some (.ok .errorInHandler), r.keepFault fault)
    else (some (.error fault), r)
  | (.data bytes, source) =>
    let r := { r with peer := source }
    if bytes.isEmpty then (some (.ok .endOfInput), r)
    else
      (none, { r.modifyBytes (Bytes.splice r.bytes r.limit bytes) with
        limit := r.limit + bytes.size })

/-- Every read that brings bytes leaves the source less to deliver. -/
theorem weight_readOnce {r r' : Region Source} (h : readOnce r = (none, r')) :
    r'.peer.weight < r.peer.weight := by
  unfold readOnce at h
  split at h
  · simp at h
  · simp at h
  · dsimp only at h
    split at h <;> simp at h
  · rename_i bytes source hread
    dsimp only at h
    split at h
    · simp at h
    · rename_i hempty
      simp only [Prod.mk.injEq, true_and] at h
      rw [← h]
      exact Source.weight_read_lt hread (by simpa using hempty)

/-- A single read never answers that there is enough. -/
theorem readOnce_ne_ok {r r' : Region Source} : readOnce r ≠ (some (.ok .ok), r') := by
  unfold readOnce
  split
  · simp [Status.ok, Status.endOfInput]
  · split <;> simp [Status.ok, Status.endOfInput]
  · dsimp only
    split <;> simp [Status.ok, Status.errorInHandler]
  · dsimp only
    split <;> simp [Status.ok, Status.endOfInput]

/-- Read as long as less than `needed` bytes are there. -/
def fill (needed : Nat) (r : Region Source) : Except Fault Status × Region Source :=
  if r.limit < needed then
    match _h : readOnce r with
    | (some answer, r') => (answer, r')
    | (none, r') => fill needed r'
  else (.ok .ok, r)
termination_by r.peer.weight
decreasing_by exact weight_readOnce _h

/-- Refill the region.  If it ends before its cursor, it lacks the bytes in between as well. -/
def refill : Handler Source := fun needed r =>
  fill (needed + (r.current - r.limit)) (makeRoom needed r)

theorem refill_eq {r : Region Source} (h : r.current ≤ r.limit) (needed : Nat) :
    refill needed r = fill needed (makeRoom needed r) := by
  rw [refill, Nat.sub_eq_zero_of_le h, Nat.add_zero]

theorem weight_fill_le {needed : Nat} {r r' : Region Source} (h : fill needed r = (.ok .ok, r')) :
    r'.peer.weight ≤ r.peer.weight := by
  fun_induction fill needed r with
  | case1 r hshort answer d hread =>
    simp only [Prod.mk.injEq] at h
    exact absurd (h.1 ▸ hread) readOnce_ne_ok
  | case2 r hshort d hread ih => exact Nat.le_trans (ih h) (Nat.le_of_lt (weight_readOnce hread))
  | case3 r henough =>
    simp only [Prod.mk.injEq, true_and] at h
    exact h ▸ Nat.le_refl _

theorem weight_fill {needed : Nat} {r r' : Region Source} (hshort : r.limit < needed)
    (h : fill needed r = (.ok .ok, r')) : r'.peer.weight < r.peer.weight := by
  rw [fill, if_pos hshort] at h
  split at h
  · rename_i answer d hread
    simp only [Prod.mk.injEq] at h
    exact absurd (h.1 ▸ hread) readOnce_ne_ok
  · rename_i d hread
    exact Nat.lt_of_le_of_lt (weight_fill_le h) (weight_readOnce hread)

theorem peer_makeRoom (needed : Nat) (r : Region Source) : (makeRoom needed r).peer = r.peer := by
  simp only [makeRoom]
  split
  · rfl
  · split <;> rfl

/-- A source can refill the region only as long as it has something to deliver. -/
def supplier : Supplier Source where
  respond := refill
  budget := Source.weight
  spends n r r' hshort h := by
    have hroom : (makeRoom n r).limit = r.limit - r.current := rfl
    have hlt := weight_fill (by omega) h
    rwa [peer_makeRoom] at hlt

/-- An unpacker of a source, with a buffer of the given size to begin with. -/
def new (source : Source) (size : Nat) (assumptions : Assumptions) :
    Except Fault StreamUnpacker :=
  Context.new .streamUnpacker assumptions (Bytes.zeros size) 0 (some 0) source

end StreamUnpacker
end MessagePack
