import MessagePack.Bytes
import MessagePack.Fault

/-! # Byte sources

A source is a stream that is read from.  What it will deliver is known in
advance: a queue of chunks, some of which are no data but a fault, or the news
that there is nothing at the moment.  A read takes from the first chunk only.

* `Source.read` delivers at most as many bytes as asked for, unless the source
  hands out whole chunks.
* `Source.weight` bounds the reads that can still yield something.
* `Source.journal` records the reads.
-/

namespace MessagePack

/-- What a source does at one read. -/
inductive Chunk
  | data (bytes : Bytes)
  /-- There is nothing at the moment, not even the end. -/
  | absent
  | fault (fault : Fault)
  deriving DecidableEq, Repr

/-- How a source is read. -/
inductive Manner
  /-- Into a buffer of the reader. -/
  | readInto
  /-- As a byte string of at most the size asked for. -/
  | read
  /-- As a byte string that may be longer than the size asked for. -/
  | readOver
  /-- As a byte string of at most the size asked for, with an end that is told apart from an
  empty one. -/
  | receive
  deriving DecidableEq, Repr

/-- What a read yields. -/
inductive Delivery
  | data (bytes : Bytes)
  | absent
  | ended
  | fault (fault : Fault)
  deriving DecidableEq, Repr

/-- What is recorded of a delivery. -/
inductive ReadOutcome
  | count (n : Nat)
  | absent
  | ended
  | raised
  deriving DecidableEq, Repr

/-- The outcome of a delivery. -/
def Delivery.outcome : Delivery → ReadOutcome
  | data bytes => .count bytes.size
  | absent => .absent
  | ended => .ended
  | fault _ => .raised

/-- A read that took place. -/
structure ReadEvent where
  size : Nat
  outcome : ReadOutcome
  deriving DecidableEq, Repr

/-- A stream to read from. -/
structure Source where
  manner : Manner
  chunks : List Chunk
  journal : Array ReadEvent := #[]
  deriving DecidableEq, Repr

namespace Source

/-- The end of the queue. -/
def exhausted : Manner → Delivery
  | .receive => .ended
  | _ => .data #[]

/-- The first chunk as far as it is delivered, and the chunks that stay. -/
def deliver (manner : Manner) (size : Nat) : List Chunk → Delivery × List Chunk
  | [] => (exhausted manner, [])
  | .absent :: rest => (.absent, rest)
  | .fault fault :: rest => (.fault fault, rest)
  | .data bytes :: rest =>
    if manner = .readOver ∨ bytes.size ≤ size then (.data bytes, rest)
    else (.data (Bytes.slice bytes 0 size), .data (Bytes.slice bytes size bytes.size) :: rest)

/-- Read at most `size` bytes. -/
def read (s : Source) (size : Nat) : Delivery × Source :=
  let (delivery, chunks) := deliver s.manner size s.chunks
  (delivery, { s with chunks, journal := s.journal.push ⟨size, delivery.outcome⟩ })

/-- What a chunk adds to the bound. -/
def chunkWeight : Chunk → Nat
  | .data bytes => bytes.size + 1
  | _ => 1

/-- What a list of chunks adds to the bound. -/
def chunksWeight : List Chunk → Nat
  | [] => 0
  | chunk :: chunks => chunkWeight chunk + chunksWeight chunks

/-- A bound for the number of reads that yield something. -/
def weight (s : Source) : Nat := chunksWeight s.chunks

/-- A read that delivers bytes leaves less to deliver. -/
theorem weight_deliver_lt {manner : Manner} {size : Nat} {chunks rest : List Chunk}
    {bytes : Bytes} (h : deliver manner size chunks = (.data bytes, rest))
    (hb : bytes.isEmpty = false) :
    chunksWeight rest < chunksWeight chunks := by
  have hpos : 0 < bytes.size := by
    rw [Array.isEmpty_eq_false_iff] at hb
    exact Array.size_pos_iff.mpr hb
  cases chunks with
  | nil =>
    cases manner <;> simp_all [deliver, exhausted]
  | cons chunk tail =>
    cases chunk with
    | absent | fault => simp [deliver] at h
    | data whole =>
      simp only [deliver] at h
      split at h
      · simp only [Prod.mk.injEq, Delivery.data.injEq] at h
        obtain ⟨-, rfl⟩ := h
        simp [chunksWeight, chunkWeight]
      · simp only [Prod.mk.injEq, Delivery.data.injEq] at h
        obtain ⟨rfl, rfl⟩ := h
        simp only [Bytes.size_slice] at hpos
        simp only [chunksWeight, chunkWeight, Bytes.size_slice]
        omega

theorem weight_read_lt {s s' : Source} {size : Nat} {bytes : Bytes}
    (h : s.read size = (.data bytes, s')) (hb : bytes.isEmpty = false) :
    s'.weight < s.weight := by
  simp only [read, Prod.mk.injEq] at h
  obtain ⟨hd, rfl⟩ := h
  exact weight_deliver_lt (Prod.ext hd rfl) hb

/-- What a read delivers is taken off what is left. -/
theorem size_add_weight_deliver {manner : Manner} {size : Nat} {chunks rest : List Chunk}
    {bytes : Bytes} (h : deliver manner size chunks = (.data bytes, rest)) :
    bytes.size + chunksWeight rest ≤ chunksWeight chunks := by
  cases chunks with
  | nil => cases manner <;> simp_all [deliver, exhausted]
  | cons chunk tail =>
    cases chunk with
    | absent | fault => simp [deliver] at h
    | data whole =>
      simp only [deliver] at h
      split at h
      · simp only [Prod.mk.injEq, Delivery.data.injEq] at h
        obtain ⟨rfl, rfl⟩ := h
        simp only [chunksWeight, chunkWeight]
        omega
      · simp only [Prod.mk.injEq, Delivery.data.injEq] at h
        obtain ⟨rfl, rfl⟩ := h
        simp only [chunksWeight, chunkWeight, Bytes.size_slice]
        omega

theorem size_add_weight_read {s s' : Source} {size : Nat} {bytes : Bytes}
    (h : s.read size = (.data bytes, s')) : bytes.size + s'.weight ≤ s.weight := by
  simp only [read, Prod.mk.injEq] at h
  obtain ⟨hd, rfl⟩ := h
  exact size_add_weight_deliver (Prod.ext hd rfl)

end Source
end MessagePack
