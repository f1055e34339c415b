import MessagePack.Proofs.Mirroring

/-! # Reading into a buffer, or as byte strings

A stream that is read into the free part of the buffer, and one that hands out byte strings of at
most the size asked for, lead to the same: each step of a session answers the same and leaves the
same region, and the stream is asked for the same sizes (`StreamUnpacker.manner_unobservable`).

The exception is a stream that has nothing at the moment.  Read into the buffer, that is the end of
the input; as a byte string it breaks the operation off (`StreamUnpacker.absent_told_apart`).  So in
general the one stream corresponds to the other with its blanks replaced by empty byte strings. -/

namespace MessagePack

/-! ### Sources without blanks -/

/-- Nothing at the moment counts as no bytes. -/
def Chunk.settled : Chunk → Chunk
  | absent => data #[]
  | chunk => chunk

def Delivery.settled : Delivery → Delivery
  | absent => data #[]
  | delivery => delivery

def ReadOutcome.settled : ReadOutcome → ReadOutcome
  | absent => count 0
  | outcome => outcome

def ReadEvent.settled (event : ReadEvent) : ReadEvent :=
  { event with outcome := event.outcome.settled }

theorem Delivery.outcome_settled (delivery : Delivery) :
    delivery.settled.outcome = delivery.outcome.settled := by
  cases delivery <;> rfl

namespace Source

/-- The stream as one that is read as byte strings, with blanks as empty ones. -/
def asBytes (s : Source) : Source where
  manner := .read
  chunks := s.chunks.map Chunk.settled
  journal := s.journal.map ReadEvent.settled

theorem deliver_settled (size : Nat) (chunks : List Chunk) :
    deliver .read size (chunks.map Chunk.settled) =
      Prod.map Delivery.settled (List.map Chunk.settled) (deliver .readInto size chunks) := by
  cases chunks with
  | nil => rfl
  | cons chunk rest =>
      cases chunk with
      | absent | fault => rfl
      | data bytes =>
          rw [List.map_cons, Chunk.settled, deliver, deliver]
          · split_ifs with hread hinto hinto
            · rfl
            · exact absurd hread (by simpa using hinto)
            · exact absurd hinto (by simpa using hread)
            · rfl
          · simp

theorem read_asBytes {s : Source} (h : s.manner = .readInto) (size : Nat) :
    s.asBytes.read size = Prod.map Delivery.settled asBytes (s.read size) := by
  have hdeliver : deliver s.asBytes.manner size s.asBytes.chunks = _ :=
    deliver_settled size s.chunks
  unfold read
  rw [hdeliver, h]
  simp only [Prod.map, asBytes, Array.map_push, Delivery.outcome_settled]
  rfl

end Source

/-! ### Refilling -/

namespace StreamUnpacker

theorem manner_readOnce (r : Region Source) : (readOnce r).2.peer.manner = r.peer.manner := by
  have hread : (r.peer.read (r.bytes.size - r.limit)).2.manner = r.peer.manner := rfl
  have hreads := reads_readOnce r
  generalize r.peer.read (r.bytes.size - r.limit) = result at hread hreads
  generalize readOnce r = outcome at hreads ⊢
  cases hreads <;> exact hread

theorem manner_fill (needed : Nat) (r : Region Source) :
    (fill needed r).2.peer.manner = r.peer.manner := by
  fun_induction fill needed r with
  | case1 r hshort answer r' hread =>
      have h := manner_readOnce r
      rwa [hread] at h
  | case2 r hshort r' hread ih =>
      have h := manner_readOnce r
      rw [hread] at h
      exact ih.trans h
  | case3 r henough => rfl

theorem manner_refill (needed : Nat) (r : Region Source) :
    (refill needed r).2.peer.manner = r.peer.manner := by
  rw [refill, manner_fill, peer_makeRoom]

theorem readOnce_asBytes {r : Region Source} (h : r.peer.manner = .readInto) :
    readOnce (r.mapPeer Source.asBytes) =
      Prod.map id (fun r' => r'.mapPeer Source.asBytes) (readOnce r) := by
  have hread : (r.mapPeer Source.asBytes).peer.read
      ((r.mapPeer Source.asBytes).bytes.size - (r.mapPeer Source.asBytes).limit) = _ :=
    Source.read_asBytes h (r.bytes.size - r.limit)
  have hmanner : (r.peer.read (r.bytes.size - r.limit)).2.manner = .readInto := h
  unfold readOnce
  rw [hread]
  generalize r.peer.read (r.bytes.size - r.limit) = result at hmanner
  obtain ⟨delivery, t⟩ := result
  cases delivery with
  | ended => rfl
  | absent =>
      have hm : t.manner = .readInto := hmanner
      dsimp only [Prod.map, Delivery.settled]
      rw [if_pos hm]
      rfl
  | fault | data =>
      dsimp only [Prod.map, Delivery.settled]
      split_ifs <;> rfl

theorem fill_asBytes (needed : Nat) {r : Region Source} (h : r.peer.manner = .readInto) :
    fill needed (r.mapPeer Source.asBytes) =
      Prod.map id (fun r' => r'.mapPeer Source.asBytes) (fill needed r) := by
  fun_induction fill needed r with
  | case1 r hshort answer r' hread =>
      have honce := readOnce_asBytes h
      rw [hread] at honce
      exact fill_of_some honce hshort
  | case2 r hshort r' hread ih =>
      have honce := readOnce_asBytes h
      have hmanner := manner_readOnce r
      rw [hread] at honce hmanner
      exact (fill_of_none honce hshort).trans (ih (hmanner.trans h))
  | case3 r henough => exact fill_of_le (Nat.not_lt.mp henough)

theorem makeRoom_asBytes (needed : Nat) (r : Region Source) :
    makeRoom needed (r.mapPeer Source.asBytes) = (makeRoom needed r).mapPeer Source.asBytes := by
  have hbytes : (r.mapPeer Source.asBytes).bytes = r.bytes := rfl
  have hlimit : (r.mapPeer Source.asBytes).limit = r.limit := rfl
  have hcurrent : (r.mapPeer Source.asBytes).current = r.current := rfl
  unfold makeRoom
  rw [hbytes, hlimit, hcurrent]
  dsimp only
  split_ifs <;> rfl

/-- Refilling from the one stream does what refilling from the other does. -/
theorem supplier_mirrors :
    supplier.Mirrors Source.asBytes (fun s => s.manner = .readInto) supplier where
  respond needed r h := by
    have hroom : (makeRoom needed r).peer.manner = .readInto := by rw [peer_makeRoom, h]
    show fill (needed + (r.current - r.limit)) (makeRoom needed (r.mapPeer Source.asBytes)) = _
    rw [makeRoom_asBytes, fill_asBytes _ hroom]
    rfl
  confined :=
    { inBounds := (refill_confined (P := fun _ => True)).inBounds
      peer := fun needed r h => (manner_refill needed r).trans h
      excused := fun _ _ _ _ _ _ => trivial }
  contained := refill_contained

/-! ### Sessions -/

/-- The session with an unpacker of this source. -/
def transcript (source : Source) (size : Nat) (a : Assumptions) (steps : List UnpackStep) :
    Except Fault (UnpackSession Source × List (Except Failure Answer × UnpackSession Source)) :=
  (Sessions.unpacking (some supplier)).transcript .streamUnpacker a (Bytes.zeros size) 0 (some 0)
    source steps

theorem settled_of_prompt {chunks : List Chunk} (h : .absent ∉ chunks) :
    chunks.map Chunk.settled = chunks := by
  have heach : ∀ chunk ∈ chunks, chunk.settled = chunk := by
    intro chunk hmem
    cases chunk with
    | absent => exact absurd hmem h
    | data | fault => rfl
  rw [List.map_congr_left heach, List.map_id']

/-- It does not show how the stream is read.  Whatever the stream does, whatever size the buffer
begins with, and whatever is called, with every new region in between: over a stream that is read
into the buffer and over one that hands out byte strings of at most the size asked for, each step
answers the same, item, status or fault, and leaves the same context.  The streams have been asked
for the same sizes, delivered as many bytes and raised the same, and still have the same chunks
(`Source.asBytes`).

That a stream has nothing at the moment stands against an empty byte string, in general.  A stream
for which this never happens stands against itself. -/
theorem manner_unobservable (chunks : List Chunk) (size : Nat) (a : Assumptions)
    {steps : List UnpackStep} (hsteps : ∀ step ∈ steps, step.Blind) :
    let expected := (transcript { manner := .readInto, chunks } size a steps).map
      (Prod.map (fun u => u.mapPeer Source.asBytes)
        (List.map (Prod.map id fun u => u.mapPeer Source.asBytes)))
    transcript { manner := .read, chunks := chunks.map Chunk.settled } size a steps = expected ∧
      (.absent ∉ chunks → transcript { manner := .read, chunks } size a steps = expected) := by
  intro expected
  have hfresh : Source.asBytes { manner := .readInto, chunks } =
      { manner := .read, chunks := chunks.map Chunk.settled } := by
    simp only [Source.asBytes, Array.map_empty]
  have hsettled : transcript (Source.asBytes { manner := .readInto, chunks }) size a steps =
      expected :=
    Sessions.transcript_mapPeer supplier_mirrors rfl hsteps
  rw [hfresh] at hsettled
  refine ⟨hsettled, fun hprompt => ?_⟩
  rwa [settled_of_prompt hprompt] at hsettled

/-- What the steps of a session answered. -/
def answers (outcome : Except Fault (UnpackSession Source ×
    List (Except Failure Answer × UnpackSession Source))) : List (Except Failure Answer) :=
  match outcome with
  | .ok (_, course) => course.map Prod.fst
  | .error _ => []

/-- A text comes in pieces, with a failure of the device between them, and then a new region. -/
theorem manner_unobservable_device_failure :
    ∃ (chunks : List Chunk) (steps : List UnpackStep),
      chunks = [.data #[0xA3, 0x61], .fault (.device (some 5)), .data #[], .data #[0x62, 0x63]] ∧
      steps = [.decode, .common (.init #[0x05] (.at 0) none), .decode, .decode, .skip 0] ∧
      answers (transcript { manner := .readInto, chunks } 2 {} steps) =
        [.ok (.status .errorInHandler), .ok (.status .ok), .ok (.decoded (some ⟨.positive 5, #[]⟩)),
          .ok (.status .endOfInput), .ok (.status .stopped)] ∧
      transcript { manner := .read, chunks } 2 {} steps =
        (transcript { manner := .readInto, chunks } 2 {} steps).map
          (Prod.map (fun u => u.mapPeer Source.asBytes)
            (List.map (Prod.map id fun u => u.mapPeer Source.asBytes))) := by
  obtain ⟨chunks, steps, hchunks, hsteps, hanswers⟩ :
      ∃ (chunks : List Chunk) (steps : List UnpackStep),
      chunks = [.data #[0xA3, 0x61], .fault (.device (some 5)), .data #[], .data #[0x62, 0x63]] ∧
      steps = [.decode, .common (.init #[0x05] (.at 0) none), .decode, .decode, .skip 0] ∧
      answers (transcript { manner := .readInto, chunks } 2 {} steps) =
        [.ok (.status .errorInHandler), .ok (.status .ok), .ok (.decoded (some ⟨.positive 5, #[]⟩)),
          .ok (.status .endOfInput), .ok (.status .stopped)] :=
    ⟨_, _, rfl, rfl, by cbv⟩
  refine ⟨chunks, steps, hchunks, hsteps, hanswers, (manner_unobservable chunks 2 {} ?_).2 ?_⟩
  · rw [hsteps]
    intro step hmem
    fin_cases hmem <;> trivial
  · rw [hchunks]
    decide

/-- The two streams are told apart by having nothing at the moment: the one is at its end, and the
other breaks the call off. -/
theorem absent_told_apart :
    answers
        (transcript { manner := .readInto, chunks := [.absent, .data #[0x05]] } 4 {} [.decode]) =
        [.ok (.status .endOfInput)] ∧
      answers (transcript { manner := .read, chunks := [.absent, .data #[0x05]] } 4 {} [.decode]) =
        [.error (.fault .noData)] := by
  constructor <;> cbv

end StreamUnpacker
end MessagePack
