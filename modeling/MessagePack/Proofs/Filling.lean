import MessagePack.Proofs.Asking
import MessagePack.Unpacker.Streaming

/-! # Filling the region from a source

A read takes the bytes that it delivers off the front of what the source still has, and nothing
else (`Source.delivers_read`).  One read into the buffer puts them behind the unread bytes, or
brings none and says why (`StreamUnpacker.reads_readOnce`).  So does refilling, however many reads
it takes and however it ends (`StreamUnpacker.filled_refill`): what is unread afterwards is what was
unread before, followed by what the source has delivered.

The bytes up to the next empty read or fault are `Source.ready`.  They are what a refill can get,
and it stops only after it has got all of them. -/

namespace MessagePack

/-! ### Sources -/

namespace Source

/-- The bytes in a queue of chunks. -/
def contentOf : List Chunk → List UInt8
  | [] => []
  | .data bytes :: rest => bytes.toList ++ contentOf rest
  | .absent :: rest | .fault _ :: rest => contentOf rest

/-- The bytes in a queue up to the first chunk that is no data, or empty. -/
def readyOf : List Chunk → List UInt8
  | .data bytes :: rest => if bytes.isEmpty then [] else bytes.toList ++ readyOf rest
  | [] | .absent :: _ | .fault _ :: _ => []

/-- All bytes that the source has not delivered yet. -/
def content (s : Source) : List UInt8 := contentOf s.chunks

/-- The bytes that the source delivers before it says that there is nothing. -/
def ready (s : Source) : List UInt8 := readyOf s.chunks

/-- What a read of at most `size` bytes can come to: some bytes are delivered, or nothing. -/
inductive Delivers (s : Source) (size : Nat) : Delivery × Source → Prop
  | some {bytes : Bytes} {t : Source} (hb : bytes.isEmpty = false)
      (hcontent : s.content = bytes.toList ++ t.content)
      (hready : s.ready = bytes.toList ++ t.ready) : Delivers s size (.data bytes, t)
  | nothing {delivery : Delivery} {t : Source}
      (hd : ∀ bytes, delivery = .data bytes → bytes.isEmpty = true)
      (hcontent : t.content = s.content) (hready : 0 < size → s.ready = []) :
      Delivers s size (delivery, t)

theorem delivers_whole {s t : Source} {size : Nat} {bytes : Bytes} {rest : List Chunk}
    (hs : s.chunks = .data bytes :: rest) (ht : t.chunks = rest) :
    Delivers s size (.data bytes, t) := by
  have hcontent : s.content = bytes.toList ++ t.content := by
    rw [content, content, hs, ht]
    rfl
  cases hb : bytes.isEmpty with
  | true =>
      apply Delivers.nothing
      · rintro _ ⟨⟩
        exact hb
      · obtain rfl := Array.isEmpty_iff.mp hb
        exact hcontent.symm
      · intro _
        rw [ready, hs, readyOf, if_pos hb]
  | false =>
      apply Delivers.some hb hcontent
      rw [ready, ready, hs, ht, readyOf, if_neg (by simp [hb])]

theorem delivers_part {s t : Source} {size : Nat} {bytes : Bytes} {rest : List Chunk}
    (hs : s.chunks = .data bytes :: rest) (hlong : size < bytes.size)
    (ht : t.chunks = .data (Bytes.slice bytes size bytes.size) :: rest) :
    Delivers s size (.data (Bytes.slice bytes 0 size), t) := by
  have hcut : bytes.toList = (Bytes.slice bytes 0 size).toList ++
      (Bytes.slice bytes size bytes.size).toList := by
    rw [Bytes.toList_slice, Bytes.toList_slice, List.drop_zero, Nat.sub_zero,
      List.take_of_length_le (l := bytes.toList.drop size) (by simp), List.take_append_drop]
  have hcontent : s.content = (Bytes.slice bytes 0 size).toList ++ t.content := by
    rw [content, content, hs, ht, contentOf, contentOf, ← List.append_assoc, ← hcut]
  have hfirst : (Bytes.slice bytes 0 size).size = size := by
    rw [Bytes.size_slice]
    omega
  have hrest : (Bytes.slice bytes size bytes.size).isEmpty = false := by
    have : (Bytes.slice bytes size bytes.size).size ≠ 0 := by
      rw [Bytes.size_slice]
      omega
    simpa using this
  have hwhole : bytes.isEmpty = false := by
    have : bytes.size ≠ 0 := by omega
    simpa using this
  rcases Nat.eq_zero_or_pos size with rfl | hpos
  · have hempty : Bytes.slice bytes 0 0 = #[] := Array.size_eq_zero_iff.mp hfirst
    apply Delivers.nothing
    · rintro _ ⟨⟩
      rw [hempty]
      rfl
    · rw [hcontent, hempty]
      rfl
    · intro h
      exact absurd h (Nat.lt_irrefl 0)
  · apply Delivers.some
    · have : (Bytes.slice bytes 0 size).size ≠ 0 := by omega
      simpa using this
    · exact hcontent
    · rw [ready, ready, hs, ht, readyOf, readyOf, if_neg (by simp [hwhole]),
        if_neg (by simp [hrest]), ← List.append_assoc, ← hcut]

theorem delivers_read (s : Source) (size : Nat) : Delivers s size (s.read size) := by
  unfold read
  cases hs : s.chunks with
  | nil =>
      have hcontent : s.content = [] := by
        rw [content, hs]
        rfl
      have hready : s.ready = [] := by
        rw [ready, hs]
        rfl
      refine .nothing ?_ hcontent.symm fun _ => hready
      intro bytes hb
      simp only [exhausted] at hb
      split at hb
      · cases hb
      · cases hb
        rfl
  | cons chunk rest =>
      cases chunk with
      | absent | fault =>
          refine .nothing ?_ ?_ ?_
          · intro bytes hb
            cases hb
          · rw [content, content, hs]
            rfl
          · intro _
            rw [ready, hs]
            rfl
      | data bytes =>
          simp only [deliver]
          split_ifs with h
          · exact delivers_whole hs rfl
          · rw [not_or, Nat.not_le] at h
            exact delivers_part hs h.2 rfl

/-- A read raises only what the source has in its queue, and puts nothing into it. -/
theorem faults_read (s : Source) (size : Nat) :
    (∀ fault, (s.read size).1 = .fault fault → .fault fault ∈ s.chunks) ∧
      ∀ fault, .fault fault ∈ (s.read size).2.chunks → .fault fault ∈ s.chunks := by
  unfold read
  cases hs : s.chunks with
  | nil =>
      refine ⟨?_, fun fault hf => hf⟩
      intro fault hf
      simp only [deliver, exhausted] at hf
      split at hf <;> cases hf
  | cons chunk rest =>
      cases chunk with
      | absent =>
          refine ⟨?_, fun fault hf => List.mem_cons_of_mem _ hf⟩
          intro fault hf
          cases hf
      | fault raised =>
          refine ⟨?_, fun fault hf => List.mem_cons_of_mem _ hf⟩
          rintro _ ⟨⟩
          exact List.mem_cons_self
      | data bytes =>
          simp only [deliver]
          split_ifs with h
          · refine ⟨?_, fun fault hf => List.mem_cons_of_mem _ hf⟩
            intro fault hf
            cases hf
          · constructor
            · intro fault hf
              cases hf
            intro fault hf
            rcases List.mem_cons.mp hf with h' | h'
            · cases h'
            · exact List.mem_cons_of_mem _ h'

end Source

/-! ### Reading once -/

namespace Delivery

/-- The bytes of a delivery. -/
def bytes : Delivery → List UInt8
  | data bytes => bytes.toList
  | absent | ended | fault _ => []

/-- What an unpacker is told if a read brings no bytes. -/
def verdict (manner : Manner) : Delivery → Except Fault Status
  | data _ | ended => .ok .endOfInput
  | absent => if manner = .readInto then .ok .endOfInput else .error .noData
  | fault raised => if raised.isDevice then .ok .errorInHandler else .error raised

/-- The fault that is kept after such a read. -/
def kept (before : Option Fault) : Delivery → Option Fault
  | fault raised => if raised.isDevice then some raised else before
  | data _ | absent | ended => before

theorem bytes_eq_nil {delivery : Delivery}
    (h : ∀ bytes, delivery = .data bytes → bytes.isEmpty = true) : delivery.bytes = [] := by
  cases delivery with
  | data bytes =>
      obtain rfl := Array.isEmpty_iff.mp (h bytes rfl)
      rfl
  | absent | ended | fault => rfl

theorem verdict_ne_ok (manner : Manner) (delivery : Delivery) :
    delivery.verdict manner ≠ .ok .ok := by
  have hend : Status.endOfInput ≠ .ok := by decide
  have herror : Status.errorInHandler ≠ .ok := by decide
  cases delivery with
  | data | ended => simpa [verdict] using hend
  | absent =>
      rw [verdict]
      split_ifs
      · simpa using hend
      · simp
  | fault raised =>
      rw [verdict]
      split_ifs
      · simpa using herror
      · simp

/-- Only faults of the source are passed on, and that there is no data. -/
theorem eq_of_verdict_error {manner : Manner} {delivery : Delivery} {raised : Fault}
    (h : delivery.verdict manner = .error raised) :
    raised = .noData ∨ delivery = .fault raised := by
  cases delivery with
  | data | ended => cases h
  | absent =>
      rw [verdict] at h
      split_ifs at h
      cases h
      exact .inl rfl
  | fault =>
      rw [verdict] at h
      split_ifs at h
      cases h
      exact .inr rfl

end Delivery

namespace StreamUnpacker

/-- The region with bytes of the source put where it ends, even beyond the end of the buffer. -/
def received (r : Region Source) (t : Source) (bytes : Bytes) : Region Source :=
  { Region.modifyBytes { r with peer := t } (Bytes.splice r.bytes r.limit bytes) with
    limit := r.limit + bytes.size }

theorem unread_received {r : Region Source} (hcurrent : r.current ≤ r.limit)
    (hlimit : r.limit ≤ r.bytes.size) (t : Source) (bytes : Bytes) :
    (received r t bytes).unread.toList = r.unread.toList ++ bytes.toList := by
  show (Bytes.slice (Bytes.splice r.bytes r.limit bytes) r.current
    (r.limit + bytes.size)).toList = _
  rw [Bytes.slice_splice hcurrent hlimit, Array.toList_append]
  rfl

theorem size_received (r : Region Source) (t : Source) (bytes : Bytes) :
    (received r t bytes).bytes.size =
      min r.limit r.bytes.size + bytes.size + (r.bytes.size - (r.limit + bytes.size)) := by
  show (Bytes.splice r.bytes r.limit bytes).size = _
  simp only [Bytes.splice, Array.size_append, Array.size_extract]
  omega

/-- What one read into the buffer comes to, after what the source delivers.  If there are no bytes,
only the source changes, and what is kept of its faults. -/
inductive Reads (r : Region Source) :
    Delivery × Source → Option (Except Fault Status) × Region Source → Prop
  | bytes {bytes : Bytes} {t : Source} (hb : bytes.isEmpty = false) :
      Reads r (.data bytes, t) (none, received r t bytes)
  | nothing {delivery : Delivery} {t : Source} {answer : Except Fault Status} {number : Int}
      {fault : Option Fault} (hd : ∀ bytes, delivery = .data bytes → bytes.isEmpty = true)
      (ha : delivery.verdict t.manner = answer) (hf : delivery.kept r.fault = fault) :
      Reads r (delivery, t) (some answer, { r with peer := t, errorNumber := number, fault })

theorem reads_readOnce (r : Region Source) :
    Reads r (r.peer.read (r.bytes.size - r.limit)) (readOnce r) := by
  unfold readOnce
  generalize r.peer.read (r.bytes.size - r.limit) = result
  obtain ⟨delivery, t⟩ := result
  cases delivery with
  | ended | absent => exact .nothing (by simp) rfl rfl
  | fault raised =>
      dsimp only
      split_ifs with hdevice
      · exact .nothing (by simp) (if_pos hdevice) (if_pos hdevice)
      · exact .nothing (by simp) (if_neg hdevice) (if_neg hdevice)
  | data bytes =>
      dsimp only
      split_ifs with hempty
      · refine .nothing ?_ rfl rfl
        rintro _ ⟨⟩
        exact hempty
      · exact .bytes (by simpa using hempty)

theorem Reads.delivery {r : Region Source} {read : Delivery × Source}
    {outcome : Option (Except Fault Status) × Region Source} (h : Reads r read outcome)
    (hcurrent : r.current ≤ r.limit) (hlimit : r.limit ≤ r.bytes.size) :
    outcome.2.peer = read.2 ∧
      outcome.2.unread.toList = r.unread.toList ++ read.1.bytes := by
  cases h with
  | bytes hb => exact ⟨rfl, unread_received hcurrent hlimit _ _⟩
  | nothing hd =>
      rw [Delivery.bytes_eq_nil hd, List.append_nil]
      exact ⟨rfl, rfl⟩

/-! ### Refilling -/

/-- The source has delivered `next`, and it stands behind the unread bytes of `r`. -/
structure Gains (r : Region Source) (next : List UInt8) (r' : Region Source) : Prop where
  unread : r'.unread.toList = r.unread.toList ++ next
  content : r.peer.content = next ++ r'.peer.content
  current : r'.current = r.current
  limit : r'.limit = r.limit + next.length
  limit_le : r'.limit ≤ r'.bytes.size
  size_le : r.bytes.size ≤ r'.bytes.size

section gains

variable {r r' r'' : Region Source} {next more : List UInt8}

theorem Gains.trans (h : Gains r next r') (h' : Gains r' more r'') :
    Gains r (next ++ more) r'' where
  unread := by rw [h'.unread, h.unread, List.append_assoc]
  content := by rw [h.content, h'.content, List.append_assoc]
  current := h'.current.trans h.current
  limit := by rw [h'.limit, h.limit, List.length_append, Nat.add_assoc]
  limit_le := h'.limit_le
  size_le := Nat.le_trans h.size_le h'.size_le

theorem Gains.none (hlimit : r.limit ≤ r.bytes.size)
    (hb : r'.buffer = r.buffer) (hc : r'.current = r.current) (hl : r'.limit = r.limit)
    (hcontent : r'.peer.content = r.peer.content) : Gains r [] r' where
  unread := by rw [Region.unread, Region.unread, Region.bytes, hb, hc, hl, List.append_nil]
  content := hcontent.symm
  current := hc
  limit := hl
  limit_le := by rwa [hl, Region.bytes, hb]
  size_le := by rw [Region.bytes, Region.bytes, hb]

theorem Gains.received (hcurrent : r.current ≤ r.limit) (hlimit : r.limit ≤ r.bytes.size)
    {t : Source} {bytes : Bytes} (hcontent : r.peer.content = bytes.toList ++ t.content) :
    Gains r bytes.toList (received r t bytes) where
  unread := unread_received hcurrent hlimit t bytes
  content := hcontent
  current := rfl
  limit := by
    rw [Array.length_toList]
    rfl
  limit_le := by
    show r.limit + bytes.size ≤ _
    rw [size_received]
    omega
  size_le := by
    rw [size_received]
    omega

end gains

/-- What one read into the free part of the buffer can come to. -/
inductive ReadsOnce (r : Region Source) : Option (Except Fault Status) × Region Source → Prop
  | more {next : List UInt8} {r' : Region Source} (h : Gains r next r')
      (hready : r.peer.ready = next ++ r'.peer.ready) : ReadsOnce r (none, r')
  | stopped {answer : Except Fault Status} {r' : Region Source} (h : Gains r [] r')
      (hready : r.peer.ready = []) : ReadsOnce r (some answer, r')

theorem readsOnce_readOnce {r : Region Source} (hcurrent : r.current ≤ r.limit)
    (hfree : r.limit < r.bytes.size) : ReadsOnce r (readOnce r) := by
  have hlimit := Nat.le_of_lt hfree
  have hdelivers := r.peer.delivers_read (r.bytes.size - r.limit)
  have hreads := reads_readOnce r
  generalize r.peer.read (r.bytes.size - r.limit) = result at hdelivers hreads
  generalize readOnce r = outcome at hreads
  cases hreads with
  | bytes hb =>
      cases hdelivers with
      | some _ hcontent hready => exact .more (.received hcurrent hlimit hcontent) hready
      | nothing hd => simp [hd _ rfl] at hb
  | nothing hd ha hf =>
      cases hdelivers with
      | some hb => simp [hd _ rfl] at hb
      | nothing _ hcontent hready =>
          exact .stopped (.none hlimit rfl rfl rfl hcontent) (hready (Nat.sub_pos_of_lt hfree))

/-- What filling up to `needed` bytes can come to. -/
inductive Filled (needed : Nat) (r : Region Source) : Except Fault Status × Region Source → Prop
  | enough {next : List UInt8} {r' : Region Source} (h : Gains r next r')
      (hready : r.peer.ready = next ++ r'.peer.ready) (hroom : r'.current + needed ≤ r'.limit) :
      Filled needed r (.ok .ok, r')
  | stopped {next : List UInt8} {answer : Except Fault Status} {r' : Region Source}
      (h : Gains r next r') (hready : r.peer.ready = next)
      (hshort : r'.limit < r'.current + needed) (ha : answer ≠ .ok .ok) :
      Filled needed r (answer, r')

theorem Filled.after {needed : Nat} {r r' : Region Source} {next : List UInt8}
    {result : Except Fault Status × Region Source} (h' : Filled needed r' result)
    (h : Gains r next r') (hready : r.peer.ready = next ++ r'.peer.ready) :
    Filled needed r result := by
  cases h' with
  | enough h' hready' hroom =>
      refine .enough (h.trans h') ?_ hroom
      rw [hready, hready', List.append_assoc]
  | stopped h' hready' hshort ha =>
      refine .stopped (h.trans h') ?_ hshort ha
      rw [hready, hready']

theorem fill_of_le {needed : Nat} {r : Region Source} (h : needed ≤ r.limit) :
    fill needed r = (.ok .ok, r) := by
  rw [fill, if_neg (Nat.not_lt.mpr h)]

theorem fill_of_some {needed : Nat} {r r' : Region Source} {answer : Except Fault Status}
    (h : readOnce r = (some answer, r')) (hshort : r.limit < needed) :
    fill needed r = (answer, r') := by
  rw [fill, if_pos hshort]
  split
  · rename_i heq
    rw [h] at heq
    cases heq
    rfl
  · rename_i heq
    rw [h] at heq
    cases heq

theorem fill_of_none {needed : Nat} {r r' : Region Source} (h : readOnce r = (none, r'))
    (hshort : r.limit < needed) : fill needed r = fill needed r' := by
  rw [fill, if_pos hshort]
  split
  · rename_i heq
    rw [h] at heq
    cases heq
  · rename_i heq
    rw [h] at heq
    cases heq
    rfl

theorem filled_fill {needed : Nat} {r : Region Source} (hcurrent : r.current = 0)
    (hlimit : r.limit ≤ r.bytes.size) (hsize : needed ≤ r.bytes.size) :
    Filled needed r (fill needed r) := by
  have honce : ∀ r : Region Source, r.current = 0 → r.limit < needed → needed ≤ r.bytes.size →
      ReadsOnce r (readOnce r) := fun r hcurrent hshort hsize =>
    readsOnce_readOnce (hcurrent ▸ Nat.zero_le _) (Nat.lt_of_lt_of_le hshort hsize)
  fun_induction fill needed r with
  | case1 r hshort answer r' h =>
      have hread := honce r hcurrent hshort hsize
      rw [h] at hread
      cases hread with
      | stopped hgains hready =>
          have hne : answer ≠ .ok .ok := by
            rintro rfl
            exact readOnce_ne_ok h
          have hshort' : r'.limit < r'.current + needed := by
            rw [hgains.current, hcurrent, hgains.limit, List.length_nil]
            omega
          exact .stopped hgains hready hshort' hne
  | case2 r hshort r' h ih =>
      have hread := honce r hcurrent hshort hsize
      rw [h] at hread
      cases hread with
      | more hgains hready =>
          have hrest := ih (hgains.current.trans hcurrent) hgains.limit_le
            (Nat.le_trans hsize hgains.size_le)
          exact hrest.after hgains hready
  | case3 r henough =>
      have hroom : r.current + needed ≤ r.limit := by
        rw [hcurrent, Nat.zero_add]
        exact Nat.not_lt.mp henough
      exact .enough (.none hlimit rfl rfl rfl rfl) rfl hroom

theorem toList_slice_splice_zero {bytes data : Bytes} :
    (Bytes.slice (Bytes.splice bytes 0 data) 0 data.size).toList = data.toList := by
  have h := Bytes.slice_splice (Nat.le_refl 0) (Nat.zero_le bytes.size) data
  rw [Nat.zero_add] at h
  rw [h, Array.toList_append, Bytes.toList_slice, Nat.sub_self, List.take_zero, List.nil_append]

/-- Making room keeps the unread bytes, and puts them at the front of a buffer that is large
enough. -/
theorem makeRoom_spec (needed : Nat) {r : Region Source} (hlimit : r.limit ≤ r.bytes.size) :
    (makeRoom needed r).unread.toList = r.unread.toList ∧ (makeRoom needed r).current = 0 ∧
      (makeRoom needed r).limit = r.limit - r.current ∧
      (makeRoom needed r).limit ≤ (makeRoom needed r).bytes.size ∧
      needed ≤ (makeRoom needed r).bytes.size := by
  have hleft := Region.size_unread hlimit
  have hfront : ∀ bytes, (Bytes.slice (Bytes.splice bytes 0 r.unread) 0
      (r.limit - r.current)).toList = r.unread.toList := by
    intro bytes
    rw [← hleft]
    exact toList_slice_splice_zero
  have hsize : ∀ bytes : Bytes, r.limit - r.current ≤ bytes.size →
      (Bytes.splice bytes 0 r.unread).size = bytes.size := by
    intro bytes h
    exact Bytes.size_splice (by rw [hleft, Nat.zero_add]; exact h)
  unfold makeRoom
  dsimp only
  split_ifs with hgrow hmove
  · have hzeros := hsize (Bytes.zeros (max needed (2 * r.bytes.size))) (by
      rw [Bytes.size_zeros]
      omega)
    rw [Bytes.size_zeros] at hzeros
    refine ⟨hfront _, rfl, rfl, ?_, ?_⟩
    · show r.limit - r.current ≤ Array.size (Bytes.splice _ 0 r.unread)
      rw [hzeros]
      omega
    · show needed ≤ Array.size (Bytes.splice _ 0 r.unread)
      rw [hzeros]
      exact Nat.le_max_left _ _
  · have hbytes := hsize r.bytes (by omega)
    refine ⟨hfront _, rfl, rfl, ?_, ?_⟩
    · show r.limit - r.current ≤ Array.size (Bytes.splice r.bytes 0 r.unread)
      rw [hbytes]
      omega
    · show needed ≤ Array.size (Bytes.splice r.bytes 0 r.unread)
      rw [hbytes]
      omega
  · refine ⟨?_, rfl, rfl, by show r.limit - r.current ≤ r.bytes.size; omega, by
      show needed ≤ r.bytes.size; omega⟩
    show (Bytes.slice r.bytes 0 (r.limit - r.current)).toList = (Bytes.slice r.bytes _ _).toList
    rw [not_and_or, not_not, not_not] at hmove
    rw [Bytes.toList_slice, Bytes.toList_slice, List.drop_zero, Nat.sub_zero]
    rcases hmove with h | h
    · rw [h, List.take_zero, List.take_zero]
    · rw [h, Nat.sub_zero, List.drop_zero]

/-- What a refill can come to: the source has delivered `next`, and the answer tells whether that
is enough. -/
theorem filled_refill (needed : Nat) {r : Region Source} (hlimit : r.limit ≤ r.bytes.size)
    (hcurrent : r.current ≤ r.limit) :
    Filled needed (makeRoom needed r) (refill needed r) := by
  obtain ⟨-, hzero, -, hle, hsize⟩ := makeRoom_spec needed hlimit
  rw [refill_eq hcurrent]
  exact filled_fill hzero hle hsize

theorem refill_contained : Handler.Contained refill := by
  intro needed r hcurrent hlimit _
  have h := filled_refill needed hlimit hcurrent
  generalize refill needed r = result at h
  cases h with
  | enough h | stopped h => exact h.limit_le

end StreamUnpacker
end MessagePack
