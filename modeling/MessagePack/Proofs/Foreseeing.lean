import MessagePack.Proofs.Filling

/-! # What is to be expected of a source

In which pieces a source is read does not show in what it delivers.  What matters are the bytes that
come before it has nothing, and the chunks from there on: its `Outlook`.  A read of any number of
bytes keeps the outlook, except for the one that finds nothing, and what that one yields is part of
the outlook (`Source.proceeds_read`).

So the outlook decides what a refill comes to (`StreamUnpacker.foreseen_refill`), whatever the size
of the buffer and wherever the unread bytes are in it. -/

namespace MessagePack

/-- What can be expected of a source. -/
structure Outlook where
  /-- The unread bytes, and those that the source delivers before it has nothing. -/
  bytes : List UInt8
  /-- What the source has in its queue then. -/
  stalled : List Chunk
  manner : Manner
  deriving DecidableEq, Repr

/-! ### Sources -/

namespace Source

/-- A queue from the first chunk on that is no data, or empty. -/
def stalledOf : List Chunk → List Chunk
  | .data bytes :: rest => if bytes.isEmpty then .data bytes :: rest else stalledOf rest
  | chunks => chunks

/-- What can be expected of a source, with unread bytes before those that it delivers. -/
def outlook (s : Source) (unread : List UInt8) : Outlook :=
  ⟨unread ++ s.ready, stalledOf s.chunks, s.manner⟩

end Source

namespace Outlook

/-- The outlook once some of the bytes have been passed over. -/
def drop (o : Outlook) (k : Nat) : Outlook := { o with bytes := o.bytes.drop k }

/-- What the read yields that finds nothing, and what is in the queue after it. -/
def stall (o : Outlook) : Delivery × List Chunk := Source.deliver o.manner 0 o.stalled

/-- The outlook after that read. -/
def past (o : Outlook) : Outlook where
  bytes := o.bytes ++ Source.readyOf o.stall.2
  stalled := Source.stalledOf o.stall.2
  manner := o.manner

end Outlook

namespace Source

theorem stalledOf_eq_self {chunks : List Chunk} (h : readyOf chunks = []) :
    stalledOf chunks = chunks := by
  cases chunks with
  | nil => rfl
  | cons chunk rest =>
      cases chunk with
      | absent | fault => rfl
      | data bytes =>
          rw [stalledOf]
          split_ifs with hempty
          · rfl
          · rw [readyOf, if_neg hempty, List.append_eq_nil_iff, Array.toList_eq_nil_iff] at h
            exact absurd (Array.isEmpty_iff.mpr h.1) hempty

/-- Where nothing is ready, the size of a read makes no difference. -/
theorem deliver_of_stalled {chunks : List Chunk} (h : readyOf chunks = []) (manner : Manner)
    (size : Nat) : deliver manner size chunks = deliver manner 0 chunks := by
  cases chunks with
  | nil => rfl
  | cons chunk rest =>
      cases chunk with
      | absent | fault => rfl
      | data bytes =>
          by_cases hempty : bytes.isEmpty
          · obtain rfl := Array.isEmpty_iff.mp hempty
            simp only [deliver, Array.size_empty, Nat.zero_le, or_true, if_true]
          · rw [readyOf, if_neg hempty, List.append_eq_nil_iff, Array.toList_eq_nil_iff] at h
            exact absurd (Array.isEmpty_iff.mpr h.1) hempty

theorem stalledOf_deliver {manner : Manner} {size : Nat} {chunks rest : List Chunk} {bytes : Bytes}
    (h : deliver manner size chunks = (.data bytes, rest)) (hb : bytes.isEmpty = false) :
    stalledOf rest = stalledOf chunks := by
  cases chunks with
  | nil =>
      simp only [deliver, exhausted, Prod.mk.injEq] at h
      split at h
      · cases h.1
      · obtain ⟨⟨⟩, -⟩ := h
        cases hb
  | cons chunk tail =>
      cases chunk with
      | absent | fault => cases h
      | data whole =>
          simp only [deliver] at h
          split_ifs at h with hwhole
          · obtain ⟨⟨⟩, rfl⟩ := h
            rw [stalledOf, if_neg (by simp [hb])]
          · -- what is left of the chunk comes before that place as well
            obtain ⟨⟨⟩, rfl⟩ := h
            rw [not_or, Nat.not_le] at hwhole
            have hrest : (Bytes.slice whole size whole.size).size ≠ 0 := by
              rw [Bytes.size_slice]
              omega
            have hall : whole.size ≠ 0 := by omega
            rw [stalledOf, stalledOf, if_neg (by simpa using hrest), if_neg (by simpa using hall)]

/-- What a read of any number of bytes can come to.  Either some are delivered, which keeps the
outlook, or there is nothing, as was to be expected. -/
inductive Proceeds (b : List UInt8) (s : Source) : Delivery × Source → Prop
  | more {bytes : Bytes} {t : Source} (hb : bytes.isEmpty = false)
      (h : t.outlook (b ++ bytes.toList) = s.outlook b) : Proceeds b s (.data bytes, t)
  | nothing {delivery : Delivery} {t : Source} (hstall : (s.outlook b).stall.1 = delivery)
      (hb : (s.outlook b).bytes = b) (hd : ∀ bytes, delivery = .data bytes → bytes.isEmpty = true)
      (h : t.outlook b = (s.outlook b).past) : Proceeds b s (delivery, t)

theorem proceeds_read (b : List UInt8) (s : Source) {size : Nat} (hsize : 0 < size) :
    Proceeds b s (s.read size) := by
  have hread := s.delivers_read size
  have hdeliver : deliver s.manner size s.chunks = ((s.read size).1, (s.read size).2.chunks) := rfl
  have hmanner : (s.read size).2.manner = s.manner := rfl
  generalize s.read size = result at hread hdeliver hmanner ⊢
  cases hread with
  | @some bytes t hb hcontent hready =>
      apply Proceeds.more hb
      rw [outlook, outlook, hready, stalledOf_deliver hdeliver hb, hmanner, List.append_assoc]
  | @nothing delivery t hd hcontent hready =>
      have hnone : readyOf s.chunks = [] := hready hsize
      have hbytes : (s.outlook b).bytes = b := by
        rw [outlook, ready, hnone, List.append_nil]
      have hstall : (s.outlook b).stall = (delivery, t.chunks) := by
        rw [Outlook.stall, outlook, stalledOf_eq_self hnone, ← hdeliver,
          deliver_of_stalled hnone s.manner size]
      have hpast : t.outlook b = (s.outlook b).past := by
        rw [Outlook.past, hstall, hbytes, outlook, ready, hmanner, outlook]
      exact .nothing (congrArg Prod.fst hstall) hbytes hd hpast

end Source

/-! ### Refilling -/

namespace Outlook

/-- What a refill answers that finds nothing. -/
def answer (o : Outlook) : Except Fault Status := o.stall.1.verdict o.manner

/-- The fault of a region after such a refill, which keeps device failures. -/
def kept (o : Outlook) (fault : Option Fault) : Option Fault := o.stall.1.kept fault

theorem answer_ne_ok (o : Outlook) : o.answer ≠ .ok .ok := Delivery.verdict_ne_ok _ _

end Outlook

namespace StreamUnpacker

/-- What can be expected from the cursor on. -/
def outlook (r : Region Source) : Outlook := r.peer.outlook r.unread.toList

/-- What one read into the buffer can come to. -/
inductive ForeseenOnce (o : Outlook) (fault : Option Fault) (unread : List UInt8) :
    Option (Except Fault Status) × Region Source → Prop
  | more {r : Region Source} (h : outlook r = o) (hf : r.fault = fault) :
      ForeseenOnce o fault unread (none, r)
  | stalled {r : Region Source} (hb : o.bytes = unread) (h : outlook r = o.past)
      (hf : r.fault = o.kept fault) : ForeseenOnce o fault unread (some o.answer, r)

theorem foreseenOnce_readOnce {r : Region Source} (hcurrent : r.current ≤ r.limit)
    (hfree : r.limit < r.bytes.size) :
    ForeseenOnce (outlook r) r.fault r.unread.toList (readOnce r) := by
  have hproceeds : Source.Proceeds r.unread.toList r.peer _ :=
    r.peer.proceeds_read _ (Nat.sub_pos_of_lt hfree)
  have hmanner : (r.peer.read (r.bytes.size - r.limit)).2.manner = (outlook r).manner := rfl
  have hreads := reads_readOnce r
  generalize r.peer.read (r.bytes.size - r.limit) = result at hproceeds hmanner hreads
  generalize readOnce r = outcome at hreads ⊢
  cases hreads with
  | bytes hb =>
      cases hproceeds with
      | more _ h =>
          refine .more ?_ rfl
          rw [outlook, unread_received hcurrent (Nat.le_of_lt hfree)]
          exact h
      | nothing _ _ hd => simp [hd _ rfl] at hb
  | nothing hd ha hf =>
      cases hproceeds with
      | more hb => simp [hd _ rfl] at hb
      | nothing hstall hbytes _ h =>
          have hanswer : (outlook r).answer = _ :=
            congrArg₂ (Delivery.verdict · ·) hmanner.symm hstall
          rw [← ha, ← hanswer]
          refine .stalled hbytes h ?_
          exact hf.symm.trans (congrArg (Delivery.kept r.fault) hstall.symm)

/-- What a refill for `needed` bytes can come to: there are as many, and the outlook is kept; or
the source has nothing before, and the rest follows from the outlook. -/
inductive Foreseen (needed : Nat) (o : Outlook) (fault : Option Fault) :
    Except Fault Status × Region Source → Prop
  | enough {r : Region Source} (hn : needed ≤ o.bytes.length) (h : outlook r = o)
      (hf : r.fault = fault) : Foreseen needed o fault (.ok .ok, r)
  | stalled {r : Region Source} (hn : o.bytes.length < needed) (h : outlook r = o.past)
      (hf : r.fault = o.kept fault) : Foreseen needed o fault (o.answer, r)

theorem foreseen_fill {needed : Nat} {r : Region Source} (hcurrent : r.current = 0)
    (hlimit : r.limit ≤ r.bytes.size) (hsize : needed ≤ r.bytes.size) :
    Foreseen needed (outlook r) r.fault (fill needed r) := by
  have honce : ∀ r : Region Source, r.current = 0 → r.limit < needed → needed ≤ r.bytes.size →
      ForeseenOnce (outlook r) r.fault r.unread.toList (readOnce r) ∧
        ReadsOnce r (readOnce r) ∧ r.unread.toList.length < needed := by
    intro r hcurrent hshort hsize
    have hle : r.current ≤ r.limit := hcurrent ▸ Nat.zero_le _
    have hfree := Nat.lt_of_lt_of_le hshort hsize
    refine ⟨foreseenOnce_readOnce hle hfree, readsOnce_readOnce hle hfree, ?_⟩
    rw [Array.length_toList, Region.size_unread (Nat.le_of_lt hfree)]
    omega
  fun_induction fill needed r with
  | case1 r hshort answer r' h =>
      obtain ⟨hread, -, hlength⟩ := honce r hcurrent hshort hsize
      rw [h] at hread
      cases hread with
      | stalled hb hpast hf => exact .stalled (hb ▸ hlength) hpast hf
  | case2 r hshort r' h ih =>
      obtain ⟨hread, hgains, -⟩ := honce r hcurrent hshort hsize
      rw [h] at hread hgains
      cases hread with
      | more hsame hf =>
          cases hgains with
          | more hgains =>
              rw [← hsame, ← hf]
              exact ih (hgains.current.trans hcurrent) hgains.limit_le
                (Nat.le_trans hsize hgains.size_le)
  | case3 r henough =>
      refine .enough ?_ rfl rfl
      rw [outlook, Source.outlook, List.length_append, Array.length_toList,
        Region.size_unread hlimit, hcurrent]
      omega

theorem fault_makeRoom (needed : Nat) (r : Region Source) :
    (makeRoom needed r).fault = r.fault := by
  unfold makeRoom
  dsimp only
  split_ifs <;> rfl

/-- A refill for missing bytes comes to what is to be expected. -/
theorem foreseen_refill {needed : Nat} {r : Region Source} (hlimit : r.limit ≤ r.bytes.size)
    (hcurrent : r.current ≤ r.limit) :
    Foreseen needed (outlook r) r.fault (refill needed r) := by
  obtain ⟨hunread, hzero, -, hle, hsize⟩ := makeRoom_spec needed hlimit
  have h := foreseen_fill hzero hle hsize
  rw [outlook, hunread, peer_makeRoom, fault_makeRoom] at h
  rwa [refill_eq hcurrent]

end StreamUnpacker
end MessagePack
