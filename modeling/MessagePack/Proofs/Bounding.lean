import MessagePack.Proofs.Arguments
import MessagePack.Proofs.ReorderedSessions

/-! # Contexts stay inside their buffer

Whatever is called on a packer with a growing buffer, a packer with a sink or an unpacker with a
source, and whatever the stream does, the region stays in the buffer and the cursor in the region,
also after calls that failed.  No access goes outside the buffer: a fault of that kind is raised
only if it comes from the stream (`Sessions.stays_in_bounds`).  The exception is a growing packer
that is asked for a negative number of bytes (`Sessions.negative_take_leaves_buffer`).

The three handlers are described alike, by what they do to a region that is in bounds
(`Handler.Confined`).  A path through a call asks the handler and moves over bytes that are there,
so it keeps the bounds wherever it ends (`Unpacker.Moves.confined`). -/

namespace MessagePack

open Engine

variable {σ α : Type} {P : Fault → Prop} {Peer : σ → Prop}

/-! ### Indexing faults -/

namespace Fault

/-- An access outside the buffer, or to a field that is too small for its value. -/
def isIndexing : Fault → Bool
  | outOfBounds | fieldRange => true
  | _ => false

/-- If it is an indexing fault, it is of this kind. -/
def Excused (P : Fault → Prop) (fault : Fault) : Prop := fault.isIndexing = true → P fault

theorem excused_of_not {fault : Fault} (h : fault.isIndexing = false) : fault.Excused P := by
  intro hf
  rw [h] at hf
  cases hf

end Fault

theorem Frame.LengthRefused.isIndexing {n : Int} {fault : Fault} (h : LengthRefused n fault) :
    fault.isIndexing = false := by
  cases h <;> rfl

theorem Value.Refused.isIndexing {v : Value} {fault : Fault} (h : v.Refused fault) :
    fault.isIndexing = false := by
  cases h with
  | negative | unsigned | signed | float | subtype => rfl
  | array h | map h | str h | bin h | ext _ h => exact h.isIndexing

/-- A value is not refused for where it would be put. -/
theorem Value.frame_isIndexing {v : Value} {fault : Fault} (h : v.frame = .error fault) :
    fault.isIndexing = false := (Value.frame_error_iff.mp h).isIndexing

theorem Data.Refused.isIndexing {data : Data} {fault : Fault} (h : data.Refused fault) :
    fault.isIndexing = false := by
  cases h with
  | withheld h =>
      cases h with
      | surrogate => rfl
      | layout h => cases h <;> rfl
  | long _ h => exact h.isIndexing

theorem Request.value_isIndexing {request : Request} {fault : Fault}
    (h : request.value = .error fault) : fault.isIndexing = false := by
  have hframe : request.value >>= Value.frame = .error fault := by
    rw [h]
    rfl
  cases Request.frame_error_iff.mp hframe with
  | plain h => exact h.isIndexing
  | str h | bin h | ext _ h => exact h.isIndexing
  | subtype => rfl

/-! ### Handlers -/

/-- Asked for missing bytes of a region that is in bounds, the handler leaves it in bounds.  Its
peer stays as it has to be, and the faults that the handler raises besides indexing faults are its
own. -/
structure Handler.Confined (P : Fault → Prop) (Peer : σ → Prop) (respond : Handler σ) : Prop where
  inBounds : ∀ n r, r.InBounds → r.limit < r.current + n → (respond n r).2.InBounds
  peer : ∀ n r, Peer r.peer → Peer (respond n r).2.peer
  excused : ∀ n r fault, Peer r.peer → (respond n r).1 = .error fault → fault.Excused P

theorem Handler.Confined.of_eq_some {respond : Handler σ} (h : respond.Confined P Peer) :
    ∀ other, some respond = some other → other.Confined P Peer := by
  rintro _ ⟨⟩
  exact h

theorem GrowingPacker.grow_confined : Handler.Confined P (fun _ => True) grow where
  inBounds n r hr hn := by
    have hcontained := Operations.grow_contained n r hr.current_le hr.limit_le hn
    have hold := le_grownSize (max r.bytes.size leastSize) r.current n
    have hcurrent : r.current ≤ grownSize (max r.bytes.size leastSize) r.current n := by
      have := hr.current_le
      have := hr.limit_le
      omega
    exact ⟨hr.start_le, hcurrent, hcontained⟩
  peer _ _ _ := trivial
  excused _ _ _ _ h := by cases h

namespace StreamPacker

/-- Neither draining nor a flush moves the bounds; the cursor stays or goes to the start. -/
theorem drain_confined {r : Region Sink} (hs : r.peer.Raises P) :
    (r.InBounds → (drain r).2.InBounds) ∧ (drain r).2.peer.Raises P ∧
      ∀ fault, (drain r).1 = .error fault → P fault := by
  have hdrain : Drained P r (drain r) := drained_drain hs
  generalize drain r = result at hdrain
  cases hdrain with
  | complete h =>
      refine ⟨fun hr => ?_, h.raises, by simp⟩
      exact ⟨Nat.le_refl _, Nat.le_trans hr.start_le hr.current_le, hr.limit_le⟩
  | broken hf h =>
      refine ⟨fun hr => ⟨hr.start_le, hr.current_le, hr.limit_le⟩, h.raises, ?_⟩
      rintro _ ⟨⟩
      exact hf

theorem drainAndFlush_confined {r : Region Sink} (hs : r.peer.Raises P) :
    (r.InBounds → (drainAndFlush r).2.InBounds) ∧ (drainAndFlush r).2.peer.Raises P ∧
      ∀ fault, (drainAndFlush r).1 = .error fault → P fault := by
  have hdrain := drain_confined hs
  unfold drainAndFlush
  generalize drain r = result at hdrain ⊢
  obtain ⟨outcome, r'⟩ := result
  obtain ⟨hb, hp, hf⟩ := hdrain
  cases outcome with
  | error fault =>
      refine ⟨hb, hp, ?_⟩
      rintro _ ⟨⟩
      exact hf fault rfl
  | ok u =>
      have hflush : Sink.Written P r'.peer [] r'.peer.flush := Sink.written_flush hp
      dsimp only
      generalize r'.peer.flush = result at hflush
      cases hflush with
      | complete h =>
          exact ⟨fun hr => ⟨(hb hr).start_le, (hb hr).current_le, (hb hr).limit_le⟩, h.raises,
            by simp⟩
      | broken hraised h =>
          refine ⟨fun hr => ⟨(hb hr).start_le, (hb hr).current_le, (hb hr).limit_le⟩, h.raises, ?_⟩
          rintro _ ⟨⟩
          exact hraised

theorem makeRoom_confined : Handler.Confined P (Sink.Raises P) makeRoom where
  inBounds n r hr _ := by
    have hdrain := (drain_confined (Operations.raises_any r.peer)).1 hr
    unfold makeRoom
    generalize drain r = result at hdrain
    obtain ⟨outcome, r'⟩ := result
    cases outcome with
    | error fault =>
        dsimp only
        split_ifs
        · exact ⟨hdrain.start_le, hdrain.current_le, hdrain.limit_le⟩
        · exact hdrain
    | ok u =>
        dsimp only
        split_ifs
        · exact hdrain
        · exact ⟨Nat.le_refl _, Nat.zero_le _, (Bytes.size_zeros n).ge⟩
  peer n r hr := by
    have hdrain := (drain_confined hr).2.1
    unfold makeRoom
    generalize drain r = result at hdrain
    obtain ⟨outcome, r'⟩ := result
    cases outcome with
    | error fault =>
        dsimp only
        split_ifs <;> exact hdrain
    | ok u =>
        dsimp only
        split_ifs <;> exact hdrain
  excused n r fault hr h := by
    have hdrain := (drain_confined hr).2.2
    unfold makeRoom at h
    generalize drain r = result at hdrain h
    obtain ⟨outcome, r'⟩ := result
    cases outcome with
    | error raised =>
        dsimp only at h
        split_ifs at h
        cases h
        exact fun _ => hdrain fault rfl
    | ok u =>
        dsimp only at h
        split_ifs at h

end StreamPacker

namespace Source

/-- All faults that the source is going to raise are of this kind. -/
def Raises (P : Fault → Prop) (s : Source) : Prop := ∀ fault, .fault fault ∈ s.chunks → P fault

theorem Raises.read {s : Source} (h : s.Raises P) (size : Nat) :
    (s.read size).2.Raises P ∧ ∀ fault, (s.read size).1 = .fault fault → P fault := by
  obtain ⟨hraised, hleft⟩ := s.faults_read size
  exact ⟨fun fault hf => h fault (hleft fault hf), fun fault hf => h fault (hraised fault hf)⟩

end Source

namespace StreamUnpacker

theorem readOnce_confined {r : Region Source} (hs : r.peer.Raises P) :
    (r.InBounds → (readOnce r).2.InBounds) ∧ (readOnce r).2.peer.Raises P ∧
      ∀ fault, (readOnce r).1 = some (.error fault) → fault.Excused P := by
  have hread := hs.read (r.bytes.size - r.limit)
  have hreads := reads_readOnce r
  generalize r.peer.read (r.bytes.size - r.limit) = result at hread hreads
  obtain ⟨ht, hraises⟩ := hread
  generalize readOnce r = outcome at hreads ⊢
  cases hreads with
  | @bytes bytes t hb =>
      refine ⟨fun hr => ⟨hr.start_le, ?_, ?_⟩, ht, by simp⟩
      · exact Nat.le_trans hr.current_le (Nat.le_add_right _ _)
      · show r.limit + bytes.size ≤ _
        rw [size_received]
        have := hr.limit_le
        omega
  | nothing hd ha hf =>
      refine ⟨fun hr => ⟨hr.start_le, hr.current_le, hr.limit_le⟩, ht, ?_⟩
      rintro fault ⟨⟩
      rcases Delivery.eq_of_verdict_error ha with rfl | rfl
      · exact Fault.excused_of_not rfl
      · exact fun _ => hraises fault rfl

theorem fill_confined {needed : Nat} {r : Region Source} (hs : r.peer.Raises P) :
    (r.InBounds → (fill needed r).2.InBounds) ∧ (fill needed r).2.peer.Raises P ∧
      ∀ fault, (fill needed r).1 = .error fault → fault.Excused P := by
  fun_induction fill needed r with
  | case1 r hshort answer r' h =>
      have hread := readOnce_confined hs
      rw [h] at hread
      obtain ⟨hb, hp, hf⟩ := hread
      exact ⟨hb, hp, fun fault ha => hf fault (congrArg some ha)⟩
  | case2 r hshort r' h ih =>
      have hread := readOnce_confined hs
      rw [h] at hread
      obtain ⟨hb, hp, -⟩ := hread
      obtain ⟨hb', hp', hf'⟩ := ih hp
      exact ⟨fun hr => hb' (hb hr), hp', hf'⟩
  | case3 r henough => exact ⟨id, hs, by simp⟩

theorem refill_confined : Handler.Confined P (Source.Raises P) refill where
  inBounds n r hr _ := by
    obtain ⟨-, hcurrent, -, hlimit, -⟩ := makeRoom_spec n hr.limit_le
    have hroom : (makeRoom n r).InBounds :=
      ⟨hcurrent ▸ Nat.le_refl 0, hcurrent ▸ Nat.zero_le _, hlimit⟩
    have hany : Source.Raises (fun _ => True) (makeRoom n r).peer := fun _ _ => trivial
    exact (fill_confined hany).1 hroom
  peer n r hr := (fill_confined ((peer_makeRoom n r).symm ▸ hr)).2.1
  excused n r fault hr h := (fill_confined ((peer_makeRoom n r).symm ▸ hr)).2.2 fault h

end StreamUnpacker

/-! ### Contexts -/

/-- The fault that a call raises. -/
def raisedFault : Except Fault α → Option Fault
  | .error fault => some fault
  | .ok _ => none

namespace Context

/-- What every step keeps: the region is in bounds, the peer is as it has to be, and the context has
a byte order unless it is stopped. -/
structure Confined (Peer : σ → Prop) (c : Context σ) : Prop where
  inBounds : c.InBounds
  peer : Peer c.peer
  selects : ∃ order, c.assumptions.select = .ok order
  order : c.status = .ok → ∃ order, c.order = some order ∧ order.Suits

/-- What a step leaves: the context is confined, and the fault that is raised, if there is one, is
excused. -/
structure Settled (P : Fault → Prop) (Peer : σ → Prop) (raised : Option Fault) (c : Context σ) :
    Prop where
  confined : c.Confined Peer
  excused : ∀ fault, raised = some fault → fault.Excused P

theorem Confined.settled {c : Context σ} (h : c.Confined Peer) : Settled P Peer none c :=
  ⟨h, by simp⟩

theorem Settled.of_not {c : Context σ} (h : c.Confined Peer) {fault : Fault}
    (hf : fault.isIndexing = false) : Settled P Peer (some fault) c := by
  refine ⟨h, ?_⟩
  rintro _ ⟨⟩
  exact Fault.excused_of_not hf

theorem Confined.live {c : Context σ} (h : c.Confined Peer) (hs : c.status = .ok) : c.Live :=
  ⟨h.inBounds, hs, h.order hs⟩

theorem Confined.ready {c : Context σ} (h : c.Confined Peer) (hs : c.status = .ok) : c.Ready 0 :=
  (h.live hs).ready h.inBounds.current_le

theorem Confined.latch {c : Context σ} (h : c.Confined Peer) {status : Status}
    (hs : status ≠ .ok) : (c.latch status).Confined Peer :=
  ⟨⟨h.inBounds.start_le, h.inBounds.current_le, h.inBounds.limit_le⟩, h.peer, h.selects,
    fun hok => absurd hok hs⟩

theorem Confined.moved {c d : Context σ} (h : c.Confined Peer) (hb : d.InBounds)
    (hp : d.peer = c.peer) (ha : d.assumptions = c.assumptions) (hs : d.status = c.status)
    (ho : d.order = c.order) : d.Confined Peer := by
  refine ⟨hb, ?_, ?_, ?_⟩
  · rw [hp]
    exact h.peer
  · rw [ha]
    exact h.selects
  · rw [hs, ho]
    exact h.order

theorem Confined.append {c : Context σ} (h : c.Confined Peer) {data : Bytes}
    (hb : (c.append data).InBounds) : (c.append data).Confined Peer :=
  h.moved hb rfl rfl rfl rfl

/-- A context that was bound anew is confined, whatever it was before. -/
theorem confined_bind {c d : Context σ} {buffer : Buffer} {start : Int} {stop : Option Int}
    {status : Status} (hp : Peer c.peer) (ha : ∃ order, c.assumptions.select = .ok order)
    (h : c.bind buffer start stop = (.ok status, d)) : d.Confined Peer := by
  unfold Context.bind at h
  cases hr : range? buffer.bytes.size start stop with
  | error fault => simp [hr] at h
  | ok range =>
      obtain ⟨first, last⟩ := range
      obtain ⟨hfirst, hlast⟩ := le_of_range?_eq_ok hr
      obtain ⟨order, hselect⟩ := ha
      rw [hr] at h
      dsimp only at h
      rw [hselect] at h
      cases order with
      | none =>
          obtain ⟨-, rfl⟩ := Prod.mk.inj h
          have hne : Status.wrongByteOrder ≠ .ok := by decide
          exact ⟨⟨Nat.le_refl _, hfirst, hlast⟩, hp, ⟨_, hselect⟩, fun hs => absurd hs hne⟩
      | some order =>
          obtain ⟨-, rfl⟩ := Prod.mk.inj h
          exact ⟨⟨Nat.le_refl _, hfirst, hlast⟩, hp, ⟨_, hselect⟩,
            fun _ => ⟨order, rfl, ByteOrder.suits_of_select hselect⟩⟩

theorem bind_refused {c d : Context σ} {buffer : Buffer} {start : Int} {stop : Option Int}
    {fault : Fault} {order : Option ByteOrder} (ha : c.assumptions.select = .ok order)
    (h : c.bind buffer start stop = (.error fault, d)) : d = c ∧ fault.isIndexing = false := by
  unfold Context.bind at h
  cases hr : range? buffer.bytes.size start stop with
  | error raised =>
      rw [hr] at h
      obtain ⟨hf, rfl⟩ := Prod.mk.inj h
      obtain rfl : raised = fault := Except.error.inj hf
      refine ⟨rfl, ?_⟩
      unfold range? at hr
      dsimp only at hr
      split_ifs at hr
      cases hr
      rfl
  | ok range =>
      rw [hr] at h
      dsimp only at h
      rw [ha] at h
      cases order <;> cases h

theorem Confined.bind {c : Context σ} (h : c.Confined Peer) (buffer : Buffer) (start : Int)
    (stop : Option Int) :
    Settled P Peer (raisedFault (c.bind buffer start stop).1) (c.bind buffer start stop).2 := by
  obtain ⟨order, ha⟩ := h.selects
  cases hbind : c.bind buffer start stop with
  | mk result d =>
      cases result with
      | ok status => exact (confined_bind h.peer h.selects hbind).settled
      | error fault =>
          obtain ⟨rfl, hf⟩ := bind_refused ha hbind
          exact .of_not h hf

theorem confined_new {kind : Kind} {a : Assumptions} {bytes : Bytes} {start : Int}
    {stop : Option Int} {peer : σ} {c : Context σ} (hp : Peer peer)
    (h : Context.new kind a bytes start stop peer = .ok c) : c.Confined Peer := by
  obtain ⟨-, order, ha, -⟩ := select_new h
  unfold Context.new at h
  dsimp only at h
  split at h
  · rename_i status d hbind
    obtain rfl : d = c := by simpa using h
    exact confined_bind hp ⟨order, ha⟩ hbind
  · simp at h

end Context

/-! ### Asking and reading -/

open Context Unpacker

section reading

variable {handler : Option (Handler σ)}
  (hh : ∀ respond, handler = some respond → respond.Confined P Peer)

include hh

theorem Engine.Asked.settled {adapt : Status → Status} {n : Nat} {short : Status} {c : Context σ}
    {result : EStateM.Result Halt (Context σ) Unit}
    (h : Asked handler adapt n short c result) (hc : c.Confined Peer) (hs : c.status = .ok) :
    match result with
    | .ok _ d => d.Confined Peer
    | .error halt d => Settled P Peer (raisedFault halt.result) d := by
  have hasked : ∀ respond, handler = some respond → c.limit < c.current + n →
      (respond n c.toRegion).2.InBounds ∧ Peer (respond n c.toRegion).2.peer := by
    intro respond hr hn
    have hconfined := hh respond hr
    exact ⟨hconfined.inBounds n _ hc.inBounds hn, hconfined.peer n _ hc.peer⟩
  have horder := hc.order hs
  cases h with
  | there => exact hc
  | granted hr hn he =>
      obtain ⟨hb, hp⟩ := hasked _ hr hn
      rw [he] at hb hp
      exact ⟨hb, hp, hc.selects, fun _ => horder⟩
  | alone =>
      have hd : ∀ status, (c.latch status).Confined Peer := fun status =>
        ⟨⟨hc.inBounds.start_le, hc.inBounds.current_le, hc.inBounds.limit_le⟩, hc.peer,
          hc.selects, fun _ => horder⟩
      exact (hd short).settled
  | declined hr hn he | broken hr hn he =>
      obtain ⟨hb, hp⟩ := hasked _ hr hn
      rw [he] at hb hp
      exact Confined.settled
        ⟨⟨hb.start_le, hb.current_le, hb.limit_le⟩, hp, hc.selects, fun _ => horder⟩
  | @raised respond fault r hr hn he =>
      obtain ⟨hb, hp⟩ := hasked _ hr hn
      have hf := (hh respond hr).excused n c.toRegion fault hc.peer (congrArg Prod.fst he)
      rw [he] at hb hp
      refine ⟨⟨⟨hb.start_le, hb.current_le, hb.limit_le⟩, hp, hc.selects, fun _ => horder⟩, ?_⟩
      rintro _ ⟨⟩
      exact hf

theorem Unpacker.Moves.confined {c d : Context σ} {p : List UInt8} (h : Moves handler c p d)
    (hc : c.Confined Peer) (hs : c.status = .ok) : d.Confined Peer ∧ d.status = .ok := by
  induction h with
  | refl => exact ⟨hc, hs⟩
  | forward h k hk ih =>
      obtain ⟨hd, hds⟩ := ih
      have hb := (hd.live hds).forward hk
      exact ⟨⟨hb.inBounds, hd.peer, hd.selects, hd.order⟩, hds⟩
  | asked h ha ih =>
      obtain ⟨hd, hds⟩ := ih
      refine ⟨ha.settled hh hd hds, ?_⟩
      cases ha <;> exact hds
  | present h item ih =>
      obtain ⟨hd, hds⟩ := ih
      exact ⟨⟨hd.inBounds, hd.peer, hd.selects, hd.order⟩, hds⟩

theorem Unpacker.Halted.settled {c d : Context σ} {p : List UInt8} {short : Status} {halt : Halt}
    (h : Halted handler short c p halt d) (hc : c.Confined Peer) (hs : c.status = .ok) :
    Settled P Peer (raisedFault halt.result) d := by
  cases h with
  | refused h ha =>
      obtain ⟨hd, hds⟩ := h.confined hh hc hs
      exact ha.settled hh hd hds
  | malformed h => exact ((h.confined hh hc hs).1.latch (by decide)).settled

end reading

/-! ### Calls -/

namespace Unpacker

variable {s : Option (Supplier σ)}
  (hin : ∀ respond, s.map Supplier.respond = some respond → respond.Contained)
  (hh : ∀ respond, s.map Supplier.respond = some respond → respond.Confined P Peer)

include hin hh

theorem settled_call (call : Call) {c : Context σ} (hc : c.Confined Peer) :
    Settled P Peer (raisedFault ((call.engine s).run c).1) ((call.engine s).run c).2 := by
  by_cases hs : c.status = .ok
  · obtain ⟨p, hcalled, -⟩ := called_run hin (hc.ready hs) call
    generalize (call.engine s).run c = outcome at hcalled ⊢
    cases hcalled with
    | complete hmoves hd => exact (hmoves.confined hh hc hs).1.settled
    | halted hshort hhalted => exact hhalted.settled hh hc hs
  · rw [run_call_of_latched hs call]
    exact hc.settled

end Unpacker

/-- The fault that is raised, unless the failure is a status. -/
def Failure.raised : Failure → Option Fault
  | .fault f => some f
  | .stop _ => none

/-- The fault that ends a sequence of items. -/
def Unpacker.Ending.raised : Ending → Option Fault
  | clean => none
  | failed failure => failure.raised

theorem Unpacker.raised_ending (halt : Halt) (c : Context σ) :
    (ending halt c).raised = raisedFault halt.result := by
  cases halt with
  | fault fault => rfl
  | status status =>
      unfold ending
      dsimp only
      split_ifs <;> rfl

theorem Unpacker.settled_itemsLoop {s : Option (Supplier σ)}
    (hin : ∀ respond, s.map Supplier.respond = some respond → respond.Contained)
    (hh : ∀ respond, s.map Supplier.respond = some respond → respond.Confined P Peer)
    {observe : Context σ → α} (atMost : Option Nat) (found : Array α) {c : Context σ}
    (hc : c.Confined Peer) :
    Settled P Peer (itemsLoop s observe atMost found c).2.1.raised
      (itemsLoop s observe atMost found c).2.2 := by
  fun_induction itemsLoop s observe atMost found c with
  | case1 found c => exact hc.settled
  | case2 atMost found c hmost d hdec ih =>
      have hrun : (Call.decode.engine s).run c = (.ok .ok, d) := run_of_ok hdec
      have hd := settled_call hin hh .decode hc
      rw [hrun] at hd
      exact ih hd.confined
  | case3 atMost found c hmost halt d hdec =>
      have hrun : (Call.decode.engine s).run c = (halt.result, d) := run_of_error hdec
      have hd := settled_call hin hh .decode hc
      rw [hrun] at hd
      dsimp only
      rw [raised_ending]
      exact hd

theorem Packer.settled_pack {handler : Option (Handler σ)}
    (hin : ∀ respond, handler = some respond → respond.Contained)
    (hh : ∀ respond, handler = some respond → respond.Confined P Peer) (v : Value) {c : Context σ}
    (hc : c.Confined Peer) :
    Settled P Peer (raisedFault ((Packer.pack handler v).run c).1)
      ((Packer.pack handler v).run c).2 := by
  by_cases hs : c.status = .ok
  · have hready : ∀ n d, reserve handler n c = .ok () d → d.Ready n := fun n d hr =>
      (asked_reserve hr).ready (hc.ready hs) hin
    have hroom : ∀ {n d}, reserve handler n c = .ok () d → d.Confined Peer :=
      fun hr => (asked_reserve hr).settled hh hc hs
    have hpack := packed_pack hs v hready
    generalize hp : Packer.pack handler v c = result at hpack
    cases hpack with
    | @appended f d hv hr =>
        have hd := hroom hr
        have hlive := (hd.live (hready _ _ hr).status_eq).append_bytes (reserve_ok hr)
        rw [run_of_ok hp]
        exact (hd.append hlive.inBounds).settled
    | refused hv =>
        rw [run_of_error hp]
        exact .of_not hc (Value.frame_isIndexing hv)
    | tooLarge hv hr =>
        rw [run_of_error hp]
        exact .of_not (hroom hr) (Value.frame_isIndexing hv)
    | noRoom hn hr =>
        rw [run_of_error hp]
        exact (asked_reserve hr).settled hh hc hs
  · have hrun : (Packer.pack handler v).run c = (.ok .stopped, c) := run_of_latched hs _
    rw [hrun]
    exact hc.settled

theorem StreamPacker.settled_flush {c : StreamPacker} (hc : c.Confined (Sink.Raises P)) :
    Settled P (Sink.Raises P) (raisedFault (flush.run c).1) (flush.run c).2 := by
  by_cases hs : c.status = .ok
  · have hdrain := drainAndFlush_confined hc.peer
    have hflush := flush_eq hs
    generalize drainAndFlush c.toRegion = outcome at hdrain hflush
    obtain ⟨drained, r⟩ := outcome
    obtain ⟨hb, hp, hf⟩ := hdrain
    have hr : (c.within r).Confined (Sink.Raises P) := ⟨hb hc.inBounds, hp, hc.selects, hc.order⟩
    cases drained with
    | ok u =>
        rw [run_of_ok hflush]
        exact hr.settled
    | error fault =>
        dsimp only at hflush
        split_ifs at hflush with hdevice
        · have hkept : (c.within (r.keepFault fault)).Confined (Sink.Raises P) :=
            ⟨⟨hr.inBounds.start_le, hr.inBounds.current_le, hr.inBounds.limit_le⟩, hp, hc.selects,
              hc.order⟩
          rw [run_of_error hflush]
          exact (hkept.latch (by decide)).settled
        · rw [run_of_error hflush]
          refine ⟨hr, ?_⟩
          rintro _ ⟨⟩
          exact fun _ => hf fault rfl
  · have hrun : flush.run c = (.ok .stopped, c) := run_of_latched hs _
    rw [hrun]
    exact hc.settled

theorem GrowingPacker.confined_take {Peer : Unit → Prop} {c : GrowingPacker} (n : Option Nat)
    (hc : c.Confined Peer) : (take c (n.map Nat.cast)).2.Confined Peer := by
  have hb := hc.inBounds
  rcases take_cases hb n with h | ⟨taken, bytes, htaken, hsize, h⟩
  · rw [h]
    exact hc
  · rw [h]
    refine hc.moved ⟨?_, ?_, ?_⟩ rfl rfl rfl rfl
    · have := hb.start_le
      show c.start ≤ c.current - taken
      omega
    · exact Nat.le_trans (Nat.sub_le _ _) hb.current_le
    · exact Nat.le_trans hb.limit_le hsize

/-! ### Steps of a session -/

/-- The fault that a step raises, be it at once or at the end of a sequence of items. -/
def Answer.raised : Except Failure Answer → Option Fault
  | .error failure => failure.raised
  | .ok (.items _ ending) => ending.raised
  | .ok _ => none

namespace Session

theorem settled_ofStatus {outcome : Except Fault Status × Context σ}
    (h : Settled P Peer (raisedFault outcome.1) outcome.2) :
    Settled P Peer (Answer.raised (ofStatus outcome).1) (ofStatus outcome).2 := by
  obtain ⟨result, c⟩ := outcome
  cases result <;> exact h

theorem settled_step {step : Step} (hb : step.Blind) {c : Context σ} (hc : c.Confined Peer) :
    Settled P Peer (Answer.raised (Session.step c step).1) (Session.step c step).2 := by
  cases step with
  | check =>
      rw [step_check]
      cases c.check <;> exact hc.settled
  | remaining | describe | order | contents => exact hc.settled
  | latch status =>
      refine (hc.latch ?_).settled
      rintro rfl
      exact hb.2 rfl
  | init bytes first last => exact settled_ofStatus (hc.bind _ _ _)
  | rebind first last => exact settled_ofStatus (hc.bind _ _ _)
  | poke pos data =>
      have hsize := Bytes.le_size_splice c.bytes pos data
      have hb : (Session.step c (.poke pos data)).2.InBounds :=
        ⟨hc.inBounds.start_le, hc.inBounds.current_le, Nat.le_trans hc.inBounds.limit_le hsize⟩
      exact (hc.moved hb rfl rfl rfl rfl).settled

end Session

theorem PackStep.settled {handler : Option (Handler σ)}
    (hin : ∀ respond, handler = some respond → respond.Contained)
    (hh : ∀ respond, handler = some respond → respond.Confined P Peer) {step : PackStep}
    (hb : step.Blind) {c : Context σ} (hc : c.Confined Peer) :
    Settled P Peer (Answer.raised (step.run handler c).1) (step.run handler c).2 := by
  cases step with
  | pack v => exact Session.settled_ofStatus (Packer.settled_pack hin hh v hc)
  | give request =>
      apply Session.settled_ofStatus
      cases hv : request.value with
      | ok v =>
          rw [Packer.run_give hv]
          exact Packer.settled_pack hin hh v hc
      | error fault =>
          rw [Packer.run_give_of_error hv]
          by_cases hs : c.status = .ok
          · rw [if_pos hs]
            exact .of_not hc (Request.value_isIndexing hv)
          · rw [if_neg hs]
            exact hc.settled
  | packed => exact hc.settled
  | common step => exact Session.settled_step hb hc

theorem GrowingStep.settled {step : GrowingStep} (hb : step.Blind) {c : GrowingPacker}
    (hc : c.Confined fun _ => True) :
    Settled P (fun _ => True) (Answer.raised (step.run c).1) (step.run c).2 := by
  cases step with
  | packing step =>
      exact PackStep.settled Operations.grow_contained.of_eq_some
        GrowingPacker.grow_confined.of_eq_some hb hc
  | take n =>
      obtain ⟨m, rfl⟩ := count_eq hb
      exact (GrowingPacker.confined_take m hc).settled

theorem FlushingStep.settled {step : FlushingStep} (hb : step.Blind) {c : StreamPacker}
    (hc : c.Confined (Sink.Raises P)) :
    Settled P (Sink.Raises P) (Answer.raised (step.run c).1) (step.run c).2 := by
  cases step with
  | packing step =>
      exact PackStep.settled StreamPacker.makeRoom_contained.of_eq_some
        StreamPacker.makeRoom_confined.of_eq_some hb hc
  | flush => exact Session.settled_ofStatus (StreamPacker.settled_flush hc)

/-! ### Sessions with an unpacker -/

namespace UnpackSession

theorem raised_onItem {u : UnpackSession σ} {slot : Slot} {property : String}
    {f : Buffer → Item Span → Except Fault Answer}
    (hf : ∀ b i fault, Answer.raised ((f b i).mapError .fault) = some fault →
      fault.isIndexing = false)
    {fault : Fault} (h : Answer.raised (u.onItem slot property f) = some fault) :
    fault.isIndexing = false := by
  unfold onItem at h
  cases hi : u.find slot with
  | none =>
      rw [hi] at h
      cases h
      rfl
  | some item =>
      rw [hi] at h
      dsimp only at h
      apply hf u.context.buffer item
      cases hr : f u.context.buffer item <;> (rw [hr] at h; exact h)

theorem raised_view (b : Buffer) (i : Item Span) (fault : Fault)
    (h : Answer.raised (((i.view b).map Answer.bytes).mapError .fault) = some fault) :
    fault.isIndexing = false := by
  unfold Item.view at h
  cases hp : i.payload? with
  | some span =>
      rw [hp] at h
      cases h
  | none =>
      rw [hp] at h
      cases h
      rfl

theorem raised_text (b : Buffer) (i : Item Span) (fault : Fault)
    (h : Answer.raised (((i.text b).map Answer.text).mapError .fault) = some fault) :
    fault.isIndexing = false := by
  unfold Item.text Item.view Item.decodeText at h
  cases hp : i.payload? with
  | none =>
      rw [hp] at h
      cases h
      rfl
  | some span =>
      rw [hp] at h
      dsimp only at h
      split at h
      · cases h
      · cases h
        rfl

theorem settled_run {s : Option (Supplier σ)}
    (hin : ∀ respond, s.map Supplier.respond = some respond → respond.Contained)
    (hh : ∀ respond, s.map Supplier.respond = some respond → respond.Confined P Peer)
    {step : UnpackStep} (hb : step.Blind) {u : UnpackSession σ} (hu : u.context.Confined Peer) :
    Settled P Peer (Answer.raised (u.run s step).1) (u.run s step).2.context := by
  cases step with
  | decode =>
      have hd := Unpacker.settled_call hin hh .decode hu
      rw [run_decode]
      unfold onContext
      dsimp only [Unpacker.Call.engine] at hd ⊢
      cases hr : ((Unpacker.decode s).run u.context).1 with
      | error fault =>
          rw [hr] at hd
          exact hd
      | ok status =>
          refine ⟨hd.confined, fun fault h => ?_⟩
          unfold decoded at h
          dsimp only at h
          split_ifs at h <;> cases h
  | skip count => exact Session.settled_ofStatus (Unpacker.settled_call hin hh (.skip count) hu)
  | items atMost => exact Unpacker.settled_itemsLoop hin hh atMost #[] hu
  | common step => exact Session.settled_step hb hu
  | hold name | look slot | describeItem slot | same a b => exact Confined.settled hu
  | detach slot name =>
      unfold run
      dsimp only
      cases u.find slot with
      | none => exact .of_not hu rfl
      | some item => exact Confined.settled hu
  | text slot =>
      exact ⟨hu, fun fault h => Fault.excused_of_not (raised_onItem raised_text h)⟩
  | view slot =>
      exact ⟨hu, fun fault h => Fault.excused_of_not (raised_onItem raised_view h)⟩

end UnpackSession

/-! ### All sessions -/

namespace Sessions

/-- The sessions with the contexts that have a handler of their own, where all faults that the
stream is going to raise are of this kind. -/
inductive Handled (P : Fault → Prop) : {σ : Type} → Sessions σ → (σ → Prop) → Prop
  | growing : Handled P Sessions.growing fun _ => True
  | flushing : Handled P Sessions.flushing (Sink.Raises P)
  | refilled : Handled P (Sessions.unpacking (some StreamUnpacker.supplier)) (Source.Raises P)

theorem Handled.settled {s : Sessions σ} (hs : s.Handled P Peer) {step : s.Step}
    (hb : s.Blind step) {u : UnpackSession σ} (hu : u.context.Confined Peer) :
    Settled P Peer (Answer.raised (s.run step u).1) (s.run step u).2.context := by
  cases hs with
  | growing => exact GrowingStep.settled hb hu
  | flushing => exact FlushingStep.settled hb hu
  | refilled =>
      exact UnpackSession.settled_run StreamUnpacker.refill_contained.of_eq_some
        StreamUnpacker.refill_confined.of_eq_some hb hu

theorem Handled.course {s : Sessions σ} (hs : s.Handled P Peer) {steps : List s.Step}
    (hsteps : ∀ step ∈ steps, s.Blind step) {u : UnpackSession σ} (hu : u.context.Confined Peer) :
    ∀ entry ∈ s.course steps u, entry.2.context.InBounds ∧
      ∀ fault, Answer.raised entry.1 = some fault → fault.Excused P := by
  induction steps generalizing u with
  | nil =>
      intro entry hmem
      rw [Sessions.course] at hmem
      exact absurd hmem List.not_mem_nil
  | cons step steps ih =>
      have hstep := hs.settled (hsteps step List.mem_cons_self) hu
      intro entry hmem
      rw [Sessions.course] at hmem
      rcases List.mem_cons.mp hmem with rfl | hmem
      · exact ⟨hstep.confined.inBounds, hstep.excused⟩
      · exact ih (fun step h => hsteps step (List.mem_cons_of_mem _ h)) hstep.confined entry hmem

/-- The contexts that have a handler of their own stay inside their buffer.  Whatever size a
growing packer, a packer with a sink or an unpacker with a source begins with, whatever the stream
does, and whatever is called, with every new region in between: after every step, whether it
succeeded, failed or raised a fault, the region lies in the buffer and the cursor in the region.  No
step raises a fault of an access outside the buffer, unless the stream has raised it.  A growing
packer is asked for a number of bytes that is not negative, or for all of them. -/
theorem stays_in_bounds {s : Sessions σ} (hs : s.Handled P Peer) {kind : Kind} {a : Assumptions}
    {bytes : Bytes} {start : Int} {stop : Option Int} {peer : σ} {c : Context σ} (hp : Peer peer)
    (hnew : Context.new kind a bytes start stop peer = .ok c) {steps : List s.Step}
    (hsteps : ∀ step ∈ steps, s.Blind step) :
    c.InBounds ∧ ∀ entry ∈ s.course steps { context := c }, entry.2.context.InBounds ∧
      ∀ fault, Answer.raised entry.1 = some fault → fault.isIndexing = true → P fault := by
  have hc : c.Confined Peer := Context.confined_new hp hnew
  exact ⟨hc.inBounds, hs.course hsteps hc⟩

/-- The source delivers more than was asked for, and raises an indexing fault of its own.  Then the
context is bound to a region that ends before its buffer does, and runs out of bytes in a text. -/
theorem stays_in_bounds_over_delivered :
    ∃ (c : StreamUnpacker) (steps : List UnpackStep),
      StreamUnpacker.new { manner := .readOver, chunks := [.data #[0x05, 0xA3, 0x61],
        .fault .outOfBounds, .data #[0x92]] } 1 {} = .ok c ∧
      steps = [.decode, .decode, .common (.init #[0xC0, 0xA2, 0x62] (.at 1) (some (.at 2))),
        .decode] ∧
      ((unpacking (some StreamUnpacker.supplier)).course steps { context := c }).map Prod.fst =
        [.ok (.decoded (some ⟨.positive 5, #[]⟩)), .error (.fault .outOfBounds),
          .ok (.status .ok), .ok (.status .bufferUnderflow)] ∧
      ∀ entry ∈ (unpacking (some StreamUnpacker.supplier)).course steps { context := c },
        entry.2.context.InBounds ∧ ∀ fault, Answer.raised entry.1 = some fault →
          fault.isIndexing = true → fault = .outOfBounds := by
  obtain ⟨c, steps, hnew, hsteps, hanswers⟩ :
      ∃ (c : StreamUnpacker) (steps : List UnpackStep),
      StreamUnpacker.new { manner := .readOver, chunks := [.data #[0x05, 0xA3, 0x61],
        .fault .outOfBounds, .data #[0x92]] } 1 {} = .ok c ∧
      steps = [.decode, .decode, .common (.init #[0xC0, 0xA2, 0x62] (.at 1) (some (.at 2))),
        .decode] ∧
      ((unpacking (some StreamUnpacker.supplier)).course steps { context := c }).map Prod.fst =
        [.ok (.decoded (some ⟨.positive 5, #[]⟩)), .error (.fault .outOfBounds),
          .ok (.status .ok), .ok (.status .bufferUnderflow)] :=
    ⟨_, _, rfl, rfl, by cbv⟩
  refine ⟨c, steps, hnew, hsteps, hanswers, (stays_in_bounds (P := (· = .outOfBounds)) .refilled
    ?_ hnew ?_).2⟩
  · intro fault hf
    simpa using hf
  · rw [hsteps]
    intro step hmem
    fin_cases hmem <;> trivial

/-- Only a negative count takes the region out of the buffer.  Here it makes the buffer three bytes
long, while the region ends after five, and the next number is written beyond the three. -/
theorem negative_take_leaves_buffer :
    ∃ (c : GrowingPacker) (steps : List GrowingStep)
      (packed taken refused : Except Failure Answer × UnpackSession Unit),
      GrowingPacker.new 5 {} = .ok c ∧
      steps = [.packing (.pack .nil), .take (some (-1 : Int)), .packing (.pack (.unsigned 300))] ∧
      growing.course steps { context := c } = [packed, taken, refused] ∧
      ¬ taken.2.context.InBounds ∧ Answer.raised refused.1 = some .fieldRange := by
  obtain ⟨c, steps, packed, taken, refused, hnew, hsteps, hcourse, hlimit, hsize, hrefused⟩ :
      ∃ (c : GrowingPacker) (steps : List GrowingStep)
      (packed taken refused : Except Failure Answer × UnpackSession Unit),
      GrowingPacker.new 5 {} = .ok c ∧
      steps = [.packing (.pack .nil), .take (some (-1 : Int)), .packing (.pack (.unsigned 300))] ∧
      growing.course steps { context := c } = [packed, taken, refused] ∧
      taken.2.context.limit = 5 ∧ taken.2.context.bytes.size = 3 ∧
      Answer.raised refused.1 = some .fieldRange :=
    ⟨_, _, _, _, _, rfl, rfl, rfl, by cbv, by cbv, by cbv⟩
  refine ⟨c, steps, packed, taken, refused, hnew, hsteps, hcourse, fun hb => ?_, hrefused⟩
  have hle := hb.limit_le
  omega

end Sessions
end MessagePack
