import MessagePack.Proofs.Delivering
import MessagePack.Proofs.WriteSizes

/-! # From one adapter to the other

Values are packed to a stream, and what the stream has is read back from another one, which
delivers the bytes in chunks of its own.  Whatever the sizes of the buffers are, and wherever
flushes, commits and short writes fall, the items that come back are those of the values
(`adapters_round_trip`).

The two sides meet at the bytes.  A sink that does not fail has the encodings of the values, one
after another, and these are a sequence of whole items (`Value.factors_encoding`). -/

namespace MessagePack

open Engine Unpacker

theorem Value.factors_encoding {vs : List Value} {is : List (Item Bytes)}
    (h : vs.map item? = is.map some) : Factors (vs.flatMap encoding) is := by
  induction vs generalizing is with
  | nil =>
      obtain rfl : is = [] := by simpa using h.symm
      exact .nil
  | cons v vs ih =>
      cases is with
      | nil => simp at h
      | cons i is =>
          rw [List.map_cons, List.map_cons, List.cons.injEq] at h
          obtain ⟨f, hv, hf⟩ := frame_canonical h.1
          rw [List.flatMap_cons, encoding_eq hv]
          exact .cons hf.denotes (ih h.2)

theorem Value.packing_of_item {v : Value} {i : Item Bytes} (h : v.item? = some i) :
    v.packing = .ok .ok := by
  obtain ⟨f, hv, -⟩ := frame_canonical h
  rw [packing, hv]
  rfl

/-! ### Packing to a stream -/

namespace StreamPacker

/-- The value that a call packs. -/
def Call.value? : Call → Option Value
  | .pack v => some v
  | .flush => none

theorem flatMap_encoding (calls : List Call) :
    calls.flatMap Call.encoding = (calls.filterMap Call.value?).flatMap Value.encoding := by
  induction calls with
  | nil => rfl
  | cons call calls ih =>
      cases call <;> simp [List.filterMap_cons, Call.value?, Call.encoding, ih]

theorem Steady.runAll {c : StreamPacker} (hc : Steady c) (calls : List Call) :
    (runAll calls c).1 = calls.map Call.answer ∧ Steady (runAll calls c).2 ∧
      total (runAll calls c).2 = total c ++ calls.flatMap Call.encoding := by
  induction calls generalizing c with
  | nil => exact ⟨rfl, hc, (List.append_nil _).symm⟩
  | cons call calls ih =>
      obtain ⟨hanswer, hsteady, htotal, -⟩ := hc.call call
      obtain ⟨hanswers, hend, hall⟩ := ih hsteady
      refine ⟨congrArg₂ List.cons hanswer hanswers, hend, ?_⟩
      rw [List.flatMap_cons, ← List.append_assoc, ← htotal]
      exact hall

/-- With a sink that does not fail, every call is complete, and after a last flush the sink has the
encodings of all values. -/
theorem sent_runAll {a : Assumptions} {order : ByteOrder} (ha : a.select = .ok (some order))
    {sink : Sink} (hs : sink.Reliable) (hempty : sink.accepted = #[]) (size : Nat)
    {calls : List Call}
    (hvalues : ∀ v ∈ calls.filterMap Call.value?, ∃ i, v.item? = some i) :
    ∃ c d : StreamPacker, new sink size a = .ok c ∧
      runAll calls c = (calls.map fun _ => .ok .ok, d) ∧
      (flush.run d).1 = .ok .ok ∧
      sent (flush.run d).2 = (calls.filterMap Call.value?).flatMap Value.encoding := by
  have hnew := Context.new_whole ha .streamPacker (Bytes.zeros size) sink
  obtain ⟨c, hnew, hstatus⟩ : ∃ c, new sink size a = .ok c ∧ c.status = .ok := ⟨_, hnew, rfl⟩
  obtain ⟨hpeer, hstart⟩ := Context.peer_new hnew
  have hc : Steady c := ⟨Context.live_new hnew hstatus, hpeer ▸ hs⟩
  have hnone : total c = [] := by
    rw [total, sent, hpeer, hempty, Context.pending_eq_nil hstart]
    rfl
  obtain ⟨hanswers, hsteady, hall⟩ := hc.runAll calls
  obtain ⟨hanswer, -, htotal, hpending⟩ := hsteady.call .flush
  have hpending : ((flush.run (runAll calls c).2).2).pending = [] := hpending rfl
  refine ⟨c, (runAll calls c).2, hnew, Prod.ext ?_ rfl, hanswer, ?_⟩
  · refine hanswers.trans (List.map_congr_left fun call hm => ?_)
    cases call with
    | flush => rfl
    | pack v =>
        obtain ⟨i, hi⟩ := hvalues v (List.mem_filterMap.mpr ⟨_, hm, rfl⟩)
        exact Value.packing_of_item hi
  · rw [← flatMap_encoding, ← List.nil_append (calls.flatMap _), ← hnone, ← hall]
    rw [total, Call.engine, hpending, List.append_nil, Call.encoding, List.append_nil] at htotal
    exact htotal

end StreamPacker

/-! ### Writing whole items -/

namespace ItemWriter

/-- The value that a call packs. -/
def Call.value? : Call → Option Value
  | .pack v => some v
  | .commit | .flush _ | .close _ => none

theorem flatMap_encoding (calls : List Call) :
    calls.flatMap Call.encoding = (calls.filterMap Call.value?).flatMap Value.encoding := by
  induction calls with
  | nil => rfl
  | cons call calls ih =>
      cases call <;> simp [List.filterMap_cons, Call.value?, Call.encoding, ih]

/-- With a sink that does not fail and chunks of some size, every call is complete, and once the
writer is left the sink has the encodings of all values. -/
theorem accepted_runAll {a : Assumptions} {order : ByteOrder} (ha : a.select = .ok (some order))
    {sink : Sink} (hs : sink.Dependable) (hempty : sink.accepted = #[]) {size : Nat}
    (hsize : 0 < size) {calls : List Call} (hopen : ∀ leaving, .close leaving ∉ calls)
    (hvalues : ∀ v ∈ calls.filterMap Call.value?, ∃ i, v.item? = some i) :
    ∃ w, new sink size a = .ok w ∧ outcomes calls w = calls.map (fun _ => .ok .ok) ∧
      ((runAll calls w).close none).1 = .ok () ∧
      ((runAll calls w).close none).2.sink.accepted.toList =
        (calls.filterMap Call.value?).flatMap Value.encoding := by
  have hpacker := Context.new_whole ha .growingPacker (Bytes.zeros size) ()
  obtain ⟨packer, hchecked⟩ : ∃ packer,
      Context.checked (GrowingPacker.new size a) = .ok packer := by
    unfold GrowingPacker.new
    rw [hpacker]
    exact ⟨_, rfl⟩
  have hnew : new sink size a = .ok { packer, sink, chunkSize := size } := by
    rw [new, hchecked]
  have hw := steady_checked hs hchecked
  rw [hempty] at hw
  have hend := hw.runAll calls
  refine ⟨_, hnew, ?_, (hend.close none).1, ?_⟩
  · refine (hw.outcomes calls).trans (List.map_congr_left fun call hm => ?_)
    cases call with
    | commit => exact if_neg (Nat.ne_of_gt hsize)
    | flush force => rfl
    | close leaving => exact absurd hm (hopen leaving)
    | pack v =>
        obtain ⟨i, hi⟩ := hvalues v (List.mem_filterMap.mpr ⟨_, hm, rfl⟩)
        rw [Call.planned, Value.packing_of_item hi]
        rfl
  · rw [hend.accepted_close none, flatMap_encoding]
    rfl

end ItemWriter

/-! ### The round trip -/

/-- Values that have an encoding come back through a stream.

* Packed with intermediate flushes to a sink that does not fail, however little it takes at a time,
  and after a last flush decoded from any chunks of what it has: the items, detached as they come,
  are those of the values, and then the input ends.
* Written with commits and flushes to a sink that takes what it is offered, and after the writer is
  left read from any chunks of what it has: all items are those of the values, and the reader is at
  the end and stays there. -/
theorem adapters_round_trip {packing unpacking : Assumptions} {packed unpacked : ByteOrder}
    (hp : packing.select = .ok (some packed)) (hu : unpacking.select = .ok (some unpacked))
    {vs : List Value} {is : List (Item Bytes)} (h : vs.map Value.item? = is.map some) :
    (∀ (sink : Sink) (size : Nat) (calls : List StreamPacker.Call), sink.Reliable →
      sink.accepted = #[] → calls.filterMap StreamPacker.Call.value? = vs →
      ∃ p q : StreamPacker, StreamPacker.new sink size packing = .ok p ∧
        StreamPacker.runAll calls p = (calls.map fun _ => .ok .ok, q) ∧
        (StreamPacker.flush.run q).1 = .ok .ok ∧
        ∀ (source : Source) (size' : Nat), source.Prompt →
          source.content = StreamPacker.sent (StreamPacker.flush.run q).2 →
          ∃ (u v : StreamUnpacker) (items : List (Item Span)),
            StreamUnpacker.new source size' unpacking = .ok u ∧
            StreamUnpacker.detachTimes vs.length u =
              (items.map fun item => (.ok .ok, some item), v) ∧
            (∀ buffer, items.map (Item.resolve buffer) = is) ∧
            ((decode (some StreamUnpacker.supplier)).run v).1 = .ok .endOfInput) ∧
    (∀ (sink : Sink) (size : Nat) (calls : List ItemWriter.Call), sink.Dependable →
      sink.accepted = #[] → 0 < size → (∀ leaving, .close leaving ∉ calls) →
      calls.filterMap ItemWriter.Call.value? = vs →
      ∃ w, ItemWriter.new sink size packing = .ok w ∧
        ItemWriter.outcomes calls w = calls.map (fun _ => .ok .ok) ∧
        ((ItemWriter.runAll calls w).close none).1 = .ok () ∧
        ∀ (source : Source) (readSize : Nat), 0 < readSize → source.Prompt →
          source.content = ((ItemWriter.runAll calls w).close none).2.sink.accepted.toList →
          ∃ (r r' : ItemReader) (items : Array (Item Span)),
            ItemReader.new source readSize unpacking = .ok r ∧ r.all = (.ok items, r') ∧
            (∀ buffer, items.toList.map (Item.resolve buffer) = is) ∧
            ∀ times, (Nat.repeat (fun r => r.next.2) times r').next.1 = .ok none) := by
  have hlen : vs.length = is.length := by simpa using congrArg List.length h
  have hvalues : ∀ v ∈ vs, ∃ i, v.item? = some i := by
    intro v hv
    have hmem : v.item? ∈ is.map some := h ▸ List.mem_map_of_mem hv
    obtain ⟨i, -, hi⟩ := List.mem_map.mp hmem
    exact ⟨i, hi.symm⟩
  have hfactors := Value.factors_encoding h
  constructor
  · rintro sink size calls hs hempty rfl
    obtain ⟨p, q, hnew, hcalls, hflush, hsent⟩ :=
      StreamPacker.sent_runAll hp hs hempty size hvalues
    refine ⟨p, q, hnew, hcalls, hflush, ?_⟩
    intro source size' hprompt hcontent
    rw [← hsent, ← hcontent] at hfactors
    obtain ⟨u, v, items, hnew', hitems⟩ := StreamUnpacker.detached_new hu hprompt hfactors size'
    rw [← hlen] at hitems
    exact ⟨u, v, items, hnew', hitems⟩
  · rintro sink size calls hs hempty hsize hopen rfl
    obtain ⟨w, hnew, hcalls, hclose, haccepted⟩ :=
      ItemWriter.accepted_runAll hp hs hempty hsize hopen hvalues
    refine ⟨w, hnew, hcalls, hclose, ?_⟩
    intro source readSize hread hprompt hcontent
    rw [← haccepted, ← hcontent] at hfactors
    obtain ⟨r, hnew', hr⟩ := ItemReader.coming_new hu hread hprompt
    obtain ⟨items, r', hall, hitems, hend⟩ := ItemReader.allLoop_factors hu hfactors hr #[]
    rw [Array.empty_append] at hall
    exact ⟨r, r', items.toArray, hnew', hall, hitems, hend.stays hu⟩

/-- A text and a number.  The one sink takes a byte at a time at first, and the text is packed
before it fits and flushed; the other one gets whole chunks of two bytes.  Both times the text is
cut when it is read back. -/
theorem adapters_round_trip_cut :
    ∃ (u v : StreamUnpacker) (r r' : ItemReader) (items : List (Item Span))
      (all : Array (Item Span)),
      StreamUnpacker.new { manner := .read, chunks := [.data #[0xA2], .data #[0x61, 0x62, 0xCC],
        .data #[0xC8]] } 0 {} = .ok u ∧
      StreamUnpacker.detachTimes 2 u = (items.map fun item => (.ok .ok, some item), v) ∧
      (∀ buffer, items.map (Item.resolve buffer) = [.str #[0x61, 0x62], .positive 200]) ∧
      ItemReader.new { manner := .receive, chunks := [.data #[0xA2, 0x61], .data #[0x62],
        .data #[0xCC, 0xC8]] } 1 {} = .ok r ∧ r.all = (.ok all, r') ∧
      ∀ buffer, all.toList.map (Item.resolve buffer) = [.str #[0x61, 0x62], .positive 200] := by
  have hitems : [Value.str #[0x61, 0x62], .unsigned 200].map Value.item? =
      [.str #[0x61, 0x62], .positive 200].map some := by rfl
  have hselect : Assumptions.select {} = .ok (some .swapped) := rfl
  obtain ⟨hstream, hreader⟩ := adapters_round_trip hselect hselect hitems
  obtain ⟨p, q, hp, hcalls, -, hunpack⟩ := hstream { replies := [.upTo 1, .upTo 0, .silent] } 1
    [.pack (.str #[0x61, 0x62]), .flush, .pack (.unsigned 200)] ⟨by simp, by simp⟩ rfl rfl
  obtain ⟨w, hw, -, -, hread⟩ := hreader {} 2 [.pack (.str #[0x61, 0x62]), .commit,
    .pack (.unsigned 200), .flush false] Sink.dependable_empty rfl (by decide) (by simp) rfl
  obtain ⟨p', hp', hsent⟩ : ∃ p' : StreamPacker,
      StreamPacker.new { replies := [.upTo 1, .upTo 0, .silent] } 1 {} = .ok p' ∧
      StreamPacker.sent (StreamPacker.flush.run (StreamPacker.runAll
        [.pack (.str #[0x61, 0x62]), .flush, .pack (.unsigned 200)] p').2).2 =
        [0xA2, 0x61, 0x62, 0xCC, 0xC8] := ⟨_, rfl, by cbv⟩
  obtain ⟨w', hw', haccepted⟩ : ∃ w' : ItemWriter, ItemWriter.new {} 2 {} = .ok w' ∧
      ((ItemWriter.runAll [.pack (.str #[0x61, 0x62]), .commit, .pack (.unsigned 200),
        .flush false] w').close none).2.sink.accepted.toList =
        [0xA2, 0x61, 0x62, 0xCC, 0xC8] := ⟨_, rfl, by cbv⟩
  obtain rfl := Except.ok.inj (hp.symm.trans hp')
  obtain rfl := Except.ok.inj (hw.symm.trans hw')
  obtain rfl := congrArg Prod.snd hcalls
  obtain ⟨u, v, items, hu, hdecoded, hresolved, -⟩ := hunpack
    { manner := .read, chunks := [#[0xA2], #[0x61, 0x62, 0xCC], #[0xC8]].map .data } 0
    (Source.prompt_of_pieces (by decide)) hsent.symm
  obtain ⟨r, r', all, hr, hall, hresolved', -⟩ := hread
    { manner := .receive, chunks := [#[0xA2, 0x61], #[0x62], #[0xCC, 0xC8]].map .data } 1
    (by decide) (Source.prompt_of_pieces (by decide)) haccepted.symm
  exact ⟨u, v, r, r', items, all, hu, hdecoded, hresolved, hr, hall, hresolved'⟩

end MessagePack
