import MessagePack.Proofs.ReadSizes
import MessagePack.Proofs.UnpackSizes
import MessagePack.Proofs.WriteSizes

/-! # Sizes of buffers do not show

Five adapters take a size: two packers and an unpacker that of a buffer, which grows when it is too
small, a reader that of its reads, and a writer that of its chunks.  None of them shows anything of
it, if there is something in a read and in a chunk (`buffer_size_unobservable`).

A size of nothing is accepted everywhere.  It makes no difference to the buffers, but a reader that
reads nothing is at the end, and a writer with empty chunks divides by zero when it commits
(`empty_size_shows`). -/

namespace MessagePack

/-- Buffers, reads and chunks of a size give what those of the default size give.

* Packers refuse the same values.  The same bytes are taken out and left in the end, and a sink that
  does not fail gets the same.
* The unpacker and the reader deliver the same items and come to the same end, in each call.
* The calls of a writer come to the same, and if its sink does not fail, no commit and no flush
  raises anything and nothing is raised on leaving but what the writer is left with.  Then the sink
  has all that was packed, and it also has it if empty chunks were committed. -/
theorem buffer_size_unobservable (a : Assumptions) (size : Nat) :
    (∀ calls, GrowingPacker.shownOf a calls size =
      GrowingPacker.shownOf a calls GrowingPacker.defaultSize) ∧
    (∀ sink : Sink, sink.Reliable → ∀ calls, StreamPacker.shownOf sink a calls size =
      StreamPacker.shownOf sink a calls StreamPacker.defaultSize) ∧
    (∀ source events, StreamUnpacker.shownOf source a events size =
      StreamUnpacker.shownOf source a events StreamUnpacker.defaultSize) ∧
    (0 < size → ∀ source steps, ItemReader.shownOf source a steps size =
      ItemReader.shownOf source a steps ItemReader.defaultSize) ∧
    (∀ sink : Sink, sink.Dependable → ∀ calls : List ItemWriter.Call,
      (0 < size ∨ .commit ∉ calls → ItemWriter.shownOf sink a calls size =
        ItemWriter.shownOf sink a calls ItemWriter.defaultSize) ∧
      (ItemWriter.shownOf sink a calls size).map Prod.snd =
        (ItemWriter.shownOf sink a calls ItemWriter.defaultSize).map Prod.snd ∧
      ∀ results written, ItemWriter.shownOf sink a calls size = .ok (results, written) →
        results = calls.map (ItemWriter.Call.planned size) ∧
        written = sink.accepted.toList ++ calls.flatMap ItemWriter.Call.encoding) := by
  refine ⟨fun calls => ?_, fun sink hs calls => ?_, fun source events => ?_,
    fun hsize source steps => ?_, fun sink hs calls => ⟨fun hsize => ?_, ?_, ?_⟩⟩
  · exact GrowingPacker.shownOf_unsized a calls size GrowingPacker.defaultSize
  · exact StreamPacker.shownOf_unsized hs a calls size StreamPacker.defaultSize
  · exact StreamUnpacker.shownOf_unsized source a events size StreamUnpacker.defaultSize
  · have hdefault : 0 < ItemReader.defaultSize := by decide
    exact ItemReader.shownOf_unsized source a steps hsize hdefault
  · exact ItemWriter.shownOf_unsized hs a hsize
  · exact ItemWriter.accepted_unsized hs a calls size
  · intro results written hshown
    rcases ItemWriter.shownOf_eq hs a calls with ⟨failure, h⟩ | h
    · rw [h] at hshown
      cases hshown
    · rw [h] at hshown
      cases hshown
      exact ⟨rfl, rfl⟩

/-- What is seen of default sizes is computed with a size of one. -/
theorem buffer_size_unobservable_one :
    Sink.Reliable {} ∧ Sink.Dependable {} ∧ 0 < 1 ∧
    GrowingPacker.shownOf {} [.pack (.str #[0x61, 0x62]), .take (some 2), .pack .nil]
        GrowingPacker.defaultSize =
      .ok ([.result (.ok .ok), .taken #[0xA2, 0x61], .result (.ok .ok)], [0x62, 0xC0]) ∧
    StreamPacker.shownOf {} {} [.pack (.str #[0x61, 0x62]), .pack .nil] StreamPacker.defaultSize =
      .ok ([.ok .ok, .ok .ok], [0xA2, 0x61, 0x62, 0xC0]) ∧
    StreamUnpacker.shownOf { manner := .readInto, chunks := [.data #[0x05, 0xA2, 0x61]] } {}
        [.call .decode, .call .decode] StreamUnpacker.defaultSize =
      .ok [.call (.ok .ok, some (.positive 5)), .call (.ok .bufferUnderflow, none)] ∧
    ItemReader.shownOf { manner := .receive, chunks := [.data #[0x05, 0xC0]] } {}
        [.next, .next, .next] ItemReader.defaultSize =
      .ok [.ok (.item (some (.positive 5))), .ok (.item (some .nil)), .ok (.item none)] ∧
    ItemWriter.shownOf {} {} [.pack (.str #[0x61, 0x62]), .commit, .pack .nil, .close none]
        ItemWriter.defaultSize =
      .ok ([.ok .ok, .ok .ok, .ok .ok, .ok .ok], [0xA2, 0x61, 0x62, 0xC0]) := by
  obtain ⟨hgrow, hpack, hunpack, hread, hwrite⟩ := buffer_size_unobservable {} 1
  refine ⟨Sink.reliable_empty, Sink.dependable_empty, by decide, ?_, ?_, ?_, ?_, ?_⟩
  · rw [← hgrow]
    cbv
  · rw [← hpack {} Sink.reliable_empty]
    cbv
  · rw [← hunpack]
    cbv
  · rw [← hread (by decide)]
    cbv
  · rw [← (hwrite {} Sink.dependable_empty _).1 (.inl (by decide))]
    cbv

/-- Reading nothing, a reader finds the end before an item that the source has.  Committing empty
chunks, a writer divides by zero. -/
theorem empty_size_shows :
    ItemReader.shownOf { manner := .receive, chunks := [.data #[0x05]] } {} [.next] 0 =
      .ok [.ok (.item none)] ∧
    ItemReader.shownOf { manner := .receive, chunks := [.data #[0x05]] } {} [.next]
        ItemReader.defaultSize =
      .ok [.ok (.item (some (.positive 5)))] ∧
    Sink.Dependable {} ∧
    ItemWriter.shownOf {} {} [.pack .nil, .commit] 0 =
      .ok ([.ok .ok, .error (.fault .zeroChunk)], [0xC0]) ∧
    ItemWriter.shownOf {} {} [.pack .nil, .commit] ItemWriter.defaultSize =
      .ok ([.ok .ok, .ok .ok], [0xC0]) := by
  have hwritten : ItemWriter.shownOf {} {} [.pack .nil, .commit] 0 =
      .ok ([.ok .ok, .error (.fault .zeroChunk)], [0xC0]) := by
    cbv
  refine ⟨by cbv, by cbv, Sink.dependable_empty, hwritten, ?_⟩
  -- The default chunks are too large to compute with.
  rcases ItemWriter.shownOf_eq Sink.dependable_empty {} [.pack .nil, .commit] with
    ⟨failure, h⟩ | h
  · rw [h] at hwritten
    cases hwritten
  · rw [h]
    cbv

end MessagePack
