import MessagePack.Proofs.Conserving
import MessagePack.Proofs.ItemReading
import MessagePack.Proofs.RoundTrip

/-! # Sequences of items from a source that never stalls

A source that never stalls (`Source.Prompt`) has a sequence of whole items, cut into chunks at any
places.  An unpacker of it decodes all of them and then comes to the end
(`StreamUnpacker.detached_factors`), and so does a reader (`ItemReader.allLoop_factors`).  Both go
by induction along the sequence, where one step needs the bytes that are still to come, and neither
how many of them were received nor how they are cut. -/

namespace MessagePack

open Engine Unpacker

/-! ### Sources that never stall -/

namespace Source

/-- Every read finds bytes, until all of them are delivered. -/
def Prompt (s : Source) : Prop := ∀ chunk ∈ s.chunks, ∃ bytes : Bytes, chunk = .data bytes ∧
  bytes.isEmpty = false

theorem prompt_of_pieces {manner : Manner} {pieces : List Bytes}
    (h : ∀ bytes ∈ pieces, bytes.isEmpty = false) :
    Prompt { manner, chunks := pieces.map .data } := by
  intro chunk hm
  obtain ⟨bytes, hbytes, rfl⟩ := List.mem_map.mp hm
  exact ⟨bytes, rfl, h bytes hbytes⟩

theorem Prompt.ready_eq {s : Source} (h : s.Prompt) : s.ready = s.content := by
  obtain ⟨manner, chunks, journal⟩ := s
  show readyOf chunks = contentOf chunks
  induction chunks with
  | nil => rfl
  | cons chunk chunks ih =>
      obtain ⟨bytes, rfl, hb⟩ := h chunk List.mem_cons_self
      rw [readyOf, contentOf, if_neg (by simp [hb]),
        ih fun chunk hm => h chunk (List.mem_cons_of_mem _ hm)]

theorem Prompt.read {s : Source} (h : s.Prompt) (size : Nat) :
    (s.read size).2.Prompt ∧
      ((s.read size).1 = .ended ∨ ∃ bytes, (s.read size).1 = .data bytes) := by
  obtain ⟨manner, chunks, journal⟩ := s
  unfold Source.read
  cases chunks with
  | nil => exact ⟨h, by cases manner <;> simp [deliver, exhausted]⟩
  | cons chunk chunks =>
      obtain ⟨bytes, rfl, hb⟩ := h chunk List.mem_cons_self
      have hrest : ∀ chunk ∈ chunks, ∃ bytes : Bytes, chunk = .data bytes ∧ bytes.isEmpty = false :=
        fun chunk hm => h chunk (List.mem_cons_of_mem _ hm)
      simp only [deliver]
      split_ifs with hwhole
      · exact ⟨hrest, .inr ⟨_, rfl⟩⟩
      · refine ⟨?_, .inr ⟨_, rfl⟩⟩
        intro chunk hm
        rcases List.mem_cons.mp hm with rfl | hm
        · refine ⟨_, rfl, ?_⟩
          rw [not_or, Nat.not_le] at hwhole
          have hsize : (Bytes.slice bytes size bytes.size).size ≠ 0 := by
            rw [Bytes.size_slice]
            omega
          simpa using hsize
        · exact hrest chunk hm

end Source

/-! ### Unpacking -/

namespace StreamUnpacker

theorem prompt_readOnce {r : Region Source} (h : r.peer.Prompt) :
    (readOnce r).2.peer.Prompt ∧
      ∀ answer, (readOnce r).1 = some answer → answer = .ok .endOfInput := by
  have hreads := reads_readOnce r
  obtain ⟨hrest, hdelivery⟩ := h.read (r.bytes.size - r.limit)
  generalize r.peer.read (r.bytes.size - r.limit) = result at hreads hrest hdelivery
  generalize readOnce r = outcome at hreads
  cases hreads with
  | bytes hb => exact ⟨hrest, by simp⟩
  | nothing hd ha hf =>
      refine ⟨hrest, ?_⟩
      rintro _ ⟨⟩
      rcases hdelivery with rfl | ⟨bytes, rfl⟩ <;> exact ha.symm

theorem prompt_refill {r : Region Source} (h : r.peer.Prompt) (n : Nat) :
    (refill n r).2.peer.Prompt ∧
      ((refill n r).1 = .ok .ok ∨ (refill n r).1 = .ok .endOfInput) := by
  have hstart : (makeRoom n r).peer.Prompt := by rwa [peer_makeRoom]
  unfold refill
  generalize n + (r.current - r.limit) = needed
  generalize makeRoom n r = r at hstart
  fun_induction fill needed r with
  | case1 r hshort answer r' hread =>
      have honce := prompt_readOnce hstart
      rw [hread] at honce
      exact ⟨honce.1, .inr (honce.2 answer rfl)⟩
  | case2 r hshort r' hread ih =>
      have honce := prompt_readOnce hstart
      rw [hread] at honce
      exact ih honce.1
  | case3 r henough => exact ⟨hstart, .inl rfl⟩

/-- The source delivers these bytes, and never stalls. -/
def Promised (r : Region Source) (rest : List UInt8) : Prop := Awaited r rest ∧ r.peer.Prompt

theorem supplier_handsOut_promised : supplier.HandsOut Promised where
  advance r rest k h hk := ⟨supplier_handsOut.advance r rest k h.1 hk, h.2⟩
  ok r rest n r' h hshort hr := by
    obtain ⟨next, rest', hrest, hunread, hroom, hlimit, hawaited⟩ :=
      supplier_handsOut.ok r rest n r' h.1 hshort hr
    have hprompt := (prompt_refill h.2 n).1
    rw [show refill n r = (.ok .ok, r') from hr] at hprompt
    exact ⟨next, rest', hrest, hunread, hroom, hlimit, hawaited, hprompt⟩
  ended r rest n r' h hshort hr := supplier_handsOut.ended r rest n r' h.1 hshort hr

theorem not_breaksOff_promised (halt : Halt) : ¬ supplier.BreaksOff Promised halt := by
  rintro ⟨⟨hok, hend⟩, n, r, rest, h, -, hanswer⟩
  rcases (prompt_refill h.2 n).2 with hr | hr
  all_goals
    rw [show (refill n r).1 = halt.result from hanswer] at hr
    cases halt <;> simp_all [Halt.result]

/-- Decode so many times: what each call comes to, the item as it is detached right after it, and
the context afterwards. -/
def detachTimes : Nat → StreamUnpacker →
    List (Except Fault Status × Option (Item Span)) × StreamUnpacker
  | 0, c => ([], c)
  | n + 1, c =>
      let (result, c) := (decode (some supplier)).run c
      let (results, d) := detachTimes n c
      ((result, c.item.map (Item.detach c.buffer)) :: results, d)

/-- What the unpacker has yet to pass over is a sequence of items: it decodes them one by one, and
then the input ends.  The detached items stand for themselves, whatever becomes of the buffer. -/
theorem detached_factors {b : List UInt8} {is : List (Item Bytes)} (hf : Factors b is)
    {c : StreamUnpacker} {w : Context Unit} (h : Refilled Promised 0 c w) (hb : w.ahead = b) :
    ∃ (items : List (Item Span)) (d : StreamUnpacker),
      detachTimes is.length c = (items.map (fun item => (.ok .ok, some item)), d) ∧
      (∀ buffer, items.map (Item.resolve buffer) = is) ∧
      ((decode (some supplier)).run d).1 = .ok .endOfInput := by
  have hnever := not_breaksOff_promised
  induction hf generalizing c w with
  | nil =>
      have hw : ((decode none).run w).1 = .ok .endOfInput := (decode_at_end h.live hb).1
      refine ⟨[], c, rfl, fun _ => rfl, ?_⟩
      obtain ⟨c', w', -, hw', -⟩ | ⟨status, c', w', -, hc, hw', -⟩ | ⟨halt, hbreaks, -⟩ :=
        h.call supplier_handsOut_promised .decode
      · have hw' : (decode none).run w = (.ok .ok, w') := run_of_ok hw'
        rw [hw'] at hw
        cases hw
      · have hw' : (decode none).run w = (.ok status, w') := hw'
        rw [hw'] at hw
        exact (congrArg Prod.fst hc).trans hw
      · exact absurd hbreaks (hnever halt)
  | @cons p b i is hd hs ih =>
      obtain ⟨x, hx, hdecode⟩ := decode_of_denotes h.live hd hb
      have hw : (decode none).run w = (.ok .ok, (w.forward p.length).holding (some x)) :=
        run_of_ok hdecode
      obtain ⟨c', w', hc, hw', h', hsight⟩ | ⟨status, c', w', hstatus, -, hw', -⟩ |
        ⟨halt, hbreaks, -⟩ := h.call supplier_handsOut_promised .decode
      · obtain rfl : w' = (w.forward p.length).holding (some x) :=
          congrArg Prod.snd ((run_of_ok hw').symm.trans hw)
        have hahead : ((w.forward p.length).holding (some x)).ahead = b := by
          show (w.forward p.length).ahead = b
          rw [Context.ahead_forward, hb, List.drop_left]
        obtain ⟨items, d, hitems, hresolve, hend⟩ := ih h' hahead
        have hlast : c'.last = some i := Eq.trans hsight (congrArg some hx)
        obtain ⟨y, hy, hyi⟩ := Option.map_eq_some_iff.mp hlast
        refine ⟨y.detach c'.buffer :: items, d, ?_, ?_, hend⟩
        · have hrun : (decode (some supplier)).run c = (.ok .ok, c') := run_of_ok hc
          rw [List.length_cons, detachTimes, hrun]
          dsimp only
          rw [hitems, hy]
          rfl
        · intro buffer
          rw [List.map_cons, hresolve, Item.resolve_detach, hyi]
      · have hw' : (decode none).run w = (.ok status, w') := hw'
        rw [hw] at hw'
        exact absurd (Except.ok.inj (Prod.mk.inj hw').1).symm hstatus
      · exact absurd hbreaks (hnever halt)

theorem live_new {a : Assumptions} {order : ByteOrder} (ha : a.select = .ok (some order))
    (source : Source) (size : Nat) :
    ∃ c, new source size a = .ok c ∧ c.Live ∧ c.ahead = [] ∧ c.peer = source := by
  obtain ⟨c, hnew, hstatus⟩ : ∃ c, new source size a = .ok c ∧ c.status = .ok := by
    have hrange : Context.range? (Bytes.zeros size).size 0 (some 0) = .ok (0, 0) := by
      simp [Context.range?]
    unfold new Context.new Context.rebind Context.bind
    simp only [hrange, ha]
    exact ⟨_, rfl, rfl⟩
  obtain ⟨-, hahead, hpeer, -⟩ := sound_new hnew
  exact ⟨c, hnew, Context.live_new hnew hstatus, hahead, hpeer⟩

/-- A new unpacker decodes all items that the source delivers, and then the input ends. -/
theorem detached_new {a : Assumptions} {order : ByteOrder} (ha : a.select = .ok (some order))
    {source : Source} (hs : source.Prompt) {is : List (Item Bytes)}
    (hf : Factors source.content is) (size : Nat) :
    ∃ (c d : StreamUnpacker) (items : List (Item Span)), new source size a = .ok c ∧
      detachTimes is.length c = (items.map (fun item => (.ok .ok, some item)), d) ∧
      (∀ buffer, items.map (Item.resolve buffer) = is) ∧
      ((decode (some supplier)).run d).1 = .ok .endOfInput := by
  obtain ⟨c, hnew, hc, hahead, rfl⟩ := live_new ha source size
  have hready : c.Ready 0 := hc.ready hc.inBounds.current_le
  have hwhole : c.whole.ahead = c.peer.content := by
    rw [ahead_whole, hahead, hs.ready_eq, List.nil_append]
  have hrefilled := refilled_of_ready hready (live_whole hready) c.ahead_whole
  obtain ⟨rest, hrest, hsupply⟩ := hrefilled.supply
  obtain ⟨items, d, h⟩ := detached_factors hf
    { hrefilled with supply := ⟨rest, ⟨hrest, hs⟩, hsupply⟩ } hwhole
  exact ⟨c, d, items, hnew, h⟩

end StreamUnpacker

/-! ### Reading -/

namespace ItemReader

theorem prompt_more {r : ItemReader} (h : r.source.Prompt) (status : Status) :
    (r.more status).2.source.Prompt := by
  have hread := (h.read r.readSize).1
  unfold more
  dsimp only
  generalize r.source.read r.readSize = result at hread
  obtain ⟨delivery, source⟩ := result
  generalize (if status = .endOfInput ∨ status = .bufferUnderflow then Except.ok ()
    else r.context.check) = stopped
  cases stopped with
  | error e => exact h
  | ok u =>
      cases delivery with
      | data bytes =>
          dsimp only
          split_ifs <;> exact hread
      | absent | ended | fault => exact hread

theorem prompt_complete {r : ItemReader} (h : r.source.Prompt) (operation : Engine Unit Unit) :
    (r.complete operation).2.source.Prompt := by
  have hattempt : ∀ {r : ItemReader} {result d}, r.source.Prompt →
      r.attempt operation = (result, d) → d.source.Prompt := by
    intro r result d h hd
    have hsource := attempt_source operation r
    rw [hd] at hsource
    exact hsource ▸ h
  fun_induction complete operation r with
  | case1 r d ha | case2 r fault d ha => exact hattempt h ha
  | case3 r status d ha failure e hmore | case4 r status d ha e hmore =>
      have he := prompt_more (hattempt h ha) status
      rwa [hmore] at he
  | case5 r status d ha e hmore ih =>
      have he := prompt_more (hattempt h ha) status
      rw [hmore] at he
      exact ih he

theorem prompt_source_answer {r : ItemReader} (h : r.source.Prompt) (call : Call) :
    (r.answer call).2.source.Prompt := by
  have hcomplete := prompt_complete h (call.engine none)
  rw [answer_eq]
  generalize r.complete (call.engine none) = outcome at hcomplete
  obtain ⟨_ | _ | status, r'⟩ := outcome
  · exact hcomplete
  · cases call <;> cases hitem : r'.context.item <;> simp only [conclude, hitem] <;>
      exact hcomplete
  · cases call <;> simp only [conclude] <;> try split_ifs
    all_goals exact hcomplete

theorem next_of_answer_item {r : ItemReader} {item : Item Span}
    (h : (r.answer .decode).1 = .item item) :
    r.next = (.ok (some item), (r.answer .decode).2) := by
  unfold answer at h ⊢
  generalize r.next = result at h
  obtain ⟨_ | _ | i, r'⟩ := result <;> cases h
  rfl

theorem next_of_answer_ended {r : ItemReader} (h : (r.answer .decode).1 = .ended) :
    r.next = (.ok none, (r.answer .decode).2) := by
  unfold answer at h ⊢
  generalize r.next = result at h
  obtain ⟨_ | _ | i, r'⟩ := result <;> cases h
  rfl

/-- The reader can go on, and has these bytes still to come: those that it has received and not used
up, and those that its source delivers. -/
structure Coming (a : Assumptions) (b : List UInt8) (r : ItemReader) : Prop where
  assumptions : r.context.assumptions = a
  readSize : 0 < r.readSize
  prompt : r.source.Prompt
  bytes : r.unread.toList ++ r.source.content = b

section coming

variable {a : Assumptions} {order : ByteOrder} (ha : a.select = .ok (some order))

include ha

/-- A whole item comes next: it is read, and what follows it is still to come. -/
theorem Coming.next {p b : List UInt8} {i : Item Bytes} (hd : Denotes p i) {r : ItemReader}
    (h : Coming a (p ++ b) r) :
    ∃ item r', r.next = (.ok (some item), r') ∧ (∀ buffer, item.resolve buffer = i) ∧
      Coming a b r' := by
  obtain ⟨w, hnew, hw⟩ := bound_new ha (p ++ b)
  obtain ⟨x, hx, hdecode⟩ := decode_of_denotes hw.live hd hw.ahead_eq
  have hbytes : OnBytes a (r.unread.toList ++ r.source.ready) .decode (.ok .ok)
      ((w.forward p.length).holding (some x)) := by
    rw [h.prompt.ready_eq, h.bytes]
    exact ⟨w, hnew, run_of_ok hdecode⟩
  obtain ⟨next, hanswered⟩ := answered_answer ha h.assumptions .decode
  obtain ⟨hshows, hcurrent⟩ := hanswered.atOnce h.readSize _ hbytes
  have hreceives := hanswered.receives
  have hused : (r.answer .decode).1.used (r.answer .decode).2 = p.length := by
    rw [← hcurrent]
    show w.current + p.length = p.length
    rw [hw.current_eq, Nat.zero_add]
  have hprompt := prompt_source_answer h.prompt .decode
  cases hitem : (r.answer .decode).1 with
  | passed | ended | failed =>
      rw [hitem] at hshows
      exact hshows.elim
  | item item =>
      refine ⟨item, _, next_of_answer_item hitem, ?_, ?_, ?_, hprompt, ?_⟩
      · intro buffer
        rw [hitem] at hshows
        exact Option.some.inj ((hshows buffer).symm.trans (congrArg some hx))
      · exact hreceives.assumptions.trans h.assumptions
      · rw [hreceives.readSize]
        exact h.readSize
      · have hle := hreceives.le_length
        rw [hused] at hle
        rw [hreceives.unread, hused, ← List.drop_append_of_le_length hle, List.append_assoc,
          ← hreceives.content, h.bytes, List.drop_left]

theorem Coming.ended {r : ItemReader} (h : Coming a [] r) :
    ∃ r', r.next = (.ok none, r') ∧ Coming a [] r' := by
  obtain ⟨hunread, hcontent⟩ := List.append_eq_nil_iff.mp h.bytes
  obtain ⟨next, hanswered⟩ := answered_answer ha h.assumptions .decode
  have hreceives := hanswered.receives
  have hnil := hreceives.content
  rw [hcontent] at hnil
  obtain ⟨rfl, hrest⟩ := List.append_eq_nil_iff.mp hnil.symm
  have hempty : r.unread.toList ++ ([] : List UInt8) = [] := by rw [hunread, List.append_nil]
  have hend : ∀ {status d}, OnBytes a [] .decode (.ok status) d → status = .endOfInput := by
    rintro status d ⟨w, hnew, hrun⟩
    obtain ⟨w', hnew', hw'⟩ := bound_new ha []
    obtain rfl := Except.ok.inj (hnew'.symm.trans hnew)
    have hdecode := (decode_at_end hw'.live hw'.ahead_eq).1
    rw [show (decode none).run w' = (.ok status, d) from hrun] at hdecode
    exact Except.ok.inj hdecode
  have hanswers := hanswered.answers
  rw [hempty] at hanswers
  have hprompt := prompt_source_answer h.prompt .decode
  have hanswer : (r.answer .decode).1 = .ended := by
    generalize (r.answer .decode).1 = answer at hanswers
    generalize answer.used _ = k at hanswers
    cases hanswers with
    | complete _ hall =>
        obtain ⟨d, hd, -⟩ := hall []
        exact absurd (hend hd) (by decide)
    | ended => rfl
    | stopped he hs hcall => exact absurd (hend he) (hcall rfl)
    | raised _ _ hraised =>
        obtain ⟨bytes, hbytes, -⟩ := h.prompt _ hraised
        cases hbytes
  refine ⟨_, next_of_answer_ended hanswer, hreceives.assumptions.trans h.assumptions, ?_, hprompt,
    ?_⟩
  · rw [hreceives.readSize]
    exact h.readSize
  · rw [hreceives.unread, hempty, List.drop_nil, hrest]
    rfl

/-- A sequence of items is to come: the reader yields them one by one, and then stops. -/
theorem allLoop_factors {b : List UInt8} {is : List (Item Bytes)} (hf : Factors b is)
    {r : ItemReader} (h : Coming a b r) (found : Array (Item Span)) :
    ∃ (items : List (Item Span)) (r' : ItemReader),
      allLoop found r = (.ok (found ++ items.toArray), r') ∧
      (∀ buffer, items.map (Item.resolve buffer) = is) ∧ Coming a [] r' := by
  induction hf generalizing r found with
  | nil =>
      obtain ⟨r', hnext, h'⟩ := h.ended ha
      refine ⟨[], r', ?_, fun _ => rfl, h'⟩
      rw [allLoop_eq, hnext]
      simp
  | @cons p b i is hd hs ih =>
      obtain ⟨item, r', hnext, hitem, h'⟩ := h.next ha hd
      obtain ⟨items, d, hall, hresolve, hend⟩ := ih h' (found.push item)
      refine ⟨item :: items, d, ?_, ?_, hend⟩
      · rw [allLoop_eq, hnext]
        dsimp only
        rw [hall]
        simp
      · intro buffer
        rw [List.map_cons, hresolve, hitem]

omit ha in
theorem Coming.stays {a : Assumptions} {order : ByteOrder} (ha : a.select = .ok (some order))
    {r : ItemReader} (h : Coming a [] r) (times : Nat) :
    (Nat.repeat (fun r => r.next.2) times r).next.1 = .ok none := by
  have hcoming : Coming a [] (Nat.repeat (fun r => r.next.2) times r) := by
    induction times with
    | zero => exact h
    | succ times ih =>
        obtain ⟨r', hnext, h'⟩ := ih.ended ha
        rw [Nat.repeat, hnext]
        exact h'
  obtain ⟨r', hnext, -⟩ := hcoming.ended ha
  exact congrArg Prod.fst hnext

/-- A new reader has everything of its source still to come. -/
theorem coming_new {source : Source} {readSize : Nat} (hsize : 0 < readSize)
    (hs : source.Prompt) :
    ∃ r, new source readSize a = .ok r ∧ Coming a source.content r := by
  obtain ⟨context, hchecked⟩ : ∃ context,
      Context.checked (Context.new .unpacker a #[] 0 none ()) = .ok context := by
    rw [Context.new_whole ha .unpacker #[] ()]
    exact ⟨_, rfl⟩
  have hnew : new source readSize a = .ok { context, source, readSize } := by
    rw [new, hchecked]
  obtain ⟨hunread, -, -, hassumptions, -⟩ := new_eq hnew
  refine ⟨_, hnew, hassumptions, hsize, hs, ?_⟩
  rw [hunread, List.nil_append]

end coming

end ItemReader
end MessagePack
