import MessagePack.Proofs.Arriving
import MessagePack.Proofs.Refilling
import MessagePack.Proofs.Traversing

/-! # The bytes of an item that is decoded

A handler may do anything to the region, also to bytes that are still unread.  Whatever it does, the
bytes that decoding has passed over are those of the item, and its payload is in the buffer as the
handler has left it (`Unpacker.denotes_of_complete`).

A step that is complete can be taken again without a handler, on the bytes that were passed over and
those that are there at the end (`Replays`).  At each stage of an item, only the bytes that were
asked for are kept from one step to the next; what is behind them may be gone at the next
question. -/

namespace MessagePack
namespace Unpacker

open Engine

variable {σ α β : Type}

/-- A step has led from `c` to `d`, and passed over the bytes `q`.  Without a handler, the other
step does so as well wherever these bytes are ahead, followed by those that are there in `d`. -/
structure Replayed (handler : Option (Handler σ)) (m n : Stage) (c : Context σ)
    (step' : Engine Unit α) (a : α) (q : List UInt8) (d : Context σ) : Prop where
  moves : Moves handler c q d
  ready : d.Ready n.bytes
  keeps : c.ahead.take m.bytes <+: q ++ d.ahead.take n.bytes
  same : ∀ w : Context Unit, w.Live → q ++ d.ahead.take n.bytes <+: w.ahead →
    (m = .presented → w.last = c.last) → ∃ x, step' w = .ok a x ∧ x.Live ∧
      x.ahead = w.ahead.drop q.length ∧ (n = .presented → x.last = d.last)

/-- Wherever the step is complete, it can be taken again without a handler. -/
def Replays (handler : Option (Handler σ)) (m : Stage) (step : Engine σ α)
    (step' : Engine Unit α) (n : Stage) : Prop :=
  ∀ (c : Context σ) (a : α) (d : Context σ), c.Ready m.bytes → step c = .ok a d →
    ∃ q, Replayed handler m n c step' a q d

section steps

variable {handler : Option (Handler σ)} {m n k : Stage}

theorem Replayed.bind {c d e : Context σ} {step : Engine Unit α} {next : α → Engine Unit β} {a : α}
    {b : β} {q q' : List UInt8} (h : Replayed handler m n c step a q d)
    (h' : Replayed handler n k d (next a) b q' e) :
    Replayed handler m k c (step >>= next) b (q ++ q') e where
  moves := h.moves.trans h'.moves
  ready := h'.ready
  keeps := by
    rw [List.append_assoc]
    exact h.keeps.trans ((List.prefix_append_right_inj q).mpr h'.keeps)
  same w hw hq hlast := by
    rw [List.append_assoc] at hq
    have hfirst := ((List.prefix_append_right_inj q).mpr h'.keeps).trans hq
    obtain ⟨x, hx, hlive, hahead, hxlast⟩ := h.same w hw hfirst hlast
    have hsecond : q' ++ e.ahead.take k.bytes <+: x.ahead := by
      obtain ⟨rest, hrest⟩ := hq
      refine ⟨rest, ?_⟩
      rw [hahead, ← hrest, List.append_assoc q, List.drop_left]
    obtain ⟨y, hy, hylive, hyahead, hylast⟩ := h'.same x hlive hsecond hxlast
    refine ⟨y, (bind_of_ok hx).trans hy, hylive, ?_, hylast⟩
    rw [hyahead, hahead, List.drop_drop, List.length_append]

theorem Replays.bind {step : Engine σ α} {step' : Engine Unit α} {next : α → Engine σ β}
    {next' : α → Engine Unit β} (h : Replays handler m step step' n)
    (hn : ∀ a, Replays handler n (next a) (next' a) k) :
    Replays handler m (step >>= next) (step' >>= next') k := by
  intro c b e hc he
  cases hd : step c with
  | error halt d =>
      rw [bind_of_error hd] at he
      cases he
  | ok a d =>
      rw [bind_of_ok hd] at he
      obtain ⟨q, hq⟩ := h c a d hc hd
      obtain ⟨q', hq'⟩ := hn a d b e hq.ready he
      exact ⟨q ++ q', hq.bind hq'⟩

theorem Replays.pure (a : α) :
    Replays handler n (Pure.pure a : Engine σ α) (Pure.pure a : Engine Unit α) n := by
  rintro c _ _ hc ⟨⟩
  exact ⟨[], .refl, hc, List.prefix_refl _, fun w hw _ hlast => ⟨w, rfl, hw, rfl, hlast⟩⟩

theorem replays_malformed :
    Replays handler m (stop .malformedInput : Engine σ α) (stop .malformedInput) n := by
  intro c a d hc h
  cases h

theorem ready_of_prefix {c : Context σ} {n : Nat} (hc : c.Ready n) {w : Context Unit}
    (hw : w.Live) (h : c.ahead.take n <+: w.ahead) :
    w.Ready n ∧ w.ahead.take n = c.ahead.take n := by
  have hlength : (c.ahead.take n).length = n := List.length_take_of_le hc.le_length
  have hle : n ≤ w.ahead.length := by
    rw [← hlength]
    exact h.length_le
  refine ⟨hw.ready ((Context.le_limit_iff hw).mpr hle), ?_⟩
  rw [List.prefix_iff_eq_take.mp h, hlength]

theorem replays_forward {n : Nat} {value : List UInt8 → α} {step : Engine σ α}
    {step' : Engine Unit α} (h : Takes n value step) (h' : Takes n value step') :
    Replays handler (.room n) step step' (.room 0) := by
  intro c a d hc hd
  have hc : c.Ready n := hc
  rw [h c hc] at hd
  cases hd
  refine ⟨c.ahead.take n, Moves.refl.forward n hc.le_limit, hc.forward, ?_, ?_⟩
  · exact List.prefix_append _ _
  · intro w hw hq _
    obtain ⟨hready, htake⟩ := ready_of_prefix hc hw ((List.prefix_append _ _).trans hq)
    refine ⟨w.forward n, ?_, hw.forward hready.le_limit, ?_, nofun⟩
    · rw [h' w hready, htake]
    · rw [Context.ahead_forward, List.length_take_of_le hc.le_length]

theorem replays_present {item : Item Span} (hi : item.payload? = none) :
    Replays handler (.room 0) (present item : Engine σ Unit) (present item) .presented := by
  rintro c _ _ hc ⟨⟩
  refine ⟨[], Moves.refl.present item, hc.holding _, List.nil_prefix, ?_⟩
  intro w hw _ _
  refine ⟨w.holding (some item), rfl, hw.holding _, rfl, fun _ => ?_⟩
  have hlast : item.resolve w.buffer = item.resolve c.buffer :=
    Item.mapPayload_congr fun p hp => by simp [hi] at hp
  exact congrArg some hlast

theorem replays_takePayload (kind : Blob) (n : Nat) :
    Replays handler (.room n) (takePayload kind n : Engine σ Unit) (takePayload kind n)
      .presented := by
  rintro c _ _ hc ⟨⟩
  have hc : c.Ready n := hc
  refine ⟨c.ahead.take n, ?_, (hc.holding _).forward, List.prefix_append _ _, ?_⟩
  · exact (Moves.refl.present _).forward n hc.le_limit
  · intro w hw hq _
    obtain ⟨hready, htake⟩ := ready_of_prefix hc hw ((List.prefix_append _ _).trans hq)
    refine ⟨(w.holding _).forward n, rfl, (hw.holding _).forward hready.le_limit, ?_, fun _ => ?_⟩
    · rw [List.length_take_of_le hc.le_length]
      exact w.ahead_forward n
    · have hw := Context.view_ahead hready.le_length
      rw [htake, ← Context.view_ahead hc.le_length] at hw
      show some ((kind.item _).mapPayload _) = some ((kind.item _).mapPayload _)
      rw [Blob.mapPayload_item, Blob.mapPayload_item]
      exact congrArg (fun p => some (kind.item p)) hw

end steps

section items

variable {s : Option (Supplier σ)}
  (hin : ∀ respond, s.map Supplier.respond = some respond → respond.Contained)

include hin

theorem replays_require (n : Nat) (short : Status) :
    Replays (s.map Supplier.respond) (.room 0) (require s n short) (require none n short)
      (.room n) := by
  intro c u d hc hd
  have ha : Asked (s.map Supplier.respond) (atEnd short) n short c (require s n short c) :=
    asked_ensure
  rw [hd] at ha
  have hready : d.Ready n := ha.ready hc hin
  refine ⟨[], Moves.refl.asked ha, hready, List.nil_prefix, ?_⟩
  intro w hw hq _
  obtain ⟨hthere, -⟩ := ready_of_prefix hready hw hq
  exact ⟨w, if_pos hthere.le_limit, hw, rfl, nofun⟩

theorem lockstep_replays : Lockstep s (none : Option (Supplier Unit))
    (Replays (s.map Supplier.respond)) where
  bind := .bind
  pure _ := .pure
  malformed _ _ := replays_malformed
  require n := replays_require hin n _
  forward := replays_forward
  present _ := replays_present
  payload := replays_takePayload

/-- A complete call that decodes passes over the bytes of its item, whatever the handler does. -/
theorem denotes_of_complete {c d : Context σ} (hc : c.Ready 0) (h : decode s c = .ok () d) :
    ∃ p i, Moves (s.map Supplier.respond) c p d ∧ d.Ready 0 ∧ Denotes p i ∧ d.last = some i := by
  have hitem := (lockstep_replays hin).decodeItem (replays_require hin 1 .endOfInput)
  have hd : decode s c = decodeItem s c := bind_of_ok (running_eq hc.status_eq)
  obtain ⟨q, hq⟩ := hitem c () d hc (hd.symm.trans h)
  obtain ⟨w, hw, hahead⟩ := exists_live q
  obtain ⟨x, hx, -, hxahead, hxlast⟩ := hq.same w hw (by simp [hahead, Stage.bytes]) nofun
  have hdecode : decode none w = .ok () x := (bind_of_ok (running_eq hw.status_eq)).trans hx
  obtain ⟨k, i, -, hi, hlast, hrest⟩ := denotes_of_decode hw hdecode
  rw [hxahead, hahead, List.drop_length] at hrest
  rw [hahead, List.take_of_length_le (List.drop_eq_nil_iff.mp hrest.symm)] at hi
  exact ⟨q, i, hq.moves, hq.ready, hi, (hxlast rfl).symm.trans hlast⟩

end items

end Unpacker
end MessagePack
