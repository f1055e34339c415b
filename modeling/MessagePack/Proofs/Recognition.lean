import MessagePack.Proofs.Decoding
import MessagePack.Proofs.Factoring

/-! # The decoder accepts exactly the wire format

For a live context without a handler, the status of `decode` tells which of four cases holds
for the unread bytes: there are none, they begin with the undefined tag, with a complete item,
or they are a proper prefix of one.  A complete item is unique, and decoding reads it and moves
on by its length.  `items` reads the longest sequence of complete items, and ends cleanly just
where that is all of the region.  No other byte of the buffer matters. -/

namespace MessagePack
namespace Unpacker

open Engine

variable {σ τ : Type}

/-! ### One item -/

section one

variable {c : Context σ} (hc : c.Live)

include hc

theorem run_decode_fst : ((decode none).run c).1 = .ok (scan c.ahead).status := by
  rw [run_decode_eq hc]
  cases scan c.ahead <;> rfl

theorem run_decode_eq_iff {status : Status} :
    ((decode none).run c).1 = .ok status ↔ (scan c.ahead).status = status := by
  rw [run_decode_fst hc, Except.ok.injEq]

theorem run_decode_of_denotes {p rest : List UInt8} {i : Item Bytes} (h : Denotes p i)
    (hb : c.ahead = p ++ rest) :
    ((decode none).run c).2.current = c.current + p.length ∧
      ((decode none).run c).2.last = some i := by
  obtain ⟨item, rfl, hd⟩ := decode_of_denotes hc h hb
  rw [Engine.run, hd]
  exact ⟨rfl, rfl⟩

/-- Where no complete item comes next, decoding stops. -/
theorem decode_of_stuck (h : Stuck c.ahead) :
    ∃ k, decode none c = .error (.status (scan c.ahead).status)
      ((c.forward k).latch (scan c.ahead).status) := by
  rw [decode_eq hc]
  cases hs : scan c.ahead with
  | complete item length =>
      have hok : (scan c.ahead).status = .ok := by rw [hs]; rfl
      obtain ⟨p, i, hp, hd⟩ := status_scan_eq_ok_iff.mp hok
      exact absurd hd (h p i hp)
  | ended => exact ⟨0, rfl⟩
  | truncated place => exact ⟨place, rfl⟩
  | malformed => exact ⟨1, rfl⟩

end one

/-! ### All items of a region -/

section loop

variable {α : Type} {s : Option (Supplier σ)} {observe : Context σ → α} {atMost : Option Nat}
  (hmost : atMost ≠ some 0) {found : Array α} {c d : Context σ}

include hmost

theorem itemsLoop_of_ok (h : decode s c = .ok () d) :
    itemsLoop s observe atMost found c =
      itemsLoop s observe (atMost.map (· - 1)) (found.push (observe d)) d := by
  rw [itemsLoop, if_neg hmost]
  split
  · rename_i e heq
    obtain rfl : e = d := by simpa [h] using heq.symm
    rfl
  · rename_i halt e heq
    simp [h] at heq

theorem itemsLoop_of_error {halt : Halt} (h : decode s c = .error halt d) :
    itemsLoop s observe atMost found c = (found, ending halt d, d) := by
  rw [itemsLoop, if_neg hmost]
  split
  · rename_i e heq
    simp [h] at heq
  · rename_i halt' e heq
    rw [h] at heq
    obtain ⟨rfl, rfl⟩ := by simpa using heq
    rfl

end loop

/-- How the items of a region end, where these bytes come after the last complete one. -/
def endingAt (c : Context σ) (rest : List UInt8) : Ending :=
  if rest = [] then .clean else .failed (.stop ((scan rest).status.error none c.fault))

theorem ending_of_stuck (c : Context σ) (b : List UInt8) (k : Nat) :
    ending (.status (scan b).status) ((c.forward k).latch (scan b).status) = endingAt c b := by
  unfold ending endingAt
  by_cases hb : b = []
  · rw [if_pos hb, hb]
    rfl
  · have he := status_scan_eq_endOfInput_iff.not.mpr hb
    have hs : (scan b).status ≠ .stopped := by
      cases scan b <;> simp [Scan.status, Status.ok, Status.endOfInput, Status.bufferUnderflow,
        Status.malformedInput, Status.stopped]
    dsimp only
    rw [if_neg hb, if_neg he, if_neg hs]
    rfl

/-- The loop over the items of a region reads complete items until there is none. -/
theorem itemsLoop_factors {c : Context σ} (hc : c.Live) (found : Array (Option (Item Bytes))) :
    ∃ front rest is, c.ahead = front ++ rest ∧ Factors front is ∧ Stuck rest ∧
      (itemsLoop none Context.last none found c).1 = found ++ (is.map some).toArray ∧
      (itemsLoop none Context.last none found c).2.1 = endingAt c rest := by
  have hmost : (none : Option Nat) ≠ some 0 := nofun
  generalize hn : c.ahead.length = n
  induction n using Nat.strongRecOn generalizing c found with
  | ind n ih =>
      by_cases hok : ∃ p i, p <+: c.ahead ∧ Denotes p i
      · obtain ⟨p, i, ⟨rest, hb⟩, hd⟩ := hok
        obtain ⟨item, hi, hdec⟩ := decode_of_denotes hc hd hb.symm
        have hlen : p.length ≤ c.ahead.length := by simp [← hb]
        have hpos := List.length_pos_iff.mpr hd.ne_nil
        have hd' := live_decoded hc hlen (some item)
        have hahead : ((c.forward p.length).holding (some item)).ahead = rest := by
          show (c.forward p.length).ahead = rest
          rw [Context.ahead_forward, ← hb, List.drop_left]
        have hlast : ((c.forward p.length).holding (some item)).last = some i := congrArg some hi
        obtain ⟨front, rest', is, hb', hf, hr, hfound, hend⟩ :=
          ih rest.length (by rw [← hn, ← hb, List.length_append]; omega) hd'
            (found.push (some i)) (by rw [hahead])
        refine ⟨p ++ front, rest', i :: is, ?_, .cons hd hf, hr, ?_, ?_⟩
        · rw [← hb, ← hahead, hb', List.append_assoc]
        · rw [itemsLoop_of_ok hmost hdec, Option.map_none, hlast, hfound]
          simp
        · rw [itemsLoop_of_ok hmost hdec, Option.map_none, hlast, hend]
          rfl
      · have hstuck : Stuck c.ahead := fun p i hp hd => hok ⟨p, i, hp, hd⟩
        refine ⟨[], c.ahead, [], rfl, .nil, hstuck, ?_⟩
        obtain ⟨k, hdec⟩ := decode_of_stuck hc hstuck
        rw [itemsLoop_of_error hmost hdec, ending_of_stuck c c.ahead k]
        simp

theorem endingAt_eq_clean_iff (c : Context σ) (rest : List UInt8) :
    endingAt c rest = .clean ↔ rest = [] := by
  unfold endingAt
  split_ifs with h <;> simp [h]

theorem endingAt_of_stuck (c : Context σ) {rest : List UInt8} (h : Stuck rest) (hr : rest ≠ []) :
    ∃ e : StopError, endingAt c rest = .failed (.stop e) ∧
      (e.status = .malformedInput ∧ rest.head? = some 0xC1 ∨
        e.status = .bufferUnderflow ∧ Unfinished rest) := by
  refine ⟨_, if_neg hr, ?_⟩
  have hok := status_scan_eq_ok_iff.not.mpr fun ⟨p, i, hp, hd⟩ => h p i hp hd
  have hend := status_scan_eq_endOfInput_iff.not.mpr hr
  cases hs : scan rest with
  | complete item length => exact absurd (by rw [hs]; rfl) hok
  | ended => exact absurd (by rw [hs]; rfl) hend
  | malformed => exact .inl ⟨rfl, status_scan_eq_malformedInput_iff.mp (by rw [hs]; rfl)⟩
  | truncated place =>
      exact .inr ⟨rfl, (status_scan_eq_bufferUnderflow_iff.mp (by rw [hs]; rfl)).2⟩

/-- A sequence of items that is all of the bytes leaves nothing after the longest one. -/
theorem factors_iff_of_stuck {b front rest : List UInt8} {is : List (Item Bytes)}
    (hb : b = front ++ rest) (hf : Factors front is) (hr : Stuck rest) :
    (∃ is', Factors b is') ↔ rest = [] := by
  constructor
  · rintro ⟨is', h⟩
    have hp := (h.prefix_of_stuck hf hr (hb ▸ List.prefix_refl _)).1.length_le
    rw [hb, List.length_append] at hp
    exact List.length_eq_zero_iff.mp (by omega)
  · rintro rfl
    rw [List.append_nil] at hb
    exact ⟨is, hb ▸ hf⟩

/-! ### Other bytes do not matter -/

theorem run_decode_congr {c : Context σ} {d : Context τ} (hc : c.Live) (hd : d.Live)
    (h : d.ahead = c.ahead) :
    ((decode none).run d).1 = ((decode none).run c).1 ∧
      ((decode none).run d).2.current - d.current =
        ((decode none).run c).2.current - c.current ∧
      (((decode none).run c).1 = .ok .ok →
        ((decode none).run d).2.last = ((decode none).run c).2.last) := by
  refine ⟨by rw [run_decode_fst hc, run_decode_fst hd, h], ?_, ?_⟩
  · rw [run_decode_eq hc, run_decode_eq hd, h]
    cases scan c.ahead with
    | complete | truncated | malformed =>
        exact (Nat.add_sub_cancel_left _ _).trans (Nat.add_sub_cancel_left _ _).symm
    | ended => exact (Nat.sub_self _).trans (Nat.sub_self _).symm
  · intro hok
    rw [run_decode_eq_iff hc, status_scan_eq_ok_iff] at hok
    obtain ⟨p, i, ⟨rest, hb⟩, hden⟩ := hok
    rw [(run_decode_of_denotes hc hden hb.symm).2,
      (run_decode_of_denotes hd hden (h.trans hb.symm)).2]

theorem items_congr {c : Context σ} {d : Context τ} (hc : c.Live) (hd : d.Live)
    (h : d.ahead = c.ahead) :
    (items none Context.last none d).1 = (items none Context.last none c).1 ∧
      ((items none Context.last none d).2.1 = .clean ↔
        (items none Context.last none c).2.1 = .clean) := by
  obtain ⟨front, rest, is, hb, hf, hr, hfound, hend⟩ := itemsLoop_factors hc #[]
  obtain ⟨front', rest', is', hb', hf', hr', hfound', hend'⟩ := itemsLoop_factors hd #[]
  rw [h] at hb'
  obtain ⟨h₁, h₂⟩ := hf'.prefix_of_stuck hf hr (hb ▸ hb' ▸ List.prefix_append _ _)
  obtain ⟨h₃, h₄⟩ := hf.prefix_of_stuck hf' hr' (hb' ▸ hb ▸ List.prefix_append _ _)
  obtain rfl := h₂.eq_of_length (Nat.le_antisymm h₂.length_le h₄.length_le)
  obtain rfl := h₁.eq_of_length (Nat.le_antisymm h₁.length_le h₃.length_le)
  obtain rfl := List.append_cancel_left (hb'.symm.trans hb)
  refine ⟨hfound'.trans hfound.symm, ?_⟩
  rw [items, items, hend, hend', endingAt_eq_clean_iff, endingAt_eq_clean_iff]

/-! ### The wire format is recognised -/

/-- Decoding and reading all items accept exactly the wire format: the status tells the four
cases apart, a complete item is unique and is what is read, all items are the longest sequence
of complete ones, and nothing but the unread bytes of the region has a say. -/
theorem decode_recognizes {c : Context σ} (hc : c.Live) :
    (((decode none).run c).1 = .ok .endOfInput ↔ c.ahead = []) ∧
    (((decode none).run c).1 = .ok .malformedInput ↔ c.ahead.head? = some 0xC1) ∧
    (((decode none).run c).1 = .ok .ok ↔ ∃ p i, p <+: c.ahead ∧ Denotes p i) ∧
    (((decode none).run c).1 = .ok .bufferUnderflow ↔ c.ahead ≠ [] ∧ Unfinished c.ahead) ∧
    (∀ p i, p <+: c.ahead → Denotes p i →
      (∀ p' i', p' <+: c.ahead → Denotes p' i' → p' = p ∧ i' = i) ∧
      ((decode none).run c).2.current = c.current + p.length ∧
      ((decode none).run c).2.last = some i) ∧
    (∃ front rest is, c.ahead = front ++ rest ∧ Factors front is ∧
      (items none Context.last none c).1.toList = is.map some ∧
      (∀ front' is', front' <+: c.ahead → Factors front' is' → front' <+: front ∧ is' <+: is) ∧
      (∀ is', Factors c.ahead is' → is' = is) ∧
      ((items none Context.last none c).2.1 = .clean ↔ ∃ is', Factors c.ahead is') ∧
      ((items none Context.last none c).2.1 ≠ .clean →
        ∃ e : StopError, (items none Context.last none c).2.1 = .failed (.stop e) ∧
          (e.status = .malformedInput ∧ rest.head? = some 0xC1 ∨
            e.status = .bufferUnderflow ∧ Unfinished rest))) ∧
    (∀ d : Context τ, d.Live → d.ahead = c.ahead →
      ((decode none).run d).1 = ((decode none).run c).1 ∧
      ((decode none).run d).2.current - d.current =
        ((decode none).run c).2.current - c.current ∧
      (((decode none).run c).1 = .ok .ok →
        ((decode none).run d).2.last = ((decode none).run c).2.last) ∧
      (items none Context.last none d).1 = (items none Context.last none c).1 ∧
      ((items none Context.last none d).2.1 = .clean ↔
        (items none Context.last none c).2.1 = .clean)) := by
  refine ⟨?_, ?_, ?_, ?_, ?_, ?_, ?_⟩
  · rw [run_decode_eq_iff hc, status_scan_eq_endOfInput_iff]
  · rw [run_decode_eq_iff hc, status_scan_eq_malformedInput_iff]
  · rw [run_decode_eq_iff hc, status_scan_eq_ok_iff]
  · rw [run_decode_eq_iff hc, status_scan_eq_bufferUnderflow_iff]
  · intro p i hp hd
    obtain ⟨rest, hb⟩ := hp
    refine ⟨fun p' i' hp' hd' => hd.unique hd' ⟨rest, hb⟩ hp', ?_⟩
    exact run_decode_of_denotes hc hd hb.symm
  · obtain ⟨front, rest, is, hb, hf, hr, hfound, hend⟩ := itemsLoop_factors hc #[]
    have hclean : (items none Context.last none c).2.1 = .clean ↔ rest = [] := by
      rw [items, hend, endingAt_eq_clean_iff]
    refine ⟨front, rest, is, hb, hf, ?_, ?_, ?_, ?_, ?_⟩
    · rw [items, hfound]
      simp
    · intro front' is' hp hf'
      exact hf'.prefix_of_stuck hf hr (hb ▸ hp)
    · intro is' hf'
      obtain rfl := (factors_iff_of_stuck hb hf hr).mp ⟨is', hf'⟩
      rw [List.append_nil] at hb
      exact (hb ▸ hf).unique hf'
    · rw [hclean, factors_iff_of_stuck hb hf hr]
    · intro h
      rw [items, hend]
      exact endingAt_of_stuck c hr (hclean.not.mp h)
  · intro d hd h
    obtain ⟨h₁, h₂, h₃⟩ := run_decode_congr hc hd h
    exact ⟨h₁, h₂, h₃, items_congr hc hd h⟩

/-- A field that the region cuts off is not completed from the bytes behind it. -/
theorem decode_recognizes_region :
    ∃ c : Context Unit,
      Context.new .unpacker {} #[0xFF, 0xCD, 0x01, 0x02] 1 (some 3) () = .ok c ∧ c.Live ∧
      c.ahead = [0xCD, 0x01] ∧ ((decode none).run c).1 = .ok .bufferUnderflow := by
  have hnew : ∃ c : Context Unit,
      Context.new .unpacker {} #[0xFF, 0xCD, 0x01, 0x02] 1 (some 3) () = .ok c ∧
        c.status = .ok ∧ c.ahead = [0xCD, 0x01] := ⟨_, rfl, rfl, rfl⟩
  obtain ⟨c, h, hs, hb⟩ := hnew
  have hc := Context.live_new h hs
  have hd : Denotes ([0xCD, 0x01] ++ [0x02]) (.positive (Wire.natural [0x01, 0x02])) :=
    .uint (i := 1) (by decide) rfl
  have hu := (decode_recognizes (τ := Unit) hc).2.2.2.1
  rw [hb] at hu
  exact ⟨c, h, hc, hb, hu.mpr ⟨by decide, hd.unfinished (by decide)⟩⟩

end Unpacker
end MessagePack
