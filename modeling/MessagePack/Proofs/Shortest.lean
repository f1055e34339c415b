import MessagePack.Proofs.Appending
import MessagePack.Proofs.Canonical
import MessagePack.Proofs.Recognition

/-! # Packing is shortest and canonical

An item that was decoded, from whatever form, is packed again in a form that is never longer,
that decodes to the very same item, and that no shorter bytes decode to (`repack_shortest`).
Packing a decoded item twice gives the same bytes. -/

namespace MessagePack

open Unpacker

variable {σ τ : Type} {c : Context σ} {x y : Item Bytes} {k j : Nat}

/-- Decoding is complete: it reads the item and takes `k` bytes for it. -/
def Context.Decodes (c : Context σ) (x : Item Bytes) (k : Nat) : Prop :=
  ((decode none).run c).1 = .ok .ok ∧ ((decode none).run c).2.last = some x ∧
    ((decode none).run c).2.current = c.current + k

/-- Packing is complete wherever there is room, and writes these bytes and no others. -/
def Value.Packs (v : Value) (bytes : List UInt8) : Prop :=
  ∀ (σ : Type) (handler : Option (Handler σ)) (c : Context σ), c.Live →
    c.current + bytes.length ≤ c.limit →
    (Packer.pack handler v).run c = (.ok .ok, c.append bytes.toArray)

theorem Context.decodes_iff (hc : c.Live) :
    c.Decodes x k ↔ ∃ p, p <+: c.ahead ∧ Denotes p x ∧ p.length = k := by
  constructor
  · rintro ⟨hok, hx, hk⟩
    rw [run_decode_eq_iff hc, status_scan_eq_ok_iff] at hok
    obtain ⟨p, i, ⟨rest, hb⟩, hd⟩ := hok
    obtain ⟨hcurrent, hlast⟩ := run_decode_of_denotes hc hd hb.symm
    obtain rfl : i = x := Option.some.inj (hlast.symm.trans hx)
    exact ⟨p, ⟨rest, hb⟩, hd, by omega⟩
  · rintro ⟨p, ⟨rest, hb⟩, hd, rfl⟩
    obtain ⟨hcurrent, hlast⟩ := run_decode_of_denotes hc hd hb.symm
    refine ⟨?_, hlast, hcurrent⟩
    rw [run_decode_eq_iff hc, status_scan_eq_ok_iff]
    exact ⟨p, x, ⟨rest, hb⟩, hd⟩

theorem Value.packs_of_canonical {v : Value} {f : Frame} {i : Item Bytes} (hv : v.frame = .ok f)
    (hf : f.Canonical i) : v.Packs f.bytes := by
  intro σ handler c hc h
  rw [Frame.length_bytes] at h
  rw [Engine.run, Packer.pack_append hv hf.fits (hc.ready h)]

/-- Packing a decoded item again takes the fewest bytes that decode to it, and those bytes decode
to it. -/
theorem repack_shortest (hc : c.Live) (hx : c.Decodes x k) (hq : x.isSignalling = false) :
    ∃ bytes : List UInt8, bytes.length ≤ k ∧ x.toValue.Packs bytes ∧
      (∀ d : Context τ, d.Live → bytes <+: d.ahead →
        d.Decodes x bytes.length ∧ ∀ y j, d.Decodes y j → y = x ∧ y.toValue.Packs bytes) ∧
      ∀ d : Context τ, d.Live → ∀ j, d.Decodes x j → bytes.length ≤ j := by
  obtain ⟨p, -, hd, rfl⟩ := (Context.decodes_iff hc).mp hx
  obtain ⟨f, hv, hf⟩ := Value.frame_canonical (hd.item?_toValue hq)
  have hshort : ∀ q, Denotes q x → f.bytes.length ≤ q.length := by
    intro q hq
    rw [Frame.length_bytes]
    exact hf.shortest _ hq.takes
  have hpacks := Value.packs_of_canonical hv hf
  refine ⟨f.bytes, hshort p hd, hpacks, fun d hl hp => ?_, fun d hl j hj => ?_⟩
  · refine ⟨(Context.decodes_iff hl).mpr ⟨_, hp, hf.denotes, rfl⟩, fun y j hy => ?_⟩
    obtain ⟨q, hq, hdq, -⟩ := (Context.decodes_iff hl).mp hy
    obtain ⟨-, rfl⟩ := hf.denotes.unique hdq hp hq
    exact ⟨rfl, hpacks⟩
  · obtain ⟨q, -, hdq, rfl⟩ := (Context.decodes_iff hl).mp hj
    exact hshort q hdq

/-- A small number in a wide signed field comes down to one byte. -/
theorem repack_shortest_wide :
    ∃ c : Context Unit, Context.new .unpacker {} #[0xD2, 0, 0, 0, 5] 0 none () = .ok c ∧
      c.Live ∧ c.Decodes (.positive 5) 5 ∧
      ∃ bytes : List UInt8, bytes.length ≤ 1 ∧ (Value.signed 5).Packs bytes := by
  have hnew : ∃ c : Context Unit,
      Context.new .unpacker {} #[0xD2, 0, 0, 0, 5] 0 none () = .ok c ∧ c.status = .ok ∧
        c.Decodes (.positive 5) 5 := ⟨_, rfl, rfl, rfl, rfl, rfl⟩
  have hshort : ∃ d : Context Unit,
      Context.new .unpacker {} #[5] 0 none () = .ok d ∧ d.status = .ok ∧
        d.Decodes (.positive 5) 1 := ⟨_, rfl, rfl, rfl, rfl, rfl⟩
  obtain ⟨c, h, hs, hdec⟩ := hnew
  obtain ⟨d, h', hs', hdec'⟩ := hshort
  have hc := Context.live_new h hs
  obtain ⟨bytes, -, hpacks, -, hmin⟩ := repack_shortest (τ := Unit) hc hdec rfl
  exact ⟨c, h, hc, hdec, bytes, hmin d (Context.live_new h' hs') 1 hdec', hpacks⟩

end MessagePack
