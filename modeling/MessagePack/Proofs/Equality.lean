import MessagePack.Proofs.Numbers
import MessagePack.Proofs.PackCases
import MessagePack.Proofs.Shortest
import Mathlib

/-! # Equality is equality on the wire

Two items that were decoded, from whatever bytes and in whatever form, are equal if and only if they
are packed as the same bytes (`same_iff_packed_alike`).  Floats compare as numbers instead, within
their kind.

What an item is packed as depends on the item alone (`Item.PackedBy.frame_eq`), and it denotes the
item.  Since bytes denote one item at most, no two items share an encoding. -/

namespace MessagePack

open Unpacker

/-! ### Packing an item again -/

namespace Item

/-- A single or a double. -/
def IsFloat {π : Type} (i : Item π) : Prop := i.type = .float ∨ i.type = .double

/-- The operations that match the kind of an item that is no float, with what they are given. -/
inductive PackedBy : Item Bytes → Value → Prop
  | nil : PackedBy .nil .nil
  | boolean (b : Bool) : PackedBy (.boolean b) (.boolean b)
  | unsigned (n : Nat) : PackedBy (.positive n) (.unsigned n)
  | positive (n : Nat) : PackedBy (.positive n) (.signed n)
  | negative (n : Int) : PackedBy (.negative n) (.signed n)
  | str (payload : Bytes) : PackedBy (.str payload) (.str payload)
  | bin (payload : Bytes) : PackedBy (.bin payload) (.bin payload)
  | array (size : Nat) : PackedBy (.array size) (.array size)
  | map (size : Nat) : PackedBy (.map size) (.map size)
  | ext (type : Int) (payload : Bytes) : PackedBy (.ext type payload) (.ext type payload)

/-- Some operation matches the item, and all that do write these bytes. -/
def PackedAs (i : Item Bytes) (bytes : List UInt8) : Prop :=
  (∃ v, i.PackedBy v) ∧ ∀ v, i.PackedBy v → v.Packs bytes

theorem PackedBy.frame_eq {i : Item Bytes} {v : Value} (h : i.PackedBy v) :
    v.frame = i.toValue.frame := by
  cases h with
  | unsigned n =>
      have hsigned : Frame.signed n = Frame.unsigned n := by
        rw [Frame.signed, if_pos (Int.natCast_nonneg n)]
      exact hsigned.symm
  | nil | boolean | positive | negative | str | bin | array | map | ext => rfl

theorem packedBy_toValue {i : Item Bytes} (h : ¬ i.IsFloat) : i.PackedBy i.toValue := by
  cases i with
  | float => exact absurd (.inl rfl) h
  | double => exact absurd (.inr rfl) h
  | nil => exact .nil
  | boolean b => exact .boolean b
  | positive n => exact .positive n
  | negative n => exact .negative n
  | str p => exact .str p
  | bin p => exact .bin p
  | array n => exact .array n
  | map n => exact .map n
  | ext t p => exact .ext t p

/-- The encoding of a decoded item denotes it, and is what the item is packed as. -/
theorem denotes_encoding {i : Item Bytes} (h : ¬ i.IsFloat) {bytes : List UInt8}
    (hd : Denotes bytes i) :
    Denotes i.toValue.encoding i ∧ i.PackedAs i.toValue.encoding := by
  have hq : i.isSignalling = false := by
    cases i with
    | float => exact absurd (.inl rfl) h
    | nil | boolean | positive | negative | double | str | bin | array | map | ext => rfl
  obtain ⟨f, hf, hcanonical⟩ := Value.frame_canonical (hd.item?_toValue hq)
  rw [Value.encoding_eq hf]
  refine ⟨hcanonical.denotes, ⟨_, packedBy_toValue h⟩, fun v hv => ?_⟩
  exact Value.packs_of_canonical (hv.frame_eq.trans hf) hcanonical

/-! ### Comparing items -/

section same

variable {a b : Item Bytes}

theorem same_iff_eq (h : ¬ a.IsFloat) : a.same b = true ↔ a = b := by
  cases a with
  | float => exact absurd (.inl rfl) h
  | double => exact absurd (.inr rfl) h
  | nil | boolean | positive | negative | str | bin | array | map | ext => exact decide_eq_true_iff

theorem type_eq_of_same (h : a.same b = true) : a.type = b.type := by
  unfold same at h
  split at h
  · rfl
  · rfl
  · exact congrArg type (of_decide_eq_true h)

theorem exists_of_type_eq_float (h : a.type = .float) : ∃ x, a = .float x := by
  cases a with
  | float x => exact ⟨x, rfl⟩
  | nil | boolean | positive | negative | double | str | bin | array | map | ext => cases h

theorem exists_of_type_eq_double (h : a.type = .double) : ∃ x, a = .double x := by
  cases a with
  | double x => exact ⟨x, rfl⟩
  | nil | boolean | positive | negative | float | str | bin | array | map | ext => cases h

/-- What a float is compared with has to be of the same kind, and then the numbers are compared. -/
theorem same_iff_of_isFloat (h : a.IsFloat ∨ b.IsFloat) :
    a.same b = true ↔ a.type = b.type ∧ ∃ x y, a.value = .float x ∧ b.value = .float y ∧
      (Double.number x).Equal (Double.number y) := by
  by_cases ht : a.type = b.type
  · have ha : a.IsFloat := h.elim id (by rw [IsFloat, ← ht]; exact id)
    rcases ha with ha | ha
    · obtain ⟨x, rfl⟩ := exists_of_type_eq_float ha
      obtain ⟨y, rfl⟩ := exists_of_type_eq_float (ht.symm.trans ha)
      simp [same, value, Double.same_iff, type]
    · obtain ⟨x, rfl⟩ := exists_of_type_eq_double ha
      obtain ⟨y, rfl⟩ := exists_of_type_eq_double (ht.symm.trans ha)
      simp [same, value, Double.same_iff, type]
  · exact iff_of_false (fun hs => ht (type_eq_of_same hs)) fun hs => ht hs.1

end same

end Item

/-- Equality of decoded items is equality on the wire: items other than floats are equal if and only
if they are packed as the same bytes, wherever and in whatever form they were read.  Floats are
equal if they are of one kind and their numbers are equal.  An item other than a float equals the
one that is detached from it, whatever becomes of the buffer. -/
theorem same_iff_packed_alike {σ τ : Type} {c : Context σ} {d : Context τ} {a b : Item Bytes}
    {k l : Nat} (hc : c.Live) (hd : d.Live) (ha : c.Decodes a k) (hb : d.Decodes b l) :
    (¬ a.IsFloat → ¬ b.IsFloat →
      ∃ p q, a.PackedAs p ∧ b.PackedAs q ∧ (a.same b = true ↔ p = q)) ∧
      (a.IsFloat ∨ b.IsFloat → (a.same b = true ↔ a.type = b.type ∧
        ∃ x y, a.value = .float x ∧ b.value = .float y ∧
          (Double.number x).Equal (Double.number y))) ∧
      ∀ (i : Item Span) (now later : Buffer), ¬ i.IsFloat →
        ((i.detach now).resolve later).same (i.resolve now) = true := by
  refine ⟨fun hfa hfb => ?_, Item.same_iff_of_isFloat, fun i now later hi => ?_⟩
  · obtain ⟨p, -, hp, -⟩ := (Context.decodes_iff hc).mp ha
    obtain ⟨q, -, hq, -⟩ := (Context.decodes_iff hd).mp hb
    obtain ⟨hdenotes, hpacked⟩ := Item.denotes_encoding hfa hp
    obtain ⟨hdenotes', hpacked'⟩ := Item.denotes_encoding hfb hq
    refine ⟨_, _, hpacked, hpacked', ?_⟩
    rw [Item.same_iff_eq hfa]
    constructor
    · rintro rfl
      rfl
    · -- no bytes denote two items
      intro heq
      rw [← heq] at hdenotes'
      exact (hdenotes.unique hdenotes' (List.prefix_refl _) (List.prefix_refl _)).2.symm
  · rw [Item.resolve_detach, Item.same_iff_eq]
    simpa only [Item.IsFloat, Item.resolve, Item.type_mapPayload] using hi

/-- A string and a binary with the same payload are not equal, so they are not packed alike. -/
theorem same_iff_packed_alike_kinds :
    ∃ c d : Context Unit, Context.new .unpacker {} #[0xC0, 0xD9, 1, 0x41] 1 none () = .ok c ∧
      Context.new .unpacker {} #[0xC4, 1, 0x41] 0 none () = .ok d ∧ c.Live ∧ d.Live ∧
      c.Decodes (.str #[0x41]) 3 ∧ d.Decodes (.bin #[0x41]) 3 ∧
      ∃ p q, (Item.str #[0x41]).PackedAs p ∧ (Item.bin #[0x41]).PackedAs q ∧ p ≠ q := by
  have hread : ∃ c : Context Unit,
      Context.new .unpacker {} #[0xC0, 0xD9, 1, 0x41] 1 none () = .ok c ∧ c.status = .ok ∧
        c.Decodes (.str #[0x41]) 3 := ⟨_, rfl, rfl, rfl, by cbv, rfl⟩
  have hread' : ∃ d : Context Unit, Context.new .unpacker {} #[0xC4, 1, 0x41] 0 none () = .ok d ∧
      d.status = .ok ∧ d.Decodes (.bin #[0x41]) 3 := ⟨_, rfl, rfl, rfl, by cbv, rfl⟩
  obtain ⟨c, hnew, hs, hdec⟩ := hread
  obtain ⟨d, hnew', hs', hdec'⟩ := hread'
  have hc := Context.live_new hnew hs
  have hd := Context.live_new hnew' hs'
  obtain ⟨p, q, hp, hq, hiff⟩ := (same_iff_packed_alike hc hd hdec hdec').1
    (by rintro (h | h) <;> cases h) (by rintro (h | h) <;> cases h)
  have hne : p ≠ q := fun h => absurd (hiff.mpr h) (by decide)
  exact ⟨c, d, hnew, hnew', hc, hd, hdec, hdec', p, q, hp, hq, hne⟩

end MessagePack
