import MessagePack.Packer
import MessagePack.Proofs.Scan
import MessagePack.Proofs.Widening

/-! # Encodings are canonical

`Value.item?` is the item that a value stands for on the wire, whatever operation it is packed
with.  Its encoding `Value.frame` denotes this item in the wire format, and no other bytes that
denote it are shorter (`Value.frame_canonical`).

The lengths that the forms of an item can have are read off the table once (`Denotes.takes`).
Each row of the encoder's cascade is then compared with them: a number which needs a field of
`2 ^ (i + 1)` bytes fits no field of `2 ^ i` bytes (`width_le`). -/

namespace MessagePack

open Wire Layout

/-! ### Fields -/

theorem natural_bigEndian {width n : Nat} (h : n < 256 ^ width) :
    natural (bigEndian width n) = n := by
  rw [natural_eq, ofBigEndian_bigEndian_of_lt h]

theorem signed_eq {field : List UInt8} {width n : Nat} (hw : field.length = width)
    (hn : natural field = n) (h : width ≠ 0) : signed field = twosComplement width n := by
  subst hw hn
  exact (twosComplement_eq (List.length_pos_iff.mp (Nat.pos_of_ne_zero h))).symm

/-- A signed field holds as many numbers below zero as others. -/
theorem signed_bounds {field : List UInt8} (h : field ≠ []) :
    -2 ^ (8 * field.length - 1) ≤ signed field ∧ signed field < 2 ^ (8 * field.length - 1) := by
  have hlt := natural_lt field
  have e := pow_eq_two_mul_half (List.length_pos_iff.mpr h).ne'
  rw [← twosComplement_eq h]
  rcases Nat.lt_or_ge (natural field) (2 ^ (8 * field.length - 1)) with h' | h'
  · rw [twosComplement_of_lt h']
    zify at h'
    omega
  · rw [twosComplement_of_le h', e]
    zify at h' hlt e ⊢
    omega

theorem signed_subtypeByte {t : Int} (h : -0x80 ≤ t ∧ t ≤ 0x7F) :
    signed [Frame.subtypeByte t] = t := by
  rw [← twosComplement_one, Frame.subtypeByte, UInt8.toNat_ofNat']
  rcases Int.lt_or_le t 0 with h' | h'
  · rw [twosComplement_of_le (by omega)]
    omega
  · rw [twosComplement_of_lt (by omega)]
    omega

theorem width_le {i j n : Nat} (hn : 256 ^ 2 ^ i ≤ n) (hj : n < 256 ^ 2 ^ j) :
    2 ^ (i + 1) ≤ 2 ^ j := by
  have hlt : i < j := by
    by_contra hij
    have hle : 256 ^ 2 ^ j ≤ 256 ^ 2 ^ i :=
      Nat.pow_le_pow_right (by decide) (Nat.pow_le_pow_right (by decide) (Nat.not_lt.mp hij))
    omega
  exact Nat.pow_le_pow_right (by decide) hlt

theorem width_le_of_neg {i j : Nat} {n : Int} (hn : n < -2 ^ (8 * 2 ^ i - 1))
    (hj : -2 ^ (8 * 2 ^ j - 1) ≤ n) : 2 ^ (i + 1) ≤ 2 ^ j := by
  have hlt : i < j := by
    by_contra hij
    have hle := Nat.pow_le_pow_right (n := 2) (by decide) (Nat.not_lt.mp hij)
    have hle' : (2 : Int) ^ (8 * 2 ^ j - 1) ≤ 2 ^ (8 * 2 ^ i - 1) :=
      pow_le_pow_right₀ (by decide) (by omega)
    omega
  exact Nat.pow_le_pow_right (by decide) hlt

/-! ### The lengths of the forms of an item -/

/-- Some row of the table has a form of `n` bytes for the item. -/
def Item.Takes : Item Bytes → Nat → Prop
  | .nil, n | .boolean _, n => n = 1
  | .positive m, n => n = 1 ∧ m < 0x80 ∨ ∃ i < 4, n = 1 + 2 ^ i ∧ m < 256 ^ 2 ^ i
  | .negative m, n =>
      m < 0 ∧ (n = 1 ∧ -0x20 ≤ m ∨ ∃ i < 4, n = 1 + 2 ^ i ∧ -2 ^ (8 * 2 ^ i - 1) ≤ m)
  | .float x, n => n = 5 ∧ ∃ single, x = Single.toDouble single
  | .double _, n => n = 9
  | .array m, n | .map m, n =>
      n = 1 ∧ m < 0x10 ∨ ∃ i < 2, n = 1 + 2 ^ (i + 1) ∧ m < 256 ^ 2 ^ (i + 1)
  | .str p, n =>
      n = 1 + p.size ∧ p.size < 0x20 ∨ ∃ i < 3, n = 1 + 2 ^ i + p.size ∧ p.size < 256 ^ 2 ^ i
  | .bin p, n => ∃ i < 3, n = 1 + 2 ^ i + p.size ∧ p.size < 256 ^ 2 ^ i
  | .ext t p, n =>
      (-0x80 ≤ t ∧ t ≤ 0x7F) ∧ ((∃ i < 5, n = 2 + p.size ∧ p.size = 2 ^ i) ∨
        ∃ i < 3, n = 2 + 2 ^ i + p.size ∧ p.size < 256 ^ 2 ^ i)

theorem takes_integer {field : List UInt8} {i : Nat} (hi : i < 4) (hw : field.length = 2 ^ i) :
    (Item.integer (signed field)).Takes (1 + 2 ^ i) := by
  have hf : field ≠ [] := by
    rintro rfl
    exact absurd hw.symm (Nat.two_pow_pos _).ne'
  have hb := signed_bounds hf
  have hp := pow_eq_two_mul_half (Nat.two_pow_pos i).ne'
  rw [hw] at hb
  unfold Item.integer
  split_ifs with h
  · refine .inr ⟨i, hi, rfl, ?_⟩
    zify at hp ⊢
    rw [Int.toNat_of_nonneg h, hp]
    omega
  · exact ⟨by omega, .inr ⟨i, hi, rfl, hb.1⟩⟩

theorem Denotes.takes {p : List UInt8} {i : Item Bytes} (h : Denotes p i) : i.Takes p.length := by
  have hfield : ∀ {field : List UInt8} {w : Nat}, field.length = w → natural field < 256 ^ w :=
    fun hw => hw ▸ natural_lt _
  have htype : ∀ type, -0x80 ≤ signed [type] ∧ signed [type] ≤ 0x7F := by
    intro type
    have := signed_bounds (List.cons_ne_nil type [])
    norm_num at this
    omega
  cases h with
  | positiveFixint hn => exact .inl ⟨rfl, hn⟩
  | fixmap hn | fixarray hn => exact .inl ⟨rfl, hn⟩
  | fixstr hn => exact .inl ⟨by simp [Nat.add_comm], hn⟩
  | nil | booleanFalse | booleanTrue => rfl
  | bin hi hw hn => exact ⟨_, hi, by simp [hw]; omega, hn ▸ hfield hw⟩
  | ext hi hw hn => exact ⟨htype _, .inr ⟨_, hi, by simp [hw]; omega, hn ▸ hfield hw⟩⟩
  | float32 hw => exact ⟨by simp [hw], _, rfl⟩
  | float64 hw => exact by simp [Item.Takes, hw]
  | uint hi hw => exact .inr ⟨_, hi, by simp [hw, Nat.add_comm], hfield hw⟩
  | int hi hw =>
      rw [List.length_cons, hw, Nat.add_comm]
      exact takes_integer hi hw
  | fixext hi hn => exact ⟨htype _, .inl ⟨_, hi, by simp; omega, hn⟩⟩
  | str hi hw hn => exact .inr ⟨_, hi, by simp [hw]; omega, hn ▸ hfield hw⟩
  | array hi hw | map hi hw => exact .inr ⟨_, hi, by simp [hw, Nat.add_comm], hfield hw⟩
  | negativeFixint hn => exact ⟨by omega, .inl ⟨rfl, by omega⟩⟩

theorem Item.Takes.pos {i : Item Bytes} {n : Nat} (h : i.Takes n) : 0 < n := by
  cases i with
  | nil | boolean | double => exact h ▸ Nat.succ_pos _
  | float => exact h.1 ▸ Nat.succ_pos _
  | positive | array | map | str => obtain ⟨rfl, -⟩ | ⟨i, -, rfl, -⟩ := h <;> positivity
  | negative => obtain ⟨-, ⟨rfl, -⟩ | ⟨i, -, rfl, -⟩⟩ := h <;> positivity
  | bin =>
      obtain ⟨i, -, rfl, -⟩ := h
      positivity
  | ext => obtain ⟨-, ⟨i, -, rfl, -⟩ | ⟨i, -, rfl, -⟩⟩ := h <;> positivity

/-! ### The encoder's rows -/

/-- The encoding denotes the item, and no form of the item is shorter. -/
structure Frame.Canonical (f : Frame) (i : Item Bytes) : Prop where
  fits : f.value < 256 ^ f.width
  denotes : Denotes f.bytes i
  shortest : ∀ n, i.Takes n → f.size ≤ n

namespace Frame

theorem Canonical.of_tag {tag : Nat} {i : Item Bytes} (h : Denotes [.ofNat tag] i) :
    Canonical { tag } i where
  fits := Nat.one_pos
  denotes := h
  shortest _ hn := hn.pos

/-- An encoding with a field, which denotes the item whatever bytes the field has its value in. -/
theorem Canonical.of_field {f : Frame} {i : Item Bytes} (hn : f.value < 256 ^ f.width)
    (hd : ∀ field, field.length = f.width → natural field = f.value →
      Denotes (.ofNat f.tag :: field ++ f.subtype.toList.map subtypeByte ++ f.payload.toList) i)
    (hs : ∀ n, i.Takes n → f.size ≤ n) : f.Canonical i :=
  ⟨hn, hd _ (length_bigEndian _ _) (natural_bigEndian hn), hs⟩

/-! ### Integers -/

theorem canonical_uint {i n : Nat} (hi : i < 4) (hn : n < 256 ^ 2 ^ i) (h₀ : 0x80 ≤ n)
    (hmin : ∀ j, n < 256 ^ 2 ^ j → 2 ^ i ≤ 2 ^ j) :
    Canonical { tag := 0xCC + i, width := 2 ^ i, value := n } (.positive n) := by
  refine .of_field hn (fun field hw hv => ?_) ?_
  · have h := Denotes.uint hi hw
    rw [hv] at h
    simpa using h
  · show ∀ k, _ → 1 + 2 ^ i ≤ k
    rintro k (⟨rfl, hk⟩ | ⟨j, -, rfl, hj⟩)
    · omega
    · exact Nat.add_le_add_left (hmin j hj) 1

theorem unsigned_canonical {n : Nat} (h : n < 2 ^ 64) :
    ∃ f, unsigned n = .ok f ∧ f.Canonical (.positive n) := by
  unfold unsigned
  split_ifs with h₀ h₁ h₂ h₃ h₄ h₅
  · omega
  · exact ⟨_, rfl, .of_tag (.positiveFixint (by omega))⟩
  · exact ⟨_, rfl, canonical_uint (i := 0) (by decide) (by omega) (by omega)
      fun j _ => Nat.one_le_two_pow⟩
  · exact ⟨_, rfl, canonical_uint (i := 1) (by decide) (by omega) (by omega)
      fun j hj => width_le (i := 0) (by omega) hj⟩
  · exact ⟨_, rfl, canonical_uint (i := 2) (by decide) (by omega) (by omega)
      fun j hj => width_le (i := 1) (by omega) hj⟩
  · exact ⟨_, rfl, canonical_uint (i := 3) (by decide) (by omega) (by omega)
      fun j hj => width_le (i := 2) (by omega) hj⟩
  · omega

theorem canonical_int {i m : Nat} {n : Int} (hi : i < 4) (hm : (m : Int) = n + (256 ^ 2 ^ i : Nat))
    (hn : n < -0x20) (hl : -2 ^ (8 * 2 ^ i - 1) ≤ n)
    (hmin : ∀ j, -2 ^ (8 * 2 ^ j - 1) ≤ n → 2 ^ i ≤ 2 ^ j) :
    Canonical { tag := 0xD0 + i, width := 2 ^ i, value := m } (.negative n) := by
  have hpos := (Nat.two_pow_pos i).ne'
  have e := pow_eq_two_mul_half hpos
  have hle : 2 ^ (8 * 2 ^ i - 1) ≤ m := by
    rw [e] at hm
    zify at hm ⊢
    omega
  have hsigned : twosComplement (2 ^ i) m = n := by
    rw [twosComplement_of_le hle]
    omega
  have hfits : m < 256 ^ 2 ^ i := by omega
  refine .of_field hfits (fun field hw hv => ?_) ?_
  · have h := Denotes.int hi hw
    rw [signed_eq hw hv hpos, hsigned, Item.integer, if_neg (by omega)] at h
    simpa using h
  · show ∀ k, _ → 1 + 2 ^ i ≤ k
    rintro k ⟨-, ⟨rfl, hk⟩ | ⟨j, -, rfl, hj⟩⟩
    · omega
    · exact Nat.add_le_add_left (hmin j hj) 1

theorem signed_canonical {n : Int} (h : -2 ^ 63 ≤ n) (h' : n < 2 ^ 64) :
    ∃ f, signed n = .ok f ∧ f.Canonical (.integer n) := by
  unfold signed Item.integer
  split_ifs with h₀ h₁ h₂ h₃ h₄ h₅
  · obtain ⟨n, rfl⟩ := Int.eq_ofNat_of_zero_le h₀
    exact unsigned_canonical (by omega)
  · have e : n = ((n + 0x20).toNat : Int) - 0x20 := by omega
    have e' : (n + 0x100).toNat = 0xE0 + (n + 0x20).toNat := by omega
    have hd := Denotes.negativeFixint (n := (n + 0x20).toNat) (by omega)
    rw [← e, ← e'] at hd
    exact ⟨_, rfl, .of_tag hd⟩
  · exact ⟨_, rfl, canonical_int (i := 0) (by decide) (by omega) (by omega) (by omega)
      fun j _ => Nat.one_le_two_pow⟩
  · exact ⟨_, rfl, canonical_int (i := 1) (by decide) (by omega) (by omega) (by omega)
      fun j hj => width_le_of_neg (i := 0) (by omega) hj⟩
  · exact ⟨_, rfl, canonical_int (i := 2) (by decide) (by omega) (by omega) (by omega)
      fun j hj => width_le_of_neg (i := 1) (by omega) hj⟩
  · exact ⟨_, rfl, canonical_int (i := 3) (by decide) (by omega) (by omega) (by omega)
      fun j hj => width_le_of_neg (i := 2) (by omega) hj⟩
  · omega

/-! ### Counts -/

theorem checkLength_natCast {n : Nat} (h : n < 2 ^ 32) : checkLength n = .ok n := by
  rw [checkLength, if_neg (by omega), if_neg (by omega), Int.toNat_natCast]

/-- The rows of arrays and of maps differ in their tags only: those of one byte start at `short`,
the two with a field at `first`. -/
theorem canonical_count (short first : Nat) {n : Nat} {item : Item Bytes} (h : n < 2 ^ 32)
    (hs : n < 0x10 → Denotes [.ofNat (short + n)] item)
    (hd : ∀ i < 2, ∀ field, field.length = 2 ^ (i + 1) → natural field = n →
      Denotes (.ofNat (first + i) :: field) item)
    (ht : ∀ k, item.Takes k →
      k = 1 ∧ n < 0x10 ∨ ∃ i < 2, k = 1 + 2 ^ (i + 1) ∧ n < 256 ^ 2 ^ (i + 1)) :
    ∃ f, (if n < 0x10 then .ok { tag := short + n }
        else if n ≤ 0xFFFF then .ok { tag := first, width := 2, value := n }
        else .ok { tag := first + 1, width := 4, value := n } : Except Fault Frame) = .ok f ∧
      f.Canonical item := by
  have hrow : ∀ i < 2, n < 256 ^ 2 ^ (i + 1) → 0x10 ≤ n →
      (∀ j, n < 256 ^ 2 ^ (j + 1) → 2 ^ (i + 1) ≤ 2 ^ (j + 1)) →
      Canonical { tag := first + i, width := 2 ^ (i + 1), value := n } item := by
    intro i hi hn h₀ hmin
    refine .of_field hn (fun field hw hv => by simpa using hd i hi field hw hv) ?_
    show ∀ k, _ → 1 + 2 ^ (i + 1) ≤ k
    intro k hk
    obtain ⟨rfl, hk⟩ | ⟨j, -, rfl, hj⟩ := ht k hk
    · omega
    · exact Nat.add_le_add_left (hmin j hj) 1
  split_ifs with h₀ h₁
  · exact ⟨_, rfl, .of_tag (hs h₀)⟩
  · exact ⟨_, rfl, hrow 0 (by decide) (by omega) (by omega)
      fun j _ => Nat.pow_le_pow_right (by decide) (by omega)⟩
  · exact ⟨_, rfl, hrow 1 (by decide) (by omega) (by omega)
      fun j hj => width_le (i := 1) (by omega) hj⟩

theorem array_canonical {n : Nat} (h : n < 2 ^ 32) :
    ∃ f, array n = .ok f ∧ f.Canonical (.array n) := by
  rw [array, checkLength_natCast h]
  exact canonical_count 0x90 0xDC h .fixarray (fun i hi field hw hv => hv ▸ .array hi hw)
    fun _ hk => hk

theorem map_canonical {n : Nat} (h : n < 2 ^ 32) :
    ∃ f, map n = .ok f ∧ f.Canonical (.map n) := by
  rw [map, checkLength_natCast h]
  exact canonical_count 0x80 0xDE h .fixmap (fun i hi field hw hv => hv ▸ .map hi hw)
    fun _ hk => hk

/-! ### Payloads -/

section payload

variable {payload : Bytes}

/-- The rows with a length field, of one, two and four bytes, have the tags from `first` on. -/
theorem canonical_length (first : Nat) (subtype : Option Int) {item : Item Bytes}
    (h : payload.size < 2 ^ 32)
    (hd : ∀ i < 3, ∀ field, field.length = 2 ^ i → natural field = payload.size →
      Denotes
        (.ofNat (first + i) :: field ++ subtype.toList.map subtypeByte ++ payload.toList) item)
    (ht : ∀ k, item.Takes k →
      ∃ i, k = 1 + 2 ^ i + (if subtype.isSome then 1 else 0) + payload.size ∧
        payload.size < 256 ^ 2 ^ i) :
    ∃ f, (if payload.size ≤ 0xFF then
          .ok { tag := first, width := 1, value := payload.size, subtype, payload }
        else if payload.size ≤ 0xFFFF then
          .ok { tag := first + 1, width := 2, value := payload.size, subtype, payload }
        else .ok { tag := first + 2, width := 4, value := payload.size, subtype, payload } :
          Except Fault Frame) = .ok f ∧ f.Canonical item := by
  have hrow : ∀ i < 3, payload.size < 256 ^ 2 ^ i →
      (∀ j, payload.size < 256 ^ 2 ^ j → 2 ^ i ≤ 2 ^ j) →
      Canonical { tag := first + i, width := 2 ^ i, value := payload.size, subtype, payload }
        item := by
    intro i hi hn hmin
    refine .of_field hn (fun field hw hv => hd i hi field hw hv) ?_
    show ∀ k, _ → 1 + 2 ^ i + (if subtype.isSome then 1 else 0) + payload.size ≤ k
    intro k hk
    obtain ⟨j, rfl, hj⟩ := ht k hk
    have := hmin j hj
    omega
  split_ifs with h₀ h₁
  · exact ⟨_, rfl, hrow 0 (by decide) (by omega) fun j _ => Nat.one_le_two_pow⟩
  · exact ⟨_, rfl, hrow 1 (by decide) (by omega) fun j hj => width_le (i := 0) (by omega) hj⟩
  · exact ⟨_, rfl, hrow 2 (by decide) (by omega) fun j hj => width_le (i := 1) (by omega) hj⟩

theorem str_canonical (h : payload.size < 2 ^ 32) :
    ∃ f, str payload = .ok f ∧ f.Canonical (.str payload) := by
  rw [str, checkLength_natCast h]
  simp only [Bind.bind, Except.bind]
  by_cases h₀ : payload.size < 0x20
  · rw [if_pos h₀]
    refine ⟨_, rfl, .of_field Nat.one_pos (fun field hw _ => ?_) ?_⟩
    · obtain rfl := List.length_eq_zero_iff.mp hw
      simpa using Denotes.fixstr h₀
    · show ∀ k, _ → 1 + 0 + 0 + payload.size ≤ k
      rintro k (⟨rfl, -⟩ | ⟨j, -, rfl, -⟩)
      · omega
      · have := Nat.two_pow_pos j
        omega
  · rw [if_neg h₀]
    refine canonical_length 0xD9 none h (fun i hi field hw hv => ?_) ?_
    · simpa using Denotes.str hi hw hv
    · rintro k (⟨-, hk⟩ | ⟨j, -, rfl, hj⟩)
      · exact absurd hk h₀
      · exact ⟨j, rfl, hj⟩

theorem bin_canonical (h : payload.size < 2 ^ 32) :
    ∃ f, bin payload = .ok f ∧ f.Canonical (.bin payload) := by
  rw [bin, checkLength_natCast h]
  refine canonical_length 0xC4 none h (fun i hi field hw hv => ?_) ?_
  · simpa using Denotes.bin hi hw hv
  · rintro k ⟨j, -, rfl, hj⟩
    exact ⟨j, rfl, hj⟩

theorem fixExtTag?_eq_some {n tag : Nat} (h : fixExtTag? n = some tag) :
    ∃ i < 5, n = 2 ^ i ∧ tag = 0xD4 + i := by
  unfold fixExtTag? at h
  split at h
  · exact ⟨0, by decide, rfl, (Option.some.inj h).symm⟩
  · exact ⟨1, by decide, rfl, (Option.some.inj h).symm⟩
  · exact ⟨2, by decide, rfl, (Option.some.inj h).symm⟩
  · exact ⟨3, by decide, rfl, (Option.some.inj h).symm⟩
  · exact ⟨4, by decide, rfl, (Option.some.inj h).symm⟩
  · exact absurd h (by simp)

theorem fixExtTag?_two_pow {i : Nat} (h : i < 5) : fixExtTag? (2 ^ i) = some (0xD4 + i) := by
  interval_cases i <;> rfl

theorem ext_canonical {type : Int} (ht : -0x80 ≤ type ∧ type ≤ 0x7F)
    (h : payload.size < 2 ^ 32) :
    ∃ f, ext type payload = .ok f ∧ f.Canonical (.ext type payload) := by
  have hbyte := signed_subtypeByte ht
  rw [ext, checkLength_natCast h, if_neg (by omega)]
  simp only [Bind.bind, Except.bind, Pure.pure, Except.pure]
  cases htag : fixExtTag? payload.size with
  | some tag =>
      obtain ⟨i, hi, hn, rfl⟩ := fixExtTag?_eq_some htag
      refine ⟨_, rfl, .of_field Nat.one_pos (fun field hw _ => ?_) ?_⟩
      · obtain rfl := List.length_eq_zero_iff.mp hw
        have hd : Denotes _ (.ext (Wire.signed [subtypeByte type]) _) := .fixext hi hn
        rw [hbyte] at hd
        simpa using hd
      · show ∀ k, _ → 1 + 0 + 1 + payload.size ≤ k
        rintro k ⟨-, ⟨j, -, rfl, -⟩ | ⟨j, -, rfl, -⟩⟩
        · omega
        · have := Nat.two_pow_pos j
          omega
  | none =>
      refine canonical_length 0xC7 (some type) h (fun i hi field hw hv => ?_) ?_
      · have hd : Denotes _ (.ext (Wire.signed [subtypeByte type]) _) := .ext hi hw hv
        rw [hbyte] at hd
        simpa using hd
      · rintro k ⟨-, ⟨j, hj, -, hk⟩ | ⟨j, -, rfl, hj⟩⟩
        · rw [hk, fixExtTag?_two_pow hj] at htag
          exact absurd htag (by simp)
        · refine ⟨j, ?_, hj⟩
          rw [if_pos Option.isSome_some]
          omega

end payload

/-! ### Floats -/

theorem float_canonical {bits : DoubleBits} {single : SingleBits}
    (h : Double.toSingle? bits = some single) :
    ∃ f, float bits = .ok f ∧ f.Canonical (.float (Single.toDouble single)) := by
  rw [float, ByteOrder.singlePattern, h]
  refine ⟨_, rfl, .of_field (f := { tag := 0xCA, width := 4, value := single.toNat })
    single.toNat_lt (fun field hw hv => ?_) ?_⟩
  · have hd := Denotes.float32 hw
    rw [hv, UInt32.ofNat_toNat] at hd
    simpa using hd
  · rintro k ⟨rfl, -⟩
    exact Nat.le_refl _

theorem double_canonical (bits : DoubleBits) : (double bits).Canonical (.double bits) := by
  refine .of_field (f := { tag := 0xCB, width := 8, value := bits.toNat }) bits.toNat_lt
    (fun field hw hv => ?_) ?_
  · have hd := Denotes.float64 hw
    rw [hv, UInt64.ofNat_toNat] at hd
    simpa using hd
  · rintro k rfl
    exact Nat.le_refl _

end Frame

/-! ### All values -/

namespace Value

/-- The item that a value stands for on the wire, if it has an encoding. -/
def item? : Value → Option (Item Bytes)
  | unsigned n => if 0 ≤ n ∧ n < 2 ^ 64 then some (.positive n.toNat) else none
  | signed n => if -2 ^ 63 ≤ n ∧ n < 2 ^ 64 then some (.integer n) else none
  | float bits => (Double.toSingle? bits).map fun single => .float (Single.toDouble single)
  | double bits => some (.double bits)
  | nil => some .nil
  | boolean b => some (.boolean b)
  | array n => if 0 ≤ n ∧ n < 2 ^ 32 then some (.array n.toNat) else none
  | map n => if 0 ≤ n ∧ n < 2 ^ 32 then some (.map n.toNat) else none
  | str payload => if payload.size < 2 ^ 32 then some (.str payload) else none
  | bin payload => if payload.size < 2 ^ 32 then some (.bin payload) else none
  | ext type payload =>
      if (-0x80 ≤ type ∧ type ≤ 0x7F) ∧ payload.size < 2 ^ 32 then some (.ext type payload)
      else none

/-- The encoding of a value is the shortest that denotes its item. -/
theorem frame_canonical {v : Value} {i : Item Bytes} (h : v.item? = some i) :
    ∃ f, v.frame = .ok f ∧ f.Canonical i := by
  cases v with
  | unsigned n =>
      obtain ⟨⟨h₀, h₁⟩, ⟨⟩⟩ := Option.ite_none_right_eq_some.mp h
      obtain ⟨n, rfl⟩ := Int.eq_ofNat_of_zero_le h₀
      exact Frame.unsigned_canonical (by omega)
  | signed n =>
      obtain ⟨⟨h₀, h₁⟩, ⟨⟩⟩ := Option.ite_none_right_eq_some.mp h
      exact Frame.signed_canonical h₀ h₁
  | float bits =>
      obtain ⟨single, hs, rfl⟩ := Option.map_eq_some_iff.mp h
      exact Frame.float_canonical hs
  | double bits =>
      obtain rfl := Option.some.inj h
      exact ⟨_, rfl, Frame.double_canonical bits⟩
  | nil =>
      obtain rfl := Option.some.inj h
      exact ⟨_, rfl, .of_tag .nil⟩
  | boolean b =>
      obtain rfl := Option.some.inj h
      cases b with
      | false => exact ⟨_, rfl, .of_tag .booleanFalse⟩
      | true => exact ⟨_, rfl, .of_tag .booleanTrue⟩
  | array n =>
      obtain ⟨⟨h₀, h₁⟩, ⟨⟩⟩ := Option.ite_none_right_eq_some.mp h
      obtain ⟨n, rfl⟩ := Int.eq_ofNat_of_zero_le h₀
      exact Frame.array_canonical (by omega)
  | map n =>
      obtain ⟨⟨h₀, h₁⟩, ⟨⟩⟩ := Option.ite_none_right_eq_some.mp h
      obtain ⟨n, rfl⟩ := Int.eq_ofNat_of_zero_le h₀
      exact Frame.map_canonical (by omega)
  | str payload =>
      obtain ⟨hn, ⟨⟩⟩ := Option.ite_none_right_eq_some.mp h
      exact Frame.str_canonical hn
  | bin payload =>
      obtain ⟨hn, ⟨⟩⟩ := Option.ite_none_right_eq_some.mp h
      exact Frame.bin_canonical hn
  | ext type payload =>
      obtain ⟨⟨ht, hn⟩, ⟨⟩⟩ := Option.ite_none_right_eq_some.mp h
      exact Frame.ext_canonical ht hn

end Value

/-! ### Decoded items -/

namespace Item

/-- The value that packs an item again, with the operation that matches its kind. -/
def toValue : Item Bytes → Value
  | nil => .nil
  | boolean b => .boolean b
  | positive n => .signed n
  | negative n => .signed n
  | float x => .float x
  | double x => .double x
  | str p => .str p
  | bin p => .bin p
  | array n => .array n
  | map n => .map n
  | ext t p => .ext t p

/-- A single that is a signalling NaN. -/
def isSignalling : Item Bytes → Bool
  | float x => Double.isSignalling x
  | _ => false

end Item

/-- What is on the wire can be packed again as it is, except for a signalling NaN. -/
theorem Denotes.item?_toValue {p : List UInt8} {x : Item Bytes} (h : Denotes p x)
    (hx : x.isSignalling = false) : x.toValue.item? = some x := by
  have ht := h.takes
  -- no field of a count or a length has more than 4 bytes, and none has more than 8
  have hcount : ∀ {n i : Nat}, i < 3 → n < 256 ^ 2 ^ i → n < 2 ^ 32 := by
    intro n i hi hn
    interval_cases i <;> omega
  have hnumber : ∀ {n i : Nat}, i < 4 → n < 256 ^ 2 ^ i → n < 2 ^ 64 := by
    intro n i hi hn
    interval_cases i <;> omega
  cases x with
  | nil | boolean | double => rfl
  | positive n =>
      have hn : n < 2 ^ 64 := by
        obtain ⟨-, hn⟩ | ⟨i, hi, -, hn⟩ := ht
        · omega
        · exact hnumber hi hn
      rw [Item.toValue, Value.item?, if_pos ⟨by omega, by omega⟩, Item.integer, if_pos (by omega),
        Int.toNat_natCast]
  | negative n =>
      obtain ⟨hneg, ht⟩ := ht
      have hn : -2 ^ 63 ≤ n := by
        obtain ⟨-, hn⟩ | ⟨i, hi, -, hn⟩ := ht
        · omega
        · interval_cases i <;> omega
      rw [Item.toValue, Value.item?, if_pos ⟨hn, by omega⟩, Item.integer, if_neg (by omega)]
  | float bits =>
      obtain ⟨-, single, rfl⟩ := ht
      have hs : Single.isSignalling single = false := by
        by_contra hs
        rw [Bool.not_eq_false] at hs
        rw [Item.isSignalling, isSignalling_toDouble hs] at hx
        exact absurd hx (by decide)
      rw [Item.toValue, Value.item?, toSingle?_toDouble hs, Option.map_some]
  | array n | map n =>
      have hn : n < 2 ^ 32 := by
        obtain ⟨-, hn⟩ | ⟨i, hi, -, hn⟩ := ht
        · omega
        · exact hcount (Nat.succ_lt_succ hi) hn
      rw [Item.toValue, Value.item?, if_pos ⟨by omega, by omega⟩, Int.toNat_natCast]
  | str payload =>
      obtain ⟨-, hn⟩ | ⟨i, hi, -, hn⟩ := ht
      · exact if_pos (by omega)
      · exact if_pos (hcount hi hn)
  | bin payload =>
      obtain ⟨i, hi, -, hn⟩ := ht
      exact if_pos (hcount hi hn)
  | ext type payload =>
      obtain ⟨ht, ⟨i, hi, -, hn⟩ | ⟨i, hi, -, hn⟩⟩ := ht
      · have hle : 2 ^ i ≤ 2 ^ 4 := Nat.pow_le_pow_right (by decide) (by omega)
        exact if_pos ⟨ht, by omega⟩
      · exact if_pos ⟨ht, hcount hi hn⟩

end MessagePack
