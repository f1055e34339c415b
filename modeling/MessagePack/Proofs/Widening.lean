import MessagePack.Float.Binary
import Mathlib.Data.Nat.Digits.Defs

/-! # Widening a single and rounding it back

`Single.toDouble` is exact, so rounding its result gives back the single that it came from.
The one exception is a signalling NaN: rounding makes it quiet (`toSingle?_toDouble`).

A double is taken apart into sign, exponent and fraction once (`Double.parts_ofNat`).  The proof
follows the three ranges of the single's exponent: infinities and NaNs, subnormal numbers, which
become normal ones, and normal numbers. -/

namespace MessagePack

theorem roundShift_mul (n shift : Nat) : roundShift (n * 2 ^ shift) shift = n := by
  have hpos := Nat.two_pow_pos shift
  unfold roundShift
  simp only [Nat.pow_eq]
  rw [Nat.mul_mod_left, Nat.mul_div_left _ hpos, if_neg (by omega)]

theorem roundShift_zero (shift : Nat) : roundShift 0 shift = 0 := by
  have h := roundShift_mul 0 shift
  rwa [Nat.zero_mul] at h

namespace Double

theorem parts_ofNat {s e f : Nat} (hs : s < 2) (he : e < 2 ^ 11) (hf : f < 2 ^ 52) :
    sign (.ofNat (s * 2 ^ 63 + (e * 2 ^ 52 + f))) = s ∧
      exponent (.ofNat (s * 2 ^ 63 + (e * 2 ^ 52 + f))) = e ∧
      fraction (.ofNat (s * 2 ^ 63 + (e * 2 ^ 52 + f))) = f := by
  have hlt : s * 2 ^ 63 + (e * 2 ^ 52 + f) < 2 ^ 64 := by omega
  unfold sign exponent fraction
  rw [UInt64.toNat_ofNat_of_lt' hlt]
  simp only [Nat.pow_eq]
  omega

theorem parts_lt (bits : DoubleBits) :
    sign bits < 2 ∧ exponent bits < 2 ^ 11 ∧ fraction bits < 2 ^ 52 := by
  have := bits.toNat_lt
  unfold sign exponent fraction
  simp only [Nat.pow_eq]
  omega

theorem parts_eq (bits : DoubleBits) :
    sign bits * 2 ^ 63 + (exponent bits * 2 ^ 52 + fraction bits) = bits.toNat := by
  have := bits.toNat_lt
  unfold sign exponent fraction
  simp only [Nat.pow_eq]
  omega

/-- A NaN whose quiet bit is clear. -/
def isSignalling (bits : DoubleBits) : Bool := isNaN bits && fraction bits < 2 ^ 51

end Double

namespace Single

/-- A NaN whose quiet bit is clear. -/
def isSignalling (bits : SingleBits) : Bool :=
  exponent bits = 255 && fraction bits ≠ 0 && fraction bits < 2 ^ 22

theorem parts_lt (bits : SingleBits) :
    sign bits < 2 ∧ exponent bits < 256 ∧ fraction bits < 2 ^ 23 := by
  have := bits.toNat_lt
  unfold sign exponent fraction
  simp only [Nat.pow_eq]
  omega

theorem parts_eq (bits : SingleBits) :
    sign bits * 2 ^ 31 + (exponent bits * 2 ^ 23 + fraction bits) = bits.toNat := by
  unfold sign exponent fraction
  simp only [Nat.pow_eq]
  omega

end Single

/-! ### The three ranges -/

section magnitude

variable {e f : Nat}

/-- The magnitude of a double, in its parts, that rounds to the given magnitude of a single. -/
def RoundsTo (m magnitude : Nat) : Prop :=
  ∃ e f, m = e * 2 ^ 52 + f ∧ e < 2 ^ 11 ∧ f < 2 ^ 52 ∧ Double.magnitude? e f = some magnitude

theorem roundsTo_special (hf : f < 2 ^ 23) (h : f = 0 ∨ 2 ^ 22 ≤ f) :
    RoundsTo (Single.magnitude 255 f) (255 * 2 ^ 23 + f) := by
  refine ⟨2047, f * 2 ^ 29, rfl, by decide, by omega, ?_⟩
  unfold Double.magnitude?
  rw [if_pos rfl]
  simp only [Nat.pow_eq]
  obtain rfl | h := h
  · rfl
  · rw [if_neg (by omega)]
    congr 1
    omega

theorem exists_magnitude_subnormal (h : f ≠ 0) (hf : f < 2 ^ 23) :
    ∃ top fraction, top < 23 ∧ fraction < 2 ^ 52 ∧
      Single.magnitude 0 f = (top + 874) * 2 ^ 52 + fraction ∧
      2 ^ 52 + fraction = f * 2 ^ (52 - top) := by
  have hle := Nat.log2_self_le h
  have hlt := Nat.lt_log2_self (n := f)
  have htop : f.log2 < 23 := (Nat.log2_lt h).mpr hf
  have hmagnitude : Single.magnitude 0 f =
      (f.log2 + 874) * 2 ^ 52 + (f - 2 ^ f.log2) * 2 ^ (52 - f.log2) := by
    rw [Single.magnitude, if_neg (by decide), if_pos rfl, if_neg h]
    rfl
  rw [hmagnitude]
  generalize f.log2 = top at hle hlt htop ⊢
  have hsplit : 2 ^ 52 = 2 ^ top * 2 ^ (52 - top) := by
    rw [← Nat.pow_add]
    congr 1
    omega
  refine ⟨top, (f - 2 ^ top) * 2 ^ (52 - top), htop, ?_, rfl, ?_⟩
  · rw [hsplit]
    refine Nat.mul_lt_mul_of_pos_right ?_ (Nat.two_pow_pos _)
    rw [Nat.pow_succ] at hlt
    omega
  · rw [hsplit, ← Nat.add_mul, Nat.add_sub_cancel' hle]

theorem roundsTo_subnormal (hf : f < 2 ^ 23) : RoundsTo (Single.magnitude 0 f) f := by
  by_cases h : f = 0
  · subst h
    refine ⟨0, 0, rfl, by decide, by decide, ?_⟩
    rw [Double.magnitude?, if_neg (by decide), if_pos (by decide), if_pos rfl]
    exact congrArg some (roundShift_zero _)
  · obtain ⟨top, fraction, htop, hfraction, hmagnitude, hwhole⟩ := exists_magnitude_subnormal h hf
    refine ⟨top + 874, fraction, hmagnitude, by omega, hfraction, ?_⟩
    have hmax : 29 + (897 - max (top + 874) 1) = 52 - top := by omega
    have hround : roundShift (2 ^ 52 + fraction) (52 - top) = f := by
      rw [hwhole, roundShift_mul]
    unfold Double.magnitude?
    rw [if_neg (by omega), if_pos (by omega), if_neg (by omega), hmax]
    exact congrArg some hround

theorem roundsTo_normal (he : 0 < e) (he' : e < 255) (hf : f < 2 ^ 23) :
    RoundsTo (Single.magnitude e f) (e * 2 ^ 23 + f) := by
  unfold Single.magnitude
  rw [if_neg (by omega), if_neg (by omega)]
  refine ⟨e + 896, f * 2 ^ 29, rfl, by omega, by omega, ?_⟩
  unfold Double.magnitude?
  simp only [Nat.pow_eq]
  rw [if_neg (by omega), if_neg (by omega), roundShift_mul, Nat.add_sub_cancel,
    if_pos (by omega)]

end magnitude

/-- Rounding gives back a single that was widened, unless it is a signalling NaN. -/
theorem toSingle?_toDouble {bits : SingleBits} (h : Single.isSignalling bits = false) :
    Double.toSingle? (Single.toDouble bits) = some bits := by
  obtain ⟨hs, he, hf⟩ := Single.parts_lt bits
  have hround : RoundsTo (Single.magnitude (Single.exponent bits) (Single.fraction bits))
      (Single.exponent bits * 2 ^ 23 + Single.fraction bits) := by
    have hquiet : Single.exponent bits = 255 →
        Single.fraction bits = 0 ∨ 2 ^ 22 ≤ Single.fraction bits := by
      intro h'
      simp [Single.isSignalling, h'] at h
      omega
    generalize Single.exponent bits = e at *
    obtain rfl | rfl | ⟨h₀, h₁⟩ : e = 255 ∨ e = 0 ∨ 0 < e ∧ e < 255 := by omega
    · exact roundsTo_special hf (hquiet rfl)
    · rw [Nat.zero_mul, Nat.zero_add]
      exact roundsTo_subnormal hf
    · exact roundsTo_normal h₀ h₁ hf
  obtain ⟨e, f, hm, he', hf', hround⟩ := hround
  obtain ⟨h₁, h₂, h₃⟩ := Double.parts_ofNat hs he' hf'
  have hd : Single.toDouble bits = .ofNat (Single.sign bits * 2 ^ 63 + (e * 2 ^ 52 + f)) := by
    rw [← hm]
    rfl
  rw [← hd] at h₁ h₂ h₃
  have hmap : Double.toSingle? (Single.toDouble bits) =
      (Double.magnitude? e f).map fun m => UInt32.ofNat (Single.sign bits * 2 ^ 31 + m) := by
    rw [Double.toSingle?, h₁, h₂, h₃]
    rfl
  rw [hmap, hround, Option.map_some, Single.parts_eq, UInt32.ofNat_toNat]

/-- A signalling NaN is one in both formats. -/
theorem isSignalling_toDouble {bits : SingleBits} (h : Single.isSignalling bits = true) :
    Double.isSignalling (Single.toDouble bits) = true := by
  obtain ⟨hs, -, hf⟩ := Single.parts_lt bits
  simp only [Single.isSignalling, ne_eq, decide_not, Bool.and_eq_true, decide_eq_true_eq,
    Bool.not_eq_true', decide_eq_false_iff_not] at h
  obtain ⟨⟨he, hf₀⟩, hq⟩ := h
  obtain ⟨-, he', hf'⟩ := Double.parts_ofNat hs (e := 2047) (f := Single.fraction bits * 2 ^ 29)
    (by decide) (by omega)
  have hd : Single.toDouble bits =
      .ofNat (Single.sign bits * 2 ^ 63 + (2047 * 2 ^ 52 + Single.fraction bits * 2 ^ 29)) := by
    rw [Single.toDouble, Single.magnitude, if_pos he]
    rfl
  simp only [Double.isSignalling, Double.isNaN, hd, he', hf', ne_eq, decide_not, Bool.and_eq_true,
    decide_eq_true_eq, Bool.not_eq_true', decide_eq_false_iff_not]
  exact ⟨⟨trivial, by omega⟩, by omega⟩

end MessagePack
