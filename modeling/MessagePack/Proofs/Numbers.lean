import MessagePack.Proofs.Widening
import Mathlib.Order.Monotone.Basic

/-! # The numbers that bits stand for

The bits of a float are a sign and a magnitude.  They stand for a `Number`: a NaN with its payload,
an infinity, or a finite number, which is a multiple of `2 ^ -1074`, the smallest double above zero.
Doubles and singles differ in their `Format` only.

From one magnitude to the next the number grows by a power of two that the exponent tells
(`Format.units_succ`), so the finite numbers of a format come in the order of their magnitudes.
Widening a single keeps its number (`Single.number_toDouble`), and doubles compare as their numbers
(`Double.same_iff`). -/

namespace MessagePack

/-- What the bits of a float stand for. -/
inductive Number
  /-- So many units of `2 ^ -1074`. -/
  | finite (negative : Bool) (units : Nat)
  | infinite (negative : Bool)
  /-- A NaN with its payload, in the 52 bits that it has in a double. -/
  | nan (negative : Bool) (payload : Nat)
  deriving DecidableEq, Repr

namespace Number

/-- A number of units with its sign. -/
def signed (negative : Bool) (units : Nat) : Int := if negative then -units else units

/-- Equality of numbers: NaN equals nothing, and the two zeros are equal. -/
inductive Equal : Number → Number → Prop
  | infinite (negative : Bool) : Equal (.infinite negative) (.infinite negative)
  | finite {p q : Bool} {m n : Nat} (h : signed p m = signed q n) :
      Equal (.finite p m) (.finite q n)

@[simp] theorem equal_infinite {p q : Bool} : Equal (.infinite p) (.infinite q) ↔ p = q :=
  ⟨by rintro ⟨⟩; rfl, by rintro rfl; exact .infinite p⟩

@[simp] theorem equal_finite {p q : Bool} {m n : Nat} :
    Equal (.finite p m) (.finite q n) ↔ signed p m = signed q n :=
  ⟨by rintro ⟨⟩; assumption, .finite⟩

@[simp] theorem not_equal_infinite_finite {p q : Bool} {n : Nat} :
    ¬ Equal (.infinite p) (.finite q n) := nofun

@[simp] theorem not_equal_finite_infinite {p q : Bool} {m : Nat} :
    ¬ Equal (.finite p m) (.infinite q) := nofun

@[simp] theorem not_equal_nan {p : Bool} {m : Nat} {x : Number} : ¬ Equal (.nan p m) x := nofun

@[simp] theorem not_equal_nan_right {q : Bool} {n : Nat} {x : Number} : ¬ Equal x (.nan q n) :=
  nofun

theorem signed_eq_signed_iff {p q : Bool} {m n : Nat} :
    signed p m = signed q n ↔ m = n ∧ (p = q ∨ m = 0) := by
  cases p <;> cases q <;> simp [signed] <;> omega

end Number

/-! ### Formats -/

/-- A format of floats: the bits of a fraction, the exponent of infinities and NaNs, and the number
of units in its smallest number, as a power of two. -/
structure Format where
  width : Nat
  top : Nat
  scale : Nat

namespace Format

/-- The format of doubles. -/
def double : Format := ⟨52, 2047, 0⟩

/-- The format of singles, whose smallest number is `2 ^ -149`. -/
def single : Format := ⟨23, 255, 925⟩

theorem scale_double : double.scale = 0 := rfl

theorem scale_single : single.scale = 925 := rfl

/-- The power of two that a significand with this exponent counts. -/
def power (f : Format) (exponent : Nat) : Nat := max exponent 1 - 1 + f.scale

/-- The units of a finite number with this magnitude.  Its exponent is what stands above the
fraction, and there is a hidden bit unless that is zero. -/
def units (f : Format) (magnitude : Nat) : Nat :=
  let exponent := magnitude / 2 ^ f.width
  let fraction := magnitude % 2 ^ f.width
  (if exponent = 0 then fraction else 2 ^ f.width + fraction) * 2 ^ f.power exponent

/-- What a sign and a magnitude stand for. -/
def number (f : Format) (negative : Bool) (magnitude : Nat) : Number :=
  let fraction := magnitude % 2 ^ f.width
  if magnitude / 2 ^ f.width = f.top then
    if fraction = 0 then .infinite negative else .nan negative (fraction * 2 ^ (52 - f.width))
  else .finite negative (f.units magnitude)

variable {f : Format}

theorem div_two_pow {width e r : Nat} (hr : r < 2 ^ width) :
    (e * 2 ^ width + r) / 2 ^ width = e := by
  rw [Nat.mul_comm, Nat.mul_add_div (Nat.two_pow_pos width), Nat.div_eq_of_lt hr, Nat.add_zero]

theorem mod_two_pow {width e r : Nat} (hr : r < 2 ^ width) :
    (e * 2 ^ width + r) % 2 ^ width = r := by
  rw [Nat.mul_comm, Nat.mul_add_mod, Nat.mod_eq_of_lt hr]

theorem power_zero : f.power 0 = f.scale := Nat.zero_add _

theorem power_of_pos {e : Nat} (he : 0 < e) : f.power e = e - 1 + f.scale := by
  rw [power, max_eq_left he]

theorem units_parts (f : Format) (e : Nat) {r : Nat} (hr : r < 2 ^ f.width) :
    f.units (e * 2 ^ f.width + r) = (if e = 0 then r else 2 ^ f.width + r) * 2 ^ f.power e := by
  rw [units, div_two_pow hr, mod_two_pow hr]

theorem units_of_lt {r : Nat} (hr : r < 2 ^ f.width) : f.units r = r * 2 ^ f.scale := by
  have hparts := f.units_parts 0 hr
  rwa [Nat.zero_mul, Nat.zero_add, if_pos rfl, power_zero] at hparts

theorem units_of_pos {e r : Nat} (he : 0 < e) (hr : r < 2 ^ f.width) :
    f.units (e * 2 ^ f.width + r) = (2 ^ f.width + r) * 2 ^ (e - 1 + f.scale) := by
  rw [f.units_parts e hr, if_neg (Nat.ne_of_gt he), power_of_pos he]

theorem units_succ (magnitude : Nat) :
    f.units (magnitude + 1) = f.units magnitude + 2 ^ f.power (magnitude / 2 ^ f.width) := by
  have hpos := Nat.two_pow_pos f.width
  obtain ⟨e, r, hr, rfl⟩ : ∃ e r, r < 2 ^ f.width ∧ magnitude = e * 2 ^ f.width + r :=
    ⟨_, _, Nat.mod_lt _ hpos, (Nat.div_add_mod' _ _).symm⟩
  rw [div_two_pow hr]
  rcases Nat.eq_zero_or_pos e with rfl | he
  · rw [Nat.zero_mul, Nat.zero_add, units_of_lt hr, power_zero, ← Nat.succ_mul]
    rcases Nat.lt_or_ge (r + 1) (2 ^ f.width) with hnext | hlast
    · rw [units_of_lt hnext]
    · -- the first normal number comes right after the last subnormal one
      have hone : r + 1 = 1 * 2 ^ f.width + 0 := by omega
      rw [hone, units_of_pos Nat.one_pos hpos, Nat.sub_self, Nat.zero_add, Nat.succ_eq_add_one,
        hone, Nat.one_mul]
  · rw [units_of_pos he hr, power_of_pos he, ← Nat.succ_mul]
    rcases Nat.lt_or_ge (r + 1) (2 ^ f.width) with hnext | hlast
    · rw [Nat.add_assoc, units_of_pos he hnext]
      rfl
    · have hcarry : e * 2 ^ f.width + r + 1 = (e + 1) * 2 ^ f.width + 0 := by
        rw [Nat.succ_mul]
        omega
      have hdouble : 2 ^ (e + 1 - 1 + f.scale) = 2 * 2 ^ (e - 1 + f.scale) := by
        rw [← Nat.pow_succ']
        congr 1
        omega
      have hwhole : (2 ^ f.width + r).succ = 2 ^ f.width * 2 := by omega
      rw [hcarry, units_of_pos (Nat.succ_pos e) hpos, hdouble, hwhole, Nat.add_zero, Nat.mul_assoc]

theorem strictMono_units (f : Format) : StrictMono f.units := by
  apply strictMono_nat_of_lt_succ
  intro magnitude
  rw [units_succ]
  exact Nat.lt_add_of_pos_right (Nat.two_pow_pos _)

theorem units_eq_zero_iff {magnitude : Nat} : f.units magnitude = 0 ↔ magnitude = 0 := by
  have hzero : f.units 0 = 0 := by rw [units_of_lt (Nat.two_pow_pos _), Nat.zero_mul]
  exact f.strictMono_units.injective.eq_iff' hzero

theorem number_top (f : Format) (negative : Bool) {r : Nat} (hr : r < 2 ^ f.width) :
    f.number negative (f.top * 2 ^ f.width + r) =
      if r = 0 then .infinite negative else .nan negative (r * 2 ^ (52 - f.width)) := by
  rw [number, div_two_pow hr, mod_two_pow hr, if_pos rfl]

theorem number_of_ne (negative : Bool) {magnitude : Nat} (h : magnitude / 2 ^ f.width ≠ f.top) :
    f.number negative magnitude = .finite negative (f.units magnitude) := if_neg h

end Format

/-! ### Doubles and singles -/

namespace Double

/-- What the bits of a double stand for. -/
def number (bits : DoubleBits) : Number :=
  Format.double.number (sign bits = 1) (exponent bits * 2 ^ 52 + fraction bits)

theorem number_of_special {bits : DoubleBits} (h : exponent bits = 2047) :
    number bits =
      if fraction bits = 0 then .infinite (sign bits = 1)
      else .nan (sign bits = 1) (fraction bits) := by
  have htop := Format.double.number_top (sign bits = 1) (parts_lt bits).2.2
  rw [show 2 ^ (52 - Format.double.width) = 1 from rfl, Nat.mul_one] at htop
  rw [number, h]
  exact htop

theorem number_of_finite {bits : DoubleBits} (h : exponent bits ≠ 2047) :
    number bits = .finite (sign bits = 1)
      (Format.double.units (exponent bits * 2 ^ 52 + fraction bits)) :=
  Format.number_of_ne _ ((Format.div_two_pow (parts_lt bits).2.2).trans_ne h)

theorem number_ofNat {s magnitude : Nat} (hs : s < 2) (hm : magnitude < 2 ^ 63) :
    number (.ofNat (s * 2 ^ 63 + magnitude)) = Format.double.number (s = 1) magnitude := by
  have hpos := Nat.two_pow_pos 52
  obtain ⟨e, r, hr, rfl⟩ : ∃ e r, r < 2 ^ 52 ∧ magnitude = e * 2 ^ 52 + r :=
    ⟨_, _, Nat.mod_lt _ hpos, (Nat.div_add_mod' _ _).symm⟩
  obtain ⟨hsign, hexponent, hfraction⟩ := parts_ofNat hs (e := e) (by omega) hr
  rw [number, hsign, hexponent, hfraction]

end Double

namespace Single

/-- What the bits of a single stand for. -/
def number (bits : SingleBits) : Number :=
  Format.single.number (sign bits = 1) (exponent bits * 2 ^ 23 + fraction bits)

theorem number_of_special {bits : SingleBits} (h : exponent bits = 255) :
    number bits =
      if fraction bits = 0 then .infinite (sign bits = 1)
      else .nan (sign bits = 1) (fraction bits * 2 ^ 29) := by
  rw [number, h]
  exact Format.single.number_top _ (parts_lt bits).2.2

theorem number_of_finite {bits : SingleBits} (h : exponent bits ≠ 255) :
    number bits = .finite (sign bits = 1)
      (Format.single.units (exponent bits * 2 ^ 23 + fraction bits)) :=
  Format.number_of_ne _ ((Format.div_two_pow (parts_lt bits).2.2).trans_ne h)

theorem number_ofNat {s magnitude : Nat} (hs : s < 2) (hm : magnitude < 2 ^ 31) :
    number (.ofNat (s * 2 ^ 31 + magnitude)) = Format.single.number (s = 1) magnitude := by
  have hlt : s * 2 ^ 31 + magnitude < 2 ^ 32 := by omega
  have hsign : sign (.ofNat (s * 2 ^ 31 + magnitude)) = s := by
    rw [sign, UInt32.toNat_ofNat_of_lt' hlt]
    simp only [Nat.pow_eq]
    omega
  have hmagnitude : exponent (.ofNat (s * 2 ^ 31 + magnitude)) * 2 ^ 23 +
      fraction (.ofNat (s * 2 ^ 31 + magnitude)) = magnitude := by
    rw [exponent, fraction, UInt32.toNat_ofNat_of_lt' hlt]
    simp only [Nat.pow_eq]
    omega
  rw [number, hsign, hmagnitude]

theorem exists_magnitude {bits : SingleBits} {negative : Bool} {units : Nat}
    (h : number bits = .finite negative units) : ∃ m, units = Format.single.units m := by
  by_cases hspecial : exponent bits = 255
  · rw [number_of_special hspecial] at h
    split_ifs at h
  · rw [number_of_finite hspecial] at h
    cases h
    exact ⟨_, rfl⟩

/-! ### Widening -/

section widening

variable {negative : Bool} {e f : Nat}

theorem number_magnitude_special (hf : f < 2 ^ 23) :
    Format.double.number negative (magnitude 255 f) =
      Format.single.number negative (255 * 2 ^ 23 + f) := by
  have hwide : f * 2 ^ 29 < 2 ^ 52 := by omega
  have hzero : f * 2 ^ 29 = 0 ↔ f = 0 := by omega
  have hdouble := Format.double.number_top negative hwide
  rw [show 2 ^ (52 - Format.double.width) = 1 from rfl, Nat.mul_one] at hdouble
  rw [magnitude, if_pos rfl]
  refine hdouble.trans (.trans ?_ (Format.single.number_top negative hf).symm)
  simp only [hzero]
  rfl

theorem units_magnitude_subnormal (hf : f < 2 ^ 23) :
    Format.double.units (magnitude 0 f) = Format.single.units f := by
  rw [Format.single.units_of_lt hf]
  by_cases h : f = 0
  · subst h
    rw [Nat.zero_mul]
    exact Format.units_eq_zero_iff.mpr rfl
  · obtain ⟨top, fraction, htop, hfraction, hmagnitude, hwhole⟩ := exists_magnitude_subnormal h hf
    have hunits := Format.double.units_of_pos (e := top + 874) (by omega) hfraction
    have hpower : 52 - top + (top + 874 - 1 + Format.double.scale) = Format.single.scale := by
      rw [Format.scale_double, Format.scale_single]
      omega
    rw [hmagnitude]
    refine hunits.trans ?_
    rw [show 2 ^ Format.double.width + fraction = f * 2 ^ (52 - top) from hwhole, Nat.mul_assoc,
      ← pow_add, hpower]

theorem units_magnitude_normal (he : 0 < e) (he' : e ≠ 255) (hf : f < 2 ^ 23) :
    Format.double.units (magnitude e f) = Format.single.units (e * 2 ^ 23 + f) := by
  have hwide : f * 2 ^ 29 < 2 ^ 52 := by omega
  have hdouble := Format.double.units_of_pos (e := e + 896) (by omega) hwide
  have hwhole : 2 ^ Format.double.width + f * 2 ^ 29 = (2 ^ Format.single.width + f) * 2 ^ 29 :=
    (Nat.add_mul (2 ^ 23) f (2 ^ 29)).symm
  have hpower : 29 + (e + 896 - 1 + Format.double.scale) = e - 1 + Format.single.scale := by
    rw [Format.scale_double, Format.scale_single]
    omega
  rw [magnitude, if_neg he', if_neg (Nat.ne_of_gt he)]
  refine hdouble.trans (.trans ?_ (Format.single.units_of_pos he hf).symm)
  rw [hwhole, Nat.mul_assoc, ← pow_add, hpower]

theorem magnitude_lt (he : e < 255) (hf : f < 2 ^ 23) : magnitude e f < 2047 * 2 ^ 52 := by
  unfold magnitude
  split_ifs with hspecial hsubnormal hzero
  · omega
  · omega
  · subst hsubnormal
    obtain ⟨top, fraction, htop, hfraction, hmagnitude, -⟩ := exists_magnitude_subnormal hzero hf
    rw [magnitude, if_neg hspecial, if_pos rfl, if_neg hzero] at hmagnitude
    simp only [hmagnitude]
    omega
  · simp only [Nat.pow_eq]
    omega

theorem units_magnitude (he : e < 255) (hf : f < 2 ^ 23) :
    Format.double.units (magnitude e f) = Format.single.units (e * 2 ^ 23 + f) := by
  rcases Nat.eq_zero_or_pos e with rfl | hpos
  · rw [units_magnitude_subnormal hf, Nat.zero_mul, Nat.zero_add]
  · exact units_magnitude_normal hpos (Nat.ne_of_lt he) hf

end widening

theorem number_toDouble (bits : SingleBits) : Double.number (toDouble bits) = number bits := by
  obtain ⟨hs, he, hf⟩ := parts_lt bits
  by_cases hspecial : exponent bits = 255
  · have hlt : magnitude 255 (fraction bits) < 2 ^ 63 := by
      rw [magnitude, if_pos rfl]
      simp only [Nat.pow_eq]
      omega
    rw [toDouble, number, hspecial]
    exact (Double.number_ofNat hs hlt).trans (number_magnitude_special hf)
  · have hfinite : exponent bits < 255 := by omega
    have hlt := magnitude_lt hfinite hf
    have htop : magnitude (exponent bits) (fraction bits) / 2 ^ 52 ≠ 2047 := by omega
    rw [number_of_finite hspecial, toDouble, ← units_magnitude hfinite hf]
    exact (Double.number_ofNat hs (by omega)).trans (Format.number_of_ne _ htop)

end Single

/-! ### Comparing doubles -/

namespace Double

variable {a b : DoubleBits}

theorem number_cases (bits : DoubleBits) :
    (isNaN bits = true ∧ ∃ negative payload, number bits = .nan negative payload) ∨
      isNaN bits = false ∧ (exponent bits = 2047 ∧ fraction bits = 0 ∧
          number bits = .infinite (sign bits = 1) ∨
        exponent bits ≠ 2047 ∧ number bits = .finite (sign bits = 1)
          (Format.double.units (exponent bits * 2 ^ 52 + fraction bits))) := by
  by_cases hspecial : exponent bits = 2047
  · by_cases hzero : fraction bits = 0
    · refine .inr ⟨by simp [isNaN, hzero], .inl ⟨hspecial, hzero, ?_⟩⟩
      rw [number_of_special hspecial, if_pos hzero]
    · refine .inl ⟨by simp [isNaN, hspecial, hzero], sign bits = 1, fraction bits, ?_⟩
      rw [number_of_special hspecial, if_neg hzero]
  · exact .inr ⟨by simp [isNaN, hspecial], .inr ⟨hspecial, number_of_finite hspecial⟩⟩

theorem sign_eq_iff : sign a = sign b ↔ (sign a = 1 ↔ sign b = 1) := by
  have ha := (parts_lt a).1
  have hb := (parts_lt b).1
  omega

theorem isZero_iff (bits : DoubleBits) :
    isZero bits = true ↔ exponent bits * 2 ^ 52 + fraction bits = 0 := by
  simp [isZero]

theorem eq_iff_parts : a = b ↔ sign a = sign b ∧
    exponent a * 2 ^ 52 + fraction a = exponent b * 2 ^ 52 + fraction b := by
  constructor
  · rintro rfl
    exact ⟨rfl, rfl⟩
  · rintro ⟨hs, hm⟩
    rw [← UInt64.toNat_inj, ← parts_eq, ← parts_eq, hs, hm]

/-- Doubles compare as the numbers that they stand for. -/
theorem same_iff : same a b = true ↔ (number a).Equal (number b) := by
  have hlt := (parts_lt a).2.2
  have hlt' := (parts_lt b).2.2
  simp only [same, Bool.and_eq_true, Bool.not_eq_true', Bool.or_eq_true, beq_iff_eq, isZero_iff,
    eq_iff_parts, sign_eq_iff]
  rcases number_cases a with ⟨ha, p, m, hnumber⟩ | ⟨ha, ⟨he, hf, hnumber⟩ | ⟨he, hnumber⟩⟩
  · simp [ha, hnumber]
  · rcases number_cases b with ⟨hb, q, n, hnumber'⟩ | ⟨hb, ⟨he', hf', hnumber'⟩ | ⟨he', hnumber'⟩⟩
    · simp [hb, hnumber']
    · simp [ha, hb, hnumber, hnumber', he, hf, he', hf']
    · simp only [hnumber, hnumber', Number.not_equal_infinite_finite, iff_false]
      omega
  · rcases number_cases b with ⟨hb, q, n, hnumber'⟩ | ⟨hb, ⟨he', hf', hnumber'⟩ | ⟨he', hnumber'⟩⟩
    · simp [hb, hnumber']
    · simp only [hnumber, hnumber', Number.not_equal_finite_infinite, iff_false]
      omega
    · simp only [ha, hb, hnumber, hnumber', Number.equal_finite, Number.signed_eq_signed_iff,
        Format.double.strictMono_units.injective.eq_iff, Format.units_eq_zero_iff,
        decide_eq_decide, true_and]
      omega

end Double
end MessagePack
