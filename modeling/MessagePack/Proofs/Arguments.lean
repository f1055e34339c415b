import MessagePack.Proofs.Giving
import MessagePack.Proofs.Widening

/-! # Arguments without an encoding

A number has no encoding if it is out of the range of its kind, an extension if its type is no
signed byte, and a payload if it is too long or if its bytes cannot be had.  A double has none as a
single if it rounds to an infinity (`Double.toSingle?_eq_none_iff`).

`Request.Refused` says what is refused, and with which fault.  This is all that is refused
(`Request.refused_iff`), and what is asked for has an encoding in all other cases
(`Request.frame_error_iff`). -/

namespace MessagePack

/-! ### Rounding to infinity -/

theorem roundShift_le {n shift bound : Nat} (h : n ≤ bound * 2 ^ shift) :
    roundShift n shift ≤ bound := by
  have hdiv : n / 2 ^ shift ≤ bound := Nat.div_le_of_le_mul (by rwa [Nat.mul_comm])
  simp only [roundShift, Nat.pow_eq]
  split_ifs with hup
  · -- a multiple of `2 ^ shift` is not rounded up
    have hne : n / 2 ^ shift ≠ bound := by
      rintro hbound
      have hmod := Nat.div_add_mod n (2 ^ shift)
      rw [hbound, Nat.mul_comm] at hmod
      have hpos := Nat.two_pow_pos shift
      omega
    omega
  · exact hdiv

namespace Double

/-- A finite number that rounds to an infinite single: its magnitude is not below the middle between
the largest single, `2 ^ 128 - 2 ^ 104`, and the next power of two.  The middle itself rounds to the
even one, which is the power of two.  Both sides count units of `2 ^ -1074`. -/
def Overflows (bits : DoubleBits) : Prop :=
  exponent bits ≠ 2047 ∧ (2 ^ 128 - 2 ^ 103) * 2 ^ 1074 ≤ significand bits * 2 ^ power bits

theorem le_roundShift_iff {fraction : Nat} (h : fraction < 2 ^ 52) :
    2 ^ 23 ≤ roundShift fraction 29 ↔ 2 ^ 52 - 2 ^ 28 ≤ fraction := by
  simp only [roundShift, Nat.pow_eq]
  split_ifs <;> omega

theorem magnitude?_eq_none_iff {exponent fraction : Nat} (h : fraction < 2 ^ 52) :
    magnitude? exponent fraction = none ↔
      exponent ≠ 2047 ∧ (1150 < exponent ∨ exponent = 1150 ∧ 2 ^ 52 - 2 ^ 28 ≤ fraction) := by
  have hle : roundShift fraction 29 ≤ 2 ^ 23 := roundShift_le (by omega)
  have hiff := le_roundShift_iff h
  unfold magnitude?
  simp only [Nat.pow_eq]
  split_ifs <;> simp <;> omega

theorem threshold_le_iff {significand power top : Nat} (hsig : significand < 2 ^ 53)
    (hnormal : power ≠ 0 → 2 ^ 52 ≤ significand) :
    (2 ^ 53 - 2 ^ 28) * 2 ^ top ≤ significand * 2 ^ power ↔
      top < power ∨ power = top ∧ 2 ^ 53 - 2 ^ 28 ≤ significand := by
  obtain hlt | rfl | hgt := lt_trichotomy power top
  · -- at most half of what is needed
    have hdouble : 2 ^ power * 2 ≤ 2 ^ top := Nat.pow_le_pow_right Nat.two_pos hlt
    have hlow := Nat.mul_lt_mul_of_pos_right hsig (Nat.two_pow_pos power)
    generalize 2 ^ power = unit at hdouble hlow ⊢
    generalize 2 ^ top = unit' at hdouble ⊢
    omega
  · rw [Nat.mul_le_mul_right_iff (Nat.two_pow_pos power)]
    omega
  · have hdouble : 2 ^ top * 2 ≤ 2 ^ power := Nat.pow_le_pow_right Nat.two_pos hgt
    have hhigh := Nat.mul_le_mul (hnormal (Nat.ne_zero_of_lt hgt)) hdouble
    generalize 2 ^ top = unit at hdouble hhigh ⊢
    generalize 2 ^ power = unit' at hdouble hhigh ⊢
    omega

theorem overflows_iff (bits : DoubleBits) :
    Overflows bits ↔ exponent bits ≠ 2047 ∧
      (1150 < exponent bits ∨ exponent bits = 1150 ∧ 2 ^ 52 - 2 ^ 28 ≤ fraction bits) := by
  have hthreshold : (2 ^ 128 - 2 ^ 103) * 2 ^ 1074 = (2 ^ 53 - 2 ^ 28) * 2 ^ 1149 := by
    rw [show 1149 = 75 + 1074 from rfl, pow_add, ← Nat.mul_assoc]
    norm_num
  have hfraction := (parts_lt bits).2.2
  have hsig : significand bits =
      if exponent bits = 0 then fraction bits else 2 ^ 52 + fraction bits := rfl
  have hlt : significand bits < 2 ^ 53 := by
    rw [hsig]
    split_ifs <;> omega
  have hnormal : power bits ≠ 0 → 2 ^ 52 ≤ significand bits := by
    intro hpower
    rw [hsig, if_neg]
    · omega
    · rintro hzero
      exact hpower (by rw [power, hzero]; rfl)
  rw [Overflows, hthreshold, threshold_le_iff hlt hnormal, power, hsig]
  split_ifs <;> omega

/-- A double has no single if and only if it rounds to an infinity. -/
theorem toSingle?_eq_none_iff (bits : DoubleBits) : toSingle? bits = none ↔ Overflows bits := by
  rw [toSingle?, Option.map_eq_none_iff, magnitude?_eq_none_iff (parts_lt bits).2.2, overflows_iff]

/-- The double below the middle still rounds to the largest single. -/
example : toSingle? 0x47EFFFFFEFFFFFFF = some 0x7F7FFFFF := by rfl

end Double

/-! ### Lengths -/

namespace Frame

/-- The counts and lengths that are refused. -/
inductive LengthRefused (n : Int) : Fault → Prop
  | negative (h : n < 0) : LengthRefused n (.negative n)
  | large (h : 2 ^ 32 ≤ n) : LengthRefused n (.exceeds32 n)

variable {n : Int} {fault : Fault}

theorem LengthRefused.not_inRange (h : LengthRefused n fault) : ¬ (0 ≤ n ∧ n < 2 ^ 32) := by
  cases h <;> omega

theorem exists_lengthRefused (h : ¬ (0 ≤ n ∧ n < 2 ^ 32)) : ∃ fault, LengthRefused n fault := by
  by_cases hn : n < 0
  · exact ⟨_, .negative hn⟩
  · exact ⟨_, .large (by omega)⟩

theorem checkLength_error_iff : checkLength n = .error fault ↔ LengthRefused n fault := by
  unfold checkLength
  constructor
  · intro h
    split_ifs at h with hneg hlarge <;> cases h
    · exact .negative hneg
    · exact .large hlarge
  · rintro (h | h)
    · exact if_pos h
    · rw [if_neg (by omega), if_pos (by omega)]

theorem checkLength_bind_error_iff {make : Nat → Except Fault Frame}
    (hmake : ∀ m fault, make m ≠ .error fault) :
    checkLength n >>= make = .error fault ↔ LengthRefused n fault := by
  rw [← checkLength_error_iff]
  cases hn : checkLength n with
  | error raised =>
      constructor <;>
        (rintro ⟨⟩; rfl)
  | ok m => exact iff_of_false (hmake m fault) nofun

theorem unsigned_error_iff :
    unsigned n = .error fault ↔
      n < 0 ∧ fault = .negative n ∨ 2 ^ 64 ≤ n ∧ fault = .exceeds64 n := by
  unfold unsigned
  constructor
  · intro h
    split_ifs at h <;> cases h
    · exact .inl ⟨by omega, rfl⟩
    · exact .inr ⟨by omega, rfl⟩
  · rintro (⟨h, rfl⟩ | ⟨h, rfl⟩)
    · exact if_pos h
    · rw [if_neg (by omega), if_neg (by omega), if_neg (by omega), if_neg (by omega),
        if_neg (by omega), if_neg (by omega)]

theorem signed_error_iff :
    signed n = .error fault ↔ (n < -2 ^ 63 ∨ 2 ^ 64 ≤ n) ∧ fault = .exceeds64 n := by
  unfold signed
  by_cases hn : n ≥ 0
  · rw [if_pos hn, unsigned_error_iff]
    constructor
    · rintro (⟨h, -⟩ | ⟨h, rfl⟩)
      · omega
      · exact ⟨.inr h, rfl⟩
    · rintro ⟨h, rfl⟩
      exact .inr ⟨by omega, rfl⟩
  · rw [if_neg hn]
    constructor
    · intro h
      split_ifs at h
      cases h
      exact ⟨by omega, rfl⟩
    · rintro ⟨h, rfl⟩
      rw [if_neg (by omega), if_neg (by omega), if_neg (by omega), if_neg (by omega),
        if_neg (by omega)]

end Frame

/-! ### Values -/

/-- A signed byte. -/
def IsSignedByte (type : Int) : Prop := -2 ^ 7 ≤ type ∧ type < 2 ^ 7

namespace Value

/-- The values that are refused. -/
inductive Refused : Value → Fault → Prop
  | negative {n : Int} (h : n < 0) : Refused (.unsigned n) (.negative n)
  | unsigned {n : Int} (h : 2 ^ 64 ≤ n) : Refused (.unsigned n) (.exceeds64 n)
  | signed {n : Int} (h : n < -2 ^ 63 ∨ 2 ^ 64 ≤ n) : Refused (.signed n) (.exceeds64 n)
  | float {bits : DoubleBits} (h : Double.Overflows bits) : Refused (.float bits) .floatTooLarge
  | array {n : Int} {fault : Fault} (h : Frame.LengthRefused n fault) : Refused (.array n) fault
  | map {n : Int} {fault : Fault} (h : Frame.LengthRefused n fault) : Refused (.map n) fault
  | str {payload : Bytes} {fault : Fault} (h : Frame.LengthRefused payload.size fault) :
      Refused (.str payload) fault
  | bin {payload : Bytes} {fault : Fault} (h : Frame.LengthRefused payload.size fault) :
      Refused (.bin payload) fault
  | subtype {type : Int} {payload : Bytes} (h : ¬ IsSignedByte type) :
      Refused (.ext type payload) (.subtypeRange type)
  | ext {type : Int} {payload : Bytes} {fault : Fault} (ht : IsSignedByte type)
      (h : Frame.LengthRefused payload.size fault) : Refused (.ext type payload) fault

/-- The values that are accepted. -/
def Sound : Value → Prop
  | unsigned n => 0 ≤ n ∧ n < 2 ^ 64
  | signed n => -2 ^ 63 ≤ n ∧ n < 2 ^ 64
  | float bits => ¬ Double.Overflows bits
  | array n | map n => 0 ≤ n ∧ n < 2 ^ 32
  | str payload | bin payload => payload.size < 2 ^ 32
  | ext type payload => IsSignedByte type ∧ payload.size < 2 ^ 32
  | double _ | nil | boolean _ => True

theorem frame_error_iff {v : Value} {fault : Fault} : v.frame = .error fault ↔ v.Refused fault := by
  cases v with
  | unsigned n =>
      refine Frame.unsigned_error_iff.trans ⟨?_, ?_⟩
      · rintro (⟨h, rfl⟩ | ⟨h, rfl⟩)
        · exact .negative h
        · exact .unsigned h
      · rintro (h | h)
        · exact .inl ⟨h, rfl⟩
        · exact .inr ⟨h, rfl⟩
  | signed n =>
      refine Frame.signed_error_iff.trans ⟨?_, ?_⟩
      · rintro ⟨h, rfl⟩
        exact .signed h
      · rintro ⟨⟩
        exact ⟨‹_›, rfl⟩
  | float bits =>
      have hnone := Double.toSingle?_eq_none_iff bits
      rw [frame, Frame.float, ByteOrder.singlePattern]
      cases hs : Double.toSingle? bits with
      | some single =>
          refine iff_of_false nofun ?_
          rintro ⟨⟩
          exact absurd (hnone.mpr ‹_›) (by rw [hs]; nofun)
      | none =>
          refine ⟨?_, ?_⟩
          · rintro ⟨⟩
            exact .float (hnone.mp hs)
          · rintro ⟨⟩
            rfl
  | double | nil | boolean => exact iff_of_false nofun nofun
  | array n | map n | str payload | bin payload =>
      refine (Frame.checkLength_bind_error_iff fun m fault => ?_).trans ⟨?_, ?_⟩
      · split_ifs <;> exact nofun
      · intro h
        constructor
        exact h
      · rintro ⟨⟩
        assumption
  | ext type payload =>
      rw [frame, Frame.ext]
      dsimp only
      split_ifs with ht
      · have hbyte : ¬ IsSignedByte type := by
          unfold IsSignedByte
          omega
        refine ⟨?_, ?_⟩
        · rintro ⟨⟩
          exact .subtype hbyte
        · rintro (h | h)
          · rfl
          · contradiction
      · have hbyte : IsSignedByte type := by
          unfold IsSignedByte
          omega
        refine (Frame.checkLength_bind_error_iff fun m fault => ?_).trans ⟨.ext hbyte, ?_⟩
        · split
          · exact nofun
          · split_ifs <;> exact nofun
        · rintro (h | h)
          · contradiction
          · assumption

theorem Refused.not_sound {v : Value} {fault : Fault} (h : v.Refused fault) : ¬ v.Sound := by
  cases h with
  | negative h | unsigned h | signed h =>
      unfold Sound
      omega
  | float h => exact not_not.mpr h
  | array h | map h => exact h.not_inRange
  | str h | bin h => exact fun hs => h.not_inRange ⟨by omega, Int.ofNat_lt.mpr hs⟩
  | subtype h => exact fun hs => h hs.1
  | ext ht h => exact fun hs => h.not_inRange ⟨by omega, Int.ofNat_lt.mpr hs.2⟩

theorem exists_refused {v : Value} (h : ¬ v.Sound) : ∃ fault, v.Refused fault := by
  have hlength : ∀ {payload : Bytes}, ¬ payload.size < 2 ^ 32 →
      ∃ fault, Frame.LengthRefused payload.size fault :=
    fun hsize => Frame.exists_lengthRefused fun hr => hsize (Int.ofNat_lt.mp hr.2)
  cases v with
  | unsigned n =>
      by_cases hn : n < 0
      · exact ⟨_, .negative hn⟩
      · exact ⟨_, .unsigned (by unfold Sound at h; omega)⟩
  | signed n => exact ⟨_, .signed (by unfold Sound at h; omega)⟩
  | float bits => exact ⟨_, .float (not_not.mp h)⟩
  | double | nil | boolean => exact absurd trivial h
  | array n => exact (Frame.exists_lengthRefused h).imp fun _ => .array
  | map n => exact (Frame.exists_lengthRefused h).imp fun _ => .map
  | str payload => exact (hlength h).imp fun _ => .str
  | bin payload => exact (hlength h).imp fun _ => .bin
  | ext type payload =>
      by_cases ht : IsSignedByte type
      · exact (hlength fun hsize => h ⟨ht, hsize⟩).imp fun _ => .ext ht
      · exact ⟨_, .subtype ht⟩

end Value

/-! ### Requests -/

namespace Data

/-- The payloads whose bytes cannot be had. -/
inductive Withheld : Data → Fault → Prop
  | surrogate {points : List CodePoint} (h : ∃ point ∈ points, point.isSurrogate = true) :
      Withheld (.text points) .unencodable
  | layout {v : View} {fault : Fault} (h : v.Cast (.error fault)) : Withheld (.view v) fault

/-- The payloads that are refused. -/
inductive Refused (data : Data) (fault : Fault) : Prop
  | withheld (h : data.Withheld fault)
  | long (hd : data.Castable) (h : Frame.LengthRefused data.size fault)

/-- The payloads that are accepted. -/
def Sound (data : Data) : Prop := data.Castable ∧ data.size < 2 ^ 32

variable {data : Data} {fault : Fault}

theorem raw_error_iff : data.raw = .error fault ↔ data.Withheld fault := by
  cases data with
  | text points =>
      rw [raw, CodePoint.encode]
      constructor
      · intro h
        split_ifs at h with hany
        cases h
        exact .surrogate (List.any_eq_true.mp hany)
      · intro h
        cases h with
        | surrogate h => exact if_pos (List.any_eq_true.mpr h)
  | bytes payload =>
      constructor
      · intro h
        cases h
      · intro h
        cases h
  | view v =>
      constructor
      · exact fun h => .layout (View.cast_iff.mpr h)
      · intro h
        cases h with
        | layout h => exact View.cast_iff.mp h

theorem Refused.not_sound (h : data.Refused fault) : ¬ data.Sound := by
  rintro ⟨hcastable, hsize⟩
  cases h with
  | withheld h =>
      obtain ⟨payload, hraw⟩ := (Data.raw_ok_iff _).mpr hcastable
      exact absurd (hraw.symm.trans (raw_error_iff.mpr h)) nofun
  | long hd h => exact h.not_inRange ⟨by omega, Int.ofNat_lt.mpr hsize⟩

theorem exists_refused (h : ¬ data.Sound) : ∃ fault, data.Refused fault := by
  cases hraw : data.raw with
  | ok payload =>
      have hd := (Data.raw_ok_iff data).mp ⟨payload, hraw⟩
      refine (Frame.exists_lengthRefused (n := data.size) ?_).imp fun _ => .long hd
      exact fun hr => h ⟨hd, Int.ofNat_lt.mp hr.2⟩
  | error raised => exact ⟨raised, .withheld (raw_error_iff.mp hraw)⟩

theorem map_raw_error_iff {make : Bytes → Value}
    (hmake : ∀ payload, (make payload).frame = .error fault ↔
      Frame.LengthRefused payload.size fault) :
    data.raw.map make >>= Value.frame = .error fault ↔ data.Refused fault := by
  cases hraw : data.raw with
  | ok payload =>
      have hd := (Data.raw_ok_iff data).mp ⟨payload, hraw⟩
      refine (hmake payload).trans ?_
      rw [size_of_raw hraw]
      refine ⟨.long hd, ?_⟩
      rintro (h | ⟨-, h⟩)
      · exact absurd (hraw.symm.trans (raw_error_iff.mpr h)) nofun
      · exact h
  | error raised =>
      constructor
      · rintro ⟨⟩
        exact .withheld (raw_error_iff.mp hraw)
      · rintro (h | ⟨hd, h⟩)
        · obtain rfl : raised = fault := Except.error.inj (hraw.symm.trans (raw_error_iff.mpr h))
          rfl
        · obtain ⟨payload, hok⟩ := (Data.raw_ok_iff _).mpr hd
          exact absurd (hok.symm.trans hraw) nofun

end Data

namespace Request

/-- The requests that are refused.  The type of an extension counts before its payload. -/
inductive Refused : Request → Fault → Prop
  | plain {v : Value} {fault : Fault} (h : v.Refused fault) : Refused (.plain v) fault
  | str {data : Data} {fault : Fault} (h : data.Refused fault) : Refused (.str data) fault
  | bin {data : Data} {fault : Fault} (h : data.Refused fault) : Refused (.bin data) fault
  | subtype {type : Int} {data : Data} (h : ¬ IsSignedByte type) :
      Refused (.ext type data) (.subtypeRange type)
  | ext {type : Int} {data : Data} {fault : Fault} (ht : IsSignedByte type)
      (h : data.Refused fault) : Refused (.ext type data) fault

/-- The requests that are accepted. -/
def Sound : Request → Prop
  | plain v => v.Sound
  | str data | bin data => data.Sound
  | ext type data => IsSignedByte type ∧ data.Sound

variable {request : Request} {fault : Fault}

/-- What is asked for has no encoding if and only if it is refused. -/
theorem frame_error_iff :
    request.value >>= Value.frame = .error fault ↔ request.Refused fault := by
  have hvalue : ∀ {v : Value}, v.frame = .error fault ↔ v.Refused fault := Value.frame_error_iff
  cases request with
  | plain v => exact hvalue.trans ⟨.plain, fun | .plain h => h⟩
  | str data =>
      refine (Data.map_raw_error_iff fun payload => hvalue.trans ?_).trans
        ⟨.str, fun | .str h => h⟩
      exact ⟨fun | .str h => h, .str⟩
  | bin data =>
      refine (Data.map_raw_error_iff fun payload => hvalue.trans ?_).trans
        ⟨.bin, fun | .bin h => h⟩
      exact ⟨fun | .bin h => h, .bin⟩
  | ext type data =>
      rw [value]
      split_ifs with ht
      · have hbyte : ¬ IsSignedByte type := by
          unfold IsSignedByte
          omega
        constructor
        · rintro ⟨⟩
          exact .subtype hbyte
        · rintro (_ | _ | _ | h | h)
          · rfl
          · contradiction
      · have hbyte : IsSignedByte type := by
          unfold IsSignedByte
          omega
        refine (Data.map_raw_error_iff fun payload => hvalue.trans ?_).trans
          ⟨.ext hbyte, fun | .subtype h => absurd hbyte h | .ext _ h => h⟩
        exact ⟨fun | .subtype h => absurd hbyte h | .ext _ h => h, .ext hbyte⟩

theorem refused_iff : (∃ fault, request.Refused fault) ↔ ¬ request.Sound := by
  constructor
  · rintro ⟨fault, h⟩
    cases h with
    | plain h => exact h.not_sound
    | str h | bin h => exact h.not_sound
    | subtype h => exact fun hs => h hs.1
    | ext ht h => exact fun hs => h.not_sound hs.2
  · intro h
    cases request with
    | plain v => exact (Value.exists_refused h).imp fun _ => .plain
    | str data => exact (Data.exists_refused h).imp fun _ => .str
    | bin data => exact (Data.exists_refused h).imp fun _ => .bin
    | ext type data =>
        by_cases ht : IsSignedByte type
        · exact (Data.exists_refused fun hs => h ⟨ht, hs⟩).imp fun _ => .ext ht
        · exact ⟨_, .subtype ht⟩

end Request
end MessagePack
