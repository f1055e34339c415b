import MessagePack.Proofs.Answering
import MessagePack.Proofs.Numbers
import MessagePack.Proofs.Shortest

/-! # Doubles as the nearest singles

Packing a float rounds a double to the nearest single, a tie to the even one, and a NaN keeps its
sign and the top of its payload: `Narrows` says so of the numbers, without any reference to how the
rounding is done.

Where a double stands among the singles is said once: so much above one of them and so much below
the next (`Between`).  The rounding takes the lower or the upper one (`Rounded`), and since the
finite singles come in the order of their magnitudes, no other can be nearer
(`Between.closest`).  The two ranges of the exponent differ only in what is shifted out
(`between_small`, `between_normal`). -/

namespace MessagePack

/-! ### The nearest single -/

namespace Number

/-- How far two finite numbers are apart. -/
def apart (p : Bool) (m : Nat) (q : Bool) (n : Nat) : Nat := (signed p m - signed q n).natAbs

theorem apart_le {p q : Bool} {l m n : Nat}
    (h : ((l : Int) - m).natAbs ≤ ((l : Int) - n).natAbs) : apart p l p m ≤ apart p l q n := by
  cases p <;> cases q <;> simp only [apart, signed, Bool.false_eq_true, if_true, if_false] <;> omega

theorem of_apart_eq {p q : Bool} {l m n : Nat} (hzero : ((l : Int) - m).natAbs ≤ l)
    (hclosest : ((l : Int) - m).natAbs ≤ ((l : Int) - n).natAbs)
    (hne : signed q n ≠ signed p m) (htie : apart p l q n = apart p l p m) :
    n ≠ m ∧ ((l : Int) - n).natAbs = ((l : Int) - m).natAbs := by
  cases p <;> cases q <;>
    simp only [apart, signed, Bool.false_eq_true, if_true, if_false, ne_eq] at hne htie <;> omega

end Number

open Number in
/-- The single is what is made of a number: the nearest one, with the same sign. -/
inductive Narrows : Number → SingleBits → Prop
  | infinite {p : Bool} {single : SingleBits} (h : Single.number single = .infinite p) :
      Narrows (.infinite p) single
  /-- The quiet bit is set, and the 22 bits below it are kept. -/
  | nan {p : Bool} {payload : Nat} {single : SingleBits}
      (h : Single.number single = .nan p (2 ^ 51 + payload % 2 ^ 51 / 2 ^ 29 * 2 ^ 29)) :
      Narrows (.nan p payload) single
  /-- No finite single is nearer, and if another one is as near the single is even. -/
  | finite {p : Bool} {m n : Nat} {single : SingleBits} (h : Single.number single = .finite p n)
      (closest : ∀ other q k, Single.number other = .finite q k → apart p m p n ≤ apart p m q k)
      (even : ∀ other q k, Single.number other = .finite q k → signed q k ≠ signed p n →
        apart p m q k = apart p m p n → single.toNat % 2 = 0) :
      Narrows (.finite p m) single

/-! ### Rounding -/

/-- What is `above` one magnitude and `below` the next goes to the nearer one, and to the even one
if it is in the middle. -/
inductive Rounded (n above below : Nat) : Nat → Prop
  | down (h : above ≤ below) (even : above = below → n % 2 = 0) : Rounded n above below n
  | up (h : below ≤ above) (even : above = below → (n + 1) % 2 = 0) :
      Rounded n above below (n + 1)

theorem rounded_roundShift (n shift : Nat) :
    Rounded (n / 2 ^ shift) (n % 2 ^ shift) (2 ^ shift - n % 2 ^ shift) (roundShift n shift) := by
  have hlt := Nat.mod_lt n (Nat.two_pow_pos shift)
  simp only [roundShift, Nat.pow_eq]
  split_ifs with h
  · exact .up (by omega) (by omega)
  · exact .down (by omega) (by omega)

namespace Rounded

variable {n above below m : Nat}

theorem scale (h : Rounded n above below m) {unit : Nat} (hu : 0 < unit) :
    Rounded n (above * unit) (below * unit) m := by
  cases h with
  | down h even =>
      exact .down (Nat.mul_le_mul_right unit h) fun he => even (Nat.eq_of_mul_eq_mul_right hu he)
  | up h even =>
      exact .up (Nat.mul_le_mul_right unit h) fun he => even (Nat.eq_of_mul_eq_mul_right hu he)

theorem add_even (h : Rounded n above below m) {k : Nat} (hk : k % 2 = 0) :
    Rounded (k + n) above below (k + m) := by
  cases h with
  | down h even => exact .down h fun he => by have := even he; omega
  | up h even => exact .up h fun he => by have := even he; omega

end Rounded

/-- A number of units rounds to the single of magnitude `m`, from where it stands among singles. -/
inductive Between (units m : Nat) : Prop
  | intro {n above below : Nat} (lower : units = Format.single.units n + above)
      (upper : Format.single.units (n + 1) = units + below) (rounded : Rounded n above below m)

namespace Between

variable {units m k : Nat}

/-- No single has a nearer magnitude, and the single is even if another one is as near. -/
theorem closest (h : Between units m) (k : Nat) :
    ((units : Int) - Format.single.units m).natAbs ≤
        ((units : Int) - Format.single.units k).natAbs ∧
      (k ≠ m → ((units : Int) - Format.single.units k).natAbs =
        ((units : Int) - Format.single.units m).natAbs → m % 2 = 0) := by
  have hmono := Format.single.strictMono_units
  obtain @⟨n, above, below, lower, upper, rounded⟩ := h
  -- the magnitudes next to the number are compared with it, the others with these two
  obtain hlt | rfl | rfl | hgt : k < n ∨ k = n ∨ k = n + 1 ∨ n + 1 < k := by omega
  · have hk := hmono hlt
    cases rounded <;> omega
  · cases rounded <;> omega
  · cases rounded <;> omega
  · have hk := hmono hgt
    cases rounded <;> omega

end Between

/-! ### The two ranges -/

section ranges

variable {e r : Nat}

theorem between_roundShift (significand shift power : Nat) {k : Nat} (hk : k % 2 = 0)
    (hunits : Format.single.units (k + significand / 2 ^ shift) =
      significand / 2 ^ shift * 2 ^ (shift + power))
    (hpower : Format.single.power ((k + significand / 2 ^ shift) / 2 ^ 23) = shift + power) :
    Between (significand * 2 ^ power) (k + roundShift significand shift) := by
  have hpos := Nat.two_pow_pos power
  have hlt := Nat.mod_lt significand (Nat.two_pow_pos shift)
  have hround := ((rounded_roundShift significand shift).scale hpos).add_even hk
  have hlower : significand * 2 ^ power = Format.single.units (k + significand / 2 ^ shift) +
      significand % 2 ^ shift * 2 ^ power := by
    rw [hunits, pow_add, ← Nat.mul_assoc, ← Nat.add_mul, Nat.div_add_mod']
  refine .intro hlower ?_ hround
  rw [Format.units_succ, hlower, show Format.single.width = 23 from rfl, hpower, Nat.add_assoc,
    ← Nat.add_mul, Nat.add_sub_cancel' hlt.le, ← pow_add]

theorem between_small (he : e < 897) (hr : r < 2 ^ 52) :
    Between (Format.double.units (e * 2 ^ 52 + r))
      (roundShift (if e = 0 then r else 2 ^ 52 + r) (29 + (897 - max e 1))) := by
  have hparts : Format.double.units (e * 2 ^ 52 + r) = (if e = 0 then r else 2 ^ 52 + r) * _ :=
    Format.double.units_parts e hr
  have hpower : 29 + (897 - max e 1) + Format.double.power e = Format.single.scale := by
    rw [Format.power, Format.scale_double, Format.scale_single]
    omega
  have hlt : (if e = 0 then r else 2 ^ 52 + r) < 2 ^ 53 := by
    split_ifs <;> omega
  rw [hparts]
  generalize (if e = 0 then r else 2 ^ 52 + r) = significand at hlt ⊢
  generalize hshift : 29 + (897 - max e 1) = shift at hpower ⊢
  have hquotient : significand / 2 ^ shift < 2 ^ 23 := by
    refine Nat.div_lt_of_lt_mul (hlt.trans_le ?_)
    rw [← pow_add]
    exact Nat.pow_le_pow_right Nat.two_pos (by omega)
  have hunits : Format.single.units (0 + significand / 2 ^ shift) =
      significand / 2 ^ shift * 2 ^ (shift + Format.double.power e) := by
    rw [Nat.zero_add, Format.single.units_of_lt hquotient, hpower]
  have hgap : Format.single.power ((0 + significand / 2 ^ shift) / 2 ^ 23) =
      shift + Format.double.power e := by
    rw [Nat.zero_add, Nat.div_eq_of_lt hquotient, Format.power_zero, hpower]
  have hbetween := between_roundShift significand shift (Format.double.power e) rfl hunits hgap
  rwa [Nat.zero_add] at hbetween

theorem roundShift_hidden (r : Nat) : roundShift (2 ^ 52 + r) 29 = 2 ^ 23 + roundShift r 29 := by
  simp only [roundShift, Nat.pow_eq]
  split_ifs <;> omega

theorem between_normal (he : 897 ≤ e) (hr : r < 2 ^ 52) :
    Between (Format.double.units (e * 2 ^ 52 + r)) ((e - 896) * 2 ^ 23 + roundShift r 29) := by
  have hparts : Format.double.units (e * 2 ^ 52 + r) = (2 ^ 52 + r) * _ :=
    Format.double.units_of_pos (by omega) hr
  have hquotient : r / 2 ^ 29 < 2 ^ 23 := by omega
  have hpos : 0 < e - 896 := by omega
  have hwhole : (e - 897) * 2 ^ 23 + (2 ^ 52 + r) / 2 ^ 29 = (e - 896) * 2 ^ 23 + r / 2 ^ 29 := by
    omega
  have hhidden : (2 ^ 52 + r) / 2 ^ 29 = 2 ^ 23 + r / 2 ^ 29 := by omega
  have hpower : e - 896 - 1 + Format.single.scale = 29 + (e - 1 + Format.double.scale) := by
    rw [Format.scale_double, Format.scale_single]
    omega
  have hunits : Format.single.units ((e - 897) * 2 ^ 23 + (2 ^ 52 + r) / 2 ^ 29) =
      (2 ^ 52 + r) / 2 ^ 29 * 2 ^ (29 + (e - 1 + Format.double.scale)) := by
    rw [hwhole, hhidden, ← hpower]
    exact Format.single.units_of_pos hpos hquotient
  have hgap : Format.single.power (((e - 897) * 2 ^ 23 + (2 ^ 52 + r) / 2 ^ 29) / 2 ^ 23) =
      29 + (e - 1 + Format.double.scale) := by
    rw [hwhole, Format.div_two_pow hquotient, Format.power_of_pos hpos, hpower]
  have hbetween := between_roundShift (2 ^ 52 + r) 29 (e - 1 + Format.double.scale) (by omega)
    hunits hgap
  have hround : (e - 897) * 2 ^ 23 + roundShift (2 ^ 52 + r) 29 =
      (e - 896) * 2 ^ 23 + roundShift r 29 := by
    rw [roundShift_hidden]
    omega
  rw [hparts, ← hround]
  exact hbetween

end ranges

namespace Double

theorem between_magnitude? {e r m : Nat} (he : e ≠ 2047) (hr : r < 2 ^ 52)
    (h : magnitude? e r = some m) :
    Between (Format.double.units (e * 2 ^ 52 + r)) m ∧ m < 255 * 2 ^ 23 := by
  rw [magnitude?, if_neg he] at h
  by_cases hsmall : e < 897
  · rw [if_pos hsmall] at h
    obtain rfl := Option.some.inj h
    refine ⟨between_small hsmall hr, ?_⟩
    have hlt : (if e = 0 then r else 2 ^ 52 + r) ≤ 2 ^ 53 := by
      split_ifs <;> omega
    have hshift : 2 ^ 53 ≤ 2 ^ 24 * 2 ^ (29 + (897 - max e 1)) := by
      rw [← pow_add]
      exact Nat.pow_le_pow_right Nat.two_pos (by omega)
    exact (roundShift_le (hlt.trans hshift)).trans_lt (by decide)
  · rw [if_neg hsmall] at h
    obtain ⟨hfits, h⟩ := Option.ite_none_right_eq_some.mp h
    obtain rfl := Option.some.inj h
    exact ⟨between_normal (by omega) hr, hfits⟩

theorem narrows_special {s r m : Nat} (hs : s < 2)
    (h : magnitude? 2047 r = some m) :
    Narrows (if r = 0 then .infinite (s = 1) else .nan (s = 1) r) (.ofNat (s * 2 ^ 31 + m)) := by
  have hnumber : ∀ t < 2 ^ 23, Single.number (.ofNat (s * 2 ^ 31 + (255 * 2 ^ 23 + t))) =
      if t = 0 then .infinite (s = 1) else .nan (s = 1) (t * 2 ^ 29) := fun t ht =>
    (Single.number_ofNat hs (by omega)).trans (Format.single.number_top _ ht)
  rw [magnitude?, if_pos rfl] at h
  by_cases hzero : r = 0
  · rw [if_pos hzero] at h ⊢
    obtain rfl := Option.some.inj h
    exact .infinite ((hnumber 0 (by decide)).trans (if_pos rfl))
  · rw [if_neg hzero] at h ⊢
    obtain rfl := Option.some.inj h
    have hpayload : (2 ^ 22 + r / 2 ^ 29 % 2 ^ 22) * 2 ^ 29 =
        2 ^ 51 + r % 2 ^ 51 / 2 ^ 29 * 2 ^ 29 := by omega
    have hquiet := hnumber (2 ^ 22 + r / 2 ^ 29 % 2 ^ 22) (by omega)
    rw [if_neg (by omega), hpayload, ← Nat.add_assoc (255 * 2 ^ 23)] at hquiet
    exact .nan hquiet

theorem narrows_finite {s units m : Nat} (hs : s < 2) (h : Between units m)
    (hm : m < 255 * 2 ^ 23) : Narrows (.finite (s = 1) units) (.ofNat (s * 2 ^ 31 + m)) := by
  have hlt : s * 2 ^ 31 + m < 2 ^ 32 := by omega
  have hfinite : m / 2 ^ 23 ≠ 255 := by omega
  have hnumber := (Single.number_ofNat hs (by omega)).trans (Format.number_of_ne (s = 1) hfinite)
  refine .finite hnumber ?_ ?_
  · intro other q k hother
    obtain ⟨j, hj⟩ := Single.exists_magnitude hother
    have hclosest := (h.closest j).1
    rw [← hj] at hclosest
    exact Number.apart_le hclosest
  · intro other q k hother hne htie
    obtain ⟨j, hj⟩ := Single.exists_magnitude hother
    obtain ⟨hclosest, heven⟩ := h.closest j
    have hzero := (h.closest 0).1
    rw [Format.units_eq_zero_iff.mpr rfl, Int.natCast_zero, Int.sub_zero, Int.natAbs_natCast]
      at hzero
    rw [← hj] at hclosest heven
    obtain ⟨hunits, htie⟩ := Number.of_apart_eq hzero hclosest hne htie
    have hj : j ≠ m := fun hjm => hunits (hj.trans (congrArg _ hjm))
    have hm := heven hj htie
    rw [UInt32.toNat_ofNat_of_lt' hlt]
    omega

/-- A double that is accepted goes to the nearest single. -/
theorem narrows_of_toSingle? {x : DoubleBits} {single : SingleBits}
    (h : toSingle? x = some single) : Narrows (number x) single := by
  obtain ⟨hs, -, hf⟩ := parts_lt x
  obtain ⟨m, hm, rfl⟩ := Option.map_eq_some_iff.mp h
  by_cases hspecial : exponent x = 2047
  · rw [number_of_special hspecial]
    rw [hspecial] at hm
    exact narrows_special hs hm
  · obtain ⟨hbetween, hlt⟩ := between_magnitude? hspecial hf hm
    rw [number_of_finite hspecial]
    exact narrows_finite hs hbetween hlt

end Double

theorem Narrows.quiet {x : Number} {single : SingleBits} (h : Narrows x single) :
    Single.isSignalling single = false := by
  by_contra hsignalling
  simp only [Single.isSignalling, Bool.not_eq_false, ne_eq, decide_not, Bool.and_eq_true,
    decide_eq_true_eq, Bool.not_eq_true', decide_eq_false_iff_not] at hsignalling
  obtain ⟨⟨hspecial, hfraction⟩, hquiet⟩ := hsignalling
  have hnumber := Single.number_of_special hspecial
  rw [if_neg hfraction] at hnumber
  cases h with
  | infinite h | finite h => cases hnumber.symm.trans h
  | nan h =>
      have hpayload := (Number.nan.inj (hnumber.symm.trans h)).2
      omega

/-! ### Packing and decoding -/

namespace Single

/-- A single on the wire. -/
def bytes (single : SingleBits) : List UInt8 := 0xCA :: Layout.bigEndian 4 single.toNat

/-- Decoding the single gives its number, and packing that number gives the same bytes. -/
def Survives (single : SingleBits) : Prop :=
  ∀ (σ : Type) (c : Context σ), c.Live → bytes single <+: c.ahead →
    ∃ x, c.Decodes (.float x) 5 ∧ Double.number x = number single ∧
      (Value.float x).Packs (bytes single)

theorem denotes_bytes (single : SingleBits) :
    Denotes (bytes single) (.float (toDouble single)) := by
  have hd := Denotes.float32 (Layout.length_bigEndian 4 single.toNat)
  rwa [natural_bigEndian single.toNat_lt, UInt32.ofNat_toNat] at hd

theorem packs_bytes {x : DoubleBits} {single : SingleBits} (h : Double.toSingle? x = some single) :
    (Value.float x).Packs (bytes single) := by
  obtain ⟨f, hf, hcanonical⟩ := Frame.float_canonical h
  have hframe : Frame.float x = .ok { tag := 0xCA, width := 4, value := single.toNat } := by
    rw [Frame.float, ByteOrder.singlePattern, h]
    rfl
  obtain rfl := Except.ok.inj (hframe.symm.trans hf)
  have hpacks : (Value.float x).Packs (Frame.bytes _) := Value.packs_of_canonical hf hcanonical
  rwa [show Frame.bytes { tag := 0xCA, width := 4, value := single.toNat } = bytes single by
    simp [Frame.bytes, bytes]] at hpacks

theorem survives {single : SingleBits} (h : isSignalling single = false) : Survives single := by
  intro σ c hc hahead
  refine ⟨toDouble single, (Context.decodes_iff hc).mpr ⟨_, hahead, denotes_bytes single, ?_⟩,
    number_toDouble single, packs_bytes (toSingle?_toDouble h)⟩
  rw [bytes, List.length_cons, Layout.length_bigEndian]

end Single

section accepted

open Engine Packer

variable {σ : Type} {handler : Option (Handler σ)} {x : DoubleBits} {c d : Context σ}

/-- A double without a single is not written even where there is room. -/
theorem run_inscribe_ne_ok (h : Double.toSingle? x = none) :
    (inscribe (.float x) : Engine σ Unit).run c ≠ (.ok .ok, d) := by
  have hframe : Frame.float x = .error .floatTooLarge := by
    rw [Frame.float, ByteOrder.singlePattern, h]
    rfl
  have hlift : lift (Frame.float x) c = .error (.fault .floatTooLarge) c := by rw [hframe, lift]
  intro hrun
  cases ho : c.order with
  | none =>
      have horder : orderFor (.storeFloat 4) c = .error (.fault (.noOrder (.storeFloat 4))) c := by
        rw [orderFor, ho]
      rw [inscribe, run_of_error (bind_of_error horder)] at hrun
      cases hrun
  | some order =>
      have horder : orderFor (.storeFloat 4) c = .ok order c := by rw [orderFor, ho]
      rw [inscribe, run_of_error ((bind_of_ok horder).trans (bind_of_error hlift))] at hrun
      cases hrun

/-- A double that is packed as a single has one. -/
theorem exists_toSingle? (h : (pack handler (.float x)).run c = (.ok .ok, d)) :
    ∃ single, Double.toSingle? x = some single := by
  cases hs : Double.toSingle? x with
  | some single => exact ⟨single, rfl⟩
  | none =>
      have hpacks := packs_iff.mpr h
      generalize hresult : ((Except.ok Status.ok : Except Fault Status), d) = outcome at hpacks
      cases hpacks with
      | stopped => cases hresult
      | begun hc hplaces =>
          cases hplaces with
          | refused hv => cases hv
          | asks hv ha =>
              cases ha with
              | denied hshort hd =>
                  exact absurd (congrArg Prod.fst hresult).symm (hd.ne_ok nofun nofun)
              | given hg hw =>
                  rw [written_iff (hg.status_eq.trans hc) hv hg.le_limit] at hw
                  rw [← hw, ← run_eq] at hresult
                  exact absurd hresult.symm (run_inscribe_ne_ok hs)

end accepted

/-- Singles survive.  Decoding one that is not a signalling NaN and packing its number gives the
same bytes.  Packing a double, whatever makes room for it, writes the nearest single, and this
survives. -/
theorem singles_survive :
    (∀ single, Single.isSignalling single = false → Single.Survives single) ∧
      ∀ (σ : Type) (handler : Option (Handler σ)) (c d : Context σ) (x : DoubleBits),
        (Packer.pack handler (.float x)).run c = (.ok .ok, d) →
          ∃ single, Narrows (Double.number x) single ∧
            (Value.float x).Packs (Single.bytes single) ∧ Single.Survives single := by
  refine ⟨fun single => Single.survives, fun σ handler c d x h => ?_⟩
  obtain ⟨single, hs⟩ := exists_toSingle? h
  have hnarrows := Double.narrows_of_toSingle? hs
  exact ⟨single, hnarrows, Single.packs_bytes hs, Single.survives hnarrows.quiet⟩

/-- The smallest single above zero survives.  A double in the middle between two singles goes to the
even one, here upwards. -/
theorem singles_survive_middle :
    Single.isSignalling 1 = false ∧ Single.Survives 1 ∧
      ∃ c d : Context Unit, Context.new .packer {} #[0, 0, 0, 0, 0] 0 none () = .ok c ∧
        (Packer.pack none (.float 0x3FF0000030000000)).run c = (.ok .ok, d) ∧
        d.bytes = #[0xCA, 0x3F, 0x80, 0, 2] ∧
        ∃ single, Narrows (Double.number 0x3FF0000030000000) single ∧
          (Value.float 0x3FF0000030000000).Packs (Single.bytes single) ∧
          Single.Survives single := by
  have hpacked : ∃ c d : Context Unit,
      Context.new .packer {} #[0, 0, 0, 0, 0] 0 none () = .ok c ∧
        (Packer.pack none (.float 0x3FF0000030000000)).run c = (.ok .ok, d) ∧
        d.bytes = #[0xCA, 0x3F, 0x80, 0, 2] := ⟨_, _, rfl, rfl, rfl⟩
  obtain ⟨c, d, hnew, hrun, hbytes⟩ := hpacked
  exact ⟨rfl, singles_survive.1 1 rfl, c, d, hnew, hrun, hbytes,
    singles_survive.2 Unit none c d 0x3FF0000030000000 hrun⟩

end MessagePack
