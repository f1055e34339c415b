import MessagePack.Packer.Argument
import MessagePack.Proofs.Live

/-! # Requests

Packing what is given is packing a value, once its bytes are there (`Packer.run_give`).  Bytes and a
row of bytes always have them, and so have a text without surrogates and a contiguous view that has
one axis or an item (`Data.raw_ok_iff`).  They are as many as the length of what is given says
(`Data.size_of_raw`). -/

namespace MessagePack

variable {σ : Type}

/-! ### Views -/

namespace Axis

variable {axis : Axis} {axes : List Axis}

/-- The last item of a contiguous view is as far from the first one as their number tells. -/
theorem highest_of_rowMajor {itemSize : Nat} (h : rowMajor itemSize axes = true)
    (hextent : extent axes ≠ 0) : highest axes + itemSize = (extent axes * itemSize : Nat) := by
  induction axes with
  | nil => simp [highest, extent]
  | cons axis axes ih =>
      simp only [rowMajor, Bool.and_eq_true, Bool.or_eq_true, decide_eq_true_eq] at h
      obtain ⟨hstep, hrest⟩ := h
      have hcount : axis.count ≠ 0 := left_ne_zero_of_mul hextent
      have hinner := ih hrest (right_ne_zero_of_mul hextent)
      have hreach : axis.reach = (axis.count - 1) * (extent axes * itemSize : Nat) := by
        obtain hone | hstride := hstep
        · obtain hone : axis.count = 1 := by omega
          rw [reach, hone]
          simp
        · rw [reach, hstride]
      have hnonneg : 0 ≤ axis.reach := by
        rw [hreach]
        exact mul_nonneg (by omega) (Int.natCast_nonneg _)
      rw [highest, max_eq_right hnonneg, hreach, add_assoc, hinner, extent]
      push_cast
      ring

end Axis

namespace View

variable {v : View}

theorem rowMajor_of_contiguous (h : v.contiguous = true) (hsize : v.size ≠ 0) :
    Axis.rowMajor v.itemSize v.axes = true := by
  unfold contiguous at h
  split at h
  · next axis haxes =>
      rw [haxes]
      simp only [Bool.or_eq_true, decide_eq_true_eq] at h
      simp only [Axis.rowMajor, Axis.extent, one_mul, Bool.and_true, Bool.or_eq_true,
        decide_eq_true_eq]
      exact h.imp_left le_of_eq
  · simpa [hsize] using h

/-- The items of a contiguous view lie in the memory, one after another. -/
theorem le_of_contiguous (h : v.contiguous = true) (hsize : v.size ≠ 0) :
    v.offset + v.size ≤ v.memory.size := by
  have hextent : Axis.extent v.axes ≠ 0 := left_ne_zero_of_mul hsize
  have hhighest := Axis.highest_of_rowMajor (rowMajor_of_contiguous h hsize) hextent
  have hinside := (v.inside hextent).2
  unfold size
  omega

/-- A row of bytes, whatever its stride. -/
def IsRow (v : View) : Prop := v.format = "B" ∧ v.axes.length = 1

/-- A view whose bytes can be had: a row of bytes, or a contiguous view that has one axis or an
item. -/
def Castable (v : View) : Prop :=
  v.IsRow ∨ v.contiguous = true ∧ (v.axes.length = 1 ∨ Axis.extent v.axes ≠ 0)

theorem raw_of_not_isRow (h : ¬ v.IsRow) : v.raw = v.cast := by
  unfold raw
  split
  · next axis haxes => exact if_neg fun hformat => h ⟨hformat, by rw [haxes]; rfl⟩
  · rfl

/-- What the bytes of a view are. -/
inductive Cast (v : View) : Except Fault Bytes → Prop
  | row {axis : Axis} (hformat : v.format = "B") (haxes : v.axes = [axis]) :
      Cast v (.ok (v.row axis))
  | scattered (hrow : ¬ v.IsRow) (hcontiguous : v.contiguous = false) :
      Cast v (.error .notContiguous)
  | empty (hcontiguous : v.contiguous = true) (haxes : v.axes.length ≠ 1)
      (hextent : Axis.extent v.axes = 0) : Cast v (.error .zeroInShape)
  | whole (hrow : ¬ v.IsRow) (hcontiguous : v.contiguous = true)
      (haxes : v.axes.length = 1 ∨ Axis.extent v.axes ≠ 0) :
      Cast v (.ok (Bytes.slice v.memory v.offset (v.offset + v.size)))

theorem cast_raw (v : View) : Cast v v.raw := by
  by_cases hrow : v.IsRow
  · obtain ⟨hformat, hone⟩ := hrow
    obtain ⟨axis, haxes⟩ := List.length_eq_one_iff.mp hone
    have hraw : v.raw = .ok (v.row axis) := by
      unfold raw
      rw [haxes]
      exact if_pos hformat
    rw [hraw]
    exact .row hformat haxes
  · rw [raw_of_not_isRow hrow]
    unfold cast
    split_ifs with hcontiguous hempty
    · exact .empty hcontiguous hempty.1 hempty.2
    · exact .whole hrow hcontiguous (by tauto)
    · exact .scattered hrow (Bool.eq_false_iff.mpr hcontiguous)

theorem cast_iff {result : Except Fault Bytes} : Cast v result ↔ v.raw = result := by
  refine ⟨fun h => ?_, fun h => h ▸ v.cast_raw⟩
  have hcast := v.cast_raw
  generalize v.raw = result' at hcast
  cases h <;> cases hcast <;> simp_all [IsRow]

/-- A view has its bytes if and only if it can be cast. -/
theorem raw_ok_iff (v : View) : (∃ payload, v.raw = .ok payload) ↔ v.Castable := by
  have hcast := v.cast_raw
  generalize v.raw = result at hcast
  cases hcast with
  | row hformat haxes => exact ⟨fun _ => .inl ⟨hformat, by rw [haxes]; rfl⟩, fun _ => ⟨_, rfl⟩⟩
  | scattered hrow hcontiguous => simp [Castable, hrow, hcontiguous]
  | empty hcontiguous haxes hextent => simp [Castable, IsRow, haxes, hextent]
  | whole hrow hcontiguous haxes =>
      exact ⟨fun _ => .inr ⟨hcontiguous, haxes⟩, fun _ => ⟨_, rfl⟩⟩

theorem size_of_raw {payload : Bytes} (h : v.raw = .ok payload) : payload.size = v.size := by
  have hcast := cast_raw v
  rw [h] at hcast
  cases hcast with
  | row hformat haxes => simp [size, haxes, Axis.extent, v.itemSize_octet hformat, row]
  | whole hrow hcontiguous =>
      rw [Bytes.size_slice]
      by_cases hsize : v.size = 0
      · omega
      · have hle := le_of_contiguous hcontiguous hsize
        omega

end View

namespace Data

/-- A payload whose bytes can be had. -/
def Castable : Data → Prop
  | text points => ∀ point ∈ points, point.isSurrogate = false
  | bytes _ => True
  | view v => v.Castable

/-- A payload has its bytes if and only if it can be cast. -/
theorem raw_ok_iff (data : Data) : (∃ payload, data.raw = .ok payload) ↔ data.Castable := by
  cases data with
  | text points =>
      rw [raw, CodePoint.encode, Castable]
      split_ifs with hany <;> simpa using hany
  | bytes payload => exact ⟨fun _ => trivial, fun _ => ⟨_, rfl⟩⟩
  | view v => exact v.raw_ok_iff

theorem size_of_raw {data : Data} {payload : Bytes} (h : data.raw = .ok payload) :
    payload.size = data.size := by
  cases data with
  | text points =>
      rw [raw, CodePoint.encode] at h
      split_ifs at h
      cases h
      rfl
  | bytes payload =>
      cases h
      rfl
  | view v => exact View.size_of_raw h

end Data

/-! ### Requests -/

namespace Packer

open Engine

variable {handler : Option (Handler σ)} {request : Request}

theorem run_give_of_latched {c : Context σ} (h : c.status ≠ .ok) :
    (give handler request).run c = (.ok .stopped, c) := run_of_latched h _

theorem run_give {v : Value} (h : request.value = .ok v) (c : Context σ) :
    (give handler request).run c = (pack handler v).run c := by
  by_cases hc : c.status = .ok
  · have hlift : lift request.value c = .ok v c := by rw [h, lift]
    have hgive : give handler request c = pack handler v c := by
      unfold give
      rw [bind_of_ok (running_eq hc), bind_of_ok hlift]
    rw [run, run, hgive]
  · rw [run_give_of_latched hc]
    exact (run_of_latched hc _).symm

theorem run_give_of_error {fault : Fault} (h : request.value = .error fault) (c : Context σ) :
    (give handler request).run c =
      (if c.status = .ok then .error fault else .ok .stopped, c) := by
  by_cases hc : c.status = .ok
  · have hlift : lift request.value c = .error (.fault fault) c := by rw [h, lift]
    have hgive : give handler request c = .error (.fault fault) c := by
      unfold give
      rw [bind_of_ok (running_eq hc), bind_of_error hlift]
    rw [run, hgive, if_pos hc]
  · rw [run_give_of_latched hc, if_neg hc]

end Packer
end MessagePack
