import MessagePack.Proofs.Overflowing

/-! # Packing into a region that is given

Without a handler, packing appends as long as there is room.  The values at the front that fit
together (`Packer.fitting`) are packed one after another, the next one overflows and writes nothing,
and the latch stops all others, however short they are.  So the packed bytes are the encodings of
the values that fit, and every other byte of the buffer stays as it is
(`Packer.packs_while_it_fits`).

The proof gives the outcome of a whole run in closed form (`packAll_fitting`): the encodings that
fit are appended at once, and the rest of the values is refused. -/

namespace MessagePack

variable {σ : Type}

namespace Packer

open Engine

/-! ### How many values fit -/

/-- How many of the values fit into so many bytes, one encoding after another. -/
def fitting (room : Nat) : List Value → Nat
  | [] => 0
  | v :: values =>
      if v.encoding.length ≤ room then fitting (room - v.encoding.length) values + 1 else 0

theorem fitting_le_length (room : Nat) (values : List Value) :
    fitting room values ≤ values.length := by
  induction values generalizing room with
  | nil => exact Nat.le_refl 0
  | cons v values ih =>
      rw [fitting]
      split_ifs
      · exact Nat.succ_le_succ (ih _)
      · exact Nat.zero_le _

/-- The first `k` values fit if and only if their encodings have no more bytes than there are. -/
theorem length_encodings_le_iff {room k : Nat} {values : List Value} (hk : k ≤ values.length) :
    ((values.take k).flatMap Value.encoding).length ≤ room ↔ k ≤ fitting room values := by
  induction values generalizing room k with
  | nil =>
      obtain rfl : k = 0 := Nat.le_zero.mp hk
      simp
  | cons v values ih =>
      cases k with
      | zero => simp
      | succ k =>
          have hrest := @ih (room - v.encoding.length) k (Nat.le_of_succ_le_succ hk)
          rw [List.take_succ_cons, List.flatMap_cons, List.length_append, fitting]
          split_ifs with hv <;> omega

/-! ### Values that are refused -/

/-- What values come to that are refused: the first one overflows, and the latch stops the
others. -/
def refusals : List Value → List (Except Fault Status)
  | [] => []
  | _ :: later => .ok .bufferOverflow :: later.map fun _ => .ok .stopped

theorem packAll_of_latched {handler : Option (Handler σ)} {c : Context σ} (hc : c.status ≠ .ok)
    (values : List Value) : packAll handler values c = (values.map fun _ => .ok .stopped, c) := by
  induction values with
  | nil => rfl
  | cons v values ih =>
      have hv : (pack handler v).run c = (.ok .stopped, c) := run_of_latched hc _
      rw [packAll, hv]
      dsimp only
      rw [ih]
      rfl

theorem run_pack_of_lt {v : Value} {f : Frame} {c : Context σ} (hc : c.status = .ok)
    (hv : v.frame = .ok f) (h : c.limit < c.current + f.size) :
    (pack none v).run c = (.ok .bufferOverflow, c.latch .bufferOverflow) := by
  have hr : reserve none f.size c = .error (.status .bufferOverflow) (c.latch .bufferOverflow) :=
    if_neg (Nat.not_le.mpr h)
  exact run_of_error (pack_of_reserve_error hc hv hr)

/-! ### Runs -/

/-- The outcome if the first `k` values fit, and the next one does not. -/
def filled (k : Nat) (values : List Value) (c : Context σ) :
    List (Except Fault Status) × Context σ :=
  let d := c.append ((values.take k).flatMap Value.encoding).toArray
  ((values.take k).map (fun _ => .ok .ok) ++ refusals (values.drop k),
    if values.length ≤ k then d else d.latch .bufferOverflow)

theorem append_empty (c : Context σ) : c.append #[] = c := by
  rw [Context.append, Bytes.splice_empty]
  rfl

theorem filled_succ {v : Value} {c : Context σ}
    (h : c.current + v.encoding.length ≤ c.bytes.size) (k : Nat) (values : List Value) :
    filled (k + 1) (v :: values) c =
      (.ok .ok :: (filled k values (c.append v.encoding.toArray)).1,
        (filled k values (c.append v.encoding.toArray)).2) := by
  have hbytes : c.append ((v.encoding ++ (values.take k).flatMap Value.encoding).toArray) =
      (c.append v.encoding.toArray).append ((values.take k).flatMap Value.encoding).toArray := by
    rw [Context.append_append (by simpa using h), List.append_toArray]
  simp only [filled, List.take_succ_cons, List.drop_succ_cons, List.flatMap_cons, List.map_cons,
    List.cons_append, List.length_cons, Nat.add_le_add_iff_right, hbytes]

/-- Packing values without a handler: the encodings of those that fit are appended, and the others
are refused. -/
theorem packAll_fitting {c : Context σ} (hc : c.Live) {values : List Value}
    (hvalid : ∀ v ∈ values, ∃ f, v.frame = .ok f) :
    packAll none values c = filled (fitting (c.limit - c.current) values) values c := by
  induction values generalizing c with
  | nil => simp [packAll, filled, refusals, append_empty]
  | cons v values ih =>
      obtain ⟨f, hv⟩ := hvalid v (List.mem_cons_self ..)
      have hsize : v.encoding.length = f.size := by rw [Value.encoding_eq hv, Frame.length_bytes]
      have hcurrent := hc.inBounds.current_le
      have hlimit := hc.inBounds.limit_le
      rw [packAll, fitting]
      by_cases h : c.current + f.size ≤ c.limit
      · have hrun : (pack none v).run c = (.ok .ok, c.append v.encoding.toArray) := by
          rw [Value.encoding_eq hv]
          exact run_of_ok (pack_append hv (Value.fits_of_frame hv) (hc.ready h))
        have hroom : (c.append v.encoding.toArray).limit - (c.append v.encoding.toArray).current =
            c.limit - c.current - v.encoding.length := by
          rw [Context.current_append, List.size_toArray, ← Nat.sub_sub]
          rfl
        have hlive : (c.append v.encoding.toArray).Live := by
          rw [Value.encoding_eq hv]
          exact hc.append_bytes h
        have hrest := ih hlive fun w hw => hvalid w (List.mem_cons_of_mem v hw)
        rw [hroom] at hrest
        rw [if_pos (by omega), filled_succ (by omega), hrun]
        dsimp only
        rw [hrest]
      · have hrun := run_pack_of_lt hc.status_eq hv (Nat.not_le.mp h)
        have hstopped : (c.latch .bufferOverflow).status ≠ .ok := by
          show Status.bufferOverflow ≠ .ok
          decide
        rw [if_neg (by omega), hrun]
        dsimp only
        rw [packAll_of_latched hstopped]
        simp [filled, refusals, append_empty]

theorem region_filled (k : Nat) (values : List Value) (c : Context σ) :
    let d := c.append ((values.take k).flatMap Value.encoding).toArray
    (filled k values c).2.buffer = d.buffer ∧ (filled k values c).2.start = d.start ∧
      (filled k values c).2.current = d.current ∧ (filled k values c).2.limit = d.limit := by
  unfold filled
  dsimp only
  split_ifs <;> exact ⟨rfl, rfl, rfl, rfl⟩

section outcome

variable {k : Nat} {values : List Value} {c : Context σ}

theorem pending_filled (hc : c.Live) :
    (filled k values c).2.pending = c.pending ++ (values.take k).flatMap Value.encoding := by
  obtain ⟨hbuffer, hstart, hcurrent, -⟩ := region_filled k values c
  rw [Context.pending, Region.done, Region.bytes, hbuffer, hstart, hcurrent]
  exact Context.pending_append hc _

variable (h : c.current + ((values.take k).flatMap Value.encoding).length ≤ c.bytes.size)

include h

theorem size_filled : (filled k values c).2.bytes.size = c.bytes.size := by
  obtain ⟨hbuffer, -⟩ := region_filled k values c
  rw [Region.bytes, hbuffer]
  exact Context.size_append (by rwa [List.size_toArray])

theorem getElem?_filled {i : Nat} (hi : i < c.current ∨ (filled k values c).2.current ≤ i) :
    (filled k values c).2.bytes[i]? = c.bytes[i]? := by
  obtain ⟨hbuffer, -, hcurrent, -⟩ := region_filled k values c
  rw [hcurrent, Context.current_append] at hi
  rw [Region.bytes, hbuffer]
  exact Bytes.getElem?_splice (by rwa [List.size_toArray]) hi

end outcome

theorem bind_range {c : Context σ} {order : ByteOrder} (h : c.assumptions.select = .ok (some order))
    {buffer : Buffer} {first last : Nat} (hfirst : first ≤ last)
    (hlast : last ≤ buffer.bytes.size) :
    ∃ d, c.bind buffer first (some last) = (.ok .ok, d) ∧ d.Live ∧ d.buffer = buffer ∧
      d.start = first ∧ d.current = first ∧ d.limit = last := by
  have hrange : Context.range? buffer.bytes.size first (some (last : Int)) = .ok (first, last) := by
    simp [Context.range?, hfirst, hlast]
  have hbind : c.bind buffer first (some last) = (.ok .ok, { c with
      buffer, start := first, current := first, limit := last
      status := .ok, errorNumber := 0, fault := none, order := some order }) := by
    unfold Context.bind
    simp only [hrange, h]
  exact ⟨_, hbind, Context.live_bind hbind rfl, rfl, rfl, rfl, rfl⟩

/-- Packing into a region that is given.  Bind any context to a range of a buffer, and pack values
that have encodings.  The first `k` of them fit, and `k` is as large as it can be: they are packed,
the next one overflows, and all others are stopped.  The packed bytes are the encodings of the
first `k` values.  The bytes before the region and from the cursor on, also beyond the end of the
region, are what they were; the region and the size of the buffer are the same. -/
theorem packs_while_it_fits {c₀ : Context σ} {order : ByteOrder} {buffer : Buffer}
    {first last : Nat} {values : List Value}
    (horder : c₀.assumptions.select = .ok (some order)) (hfirst : first ≤ last)
    (hlast : last ≤ buffer.bytes.size) (hvalid : ∀ v ∈ values, ∃ f, v.frame = .ok f) :
    ∃ (c d : Context σ) (results : List (Except Fault Status)) (k : Nat),
      c₀.bind buffer first (some last) = (.ok .ok, c) ∧
      packAll none values c = (results, d) ∧
      k ≤ values.length ∧
      (∀ j ≤ values.length,
        ((values.take j).flatMap Value.encoding).length ≤ last - first ↔ j ≤ k) ∧
      results = (values.take k).map (fun _ => .ok .ok) ++ refusals (values.drop k) ∧
      d.done.toList = (values.take k).flatMap Value.encoding ∧
      (∀ i, i < first ∨ d.current ≤ i → d.bytes[i]? = buffer.bytes[i]?) ∧
      d.start = first ∧ d.limit = last ∧ d.bytes.size = buffer.bytes.size := by
  obtain ⟨c, hbind, hlive, rfl, rfl, hcurrent, rfl⟩ := bind_range horder hfirst hlast
  have hrun := packAll_fitting hlive hvalid
  rw [hcurrent] at hrun
  have hk := fitting_le_length (c.limit - c.start) values
  have hfits : ∀ j ≤ values.length, ((values.take j).flatMap Value.encoding).length ≤
      c.limit - c.start ↔ j ≤ fitting (c.limit - c.start) values :=
    fun j hj => length_encodings_le_iff hj
  generalize fitting (c.limit - c.start) values = k at hk hfits hrun
  obtain ⟨-, hstart, -, hlimit⟩ := region_filled k values c
  have hinside : c.current + ((values.take k).flatMap Value.encoding).length ≤ c.bytes.size := by
    have hle := (hfits k hk).mpr (Nat.le_refl k)
    have hlimit := hlive.inBounds.limit_le
    omega
  refine ⟨c, _, _, k, hbind, hrun, hk, hfits, rfl, ?_, ?_, hstart, hlimit, size_filled hinside⟩
  · show (filled k values c).2.pending = _
    rw [pending_filled hlive, Context.pending_eq_nil hcurrent, List.nil_append]
  · intro i hi
    rw [← hcurrent] at hi
    exact getElem?_filled hinside hi

/-- A text is packed into a part of a buffer.  The number after it is one byte too long, and nil,
which would fit, is stopped. -/
theorem packs_while_it_fits_inside :
    ∃ (blank c d : Context Unit) (results : List (Except Fault Status)),
      blank.bind ⟨#[0xE0, 0xE1, 0xE2, 0xE3, 0xE4, 0xE5], #[]⟩ (1 : Nat) (some (5 : Nat)) =
        (.ok .ok, c) ∧
      packAll none [.str #[0x61, 0x62], .unsigned 200, .nil] c = (results, d) ∧
      results = [.ok .ok, .ok .bufferOverflow, .ok .stopped] ∧
      d.done.toList = [0xA2, 0x61, 0x62] ∧ d.bytes[0]? = some 0xE0 ∧
      ∀ i, d.current ≤ i → d.bytes[i]? = #[0xE0, 0xE1, 0xE2, 0xE3, 0xE4, 0xE5][i]? := by
  have hvalid : ∀ v ∈ [Value.str #[0x61, 0x62], .unsigned 200, .nil], ∃ f, v.frame = .ok f := by
    simp only [List.forall_mem_cons]
    exact ⟨⟨_, rfl⟩, ⟨_, rfl⟩, ⟨_, rfl⟩, List.forall_mem_nil _⟩
  let blank : Context Unit :=
    { kind := .packer, assumptions := {}, buffer := ⟨#[], #[]⟩, peer := () }
  obtain ⟨c, d, results, k, hbind, hrun, hk, hfits, hresults, hdone, hframe, -⟩ :=
    @packs_while_it_fits Unit blank .swapped ⟨#[0xE0, 0xE1, 0xE2, 0xE3, 0xE4, 0xE5], #[]⟩ 1 5
      [.str #[0x61, 0x62], .unsigned 200, .nil] rfl (by decide) (by decide) hvalid
  obtain rfl : k = 1 := by
    have hone : 1 ≤ k := (hfits 1 (by decide)).mp (by decide)
    have htwo : ¬ 2 ≤ k := fun h => absurd ((hfits 2 (by decide)).mpr h) (by decide)
    omega
  exact ⟨blank, c, d, results, hbind, hrun, hresults, hdone, hframe 0 (.inl (by decide)),
    fun i hi => hframe i (.inr hi)⟩

end Packer
end MessagePack
