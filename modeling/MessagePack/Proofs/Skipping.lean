import MessagePack.Proofs.Decoding
import MessagePack.Proofs.Factoring

/-! # Skipping agrees with decoding

A nested value is an item with all that it contains: an array of size `n` is followed by `n`
nested values, a map of size `n` by twice as many.  `ReadsNested` reads nested values with
`decode`, one within the other.  `skip` never decodes, and counts the items still to pass
instead of nesting; still it stops with the same status, and except for a truncated item at the
same place (`skip_agrees`).

The simulation is by induction on the reading: the contents of an item are a part of the count
that the loop of `skip` works off first (`skipLoop_add`). -/

namespace MessagePack

variable {σ : Type}

/-- The number of nested values that an item contains. -/
def Item.contents {π : Type} : Item π → Nat
  | array n => n
  | map n => 2 * n
  | _ => 0

@[simp] theorem Item.contents_mapPayload {π ρ : Type} (f : π → ρ) (i : Item π) :
    (i.mapPayload f).contents = i.contents := by
  cases i <;> rfl

@[simp] theorem Blob.contents_item {π : Type} (kind : Blob) (p : π) :
    (kind.item p).contents = 0 := by
  cases kind <;> rfl

theorem Item.contents_ofSigned {π : Type} (width n : Nat) :
    (Item.ofSigned width n : Item π).contents = 0 := by
  unfold Item.ofSigned
  split <;> rfl

/-- What passing over one item makes of a context whose unread bytes are scanned like this.  In a
truncated item it may stop at another place than decoding does. -/
def Scan.Skipped (c : Context σ) (r : EStateM.Result Halt (Context σ) Nat) : Scan → Prop
  | .complete item length => r = .ok item.contents (c.forward length)
  | .ended => r = Engine.stop .endOfInput c
  | .truncated _ => ∃ k, r = Engine.stop .bufferUnderflow (c.forward k)
  | .malformed => r = Engine.stop .malformedInput (c.forward 1)

namespace Unpacker

open Engine

/-! ### One item -/

section one

variable {c : Context σ} (hc : c.Live)

include hc

theorem pass_of_le {k n : Nat} (h : k + n ≤ c.ahead.length) :
    pass none n (c.forward k) = .ok () (c.forward (k + n)) := by
  rw [pass, bind_of_ok (require_of_le hc h _), ← Context.forward_forward]
  rfl

theorem pass_of_lt {k n : Nat} (h : c.ahead.length < k + n) :
    pass none n (c.forward k) = stop .bufferUnderflow (c.forward k) := by
  rw [pass, bind_of_error (require_of_lt hc h _)]
  rfl

theorem readCount_of_le {k width : Nat} (h : k + width ≤ c.ahead.length) :
    readCount none width (c.forward k) =
      .ok (Layout.ofBigEndian ((c.ahead.drop k).take width)) (c.forward (k + width)) := by
  rw [readCount, bind_of_ok (require_of_le hc h _), readField_forward hc h]

theorem readCount_of_lt {k width : Nat} (h : c.ahead.length < k + width) :
    readCount none width (c.forward k) = stop .bufferUnderflow (c.forward k) := by
  rw [readCount, bind_of_error (require_of_lt hc h _)]
  rfl

theorem skipped_payload (kind : Blob) (k n : Nat) :
    (scanPayload kind k n c.ahead).Skipped c
      ((do pass none n; return 0 : Engine σ Nat) (c.forward k)) := by
  unfold scanPayload
  split_ifs with h
  · rw [bind_of_ok (pass_of_le hc h), Scan.Skipped, Blob.contents_item]
    rfl
  · rw [bind_of_error (pass_of_lt hc (Nat.not_le.mp h))]
    exact ⟨k, rfl⟩

theorem skipped_ext (k n : Nat) :
    (scanExt k n c.ahead).Skipped c
      ((do pass none (1 + n); return 0 : Engine σ Nat) (c.forward k)) := by
  have hscan : ∀ type, c.ahead[k]? = some type →
      scanExt k n c.ahead = scanPayload (.ext (twosComplement 1 type.toNat)) (k + 1) n c.ahead := by
    intro type h
    rw [scanExt, h]
  rcases Nat.lt_or_ge c.ahead.length (k + (1 + n)) with h | h
  · rw [bind_of_error (pass_of_lt hc h)]
    cases ht : c.ahead[k]? with
    | none =>
        rw [scanExt, ht]
        exact ⟨k, rfl⟩
    | some type =>
        rw [hscan type ht, scanPayload, if_neg (by omega)]
        exact ⟨k, rfl⟩
  · have ht : c.ahead[k]? = some c.ahead[k] := List.getElem?_eq_getElem (by omega)
    rw [hscan _ ht, scanPayload, if_pos (by omega), bind_of_ok (pass_of_le hc h), Scan.Skipped,
      Blob.contents_item, Nat.add_assoc]
    rfl

theorem skipped_field (field : Field) (width : Nat) :
    (scanField field width c.ahead).Skipped c
      (skipRest none (.field field width) (c.forward 1)) := by
  unfold scanField
  split_ifs with h
  · have hp : (do pass none width; return 0 : Engine σ Nat) (c.forward 1) =
        .ok 0 (c.forward (1 + width)) := bind_of_ok (pass_of_le hc h)
    have hr := readCount_of_le hc h
    generalize Layout.ofBigEndian ((c.ahead.drop 1).take width) = n at hr ⊢
    cases field with
    | unsigned | float | double => exact hp
    | signed => exact hp.trans (by rw [Item.contents_ofSigned])
    | array => exact hr
    | map => exact bind_of_ok hr
    | str =>
        have e : skipRest none (.field .str width) (c.forward 1) = _ := bind_of_ok hr
        rw [e]
        exact skipped_payload hc .str (1 + width) n
    | bin =>
        have e : skipRest none (.field .bin width) (c.forward 1) = _ := bind_of_ok hr
        rw [e]
        exact skipped_payload hc .bin (1 + width) n
    | ext =>
        have e : skipRest none (.field .ext width) (c.forward 1) = _ := bind_of_ok hr
        rw [e, Nat.add_comm n 1]
        exact skipped_ext hc (1 + width) n
  · have h' := Nat.not_le.mp h
    refine ⟨1, ?_⟩
    cases field with
    | unsigned | signed | float | double => exact bind_of_error (pass_of_lt hc h')
    | array => exact readCount_of_lt hc h'
    | map | str | bin | ext => exact bind_of_error (readCount_of_lt hc h')

theorem skipped_rest (tag : UInt8) :
    (scanRest (Header.ofTag tag) c.ahead).Skipped c
      (skipRest none (Header.ofTag tag) (c.forward 1)) := by
  cases Header.ofTag tag with
  | whole item => cases item <;> rfl
  | shortStr n => exact skipped_payload hc .str 1 n
  | fixExt n => exact skipped_ext hc 1 n
  | field field width => exact skipped_field hc field width
  | undefined => rfl

/-- Passing over an item does to a live context what the scan of its unread bytes says. -/
theorem skipped_item : (scan c.ahead).Skipped c (skipItem none c) := by
  unfold skipItem
  cases hb : c.ahead with
  | nil => exact bind_of_error (readTag_of_nil hc hb)
  | cons tag rest =>
      have hr := skipped_rest hc tag
      rw [hb] at hr
      rwa [bind_of_ok (readTag_of_cons hc hb)]

end one

/-! ### The loop over a count -/

section loop

variable {s : Option (Supplier σ)} {c d : Context σ}

theorem skipLoop_of_ok {count more : Nat} (h : skipItem s c = .ok more d) :
    skipLoop s (count + 1) c = skipLoop s (count + more) d := by
  rw [skipLoop]
  split
  · rename_i more' e heq
    rw [h] at heq
    obtain ⟨rfl, rfl⟩ := by simpa using heq
    rfl
  · rename_i halt e heq
    simp [h] at heq

theorem skipLoop_of_error {count : Nat} {halt : Halt} (h : skipItem s c = .error halt d) :
    skipLoop s (count + 1) c = .error halt d := by
  rw [skipLoop]
  split
  · rename_i more' e heq
    simp [h] at heq
  · rename_i halt' e heq
    rw [h] at heq
    obtain ⟨rfl, rfl⟩ := by simpa using heq
    rfl

theorem skipLoop_add (m n : Nat) (c : Context σ) :
    skipLoop s (m + n) c =
      match skipLoop s m c with
      | .ok () d => skipLoop s n d
      | .error halt d => .error halt d := by
  fun_induction skipLoop s m c with
  | case1 c => rw [Nat.zero_add]
  | case2 c m more d hitem ih =>
      rw [Nat.succ_add, skipLoop_of_ok hitem, Nat.add_right_comm, ih]
  | case3 c m halt d hitem => rw [Nat.succ_add, skipLoop_of_error hitem]

end loop

theorem skip_eq {c : Context σ} (hc : c.Live) (count : Int) :
    skip none count c = skipLoop none count.toNat c := bind_of_ok (running_eq hc.status_eq)

/-! ### Nested values -/

/-- Decoding reads this item and leaves this context. -/
def Reads (c : Context σ) (item : Item Span) (d : Context σ) : Prop :=
  (decode none).run c = (.ok .ok, d) ∧ d.item = some item

/-- Decoding cannot read an item, and leaves this context. -/
def Stops (c : Context σ) (status : Status) (d : Context σ) : Prop :=
  (decode none).run c = (.ok status, d) ∧ status ≠ .ok

/-- Decoding `count` nested values one by one ends with this status and this context. -/
inductive ReadsNested : Nat → Context σ → Status → Context σ → Prop
  | done (c : Context σ) : ReadsNested 0 c .ok c
  /-- The next item cannot be read. -/
  | stop {n : Nat} {c d : Context σ} {status : Status} (h : Stops c status d) :
      ReadsNested (n + 1) c status d
  /-- The next item can be read, but not all that it contains. -/
  | within {n : Nat} {c d e : Context σ} {item : Item Span} {status : Status}
      (h : Reads c item d) (hin : ReadsNested item.contents d status e) (hs : status ≠ .ok) :
      ReadsNested (n + 1) c status e
  | next {n : Nat} {c d e f : Context σ} {item : Item Span} {status : Status}
      (h : Reads c item d) (hin : ReadsNested item.contents d .ok e)
      (hnext : ReadsNested n e status f) : ReadsNested (n + 1) c status f

theorem Reads.unique {c d d' : Context σ} {item item' : Item Span} (h : Reads c item d)
    (h' : Reads c item' d') : item' = item ∧ d' = d := by
  obtain rfl : d' = d := (Prod.ext_iff.mp (h'.1.symm.trans h.1)).2
  exact ⟨Option.some.inj (h'.2.symm.trans h.2), rfl⟩

theorem Stops.unique {c d d' : Context σ} {s s' : Status} (h : Stops c s d)
    (h' : Stops c s' d') : s' = s ∧ d' = d := by
  rw [Stops, h.1, Prod.mk.injEq, Except.ok.injEq] at h'
  exact ⟨h'.1.1.symm, h'.1.2.symm⟩

theorem Reads.not_stops {c d d' : Context σ} {item : Item Span} {s : Status} (h : Reads c item d) :
    ¬ Stops c s d' := by
  rintro ⟨h', hs⟩
  rw [h.1, Prod.mk.injEq, Except.ok.injEq] at h'
  exact hs h'.1.symm

theorem ReadsNested.unique {n : Nat} {c d d' : Context σ} {s s' : Status}
    (h : ReadsNested n c s d) (h' : ReadsNested n c s' d') : s' = s ∧ d' = d := by
  induction h generalizing s' d' with
  | done c =>
      cases h'
      exact ⟨rfl, rfl⟩
  | stop h =>
      cases h' with
      | stop h' => exact h.unique h'
      | within h' | next h' => exact absurd h h'.not_stops
  | within h hin hs ih =>
      cases h' with
      | stop h' => exact absurd h' h.not_stops
      | within h' hin' hs' =>
          obtain ⟨rfl, rfl⟩ := h.unique h'
          exact ih hin'
      | next h' hin' hnext' =>
          obtain ⟨rfl, rfl⟩ := h.unique h'
          exact absurd (ih hin').1.symm hs
  | next h hin hnext ih ihn =>
      cases h' with
      | stop h' => exact absurd h' h.not_stops
      | within h' hin' hs' =>
          obtain ⟨rfl, rfl⟩ := h.unique h'
          exact absurd (ih hin').1 hs'
      | next h' hin' hnext' =>
          obtain ⟨rfl, rfl⟩ := h.unique h'
          obtain ⟨-, rfl⟩ := ih hin'
          exact ihn hnext'

/-! ### The simulation -/

/-- What skipping comes to where a reading of nested values ends with `status` in `d`: it ends
likewise, except that a truncated item may leave its cursor elsewhere. -/
inductive Agrees (item : Option (Item Span)) :
    Status → Context σ → EStateM.Result Halt (Context σ) Unit → Prop
  | passed {d : Context σ} (hd : d.Live) : Agrees item .ok d (.ok () (d.holding item))
  | stopped {status : Status} {d e : Context σ}
      (hs : status ∈ [.endOfInput, .bufferUnderflow, .malformedInput]) (hi : e.item = item)
      (he : status ≠ .bufferUnderflow → e.current = d.current) :
      Agrees item status d (.error (.status status) e)

section simulation

variable {c d : Context σ} {status : Status} (hc : c.Live)

include hc

theorem reads_or_stops : (∃ item d, Reads c item d) ∨ ∃ status d, Stops c status d := by
  have h := run_decode_eq hc
  cases hs : scan c.ahead with
  | complete item length => exact .inl ⟨_, _, h.trans (by rw [hs]), rfl⟩
  | ended => exact .inr ⟨.endOfInput, _, h.trans (by rw [hs]), by decide⟩
  | truncated place => exact .inr ⟨.bufferUnderflow, _, h.trans (by rw [hs]), by decide⟩
  | malformed => exact .inr ⟨.malformedInput, _, h.trans (by rw [hs]), by decide⟩

theorem Reads.skipItem {i : Item Span} (h : Reads c i d) (item : Option (Item Span)) :
    d.Live ∧ d.ahead.length < c.ahead.length ∧
      skipItem none (c.holding item) = .ok i.contents (d.holding item) := by
  obtain ⟨hrun, hi⟩ := h
  have hskip : (scan c.ahead).Skipped (c.holding item) _ := skipped_item (hc.holding item)
  have hholds := scan_holds c.ahead
  rw [run_decode_eq hc] at hrun
  cases hs : scan c.ahead with
  | complete found length =>
      rw [hs] at hrun hskip hholds
      obtain rfl := (Prod.ext_iff.mp hrun).2
      obtain rfl : c.place found = i := Option.some.inj hi
      have hpos := List.length_pos_iff.mpr hholds.2.1.ne_nil
      rw [List.length_take] at hpos
      refine ⟨live_decoded hc hholds.1 _, ?_, ?_⟩
      · show (c.forward length).ahead.length < _
        rw [Context.ahead_forward, List.length_drop]
        omega
      · rw [hskip, Context.place, Item.contents_mapPayload]
        rfl
  | ended | truncated | malformed =>
      rw [hs, Prod.mk.injEq] at hrun
      exact absurd hrun.1 (by decide)

theorem Stops.skipItem (h : Stops c status d) (item : Option (Item Span)) :
    status ∈ [.endOfInput, .bufferUnderflow, .malformedInput] ∧
      ∃ e, skipItem none (c.holding item) = .error (.status status) e ∧ e.item = item ∧
        (status ≠ .bufferUnderflow → e.current = d.current) := by
  obtain ⟨hrun, hne⟩ := h
  have hskip : (scan c.ahead).Skipped (c.holding item) _ := skipped_item (hc.holding item)
  rw [run_decode_eq hc] at hrun
  cases hs : scan c.ahead with
  | complete found length =>
      rw [hs, Prod.mk.injEq, Except.ok.injEq] at hrun
      exact absurd hrun.1.symm hne
  | ended | malformed =>
      rw [hs, Prod.mk.injEq, Except.ok.injEq] at hrun
      rw [hs] at hskip
      obtain ⟨rfl, rfl⟩ := hrun
      exact ⟨by decide, _, hskip, rfl, fun _ => rfl⟩
  | truncated place =>
      rw [hs, Prod.mk.injEq, Except.ok.injEq] at hrun
      rw [hs] at hskip
      obtain ⟨rfl, rfl⟩ := hrun
      obtain ⟨k, hskip⟩ := hskip
      exact ⟨by decide, _, hskip, rfl, fun h => absurd rfl h⟩

theorem exists_readsNested (n : Nat) :
    ∃ status d, ReadsNested n c status d ∧
      (status = .ok → d.Live ∧ d.ahead.length ≤ c.ahead.length) := by
  generalize hl : c.ahead.length = l
  induction l using Nat.strongRecOn generalizing c n with
  | ind l ih =>
      subst hl
      cases n with
      | zero => exact ⟨.ok, c, .done c, fun _ => ⟨hc, Nat.le_refl _⟩⟩
      | succ n =>
          obtain ⟨i, d, h⟩ | ⟨status, d, h⟩ := reads_or_stops hc
          · obtain ⟨hd, hlt, -⟩ := h.skipItem hc none
            obtain ⟨status, e, hin, he⟩ := ih _ hlt hd i.contents rfl
            by_cases hs : status = .ok
            · subst hs
              obtain ⟨he, hle⟩ := he rfl
              obtain ⟨status, f, hn, hf⟩ := ih _ (Nat.lt_of_le_of_lt hle hlt) he n rfl
              refine ⟨status, f, .next h hin hn, fun hs => ?_⟩
              obtain ⟨hf, hle'⟩ := hf hs
              exact ⟨hf, by omega⟩
            · exact ⟨status, e, .within h hin hs, fun h => absurd h hs⟩
          · exact ⟨status, d, .stop h, fun hs => absurd hs h.2⟩

end simulation

/-- The loop of `skip` simulates the reading of nested values. -/
theorem ReadsNested.agrees {n : Nat} {c d : Context σ} {status : Status}
    (h : ReadsNested n c status d) (hc : c.Live) (item : Option (Item Span)) :
    Agrees item status d (skipLoop none n (c.holding item)) := by
  induction h with
  | done c =>
      rw [skipLoop]
      exact .passed hc
  | stop h =>
      obtain ⟨hs, e, hskip, hi, he⟩ := h.skipItem hc item
      rw [skipLoop_of_error hskip]
      exact .stopped hs hi he
  | within h hin hs ih =>
      obtain ⟨hd, -, hskip⟩ := h.skipItem hc item
      have hin := ih hd
      rw [skipLoop_of_ok hskip, Nat.add_comm, skipLoop_add]
      generalize skipLoop none _ _ = r at hin ⊢
      cases hin with
      | passed => exact absurd rfl hs
      | stopped hs' hi he => exact .stopped hs' hi he
  | next h hin hnext ih ihn =>
      obtain ⟨hd, -, hskip⟩ := h.skipItem hc item
      have hin := ih hd
      rw [skipLoop_of_ok hskip, Nat.add_comm, skipLoop_add]
      generalize skipLoop none _ _ = r at hin ⊢
      cases hin with
      | passed he => exact ihn he
      | stopped hs' => exact absurd hs' (by decide)

theorem run_skip_of_latched {s : Option (Supplier σ)} {count : Int} {c : Context σ}
    (h : c.status ≠ .ok) : (skip s count).run c = (.ok .stopped, c) := by
  have hs : skip s count c = .error (.status .stopped) c := bind_of_error (if_neg h)
  rw [Engine.run, hs]

/-- Skipping reports what a reading of as many nested values comes to, stops where it does, and
keeps the last item.  With a status latched it does nothing. -/
theorem skip_agrees {c : Context σ} (hc : c.Live) (count : Int) :
    (∃ status d, ReadsNested count.toNat c status d ∧
      ∀ status' d', ReadsNested count.toNat c status' d' → status' = status ∧ d' = d) ∧
    (∀ status, ((skip none count).run c).1 = .ok status ↔
      ∃ d, ReadsNested count.toNat c status d) ∧
    (∀ status d, ReadsNested count.toNat c status d →
      status ∈ [.ok, .endOfInput, .bufferUnderflow, .malformedInput] ∧
      (status ≠ .bufferUnderflow → ((skip none count).run c).2.current = d.current)) ∧
    ((skip none count).run c).2.item = c.item ∧
    (∀ status ≠ .ok,
      (skip none count).run { c with status } = (.ok .stopped, { c with status })) := by
  obtain ⟨status, d, h, -⟩ := exists_readsNested hc count.toNat
  have hunique : ∀ status' d', ReadsNested count.toNat c status' d' → status' = status ∧ d' = d :=
    fun _ _ h' => h.unique h'
  obtain ⟨hfst, hmem, hcurrent, hitem⟩ : ((skip none count).run c).1 = .ok status ∧
      status ∈ [.ok, .endOfInput, .bufferUnderflow, .malformedInput] ∧
      (status ≠ .bufferUnderflow → ((skip none count).run c).2.current = d.current) ∧
      ((skip none count).run c).2.item = c.item := by
    have ha : Agrees c.item status d (skipLoop none count.toNat c) := h.agrees hc c.item
    rw [Engine.run, skip_eq hc]
    generalize skipLoop none count.toNat c = r at ha
    cases ha with
    | passed => exact ⟨rfl, by decide, fun _ => rfl, rfl⟩
    | stopped hs hi he => exact ⟨rfl, List.mem_cons_of_mem _ hs, he, hi⟩
  refine ⟨⟨status, d, h, hunique⟩, fun s => ?_, fun s d' h' => ?_, hitem, fun s hs => ?_⟩
  · rw [hfst, Except.ok.injEq]
    constructor
    · rintro rfl
      exact ⟨d, h⟩
    · rintro ⟨d', h'⟩
      exact (hunique s d' h').1.symm
  · obtain ⟨rfl, rfl⟩ := hunique s d' h'
    exact ⟨hmem, hcurrent⟩
  · exact run_skip_of_latched hs

/-- The input ends where the second value of an inner map is expected. -/
theorem skip_agrees_truncated_map :
    ∃ c : Context Unit,
      Context.new .unpacker {} #[0x92, 0xC0, 0x81, 0x05] 0 none () = .ok c ∧ c.Live ∧
      ((skip none 1).run c).1 = .ok .endOfInput ∧ ((skip none 1).run c).2.current = 4 := by
  obtain ⟨c, c₁, c₂, c₃, c₄, d, h, hs, hr₁, hr₂, hr₃, hr₄, hstop, hcurrent⟩ :
      ∃ c c₁ c₂ c₃ c₄ d : Context Unit,
        Context.new .unpacker {} #[0x92, 0xC0, 0x81, 0x05] 0 none () = .ok c ∧ c.status = .ok ∧
        Reads c (.array 2) c₁ ∧ Reads c₁ .nil c₂ ∧ Reads c₂ (.map 1) c₃ ∧
        Reads c₃ (.positive 5) c₄ ∧ Stops c₄ .endOfInput d ∧ d.current = 4 :=
    ⟨_, _, _, _, _, _, rfl, rfl, ⟨rfl, rfl⟩, ⟨rfl, rfl⟩, ⟨rfl, rfl⟩, ⟨rfl, rfl⟩,
      ⟨rfl, by decide⟩, rfl⟩
  have hmap : ReadsNested 1 c₂ .endOfInput d :=
    .within hr₃ (.next hr₄ (.done _) (.stop hstop)) (by decide)
  have hd : ReadsNested 1 c .endOfInput d :=
    .within hr₁ (.next hr₂ (.done _) hmap) (by decide)
  have hc := Context.live_new h hs
  obtain ⟨-, hiff, hcursor, -⟩ := skip_agrees hc 1
  exact ⟨c, h, hc, (hiff _).mpr ⟨d, hd⟩, ((hcursor _ d hd).2 (by decide)).trans hcurrent⟩

end Unpacker
end MessagePack
