import MessagePack.Proofs.Scan

/-! # Taking bytes apart into items

No complete item is a proper prefix of another, so bytes begin with at most one item
(`Denotes.unique`) and are a concatenation of items in at most one way.  The scan decides
which of four cases holds: nothing, an undefined tag, a complete item, or a proper prefix of
one.  `Factors.prefix_of_stuck` extends this to sequences of items: where no complete item
follows, the items so far are the longest such sequence. -/

namespace MessagePack

variable {b p p' rest : List UInt8} {i i' : Item Bytes} {is is' : List (Item Bytes)}

theorem Denotes.unique (h : Denotes p i) (h' : Denotes p' i') (hp : p <+: b) (hp' : p' <+: b) :
    p' = p ∧ i' = i := by
  obtain ⟨t, rfl⟩ := hp
  obtain ⟨t', ht⟩ := hp'
  obtain ⟨found, hs, hf⟩ := scan_append h t
  obtain ⟨found', hs', hf'⟩ := scan_append h' t'
  rw [ht, hs, Scan.complete.injEq] at hs'
  rw [ht, ← hs'.1, hf] at hf'
  exact ⟨(List.append_inj ht hs'.2.symm).1, hf'.symm⟩

/-! ### The four cases -/

namespace Scan

/-- The status that decoding ends with. -/
def status : Scan → Status
  | complete _ _ => .ok
  | ended => .endOfInput
  | truncated _ => .bufferUnderflow
  | malformed => .malformedInput

theorem status_eq_ok_iff {s : Scan} :
    s.status = .ok ↔ ∃ item length, s = complete item length := by
  cases s <;> simp [status, Status.ok, Status.endOfInput, Status.bufferUnderflow,
    Status.malformedInput]

theorem status_eq_endOfInput_iff {s : Scan} : s.status = .endOfInput ↔ s = ended := by
  cases s <;> simp [status, Status.ok, Status.endOfInput, Status.bufferUnderflow,
    Status.malformedInput]

theorem status_eq_bufferUnderflow_iff {s : Scan} :
    s.status = .bufferUnderflow ↔ ∃ place, s = truncated place := by
  cases s <;> simp [status, Status.ok, Status.endOfInput, Status.bufferUnderflow,
    Status.malformedInput]

theorem status_eq_malformedInput_iff {s : Scan} : s.status = .malformedInput ↔ s = malformed := by
  cases s <;> simp [status, Status.ok, Status.endOfInput, Status.bufferUnderflow,
    Status.malformedInput]

end Scan

theorem status_scan_eq_ok_iff : (scan b).status = .ok ↔ ∃ p i, p <+: b ∧ Denotes p i := by
  rw [Scan.status_eq_ok_iff]
  constructor
  · rintro ⟨item, length, h⟩
    have hs := h ▸ scan_holds b
    exact ⟨_, _, List.take_prefix _ _, hs.2.1⟩
  · rintro ⟨p, i, ⟨t, rfl⟩, h⟩
    obtain ⟨found, hs, -⟩ := scan_append h t
    exact ⟨found, _, hs⟩

theorem status_scan_eq_endOfInput_iff : (scan b).status = .endOfInput ↔ b = [] := by
  rw [Scan.status_eq_endOfInput_iff]
  constructor
  · intro h
    have hs := scan_holds b
    rwa [h] at hs
  · rintro rfl
    rfl

theorem status_scan_eq_malformedInput_iff :
    (scan b).status = .malformedInput ↔ b.head? = some 0xC1 := by
  rw [Scan.status_eq_malformedInput_iff]
  constructor
  · intro h
    have hs := scan_holds b
    rwa [h] at hs
  · intro h
    obtain ⟨tail, rfl⟩ := List.head?_eq_some_iff.mp h
    rfl

theorem status_scan_eq_bufferUnderflow_iff :
    (scan b).status = .bufferUnderflow ↔ b ≠ [] ∧ Unfinished b := by
  have hs := scan_holds b
  rw [Scan.status_eq_bufferUnderflow_iff]
  constructor
  · rintro ⟨place, h⟩
    rw [h] at hs
    exact hs.2
  · rintro ⟨hb, more, i, hm, hd⟩
    obtain ⟨found, hf, -⟩ := scan_append hd []
    rw [List.append_nil] at hf
    cases hc : scan b with
    | truncated place => exact ⟨place, rfl⟩
    | ended =>
        rw [hc] at hs
        exact absurd hs hb
    | malformed =>
        rw [hc] at hs
        obtain ⟨tail, rfl⟩ := List.head?_eq_some_iff.mp hs
        exact Scan.noConfusion hf
    | complete item length =>
        -- a complete item would be a proper prefix of the longer one
        rw [hc] at hs
        have hp : b.take length <+: b ++ more :=
          (List.take_prefix _ _).trans (List.prefix_append _ _)
        have hlen := congrArg List.length (hs.2.1.unique hd hp (List.prefix_refl _)).1
        rw [List.length_append, List.length_take] at hlen
        have := List.length_pos_iff.mpr hm
        omega

/-! ### Sequences of items -/

/-- The bytes are a concatenation of complete items. -/
inductive Factors : List UInt8 → List (Item Bytes) → Prop
  | nil : Factors [] []
  | cons {p b : List UInt8} {i : Item Bytes} {is : List (Item Bytes)} (h : Denotes p i)
      (hs : Factors b is) : Factors (p ++ b) (i :: is)

/-- The bytes do not begin with a complete item. -/
def Stuck (b : List UInt8) : Prop := ∀ p i, p <+: b → ¬ Denotes p i

theorem stuck_nil : Stuck [] := by
  intro p i hp h
  exact h.ne_nil (List.prefix_nil.mp hp)

/-- Items after which there is no complete one are the longest sequence that the bytes begin
with: any other is a prefix of it. -/
theorem Factors.prefix_of_stuck {front front' : List UInt8} (h' : Factors front' is')
    (h : Factors front is) (hr : Stuck rest) (hp : front' <+: front ++ rest) :
    front' <+: front ∧ is' <+: is := by
  induction h' generalizing front is with
  | nil => exact ⟨List.nil_prefix, List.nil_prefix⟩
  | @cons p' b' i' is' hd' hs' ih =>
      have hpre : p' <+: front ++ rest := (List.prefix_append _ _).trans hp
      cases h with
      | nil => exact absurd hd' (hr _ _ hpre)
      | @cons p b i is hd hs =>
          have hpre' : p <+: p ++ b ++ rest := by
            rw [List.append_assoc]
            exact List.prefix_append _ _
          obtain ⟨rfl, rfl⟩ := hd.unique hd' hpre' hpre
          rw [List.append_assoc, List.prefix_append_right_inj] at hp
          obtain ⟨h₁, h₂⟩ := ih hs hp
          exact ⟨(List.prefix_append_right_inj _).mpr h₁, List.cons_prefix_cons.mpr ⟨rfl, h₂⟩⟩

theorem Factors.unique (h : Factors b is) (h' : Factors b is') : is' = is := by
  have hp : b <+: b ++ [] := List.prefix_append _ _
  obtain ⟨-, h₁⟩ := h'.prefix_of_stuck h stuck_nil hp
  obtain ⟨-, h₂⟩ := h.prefix_of_stuck h' stuck_nil hp
  exact h₁.eq_of_length (Nat.le_antisymm h₁.length_le h₂.length_le)

end MessagePack
