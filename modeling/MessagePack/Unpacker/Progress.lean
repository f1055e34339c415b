import MessagePack.Unpacker.Step

/-! # Progress

Reading or passing over an item leaves less to do: either the handler has spent
some of its budget, or the cursor has come closer to the end of the region.
This is why the loops over items end.

* `Unpacker.Less` compares what two contexts have left, the budget first.
* `decodeItem_less` and `skipItem_less` say that a complete item makes it less.
-/

namespace MessagePack
namespace Unpacker

variable {σ α β : Type} {s : Option (Supplier σ)}

/-- What the handler can still supply, and what is left of the region. -/
def rest (s : Option (Supplier σ)) (c : Context σ) : Nat × Nat :=
  (match s with
    | none => 0
    | some s => s.budget c.peer,
   c.limit - c.current)

/-- Less is left in the one context than in the other. -/
def Less (s : Option (Supplier σ)) (c' c : Context σ) : Prop :=
  Prod.Lex (· < ·) (· < ·) (rest s c') (rest s c)

/-- No more is left in the one context than in the other. -/
def Within (s : Option (Supplier σ)) (c' c : Context σ) : Prop :=
  Less s c' c ∨ rest s c' = rest s c

/-- A step that goes on leaves no more than it found. -/
def Progresses (s : Option (Supplier σ)) (step : Engine σ α) : Prop :=
  ∀ c a c', step c = .ok a c' → Within s c' c

theorem Less.trans {a b c : Context σ} (h₁ : Less s a b) (h₂ : Less s b c) : Less s a c := by
  simp only [Less, Prod.lex_def] at *
  omega

theorem Within.trans_less {a b c : Context σ} (h₁ : Within s a b) (h₂ : Less s b c) :
    Less s a c := by
  rcases h₁ with h | h
  · exact h.trans h₂
  · simpa only [Less, h] using h₂

theorem Within.trans {a b c : Context σ} (h₁ : Within s a b) (h₂ : Within s b c) :
    Within s a c := by
  rcases h₂ with h | h
  · exact .inl (h₁.trans_less h)
  · rcases h₁ with h' | h'
    · exact .inl (by simpa only [Less, h] using h')
    · exact .inr (h'.trans h)

theorem Within.refl (c : Context σ) : Within s c c := .inr rfl

theorem within_of_advance {c c' : Context σ} (hp : c'.peer = c.peer) (hl : c'.limit = c.limit)
    (hc : c.current ≤ c'.current) : Within s c' c := by
  simp only [Within, Less, rest, hp, hl, Prod.lex_def, Prod.mk.injEq, true_and]
  cases s <;> simp <;> omega

/-! ### Sequences of steps -/

theorem Progresses.bind {step : Engine σ α} {next : α → Engine σ β} (h : Progresses s step)
    (hn : ∀ a, Progresses s (next a)) : Progresses s (step >>= next) := by
  intro c b c' hb
  simp only [Bind.bind, EStateM.bind] at hb
  cases hs : step c with
  | error e d => simp [hs] at hb
  | ok a d =>
    simp only [hs] at hb
    exact (hn a d b c' hb).trans (h c a d hs)

theorem Progresses.pure (a : α) : Progresses s (Pure.pure a : Engine σ α) := by
  intro c b c' h
  simp only [Pure.pure, EStateM.pure, EStateM.Result.ok.injEq] at h
  exact h.2 ▸ Within.refl c

/-! ### Single steps -/

theorem progresses_get : Progresses s (get : Engine σ (Context σ)) := by
  intro c b c' h
  simp only [Engine.get_apply, EStateM.Result.ok.injEq] at h
  exact h.2 ▸ Within.refl c

theorem progresses_stop (status : Status) : Progresses s (Engine.stop status : Engine σ α) := by
  intro c b c' h
  simp [Engine.stop] at h

theorem progresses_orderFor (access : Access) :
    Progresses s (Engine.orderFor access : Engine σ ByteOrder) := by
  intro c b c' h
  simp only [Engine.orderFor] at h
  split at h
  · simp only [EStateM.Result.ok.injEq] at h
    exact h.2 ▸ Within.refl c
  · simp at h

theorem progresses_advance (n : Nat) : Progresses s (Engine.advance n : Engine σ Unit) := by
  intro c b c' h
  simp only [Engine.advance, EStateM.Result.ok.injEq] at h
  exact h.2 ▸ within_of_advance rfl rfl (Nat.le_add_right _ _)

theorem progresses_present (item : Item Span) :
    Progresses s (present item : Engine σ Unit) := by
  intro c b c' h
  simp only [present, EStateM.Result.ok.injEq] at h
  exact h.2 ▸ within_of_advance rfl rfl (Nat.le_refl _)

/-- A byte that was read moves the cursor on. -/
theorem readByte_ok {c c' : Context σ} {b : UInt8} (h : Engine.readByte c = .ok b c') :
    c' = { c with current := c.current + 1 } := by
  simp only [Engine.readByte] at h
  split at h
  · simp only [EStateM.Result.ok.injEq] at h
    exact h.2.symm
  · simp at h

theorem progresses_readByte : Progresses s (Engine.readByte : Engine σ UInt8) := by
  intro c b c' h
  rw [readByte_ok h]
  exact within_of_advance rfl rfl (Nat.le_add_right _ _)

/-- Bytes are available: from before, or because the handler has spent some of its budget. -/
theorem require_ok {n : Nat} {short : Status} {c c' : Context σ} {u : Unit}
    (h : require s n short c = .ok u c') :
    c'.current + n ≤ c'.limit ∧ (c' = c ∨ Less s c' c) := by
  unfold require Engine.ensure at h
  split at h
  · rename_i hle
    simp only [EStateM.Result.ok.injEq] at h
    obtain ⟨-, rfl⟩ := h
    exact ⟨hle, .inl rfl⟩
  · rename_i hshort
    cases s with
    | none => simp [Engine.stop] at h
    | some supplier =>
      simp only [Option.map_some] at h
      split at h
      · simp at h
      · rename_i answer d hd
        split at h
        · simp [Engine.stop] at h
        · rename_i hok
          have hok' : answer = .ok := Decidable.not_not.mp hok
          split at h
          · rename_i hle
            simp only [EStateM.Result.ok.injEq] at h
            obtain ⟨-, rfl⟩ := h
            subst hok'
            refine ⟨hle, .inr ?_⟩
            have hs := supplier.spends _ _ _ (Nat.not_le.mp hshort) hd
            simp only [Less, rest, Prod.lex_def]
            exact .inl hs
          · simp [Engine.stop] at h

theorem progresses_require (n : Nat) (short : Status) :
    Progresses s (require s n short : Engine σ Unit) := by
  intro c u c' h
  rcases (require_ok h).2 with rfl | h
  · exact Within.refl _
  · exact .inl h

/-- The first byte of an item is always paid for. -/
theorem readTag_less {c c' : Context σ} {tag : UInt8} (h : readTag s c = .ok tag c') :
    Less s c' c := by
  simp only [readTag, Bind.bind, EStateM.bind] at h
  cases hr : require s 1 .endOfInput c with
  | error e d => simp [hr] at h
  | ok u d =>
    simp only [hr] at h
    obtain ⟨hle, hd⟩ := require_ok hr
    have hb := readByte_ok h
    have hlt : Less s c' d := by
      subst hb
      simp only [Less, rest, Prod.lex_def]
      refine .inr ⟨trivial, ?_⟩
      omega
    rcases hd with rfl | hd
    · exact hlt
    · exact hlt.trans hd

/-! ### Fields and payloads -/

theorem progresses_readField (width : Nat) :
    Progresses s (Engine.readField width : Engine σ Nat) := by
  unfold Engine.readField
  split
  · exact progresses_readByte.bind fun _ => .pure _
  · refine (progresses_orderFor _).bind fun order => ?_
    intro c n c' h
    simp only [Bind.bind, EStateM.bind, Engine.get_apply, Engine.lift] at h
    split at h
    · rename_i heq
      split at heq
      · simp only [EStateM.Result.ok.injEq] at heq
        simp only [Engine.set_apply, Pure.pure, EStateM.pure, EStateM.Result.ok.injEq] at h
        obtain ⟨-, rfl⟩ := h
        exact within_of_advance rfl rfl (Nat.le_add_right _ _)
      · simp at heq
    · simp at h

theorem progresses_readSingle : Progresses s (Engine.readSingle : Engine σ DoubleBits) := by
  unfold Engine.readSingle
  refine (progresses_orderFor _).bind fun order => ?_
  intro c n c' h
  simp only [Bind.bind, EStateM.bind, Engine.get_apply, Engine.lift] at h
  split at h
  · rename_i heq
    split at heq
    · simp only [Engine.set_apply, Pure.pure, EStateM.pure, EStateM.Result.ok.injEq] at h
      obtain ⟨-, rfl⟩ := h
      exact within_of_advance rfl rfl (Nat.le_add_right _ _)
    · simp at heq
  · simp at h

theorem progresses_readDouble : Progresses s (Engine.readDouble : Engine σ DoubleBits) := by
  unfold Engine.readDouble
  refine (progresses_orderFor _).bind fun order => ?_
  intro c n c' h
  simp only [Bind.bind, EStateM.bind, Engine.get_apply, Engine.lift] at h
  split at h
  · rename_i heq
    split at heq
    · simp only [Engine.set_apply, Pure.pure, EStateM.pure, EStateM.Result.ok.injEq] at h
      obtain ⟨-, rfl⟩ := h
      exact within_of_advance rfl rfl (Nat.le_add_right _ _)
    · simp at heq
  · simp at h

theorem progresses_presentPayload (make : Span → Item Span) (length : Nat) :
    Progresses s (presentPayload s make length) :=
  (progresses_require _ _).bind fun _ => progresses_get.bind fun _ =>
    (progresses_present _).bind fun _ => progresses_advance _

theorem progresses_readSubtype : Progresses s (Engine.readSubtype : Engine σ Int) :=
  progresses_readByte.bind fun _ => .pure _

theorem progresses_decodeField (field : Field) (width : Nat) :
    Progresses s (decodeField s field width) := by
  refine (progresses_require _ _).bind fun _ => ?_
  cases field with
  | float => exact progresses_readSingle.bind fun _ => progresses_present _
  | double => exact progresses_readDouble.bind fun _ => progresses_present _
  | unsigned | signed | array | map =>
    exact (progresses_readField _).bind fun _ => progresses_present _
  | str | bin => exact (progresses_readField _).bind fun _ => progresses_presentPayload _ _
  | ext =>
    exact (progresses_readField _).bind fun _ => (progresses_require _ _).bind fun _ =>
      progresses_readSubtype.bind fun _ => progresses_presentPayload _ _

theorem progresses_decodeRest (header : Header) : Progresses s (decodeRest s header) := by
  cases header with
  | whole item => exact progresses_present _
  | shortStr length => exact progresses_presentPayload _ _
  | fixExt length =>
    exact (progresses_require _ _).bind fun _ => progresses_readSubtype.bind fun _ =>
      progresses_presentPayload _ _
  | field field width => exact progresses_decodeField field width
  | undefined => exact progresses_stop _

theorem progresses_pass (n : Nat) : Progresses s (pass s n) :=
  (progresses_require _ _).bind fun _ => progresses_advance _

theorem progresses_readCount (width : Nat) : Progresses s (readCount s width) :=
  (progresses_require _ _).bind fun _ => progresses_readField _

theorem progresses_skipRest (header : Header) : Progresses s (skipRest s header) := by
  cases header with
  | whole item => cases item <;> exact .pure _
  | shortStr length | fixExt length => exact (progresses_pass _).bind fun _ => .pure _
  | undefined => exact progresses_stop _
  | field field width =>
    cases field with
    | unsigned | signed | float | double => exact (progresses_pass _).bind fun _ => .pure _
    | array => exact progresses_readCount _
    | map => exact (progresses_readCount _).bind fun _ => .pure _
    | str | bin | ext =>
      exact (progresses_readCount _).bind fun _ => (progresses_pass _).bind fun _ => .pure _

/-! ### Whole items -/

/-- A decoded item leaves less to do. -/
theorem decodeItem_less {c c' : Context σ} {u : Unit} (h : decodeItem s c = .ok u c') :
    Less s c' c := by
  simp only [decodeItem, Bind.bind, EStateM.bind] at h
  cases ht : readTag s c with
  | error e d => simp [ht] at h
  | ok tag d =>
    simp only [ht] at h
    exact (progresses_decodeRest _ _ _ _ h).trans_less (readTag_less ht)

/-- An item that was passed over leaves less to do. -/
theorem skipItem_less {c c' : Context σ} {more : Nat} (h : skipItem s c = .ok more c') :
    Less s c' c := by
  simp only [skipItem, Bind.bind, EStateM.bind] at h
  cases ht : readTag s c with
  | error e d => simp [ht] at h
  | ok tag d =>
    simp only [ht] at h
    exact (progresses_skipRest _ _ _ _ h).trans_less (readTag_less ht)

end Unpacker
end MessagePack
