import MessagePack.Proofs.Answering
import MessagePack.Proofs.Mirroring

/-! # Finite runs

A supplier runs out, and a handler need not.  But it becomes a supplier if it is only asked a
limited number of times, after which the input ends (`Handler.limited`).

A call that comes to an end has asked its handler a finite number of times.  With a limit that is
large enough it comes to the same, so what is true of all suppliers is true of every call that ends,
whatever its handler is (`Unpacker.decoded_limited`, `Unpacker.skipped_limited`).  In particular,
there is only one thing that it can come to (`Unpacker.Decoded.unique`,
`Unpacker.Skipped.unique`). -/

namespace MessagePack

open Engine Unpacker

variable {σ α β : Type}

/-- The handler answers as often as the number says that is kept behind it.  Then the input ends. -/
def Handler.limited (respond : Handler σ) : Supplier (σ × Nat) where
  respond n r :=
    match r.peer.2 with
    | 0 => (.ok .endOfInput, r)
    | left + 1 =>
      Prod.map id (fun r => r.mapPeer fun peer => (peer, left)) (respond n (r.mapPeer Prod.fst))
  budget := Prod.snd
  spends n r r' _ h := by
    split at h
    · cases h
    · next left hleft =>
        obtain ⟨-, rfl⟩ := Prod.mk.inj h
        rw [hleft]
        exact Nat.lt_succ_self left

/-- Where a relation leads to with a handler, another one leads to with the handler limited, if
the limit is large enough. -/
def Limits (next : Context σ → Result σ α → Prop)
    (next' : Context (σ × Nat) → Result (σ × Nat) α → Prop) : Prop :=
  ∀ c result, next c result → ∃ needed, ∀ left,
    next' (c.mapPeer (·, left + needed)) (mapPeer (·, left) result)

namespace Limits

variable {respond : Handler σ} {n : Nat} {c d : Context σ}

theorem respond_eq {answer : Except Fault Status} {r : Region σ}
    (h : respond n c.toRegion = (answer, r)) (left : Nat) :
    respond.limited.respond n (c.mapPeer (·, left + 1)).toRegion =
      (answer, r.mapPeer (·, left)) := by
  have hlimited : respond.limited.respond n (c.mapPeer (·, left + 1)).toRegion =
      Prod.map id (fun r => r.mapPeer (·, left)) (respond n c.toRegion) := rfl
  rw [hlimited, h]
  rfl

section asks

variable {ended alone : Status}

theorem denied {halt : Halt} (h : Denied (some respond) ended alone n c halt d) (left : Nat) :
    Denied (some respond.limited.respond) ended alone n (c.mapPeer (·, left + 1)) halt
      (d.mapPeer (·, left)) := by
  cases h with
  | alone hh => cases hh
  | ended hh hr =>
      cases hh
      exact .ended rfl (respond_eq hr left)
  | declined hh hr hok hend =>
      cases hh
      exact .declined rfl (respond_eq hr left) hok hend
  | broken hh hr hroom =>
      cases hh
      exact .broken rfl (respond_eq hr left) hroom
  | raised hh hr =>
      cases hh
      exact .raised rfl (respond_eq hr left)

theorem asks {next : Context σ → Result σ α → Prop}
    {next' : Context (σ × Nat) → Result (σ × Nat) α → Prop} (h : Limits next next') :
    Limits (fun c => Asks (some respond) ended alone n c next)
      fun c => Asks (some respond.limited.respond) ended alone n c next' := by
  intro c result ha
  cases ha with
  | given hg hn =>
      obtain ⟨needed, hrest⟩ := h _ _ hn
      cases hg with
      | there hroom => exact ⟨needed, fun left => .given (.there hroom) (hrest left)⟩
      | granted hh hshort hr hroom =>
          cases hh
          refine ⟨needed + 1, fun left => .given (.granted rfl hshort ?_ hroom) (hrest left)⟩
          exact respond_eq hr (left + needed)
  | denied hshort hd => exact ⟨1, fun left => .denied hshort (denied hd left)⟩

end asks

theorem fetches {found : Context σ → Except Fault β} {found' : Context (σ × Nat) → Except Fault β}
    {next : β → Context σ → Result σ α → Prop}
    {next' : β → Context (σ × Nat) → Result (σ × Nat) α → Prop}
    (hfound : ∀ c left, found' (c.mapPeer (·, left)) = found c)
    (h : ∀ x, Limits (next x) (next' x)) :
    Limits (fun c => Fetches (found c) n c next) fun c => Fetches (found' c) n c next' := by
  intro c result hf
  cases hf with
  | taken hx hn =>
      obtain ⟨needed, hrest⟩ := h _ _ _ hn
      exact ⟨needed, fun left => .taken ((hfound c _).trans hx) (hrest left)⟩
  | broken hx => exact ⟨0, fun left => .broken ((hfound c _).trans hx)⟩

theorem returns (x : α) : Limits (Returns (σ := σ) x) (Returns x) := by
  rintro c _ rfl
  exact ⟨0, fun left => rfl⟩

theorem halts (status : Status) : Limits (Halts (σ := σ) (α := α) status) (Halts status) := by
  rintro c _ rfl
  exact ⟨0, fun left => rfl⟩

theorem presents (item : Item Span) : Limits (Presents (σ := σ) item) (Presents item) := by
  rintro c _ rfl
  exact ⟨0, fun left => rfl⟩

theorem fieldFollows {next : Nat → Context σ → Result σ α → Prop}
    {next' : Nat → Context (σ × Nat) → Result (σ × Nat) α → Prop}
    (h : ∀ m, Limits (next m) (next' m)) :
    Limits (FieldFollows (some respond) n next)
      (FieldFollows (some respond.limited.respond) n next') :=
  asks (fetches (fun _ _ => rfl) h)

theorem passedOver (n : Nat) :
    Limits (PassedOver (some respond) n) (PassedOver (some respond.limited.respond) n) := by
  apply asks
  rintro c _ rfl
  exact ⟨0, fun left => rfl⟩

theorem payloadFollows (make : Span → Item Span) (n : Nat) :
    Limits (PayloadFollows (some respond) make n)
      (PayloadFollows (some respond.limited.respond) make n) := by
  apply asks
  rintro c _ rfl
  exact ⟨0, fun left => rfl⟩

theorem extensionFollows (n : Nat) : Limits (ExtensionFollows (some respond) n)
    (ExtensionFollows (some respond.limited.respond) n) :=
  asks (fetches (fun _ _ => rfl) fun type => payloadFollows (.ext type) n)

theorem decodes (header : Header) :
    Limits (Decodes (some respond) header) (Decodes (some respond.limited.respond) header) := by
  cases header with
  | whole item => exact presents _
  | shortStr n => exact payloadFollows .str n
  | fixExt n => exact extensionFollows n
  | undefined => exact halts _
  | field field width =>
      cases field with
      | unsigned | signed | array | map => exact fieldFollows fun n => presents _
      | str | bin => exact fieldFollows fun n => payloadFollows _ n
      | ext => exact fieldFollows extensionFollows
      | float | double => exact asks (fetches (fun _ _ => rfl) fun x => presents _)

theorem passes (header : Header) :
    Limits (Passes (some respond) header) (Passes (some respond.limited.respond) header) := by
  cases header with
  | whole item => cases item <;> exact returns _
  | shortStr n => exact passedOver n
  | fixExt n => exact passedOver (1 + n)
  | undefined => exact halts _
  | field field width =>
      cases field with
      | unsigned | signed | float | double => exact passedOver width
      | array => exact fieldFollows returns
      | map => exact fieldFollows fun n => returns (2 * n)
      | str | bin => exact fieldFollows passedOver
      | ext => exact fieldFollows fun n => passedOver (n + 1)

theorem atItem {rest : Header → Context σ → Result σ α → Prop}
    {rest' : Header → Context (σ × Nat) → Result (σ × Nat) α → Prop}
    (h : ∀ header, Limits (rest header) (rest' header)) :
    Limits (AtItem (some respond) rest) (AtItem (some respond.limited.respond) rest') :=
  asks (fetches (fun _ _ => rfl) fun tag => h (Header.ofTag tag))

theorem passed (count : Nat) :
    Limits (Passed (some respond) count) (Passed (some respond.limited.respond) count) := by
  intro c result h
  induction h with
  | all c => exact ⟨0, fun left => .all _⟩
  | halts h =>
      obtain ⟨needed, hitem⟩ := atItem passes _ _ h
      exact ⟨needed, fun left => .halts (hitem left)⟩
  | next h hn ih =>
      -- the items that follow need their own answers left after the first one
      obtain ⟨needed, hitem⟩ := atItem passes _ _ h
      obtain ⟨needed', hrest⟩ := ih
      refine ⟨needed' + needed, fun left => .next ?_ (hrest left)⟩
      rw [← Nat.add_assoc]
      exact hitem (left + needed')

theorem runs {begun : Context σ → Result σ Unit → Prop}
    {begun' : Context (σ × Nat) → Result (σ × Nat) Unit → Prop} (h : Limits begun begun')
    {outcome : Except Fault Status × Context σ} (hrun : Runs (begun c) c outcome) :
    ∃ needed, ∀ left, Runs (begun' (c.mapPeer (·, left + needed))) (c.mapPeer (·, left + needed))
      (Prod.map id (fun d => d.mapPeer (·, left)) outcome) := by
  cases hrun with
  | stopped hc => exact ⟨0, fun left => .stopped hc⟩
  | @begun result hc hb =>
      obtain ⟨needed, hneeded⟩ := h c result hb
      refine ⟨needed, fun left => ?_⟩
      have houtcome : Prod.map id (fun d => d.mapPeer (·, left)) result.outcome =
          Result.outcome (mapPeer (·, left) result) := by
        cases result <;> rfl
      rw [houtcome]
      exact .begun hc (hneeded left)

end Limits

namespace Unpacker

variable {respond : Handler σ} {c : Context σ} {outcome : Except Fault Status × Context σ}

/-- Whatever the handler is, what decoding comes to with it is what it comes to with a supplier. -/
theorem decoded_limited (h : Decoded (some respond) c outcome) :
    ∃ needed, ∀ left,
      (decode (some respond.limited)).run (c.mapPeer (·, left + needed)) =
        Prod.map id (fun d => d.mapPeer (·, left)) outcome := by
  obtain ⟨needed, hneeded⟩ := Limits.runs (Limits.atItem Limits.decodes) h
  exact ⟨needed, fun left => decoded_iff.mp (hneeded left)⟩

/-- So is what skipping comes to, if it comes to an end. -/
theorem skipped_limited {count : Int} (h : Skipped (some respond) count.toNat c outcome) :
    ∃ needed, ∀ left,
      (skip (some respond.limited) count).run (c.mapPeer (·, left + needed)) =
        Prod.map id (fun d => d.mapPeer (·, left)) outcome := by
  obtain ⟨needed, hneeded⟩ := Limits.runs (Limits.passed count.toNat) h
  exact ⟨needed, fun left => skipped_iff.mp (hneeded left)⟩

theorem eq_of_limited {outcome outcome' : Except Fault Status × Context σ} {left left' : Nat}
    (h : Prod.map id (fun d => d.mapPeer (·, left)) outcome =
      Prod.map id (fun d => d.mapPeer (·, left')) outcome') : outcome = outcome' := by
  have hforget : ∀ (outcome : Except Fault Status × Context σ) (left : Nat),
      Prod.map id (fun d => d.mapPeer Prod.fst)
        (Prod.map id (fun d => d.mapPeer (·, left)) outcome) = outcome := fun _ _ => rfl
  rw [← hforget outcome left, h, hforget]

variable {handler : Option (Handler σ)} {outcome' : Except Fault Status × Context σ}

/-- The answers of the handler decide what a call comes to. -/
theorem Decoded.unique (h : Decoded handler c outcome) (h' : Decoded handler c outcome') :
    outcome' = outcome := by
  cases handler with
  | none => exact (decoded_iff (s := none).mp h').symm.trans (decoded_iff (s := none).mp h)
  | some respond =>
      obtain ⟨needed, hrun⟩ := decoded_limited h
      obtain ⟨needed', hrun'⟩ := decoded_limited h'
      have hrun := hrun needed'
      rw [Nat.add_comm, hrun'] at hrun
      exact eq_of_limited hrun

theorem Skipped.unique {count : Int} (h : Skipped handler count.toNat c outcome)
    (h' : Skipped handler count.toNat c outcome') : outcome' = outcome := by
  cases handler with
  | none => exact (skipped_iff (s := none).mp h').symm.trans (skipped_iff (s := none).mp h)
  | some respond =>
      obtain ⟨needed, hrun⟩ := skipped_limited h
      obtain ⟨needed', hrun'⟩ := skipped_limited h'
      have hrun := hrun needed'
      rw [Nat.add_comm, hrun'] at hrun
      exact eq_of_limited hrun

end Unpacker
end MessagePack
