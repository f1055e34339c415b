import MessagePack.Proofs.Inscribing
import MessagePack.Proofs.Lockstep
import MessagePack.Proofs.Questions
import MessagePack.Proofs.Skipping
import MessagePack.Unpacker.Unchanged

/-! # What an answer turns into

An operation asks its handler for bytes at the start of an item, and again wherever the item goes
on behind the end of the region.

Where an operation asks, and for how many bytes, depends on the bytes that it was given before
(`Unpacker.Decodes`, `Unpacker.Passes`).  An item is asked for byte by byte up to its field, its
subtype and its payload: before its first byte the input may end, after it the item is cut short
(`Unpacker.AtItem`).  Passing over items asks in the same places of one item after another, those
inside arrays and maps included (`Unpacker.Passed`).  Packing asks once, for all the room that a
value needs (`Packer.Packs`).

Each of these relations has one outcome for every context, the one of the operation
(`Unpacker.decoded_iff`, `Unpacker.skipped_iff`, `Packer.packs_iff`). -/

namespace MessagePack

variable {σ α β : Type}

namespace Unpacker

open Engine

/-! ### Within an item -/

section items

variable (handler : Option (Handler σ))

/-- An item goes on for `n` bytes.  Where the input ends before them, the item is cut short. -/
def GoesOn (n : Nat) (next : Context σ → Result σ α → Prop) (c : Context σ) : Result σ α → Prop :=
  Asks handler .bufferUnderflow .bufferUnderflow n c next

/-- An item goes on with a field. -/
def FieldFollows (width : Nat) (next : Nat → Context σ → Result σ α → Prop) :
    Context σ → Result σ α → Prop :=
  GoesOn handler width fun d => Fetches (d.numberAt width) width d next

/-- An item goes on for `n` bytes, which are passed over. -/
def PassedOver (n : Nat) : Context σ → Result σ Nat → Prop :=
  GoesOn handler n fun d => Returns 0 (d.forward n)

/-- The item becomes the context's last one. -/
def Presents (item : Item Span) (c : Context σ) : Result σ Unit → Prop :=
  Returns () (c.holding (some item))

/-- The item goes on with its payload. -/
def PayloadFollows (make : Span → Item Span) (n : Nat) : Context σ → Result σ Unit → Prop :=
  GoesOn handler n fun d =>
    Returns () ((d.holding (some (make ⟨.borrowed d.buffer.generation, d.current, n⟩))).forward n)

/-- The item goes on with the type of an extension, and its payload after that. -/
def ExtensionFollows (n : Nat) : Context σ → Result σ Unit → Prop :=
  GoesOn handler 1 fun d => Fetches (d.byteAt.map fun b => twosComplement 1 b.toNat) 1 d
    fun type => PayloadFollows handler (.ext type) n

/-- What decoding comes to after the tag. -/
def Decodes : Header → Context σ → Result σ Unit → Prop
  | .whole item => Presents (item.mapPayload Empty.elim)
  | .shortStr n => PayloadFollows handler .str n
  | .fixExt n => ExtensionFollows handler n
  | .undefined => Halts .malformedInput
  | .field .unsigned width => FieldFollows handler width fun n => Presents (.positive n)
  | .field .signed width => FieldFollows handler width fun n => Presents (.ofSigned width n)
  | .field .array width => FieldFollows handler width fun n => Presents (.array n)
  | .field .map width => FieldFollows handler width fun n => Presents (.map n)
  | .field .str width => FieldFollows handler width (PayloadFollows handler .str)
  | .field .bin width => FieldFollows handler width (PayloadFollows handler .bin)
  | .field .ext width => FieldFollows handler width (ExtensionFollows handler)
  | .field .float width => GoesOn handler width fun d =>
      Fetches (d.loadAt (.loadFloat 4) ByteOrder.loadSingle) 4 d fun x => Presents (.float x)
  | .field .double width => GoesOn handler width fun d =>
      Fetches (d.loadAt (.loadFloat 8) ByteOrder.loadDouble) 8 d fun x => Presents (.double x)

/-- What passing over an item comes to after the tag: it tells how many items are inside. -/
def Passes : Header → Context σ → Result σ Nat → Prop
  | .whole (.array n) => Returns n
  | .whole (.map n) => Returns (2 * n)
  | .whole _ => Returns 0
  | .shortStr n => PassedOver handler n
  | .fixExt n => PassedOver handler (1 + n)
  | .undefined => Halts .malformedInput
  | .field .array width => FieldFollows handler width Returns
  | .field .map width => FieldFollows handler width fun n => Returns (2 * n)
  | .field .str width | .field .bin width => FieldFollows handler width (PassedOver handler)
  | .field .ext width => FieldFollows handler width fun n => PassedOver handler (n + 1)
  | .field _ width => PassedOver handler width

/-- An item starts with its tag.  Before it the input may end. -/
def AtItem (rest : Header → Context σ → Result σ α → Prop) (c : Context σ) : Result σ α → Prop :=
  Asks handler .endOfInput .endOfInput 1 c fun d =>
    Fetches d.byteAt 1 d fun tag => rest (Header.ofTag tag)

end items

section tells

variable {s : Option (Supplier σ)}

theorem tells_goesOn {n : Nat} {next : Context σ → Result σ α → Prop} {rest : Engine σ α}
    (h : Tells next rest) : Tells (GoesOn (s.map Supplier.respond) n next)
      (do require s n .bufferUnderflow; rest) := fun _ _ =>
  asks_iff (atEnd .bufferUnderflow) (fun _ h => if_neg h) fun d _ => h d _

theorem tells_presents (item : Item Span) : Tells (Presents item) (present item : Engine σ Unit) :=
  fun _ _ => eq_comm

theorem tells_fieldFollows {width : Nat} {next : Nat → Context σ → Result σ α → Prop}
    {rest : Nat → Engine σ α} (h : ∀ n, Tells (next n) (rest n)) :
    Tells (FieldFollows (s.map Supplier.respond) width next)
      (do require s width .bufferUnderflow; let n ← readField width; rest n) :=
  tells_goesOn ((finds_readField width).tells h)

theorem tells_payloadFollows (make : Span → Item Span) (n : Nat) :
    Tells (PayloadFollows (s.map Supplier.respond) make n) (presentPayload s make n) :=
  tells_goesOn fun _ _ => eq_comm

theorem tells_extensionFollows (n : Nat) :
    Tells (ExtensionFollows (s.map Supplier.respond) n) (do
      require s 1 .bufferUnderflow
      let type ← readSubtype
      presentPayload s (.ext type) n) :=
  tells_goesOn ((finds_readByte.map _).tells fun _ => tells_payloadFollows _ n)

theorem tells_passedOver (n : Nat) : Tells (PassedOver (s.map Supplier.respond) n)
    (do pass s n; return 0) := by
  unfold pass
  simp only [bind_assoc]
  exact tells_goesOn fun _ _ => eq_comm

theorem tells_decodes (header : Header) :
    Tells (Decodes (s.map Supplier.respond) header) (decodeRest s header) := by
  cases header with
  | whole item => exact tells_presents _
  | shortStr n => exact tells_payloadFollows _ n
  | fixExt n => exact tells_extensionFollows n
  | undefined => exact tells_stop _
  | field field width =>
      cases field with
      | unsigned | signed | array | map => exact tells_fieldFollows fun n => tells_presents _
      | str | bin => exact tells_fieldFollows fun n => tells_payloadFollows _ n
      | ext => exact tells_fieldFollows tells_extensionFollows
      | float | double => exact tells_goesOn (finds_load.tells fun x => tells_presents _)

theorem tells_passes (header : Header) :
    Tells (Passes (s.map Supplier.respond) header) (skipRest s header) := by
  cases header with
  | whole item => cases item <;> exact tells_pure _
  | shortStr n => exact tells_passedOver n
  | fixExt n => exact tells_passedOver (1 + n)
  | undefined => exact tells_stop _
  | field field width =>
      have hfield : ∀ {next : Nat → Context σ → Result σ Nat → Prop} {rest : Nat → Engine σ Nat},
          (∀ n, Tells (next n) (rest n)) →
          Tells (FieldFollows (s.map Supplier.respond) width next)
            (readCount s width >>= rest) := by
        intro next rest h
        unfold readCount
        simp only [bind_assoc]
        exact tells_fieldFollows h
      cases field with
      | unsigned | signed | float | double => exact tells_passedOver width
      | array =>
          have h : Tells (FieldFollows (s.map Supplier.respond) width Returns)
              (readCount s width >>= pure) := hfield tells_pure
          rwa [bind_pure] at h
      | map => exact hfield fun n => tells_pure _
      | str | bin => exact hfield tells_passedOver
      | ext => exact hfield fun n => tells_passedOver (n + 1)

theorem tells_atItem {rest : Header → Context σ → Result σ α → Prop} {step : Header → Engine σ α}
    (h : ∀ header, Tells (rest header) (step header)) :
    Tells (AtItem (s.map Supplier.respond) rest)
      (do let tag ← readTag s; step (Header.ofTag tag)) := by
  unfold readTag
  simp only [bind_assoc]
  exact fun _ _ => asks_iff (atEnd .endOfInput) (fun _ h => if_neg h) fun d _ =>
    finds_readByte.tells (fun tag => h _) d _

end tells

/-! ### Whole operations -/

/-- What decoding comes to. -/
def Decoded (handler : Option (Handler σ)) (c : Context σ) :
    Except Fault Status × Context σ → Prop :=
  Runs (AtItem handler (Decodes handler) c) c

/-- What passing over `count` items comes to, one item after another.  An item that is passed over
adds those that it contains. -/
inductive Passed (handler : Option (Handler σ)) : Nat → Context σ → Result σ Unit → Prop
  | all (c : Context σ) : Passed handler 0 c (.ok () c)
  | halts {count : Nat} {c d : Context σ} {halt : Halt}
      (h : AtItem handler (Passes handler) c (.error halt d)) :
      Passed handler (count + 1) c (.error halt d)
  | next {count more : Nat} {c d : Context σ} {result : Result σ Unit}
      (h : AtItem handler (Passes handler) c (.ok more d))
      (hn : Passed handler (count + more) d result) : Passed handler (count + 1) c result

/-- What skipping comes to. -/
def Skipped (handler : Option (Handler σ)) (count : Nat) (c : Context σ) :
    Except Fault Status × Context σ → Prop :=
  Runs (Passed handler count c) c

/-! ### The last item -/

section item

/-- Wherever it leads from a context with this last item, the relation leaves results of this
kind. -/
def Leaves (kind : Option (Item Span) → Result σ α → Prop)
    (next : Context σ → Result σ α → Prop) : Prop :=
  ∀ c result, next c result → kind c.item result

/-- The last item is the one from before. -/
def Kept (item : Option (Item Span)) (result : Result σ α) : Prop := result.left.item = item

/-- There is a new item, or the operation has failed and the last item is the one from before. -/
def Renewed (item : Option (Item Span)) : Result σ Unit → Prop
  | .ok _ c => ∃ item, c.item = some item
  | .error halt c => halt.result ≠ .ok .ok ∧ c.item = item

section leaves

variable {handler : Option (Handler σ)} {kind : Option (Item Span) → Result σ α → Prop} {n : Nat}
  (hkind : ∀ halt d, halt.result ≠ .ok .ok → kind d.item (.error halt d))

include hkind

theorem Leaves.asks {ended alone : Status} (hended : ended ≠ .ok) (halone : alone ≠ .ok)
    {next : Context σ → Result σ α → Prop} (h : Leaves kind next) :
    Leaves kind fun c => Asks handler ended alone n c next := by
  intro c result ha
  cases ha with
  | given hg hn => exact hg.item_eq ▸ h _ _ hn
  | denied _ hd => exact hd.item_eq ▸ hkind _ _ (hd.ne_ok hended halone)

theorem Leaves.goesOn {next : Context σ → Result σ α → Prop} (h : Leaves kind next) :
    Leaves kind (GoesOn handler n next) := .asks hkind (by decide) (by decide) h

theorem Leaves.fetches {found : Context σ → Except Fault β}
    {next : β → Context σ → Result σ α → Prop} (h : ∀ x, Leaves kind (next x)) :
    Leaves kind fun c => Fetches (found c) n c next := by
  intro c result hf
  cases hf with
  | taken _ hn =>
      have hitem := h _ _ _ hn
      exact hitem
  | broken => exact hkind _ c nofun

theorem Leaves.fieldFollows {next : Nat → Context σ → Result σ α → Prop}
    (h : ∀ m, Leaves kind (next m)) : Leaves kind (FieldFollows handler n next) :=
  .goesOn hkind (.fetches hkind h)

theorem Leaves.atItem {rest : Header → Context σ → Result σ α → Prop}
    (h : ∀ header, Leaves kind (rest header)) : Leaves kind (AtItem handler rest) :=
  .asks hkind (by decide) (by decide) (.fetches hkind fun tag => h (Header.ofTag tag))

theorem leaves_malformed : Leaves kind (Halts .malformedInput) := by
  rintro c _ rfl
  exact hkind _ (c.latch _) nofun

end leaves

variable {handler : Option (Handler σ)}

theorem leaves_passes (header : Header) : Leaves Kept (Passes handler header) := by
  have hkind : ∀ halt (d : Context σ), halt.result ≠ .ok .ok →
      Kept d.item (.error halt d : Result σ Nat) := fun _ _ _ => rfl
  have hreturns : ∀ m : Nat, Leaves Kept (Returns (σ := σ) m) := by
    rintro m c _ rfl
    rfl
  have hover : ∀ m, Leaves Kept (PassedOver handler m) := by
    intro m
    apply Leaves.goesOn hkind
    rintro c _ rfl
    rfl
  cases header with
  | whole item => cases item <;> exact hreturns _
  | shortStr m => exact hover m
  | fixExt m => exact hover (1 + m)
  | undefined => exact leaves_malformed hkind
  | field field width =>
      cases field with
      | unsigned | signed | float | double => exact hover width
      | array => exact .fieldFollows hkind hreturns
      | map => exact .fieldFollows hkind fun m => hreturns (2 * m)
      | str | bin => exact .fieldFollows hkind hover
      | ext => exact .fieldFollows hkind fun m => hover (m + 1)

theorem leaves_decodes (header : Header) : Leaves Renewed (Decodes handler header) := by
  have hkind : ∀ halt (d : Context σ), halt.result ≠ .ok .ok → Renewed d.item (.error halt d) :=
    fun _ _ h => ⟨h, rfl⟩
  have hpresents : ∀ item : Item Span, Leaves (σ := σ) Renewed (Presents item) := by
    rintro item c _ rfl
    exact ⟨item, rfl⟩
  have hpayload : ∀ (make : Span → Item Span) m,
      Leaves Renewed (PayloadFollows handler make m) := by
    intro make m
    apply Leaves.goesOn hkind
    rintro c _ rfl
    exact ⟨_, rfl⟩
  have hextension : ∀ m, Leaves Renewed (ExtensionFollows handler m) := fun m =>
    .goesOn hkind (.fetches hkind fun type => hpayload (.ext type) m)
  cases header with
  | whole item => exact hpresents _
  | shortStr m => exact hpayload .str m
  | fixExt m => exact hextension m
  | undefined => exact leaves_malformed hkind
  | field field width =>
      cases field with
      | unsigned | signed | array | map => exact .fieldFollows hkind fun m => hpresents _
      | str | bin => exact .fieldFollows hkind fun m => hpayload _ m
      | ext => exact .fieldFollows hkind hextension
      | float | double => exact .goesOn hkind (.fetches hkind fun x => hpresents _)

variable {c : Context σ} {outcome : Except Fault Status × Context σ}

/-- Decoding that fails leaves the last item alone. -/
theorem Decoded.item_eq (h : Decoded handler c outcome) (hfails : outcome.1 ≠ .ok .ok) :
    outcome.2.item = c.item := by
  cases h with
  | stopped => rfl
  | @begun result hc h =>
      have hrenewed := Leaves.atItem (fun _ _ h => ⟨h, rfl⟩) leaves_decodes c result h
      cases result with
      | ok => exact absurd rfl hfails
      | error => exact hrenewed.2

theorem Decoded.item_of_ok {d : Context σ} (h : Decoded handler c (.ok .ok, d)) :
    ∃ item, d.item = some item := by
  generalize houtcome : ((Except.ok Status.ok : Except Fault Status), d) = outcome at h
  cases h with
  | stopped => cases houtcome
  | @begun result hc h =>
      have hrenewed := Leaves.atItem (fun _ _ h => ⟨h, rfl⟩) leaves_decodes c result h
      cases result with
      | ok =>
          cases houtcome
          exact hrenewed
      | error => exact absurd (congrArg Prod.fst houtcome).symm hrenewed.1

theorem Passed.item_eq {count : Nat} {result : Result σ Unit} (h : Passed handler count c result) :
    result.left.item = c.item := by
  have hleaves : Leaves Kept (AtItem handler (Passes handler)) :=
    .atItem (fun _ _ _ => rfl) leaves_passes
  induction h with
  | all c => rfl
  | halts h => exact hleaves _ _ h
  | next h hn ih => exact ih.trans (hleaves _ _ h)

theorem Skipped.item_eq {count : Nat} (h : Skipped handler count c outcome) :
    outcome.2.item = c.item := by
  cases h with
  | stopped => rfl
  | @begun result hc h =>
      have hitem := Passed.item_eq h
      cases result <;> exact hitem

end item

/-! ### The operations come to what is said of them -/

section operations

variable {s : Option (Supplier σ)} {c : Context σ} {outcome : Except Fault Status × Context σ}

theorem decoded_iff :
    Decoded (s.map Supplier.respond) c outcome ↔ (decode s).run c = outcome := by
  refine runs_iff (fun hc result => ?_) fun hc => run_of_latched hc _
  have hitem : decode s c = decodeItem s c := bind_of_ok (running_eq hc)
  rw [hitem]
  exact tells_atItem tells_decodes c result

theorem passed_iff {count : Nat} {result : Result σ Unit} :
    Passed (s.map Supplier.respond) count c result ↔ skipLoop s count c = result := by
  have htells : Tells (AtItem (s.map Supplier.respond) (Passes (s.map Supplier.respond)))
      (skipItem s) := tells_atItem tells_passes
  constructor
  · intro h
    induction h with
    | all c => rw [skipLoop]
    | halts h => exact skipLoop_of_error ((htells _ _).mp h)
    | next h hn ih => exact (skipLoop_of_ok ((htells _ _).mp h)).trans ih
  · rintro rfl
    fun_induction skipLoop s count c with
    | case1 c => exact .all c
    | case2 c count more d hskip ih => exact .next ((htells _ _).mpr hskip) ih
    | case3 c count halt d hskip => exact .halts ((htells _ _).mpr hskip)

theorem skipped_iff {count : Int} :
    Skipped (s.map Supplier.respond) count.toNat c outcome ↔ (skip s count).run c = outcome := by
  refine runs_iff (fun hc result => ?_) fun hc => run_of_latched hc _
  have hloop : skip s count c = skipLoop s count.toNat c := bind_of_ok (running_eq hc)
  rw [hloop]
  exact passed_iff

end operations
end Unpacker

/-! ### Packing -/

namespace Packer

open Engine

/-- What is written once there is room.  The context is left as it was if a float is too large.  How
far writing gets that goes wrong is left to `inscribe`. -/
inductive Written (v : Value) (c : Context σ) : Result σ Unit → Prop
  | appended {f : Frame} (hv : v.frame = .ok f) (hin : c.limit ≤ c.bytes.size)
      (ho : ∃ order, c.order = some order ∧ order.Suits) :
      Written v c (.ok () (c.append f.bytes.toArray))
  | refused {fault : Fault} (hv : v.frame = .error fault)
      (ho : ∃ order, c.order = some order ∧ order.Suits) :
      Written v c (.error (.fault fault) c)
  /-- The room does not lie in the buffer, or there is no byte order that suits its host. -/
  | astray {result : Result σ Unit}
      (h : c.bytes.size < c.limit ∨ ¬ ∃ order, c.order = some order ∧ order.Suits)
      (hw : inscribe v c = result) : Written v c result

/-- What packing comes to that is not stopped. -/
inductive Places (handler : Option (Handler σ)) (v : Value) (c : Context σ) : Result σ Unit → Prop
  | refused {fault : Fault} (hv : v.room = .error fault) :
      Places handler v c (.error (.fault fault) c)
  | asks {n : Nat} {result : Result σ Unit} (hv : v.room = .ok n)
      (h : Asks handler .endOfInput .bufferOverflow n c (Written v) result) :
      Places handler v c result

/-- What packing comes to. -/
def Packs (handler : Option (Handler σ)) (v : Value) (c : Context σ) :
    Except Fault Status × Context σ → Prop :=
  Runs (Places handler v c) c

section packs

variable {handler : Option (Handler σ)} {v : Value} {c d : Context σ}

theorem written_iff {n : Nat} {result : Result σ Unit} (hs : c.status = .ok) (hn : v.room = .ok n)
    (hroom : c.current + n ≤ c.limit) : Written v c result ↔ inscribe v c = result := by
  have happended : ∀ f, v.frame = .ok f → c.limit ≤ c.bytes.size →
      (∃ order, c.order = some order ∧ order.Suits) →
      inscribe v c = .ok () (c.append f.bytes.toArray) := by
    intro f hv hin ho
    obtain rfl : f.size = n := Except.ok.inj ((Value.room_of_frame hv).symm.trans hn)
    have hpack : pack none v c = inscribe v c := pack_of_room hs hn hroom
    rw [← hpack]
    exact pack_append hv (Value.fits_of_frame hv) ⟨hroom, hin, hs, ho⟩
  constructor
  · rintro (⟨hv, hin, ho⟩ | ⟨hv, ho⟩ | ⟨-, hw⟩)
    · exact happended _ hv hin ho
    · exact inscribe_of_error hv hn ho
    · exact hw
  · intro hw
    by_cases h : c.bytes.size < c.limit ∨ ¬ ∃ order, c.order = some order ∧ order.Suits
    · exact .astray h hw
    · rw [not_or, not_not, not_lt] at h
      obtain ⟨hin, ho⟩ := h
      cases hv : v.frame with
      | ok f =>
          rw [happended f hv hin ho] at hw
          exact hw ▸ .appended hv hin ho
      | error fault =>
          rw [inscribe_of_error hv hn ho] at hw
          exact hw ▸ .refused hv ho

/-- What packing comes to depends on the handler only in how it makes room. -/
theorem packs_iff {outcome : Except Fault Status × Context σ} :
    Packs handler v c outcome ↔ (pack handler v).run c = outcome := by
  refine runs_iff (fun hc result => ?_) fun hc => run_of_latched hc _
  rw [pack_eq hc]
  cases hv : v.room with
  | error fault =>
      have hlift : lift (.error fault : Except Fault Nat) c = .error (.fault fault) c := rfl
      rw [bind_of_error hlift]
      constructor
      · rintro (h | ⟨h, -⟩)
        · cases hv.symm.trans h
          rfl
        · cases hv.symm.trans h
      · rintro rfl
        exact .refused hv
  | ok n =>
      have hlift : lift (.ok n : Except Fault Nat) c = .ok n c := rfl
      have hasks : Asks handler .endOfInput .bufferOverflow n c (Written v) result ↔
          (reserve handler n >>= fun _ => inscribe v) c = result :=
        asks_iff id (fun _ _ => rfl) fun d hg =>
          written_iff (hg.status_eq.trans hc) hv hg.le_limit
      rw [bind_of_ok hlift, ← hasks]
      constructor
      · rintro (h | ⟨h, hs⟩)
        · cases hv.symm.trans h
        · cases hv.symm.trans h
          exact hs
      · exact .asks hv

theorem Places.run_eq {result : Result σ Unit} (h : Places handler v c result)
    (hc : c.status = .ok) : (pack handler v).run c = result.outcome :=
  packs_iff.mp (.begun hc h)

end packs

theorem Written.item_eq {v : Value} {c : Context σ} {result : Result σ Unit}
    (h : Written v c result) : result.left.item = c.item := by
  cases h with
  | appended | refused => rfl
  | astray _ hw =>
      have hitem := leavesItem_inscribe v c
      rw [Unpacker.after, hw] at hitem
      exact hitem

theorem Packs.item_eq {handler : Option (Handler σ)} {v : Value} {c : Context σ}
    {outcome : Except Fault Status × Context σ} (h : Packs handler v c outcome) :
    outcome.2.item = c.item := by
  have hleaves : Unpacker.Leaves (σ := σ) Unpacker.Kept (Written v) :=
    fun c result h => h.item_eq
  cases h with
  | stopped => rfl
  | @begun result hc h =>
      cases h with
      | refused => rfl
      | @asks n result hv h =>
          have hasks : Unpacker.Leaves Unpacker.Kept fun c =>
              Asks handler .endOfInput .bufferOverflow n c (Written v) :=
            .asks (fun _ _ _ => rfl) (by decide) (by decide) hleaves
          have hitem := hasks _ _ h
          cases result <;> exact hitem

end Packer

/-! ### All operations -/

open Unpacker Packer in
/-- What each operation makes of the answers of its handler: it has this one outcome.  The last item
is from before the call unless an item was decoded. -/
theorem handler_answered (s : Option (Supplier σ)) (handler : Option (Handler σ)) (c : Context σ) :
    ((∀ outcome, Decoded (s.map Supplier.respond) c outcome ↔ (decode s).run c = outcome) ∧
      (((decode s).run c).1 ≠ .ok .ok → ((decode s).run c).2.item = c.item)) ∧
    (∀ count, (∀ outcome, Skipped (s.map Supplier.respond) count.toNat c outcome ↔
        (skip s count).run c = outcome) ∧ ((skip s count).run c).2.item = c.item) ∧
    ∀ v, (∀ outcome, Packs handler v c outcome ↔ (pack handler v).run c = outcome) ∧
      ((pack handler v).run c).2.item = c.item := by
  refine ⟨⟨fun _ => decoded_iff, (decoded_iff.mpr rfl).item_eq⟩, fun count => ?_, fun v => ?_⟩
  · exact ⟨fun _ => skipped_iff, (skipped_iff.mpr rfl).item_eq⟩
  · exact ⟨fun _ => packs_iff, (packs_iff.mpr rfl).item_eq⟩

end MessagePack
