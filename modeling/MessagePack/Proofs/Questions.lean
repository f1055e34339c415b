import MessagePack.Proofs.Asking

/-! # Questions and answers

An operation asks its handler for bytes.  If they are there when the handler has answered, the
operation goes on in the region that the handler left (`Engine.Given`).  Otherwise it is over, and
what it comes to is made of the answer (`Engine.Denied`).  It is always one of the two
(`Engine.given_or_denied`).

What a step comes to is told by a relation between contexts and results.  `Engine.Asks` and
`Engine.Fetches` put such relations together, and `Engine.Tells` says that a relation has one result
for every context, the one of the step.  All of them carry over from the parts of a step to the step
(`Engine.asks_iff`, `Engine.Finds.tells`, `Engine.runs_iff`).

Nothing is assumed of the handler.  One that leaves the region outside its buffer makes the step
break off where it looks for a byte that is not there. -/

namespace MessagePack

variable {σ α β : Type}

namespace Engine

/-- What a step comes to, and what it leaves. -/
abbrev Result (σ α : Type) := EStateM.Result Halt (Context σ) α

/-- What an operation comes to that ends with this step. -/
def Result.outcome : Result σ Unit → Except Fault Status × Context σ
  | .ok () c => (.ok .ok, c)
  | .error halt c => (halt.result, c)

/-- What a step leaves. -/
def Result.left : Result σ α → Context σ
  | .ok _ c | .error _ c => c

theorem run_eq (operation : Engine σ Unit) (c : Context σ) :
    operation.run c = Result.outcome (operation c) := by
  cases h : operation c with
  | ok => exact run_of_ok h
  | error => exact run_of_error h

/-- The `n` bytes at the cursor are there, or the handler makes them available. -/
inductive Given (handler : Option (Handler σ)) (n : Nat) (c : Context σ) : Context σ → Prop
  | there (h : c.current + n ≤ c.limit) : Given handler n c c
  | granted {respond : Handler σ} {r : Region σ} (hh : handler = some respond)
      (h : c.limit < c.current + n) (hr : respond n c.toRegion = (.ok .ok, r))
      (hroom : r.current + n ≤ r.limit) : Given handler n c (c.within r)

/-- What becomes of an operation that asks for `n` bytes and is not given them.  The status is
`ended` where the handler says that the input has ended, and `alone` where there is no handler. -/
inductive Denied (handler : Option (Handler σ)) (ended alone : Status) (n : Nat) (c : Context σ) :
    Halt → Context σ → Prop
  | alone (hh : handler = none) : Denied handler ended alone n c (.status alone) (c.latch alone)
  | ended {respond : Handler σ} {r : Region σ} (hh : handler = some respond)
      (hr : respond n c.toRegion = (.ok .endOfInput, r)) :
      Denied handler ended alone n c (.status ended) ((c.within r).latch ended)
  | declined {respond : Handler σ} {answer : Status} {r : Region σ} (hh : handler = some respond)
      (hr : respond n c.toRegion = (.ok answer, r)) (hok : answer ≠ .ok)
      (hend : answer ≠ .endOfInput) :
      Denied handler ended alone n c (.status answer) ((c.within r).latch answer)
  /-- The handler answers `ok`, but the bytes are not there. -/
  | broken {respond : Handler σ} {r : Region σ} (hh : handler = some respond)
      (hr : respond n c.toRegion = (.ok .ok, r)) (hroom : r.limit < r.current + n) :
      Denied handler ended alone n c (.status .errorInHandler)
        ((c.within (r.noteShortage n)).latch .errorInHandler)
  | raised {respond : Handler σ} {fault : Fault} {r : Region σ} (hh : handler = some respond)
      (hr : respond n c.toRegion = (.error fault, r)) :
      Denied handler ended alone n c (.fault fault)
        ((c.within { r with fault := some fault }).latch .errorInHandler)

/-- An operation asks for `n` bytes, and goes on if it is given them. -/
inductive Asks (handler : Option (Handler σ)) (ended alone : Status) (n : Nat) (c : Context σ)
    (next : Context σ → Result σ α → Prop) : Result σ α → Prop
  | given {d : Context σ} {result : Result σ α} (hg : Given handler n c d) (h : next d result) :
      Asks handler ended alone n c next result
  | denied {halt : Halt} {d : Context σ} (hshort : c.limit < c.current + n)
      (hd : Denied handler ended alone n c halt d) :
      Asks handler ended alone n c next (.error halt d)

/-- An operation takes what it finds in the `width` bytes at the cursor.  It is broken off if they
are not in the buffer, or there is no byte order to read them in. -/
inductive Fetches (found : Except Fault α) (width : Nat) (c : Context σ)
    (next : α → Context σ → Result σ β → Prop) : Result σ β → Prop
  | taken {x : α} {result : Result σ β} (hx : found = .ok x) (h : next x (c.forward width) result) :
      Fetches found width c next result
  | broken {fault : Fault} (hx : found = .error fault) :
      Fetches found width c next (.error (.fault fault) c)

section given

variable {handler : Option (Handler σ)} {adapt : Status → Status} {n : Nat}
  {ended alone short : Status} {c d e : Context σ} {result : Result σ α}

theorem Given.item_eq (h : Given handler n c d) : d.item = c.item := by
  cases h <;> rfl

theorem Given.status_eq (h : Given handler n c d) : d.status = c.status := by
  cases h <;> rfl

theorem Given.order_eq (h : Given handler n c d) : d.order = c.order := by
  cases h <;> rfl

theorem Given.le_limit (h : Given handler n c d) : d.current + n ≤ d.limit := by
  cases h with
  | there h => exact h
  | granted hh h hr hroom => exact hroom

theorem ensure_of_given (adapt : Status → Status) (short : Status) (h : Given handler n c d) :
    ensure handler adapt n short c = .ok () d := by
  cases h with
  | there h => exact if_pos h
  | granted hh h hr hroom =>
      subst hh
      exact ensure_of_ok h hr hroom

theorem Given.unique (h : Given handler n c d) (h' : Given handler n c e) : e = d := by
  have hd := ensure_of_given id .ok h
  rw [ensure_of_given id .ok h'] at hd
  cases hd
  rfl

theorem Denied.item_eq {halt : Halt} (h : Denied handler ended alone n c halt d) :
    d.item = c.item := by
  cases h <;> rfl

theorem Denied.ne_ok {halt : Halt} (h : Denied handler ended alone n c halt d)
    (hended : ended ≠ .ok) (halone : alone ≠ .ok) : halt.result ≠ .ok .ok := by
  intro hresult
  cases h with
  | alone hh => exact halone (Except.ok.inj hresult)
  | ended hh hr => exact hended (Except.ok.inj hresult)
  | declined hh hr hok hend => exact hok (Except.ok.inj hresult)
  | broken hh hr hroom =>
      have hne : Status.errorInHandler ≠ .ok := by decide
      exact hne (Except.ok.inj hresult)
  | raised hh hr => cases hresult

theorem ensure_of_denied (hadapt : ∀ answer, answer ≠ .endOfInput → adapt answer = answer)
    (hshort : c.limit < c.current + n) {halt : Halt}
    (h : Denied handler (adapt .endOfInput) short n c halt d) :
    ensure handler adapt n short c = .error halt d := by
  cases h with
  | alone hh =>
      subst hh
      exact if_neg (Nat.not_le.mpr hshort)
  | ended hh hr =>
      subst hh
      exact ensure_of_status hshort hr (by decide)
  | @declined respond answer r hh hr hok hend =>
      subst hh
      have hensure : ensure (some respond) adapt n short c =
          .error (.status (adapt answer)) ((c.within r).latch (adapt answer)) :=
        ensure_of_status hshort hr hok
      rwa [hadapt _ hend] at hensure
  | broken hh hr hroom =>
      subst hh
      rw [ensure_of_lt hshort, hr]
      exact if_neg (Nat.not_le.mpr hroom)
  | raised hh hr =>
      subst hh
      exact ensure_of_fault hshort hr

/-- The bytes are given, or they are missing and denied. -/
theorem given_or_denied (handler : Option (Handler σ)) (ended alone : Status) (n : Nat)
    (c : Context σ) :
    (∃ d, Given handler n c d) ∨
      c.limit < c.current + n ∧ ∃ halt d, Denied handler ended alone n c halt d := by
  have hasked : Asked handler id n alone c _ := asked_ensure
  generalize ensure handler id n alone c = result at hasked
  cases hasked with
  | there h => exact .inl ⟨c, .there h⟩
  | granted hh h hr hroom => exact .inl ⟨_, .granted hh h hr hroom⟩
  | alone hh h => exact .inr ⟨h, _, _, .alone hh⟩
  | broken hh h hr hroom => exact .inr ⟨h, _, _, .broken hh hr hroom⟩
  | raised hh h hr => exact .inr ⟨h, _, _, .raised hh hr⟩
  | @declined respond answer r hh h hr hs =>
      by_cases hend : answer = .endOfInput
      · subst hend
        exact .inr ⟨h, _, _, .ended hh hr⟩
      · exact .inr ⟨h, _, _, .declined hh hr hs hend⟩

/-- Asking comes to what is said of it, if what follows does. -/
theorem asks_iff (adapt : Status → Status)
    (hadapt : ∀ answer, answer ≠ .endOfInput → adapt answer = answer)
    {next : Context σ → Result σ α → Prop} {rest : Engine σ α}
    (hrest : ∀ d, Given handler n c d → (next d result ↔ rest d = result)) :
    Asks handler (adapt .endOfInput) short n c next result ↔
      (ensure handler adapt n short >>= fun _ => rest) c = result := by
  constructor
  · intro h
    cases h with
    | given hg h => exact (bind_of_ok (ensure_of_given adapt short hg)).trans ((hrest _ hg).mp h)
    | denied hshort hd => exact bind_of_error (ensure_of_denied hadapt hshort hd)
  · intro h
    have hcases := given_or_denied handler (adapt .endOfInput) short n c
    obtain ⟨d, hg⟩ | ⟨hshort, halt, d, hd⟩ := hcases
    · rw [bind_of_ok (ensure_of_given adapt short hg)] at h
      exact .given hg ((hrest d hg).mpr h)
    · rw [bind_of_error (ensure_of_denied hadapt hshort hd)] at h
      exact h ▸ .denied hshort hd

end given

/-! ### Relations that tell what a step comes to -/

/-- For every context, the relation has one result, the one of the step. -/
def Tells (next : Context σ → Result σ α → Prop) (step : Engine σ α) : Prop :=
  ∀ c result, next c result ↔ step c = result

/-- What an operation comes to: with a status latched it does nothing. -/
inductive Runs (begun : Result σ Unit → Prop) (c : Context σ) :
    Except Fault Status × Context σ → Prop
  | stopped (hc : c.status ≠ .ok) : Runs begun c (.ok .stopped, c)
  | begun {result : Result σ Unit} (hc : c.status = .ok) (h : begun result) :
      Runs begun c result.outcome

theorem runs_iff {begun : Result σ Unit → Prop} {operation : Engine σ Unit} {c : Context σ}
    {outcome : Except Fault Status × Context σ}
    (hbegun : c.status = .ok → ∀ result, begun result ↔ operation c = result)
    (hstopped : c.status ≠ .ok → operation.run c = (.ok .stopped, c)) :
    Runs begun c outcome ↔ operation.run c = outcome := by
  by_cases hc : c.status = .ok
  · rw [run_eq]
    constructor
    · rintro (h | ⟨-, h⟩)
      · exact absurd hc h
      · exact congrArg Result.outcome ((hbegun hc _).mp h)
    · rintro rfl
      exact .begun hc ((hbegun hc _).mpr rfl)
  · rw [hstopped hc]
    constructor
    · rintro (h | ⟨h, -⟩)
      · rfl
      · exact absurd h hc
    · rintro rfl
      exact .stopped hc

/-- The step is complete. -/
def Returns (x : α) (c : Context σ) (result : Result σ α) : Prop := result = .ok x c

/-- The step latches a status and stops with it. -/
def Halts (status : Status) (c : Context σ) (result : Result σ α) : Prop :=
  result = .error (.status status) (c.latch status)

theorem tells_pure (x : α) : Tells (Returns x) (pure x : Engine σ α) := fun _ _ => eq_comm

theorem tells_stop (status : Status) : Tells (Halts status) (stop status : Engine σ α) :=
  fun _ _ => eq_comm

section reads

variable {found : Context σ → Except Fault α} {width : Nat} {step : Engine σ α}

/-- The step takes what it finds. -/
def Finds (found : Context σ → Except Fault α) (width : Nat) (step : Engine σ α) : Prop :=
  ∀ c, step c = match found c with
    | .ok x => .ok x (c.forward width)
    | .error fault => .error (.fault fault) c

theorem Finds.tells (h : Finds found width step) {next : α → Context σ → Result σ β → Prop}
    {rest : α → Engine σ β} (hrest : ∀ x, Tells (next x) (rest x)) :
    Tells (fun c => Fetches (found c) width c next) (step >>= rest) := by
  intro c result
  have hstep := h c
  cases hx : found c with
  | ok x =>
      rw [hx] at hstep
      rw [bind_of_ok hstep, ← hrest]
      refine ⟨fun h => ?_, .taken hx⟩
      cases h with
      | taken hx' h =>
          cases hx.symm.trans hx'
          exact h
      | broken hx' => cases hx.symm.trans hx'
  | error fault =>
      rw [hx] at hstep
      rw [bind_of_error hstep]
      refine ⟨fun h => ?_, fun h => h ▸ .broken hx⟩
      cases h with
      | taken hx' h => cases hx.symm.trans hx'
      | broken hx' =>
          cases hx.symm.trans hx'
          rfl

end reads
end Engine

/-! ### What is at the cursor -/

namespace Context

/-- The byte at the cursor. -/
def byteAt (c : Context σ) : Except Fault UInt8 :=
  match c.bytes[c.current]? with
  | some b => .ok b
  | none => .error .outOfBounds

/-- What a byte order makes of the bytes at the cursor. -/
def loadAt (access : Access) (load : ByteOrder → Bytes → Nat → Except Fault α) (c : Context σ) :
    Except Fault α :=
  match c.order with
  | some order => load order c.bytes c.current
  | none => .error (.noOrder access)

/-- The number in a field at the cursor. -/
def numberAt (width : Nat) (c : Context σ) : Except Fault Nat :=
  if width = 1 then c.byteAt.map UInt8.toNat
  else c.loadAt (.load width) fun order => order.load width

end Context

namespace Engine

theorem finds_readByte : Finds Context.byteAt 1 (readByte : Engine σ UInt8) := by
  intro c
  unfold readByte Context.byteAt
  cases c.bytes[c.current]? <;> rfl

theorem Finds.map {found : Context σ → Except Fault α} {width : Nat} {step : Engine σ α}
    (h : Finds found width step) (f : α → β) :
    Finds (fun c => (found c).map f) width (do let x ← step; return f x) := by
  intro c
  have hstep := h c
  dsimp only
  cases hx : found c with
  | ok x =>
      rw [hx] at hstep
      exact bind_of_ok hstep
  | error fault =>
      rw [hx] at hstep
      exact bind_of_error hstep

theorem finds_load {access : Access} {load : ByteOrder → Bytes → Nat → Except Fault α}
    {width : Nat} : Finds (Context.loadAt access load) width (do
      let order ← orderFor access
      let c ← get
      let x ← lift (load order c.bytes c.current)
      set { c with current := c.current + width }
      return x : Engine σ α) := by
  intro c
  unfold Context.loadAt
  cases horder : c.order with
  | none =>
      have hr : orderFor access c = .error (.fault (.noOrder access)) c := by rw [orderFor, horder]
      exact bind_of_error hr
  | some order =>
      have hr : orderFor access c = .ok order c := by rw [orderFor, horder]
      rw [bind_of_ok hr, get_bind]
      dsimp only
      cases hx : load order c.bytes c.current with
      | ok x =>
          have hlift : lift (.ok x) c = .ok x c := rfl
          exact bind_of_ok hlift
      | error fault =>
          have hlift : lift (.error fault : Except Fault α) c = .error (.fault fault) c := rfl
          exact bind_of_error hlift

theorem finds_readField (width : Nat) :
    Finds (Context.numberAt width) width (readField width : Engine σ Nat) := by
  intro c
  unfold readField Context.numberAt
  split_ifs with hone
  · subst hone
    exact finds_readByte.map UInt8.toNat c
  · exact finds_load c

end Engine

end MessagePack
