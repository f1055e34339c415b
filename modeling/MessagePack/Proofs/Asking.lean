import MessagePack.Proofs.Live

/-! # Asking a handler for bytes

However a handler answers, asking for bytes has one of six outcomes (`Engine.asked_ensure`): the
bytes are there, or the handler makes them available, or there is no handler, or the handler
declines, breaks its promise or raises a fault.  The last four latch a status, and it is the one
that the operation stops with (`Asked.latched`).

The handler is asked at most once, and only for bytes that are missing.  It may do anything to the
region; `Handler.Contained` says that the end of the region stays inside the buffer. -/

namespace MessagePack

variable {σ : Type}

/-- Whenever it is asked for missing bytes, the handler leaves no region that ends outside its
buffer. -/
def Handler.Contained (respond : Handler σ) : Prop :=
  ∀ n r, r.current ≤ r.limit → r.limit ≤ r.bytes.size → r.limit < r.current + n →
    (respond n r).2.limit ≤ (respond n r).2.bytes.size

theorem Handler.Contained.of_eq_some {respond : Handler σ} (h : respond.Contained) :
    ∀ other, some respond = some other → other.Contained := by
  rintro _ ⟨⟩
  exact h

/-- What an operation that is halted comes to. -/
def Halt.result : Halt → Except Fault Status
  | .status answer => .ok answer
  | .fault raised => .error raised

namespace Engine

theorem run_of_ok {step : Engine σ Unit} {c d : Context σ} (h : step c = .ok () d) :
    step.run c = (.ok .ok, d) := by
  rw [run, h]

theorem run_of_error {step : Engine σ Unit} {c d : Context σ} {halt : Halt}
    (h : step c = .error halt d) : step.run c = (halt.result, d) := by
  rw [run, h]
  cases halt <;> rfl

/-- What asking for `n` bytes can come to. -/
inductive Asked (handler : Option (Handler σ)) (adapt : Status → Status) (n : Nat)
    (short : Status) (c : Context σ) : EStateM.Result Halt (Context σ) Unit → Prop
  /-- The bytes are there, and the handler is not asked. -/
  | there (h : c.current + n ≤ c.limit) : Asked handler adapt n short c (.ok () c)
  | granted {respond : Handler σ} {r : Region σ} (hh : handler = some respond)
      (h : c.limit < c.current + n) (hr : respond n c.toRegion = (.ok .ok, r))
      (hroom : r.current + n ≤ r.limit) : Asked handler adapt n short c (.ok () (c.within r))
  | alone (hh : handler = none) (h : c.limit < c.current + n) :
      Asked handler adapt n short c (.error (.status short) (c.latch short))
  | declined {respond : Handler σ} {answer : Status} {r : Region σ} (hh : handler = some respond)
      (h : c.limit < c.current + n) (hr : respond n c.toRegion = (.ok answer, r))
      (hs : answer ≠ .ok) :
      Asked handler adapt n short c
        (.error (.status (adapt answer)) ((c.within r).latch (adapt answer)))
  /-- The handler answers `ok`, but the bytes are not there. -/
  | broken {respond : Handler σ} {r : Region σ} (hh : handler = some respond)
      (h : c.limit < c.current + n) (hr : respond n c.toRegion = (.ok .ok, r))
      (hroom : r.limit < r.current + n) :
      Asked handler adapt n short c (.error (.status .errorInHandler)
        ((c.within (r.noteShortage n)).latch .errorInHandler))
  | raised {respond : Handler σ} {fault : Fault} {r : Region σ} (hh : handler = some respond)
      (h : c.limit < c.current + n) (hr : respond n c.toRegion = (.error fault, r)) :
      Asked handler adapt n short c (.error (.fault fault)
        ((c.within { r with fault := some fault }).latch .errorInHandler))

section asked

variable {handler : Option (Handler σ)} {adapt : Status → Status} {n : Nat} {short : Status}
  {c d : Context σ}

theorem asked_ensure : Asked handler adapt n short c (ensure handler adapt n short c) := by
  by_cases h : c.current + n ≤ c.limit
  · have hc : ensure handler adapt n short c = .ok () c := if_pos h
    rw [hc]
    exact .there h
  · have hshort := Nat.not_le.mp h
    cases handler with
    | none =>
        have hc : ensure none adapt n short c = stop short c := if_neg h
        rw [hc]
        exact .alone rfl hshort
    | some respond =>
        cases hr : respond n c.toRegion with
        | mk answer r =>
            cases answer with
            | error fault =>
                rw [ensure_of_fault hshort hr]
                exact .raised rfl hshort hr
            | ok status =>
                by_cases hs : status = .ok
                · subst hs
                  by_cases hroom : r.current + n ≤ r.limit
                  · rw [ensure_of_ok hshort hr hroom]
                    exact .granted rfl hshort hr hroom
                  · have hc : ensure (some respond) adapt n short c =
                        stop .errorInHandler (c.within (r.noteShortage n)) := by
                      rw [ensure_of_lt hshort, hr]
                      exact if_neg hroom
                    rw [hc]
                    exact .broken rfl hshort hr (Nat.not_le.mp hroom)
                · rw [ensure_of_status hshort hr hs]
                  exact .declined rfl hshort hr hs

theorem Asked.assumptions {result : EStateM.Result Halt (Context σ) Unit}
    (h : Asked handler adapt n short c result) :
    match result with
    | .ok _ d | .error _ d => d.assumptions = c.assumptions := by
  cases h <;> rfl

theorem Asked.le_limit (h : Asked handler adapt n short c (.ok () d)) :
    d.current + n ≤ d.limit := by
  cases h with
  | there h => exact h
  | granted hh h hr hroom => exact hroom

theorem Asked.ready {m : Nat} (h : Asked handler adapt n short c (.ok () d)) (hc : c.Ready m)
    (hin : ∀ respond, handler = some respond → respond.Contained) : d.Ready n := by
  refine ⟨h.le_limit, ?_, ?_, ?_⟩
  · cases h with
    | there h => exact hc.limit_le
    | granted hh h hr hroom =>
        have hcurrent := Nat.le_trans (Nat.le_add_right _ _) hc.le_limit
        have hlimit := hin _ hh n c.toRegion hcurrent hc.limit_le h
        rw [hr] at hlimit
        exact hlimit
  · cases h <;> exact hc.status_eq
  · cases h <;> exact hc.order_eq

/-- Where the operation stops, it does so with the status that is latched; where it is broken off,
the handler has raised the fault, and the context keeps it. -/
theorem Asked.latched {halt : Halt} (h : Asked handler adapt n short c (.error halt d))
    (hshort : short ≠ .ok) (hadapt : ∀ answer, answer ≠ .ok → adapt answer ≠ .ok) :
    (halt = .status d.status ∧ d.status ≠ .ok) ∨
      ∃ respond fault r, handler = some respond ∧ c.limit < c.current + n ∧
        respond n c.toRegion = (.error fault, r) ∧ halt = .fault fault ∧
        d.status = .errorInHandler ∧ d.fault = some fault := by
  cases h with
  | alone hh h => exact .inl ⟨rfl, hshort⟩
  | declined hh h hr hs => exact .inl ⟨rfl, hadapt _ hs⟩
  | broken hh h hr hroom =>
      have hne : Status.errorInHandler ≠ .ok := by decide
      exact .inl ⟨rfl, hne⟩
  | raised hh h hr => exact .inr ⟨_, _, _, hh, h, hr, rfl, rfl, rfl⟩

/-- An operation that halts leaves the region as the handler has left it, but for the log and
the fault. -/
theorem Asked.left {respond : Handler σ} {halt : Halt}
    (h : Asked (some respond) adapt n short c (.error halt d)) :
    d.buffer = (respond n c.toRegion).2.buffer ∧ d.start = (respond n c.toRegion).2.start ∧
      d.current = (respond n c.toRegion).2.current ∧ d.limit = (respond n c.toRegion).2.limit ∧
      d.peer = (respond n c.toRegion).2.peer := by
  cases h with
  | alone hh h => cases hh
  | declined hh h hr hs | broken hh h hr hroom | raised hh h hr =>
      cases hh
      rw [hr]
      exact ⟨rfl, rfl, rfl, rfl, rfl⟩

end asked

end Engine
end MessagePack
