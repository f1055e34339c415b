import MessagePack.Unpacker

/-! # Scripted handlers

A script is a handler that is given as data: a list of actions, one for each
time that it is asked.  After the last action it answers that the input has
ended, unless it may start over.

An action sets the context's error number, changes the buffer and the region,
and answers with a status or raises a fault.  Scripts do all that a handler can
do, good and bad.
-/

namespace MessagePack

/-- A change of the buffer and the region. -/
inductive Deed
  /-- Append zero bytes to the buffer and extend the region to its end. -/
  | extend (count : Nat)
  /-- Cut the buffer at the end of the region and append exactly the missing bytes. -/
  | fit
  /-- Move the end of the region. -/
  | moveEnd (limit : Nat)
  /-- Take the bytes before the cursor out, and put the cursor back to the start. -/
  | drain
  /-- Go on in a new buffer, with the bytes before the cursor copied to a place in it. -/
  | swap (size pos : Nat)
  /-- Go on in a new buffer of the unread bytes and more. -/
  | feed (data : Bytes)
  /-- Make the buffer the unread bytes and more. -/
  | compact (data : Bytes)
  deriving DecidableEq, Repr

/-- One answer of a scripted handler. -/
structure Action where
  errorNumber : Option Int := none
  deed : Option Deed := none
  fault : Option Fault := none
  answer : Status := .ok
  deriving DecidableEq, Repr

/-- What is recorded of a scripted handler. -/
inductive HandlerEvent
  /-- It was asked for bytes while so many were left. -/
  | asked (needed : Nat) (left : Int)
  /-- It took bytes out of the region. -/
  | drained (bytes : Bytes)
  deriving DecidableEq, Repr

/-- A handler given as data. -/
structure Script where
  actions : List Action
  pending : List Action
  /-- How often the actions may start over. -/
  rounds : Nat := 0
  journal : Array HandlerEvent := #[]
  deriving DecidableEq, Repr

namespace Script

/-- A script at its first action. -/
def ofActions (actions : List Action) (rounds : Nat) : Script :=
  { actions, pending := actions, rounds }

/-- How many answers are left. -/
def budget (s : Script) : Nat := s.pending.length + s.rounds * s.actions.length

/-- The next action. -/
def next? (s : Script) : Option (Action × Script) :=
  match s.pending with
  | action :: rest => some (action, { s with pending := rest })
  | [] =>
    match s.rounds, s.actions with
    | rounds + 1, action :: rest => some (action, { s with pending := rest, rounds })
    | _, _ => none

theorem budget_next? {s s' : Script} {action : Action} (h : s.next? = some (action, s')) :
    s'.budget < s.budget := by
  rcases s with ⟨actions, pending, rounds, journal⟩
  cases pending with
  | cons first rest =>
    simp only [next?, Option.some.injEq, Prod.mk.injEq] at h
    rw [← h.2]
    simp [budget]
  | nil =>
    cases rounds with
    | zero => simp [next?] at h
    | succ rounds =>
      cases actions with
      | nil => simp [next?] at h
      | cons first rest =>
        simp only [next?, Option.some.injEq, Prod.mk.injEq] at h
        rw [← h.2]
        simp only [budget, List.length_nil, List.length_cons, Nat.add_mul]
        omega

/-- Record an event. -/
def note (s : Script) (event : HandlerEvent) : Script :=
  { s with journal := s.journal.push event }

/-- Record that the handler was asked for bytes. -/
def noteAsked (needed : Nat) (r : Region Script) : Region Script :=
  { r with peer := r.peer.note (.asked needed r.remaining) }

/-- Do what an action does to the buffer and the region. -/
def perform (needed : Nat) (r : Region Script) : Deed → Region Script
  | .extend count =>
    let bytes := r.bytes ++ Bytes.zeros count
    { r.modifyBytes bytes with limit := bytes.size }
  | .fit =>
    let bytes := Bytes.slice r.bytes 0 r.limit ++ Bytes.zeros (needed - r.remaining).toNat
    { r.modifyBytes bytes with limit := bytes.size }
  | .moveEnd limit => { r with limit }
  | .drain => { r with peer := r.peer.note (.drained r.done), current := r.start }
  | .swap size pos =>
    let bytes := Bytes.splice (Bytes.zeros size) pos r.done
    { r with
      buffer := r.buffer.replace bytes
      start := pos, current := pos + r.done.size, limit := bytes.size }
  | .feed data =>
    let bytes := r.unread ++ data
    { r with buffer := r.buffer.replace bytes, start := 0, current := 0, limit := bytes.size }
  | .compact data =>
    let bytes := r.unread ++ data
    { r.modifyBytes bytes with start := 0, current := 0, limit := bytes.size }

@[simp] theorem budget_note (s : Script) (event : HandlerEvent) :
    (s.note event).budget = s.budget := rfl

theorem budget_perform (needed : Nat) (r : Region Script) (deed : Deed) :
    (perform needed r deed).peer.budget = r.peer.budget := by
  cases deed <;> rfl

/-- Do all that an action does, and answer. -/
def act (needed : Nat) (action : Action) (r : Region Script) :
    Except Fault Status × Region Script :=
  let r := { r with errorNumber := action.errorNumber.getD r.errorNumber }
  let r := match action.deed with
    | none => r
    | some deed => perform needed r deed
  match action.fault with
  | some fault => (.error fault, r)
  | none => (.ok action.answer, r)

/-- Answer with the next action. -/
def respond : Handler Script := fun needed r =>
  let r := noteAsked needed r
  match r.peer.next? with
  | none => (.ok .endOfInput, r)
  | some (action, script) => act needed action { r with peer := script }

theorem budget_act (needed : Nat) (action : Action) (r : Region Script) :
    (act needed action r).2.peer.budget = r.peer.budget := by
  unfold act
  cases action.deed <;> cases action.fault <;> simp [budget_perform]

/-- A script as the supplier of an unpacker. -/
def supplier : Supplier Script where
  respond := respond
  budget := budget
  spends n r r' _ h := by
    simp only [respond] at h
    split at h
    · simp [Status.ok, Status.endOfInput] at h
    · rename_i action script hnext
      have hact := budget_act n action { noteAsked n r with peer := script }
      rw [h] at hact
      have hlt := budget_next? hnext
      simpa [hact, noteAsked] using hlt

end Script
end MessagePack
