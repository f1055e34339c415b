import MessagePack.Proofs.Asking
import MessagePack.Proofs.Lockstep
import MessagePack.Proofs.Skipping

/-! # Unpacking with and without refills

A handler that hands out a byte string piece by piece (`Supplier.HandsOut`) may move the unread
bytes, exchange the buffer and put the cursor anywhere, at any of the places inside an item where
bytes are asked for.  Still decoding and skipping come to what they come to without a handler on
all of the bytes (`relates_decode`, `relates_skip`).

Both run the same steps, so the proof relates the two contexts step by step.  `Refilled` says
that the bytes still to come are the same for both, and that some of them are in the region
already; `Alike` compares the results of a step.  Asking for bytes is the one step that differs
(`relates_require`); all others take bytes that are there (`lockstep_relates`). -/

namespace MessagePack

variable {σ τ α β : Type}

/-! ### Handlers that hand out bytes -/

/-- Which bytes a handler still has for a region, behind the unread ones. -/
abbrev Awaits (σ : Type) := Region σ → List UInt8 → Prop

/-- A handler that hands out bytes in order: while it `awaits r rest`, the bytes `rest` come after
the unread bytes of the region `r`.  An answer `ok` puts enough of them behind the unread bytes,
wherever it puts both, and `endOfInput` is true.  An answer `ok` always takes missing bytes off
`rest`, so their number is a budget for any such handler. -/
structure Supplier.HandsOut (s : Supplier σ) (awaits : Awaits σ) : Prop where
  /-- Passing over bytes of the region changes nothing about what comes after them. -/
  advance : ∀ r rest k, awaits r rest → r.current + k ≤ r.limit →
    awaits { r with current := r.current + k } rest
  ok : ∀ r rest n r', awaits r rest → r.limit < r.current + n → s.respond n r = (.ok .ok, r') →
    ∃ next rest', rest = next ++ rest' ∧ r'.unread.toList = r.unread.toList ++ next ∧
      r'.current + n ≤ r'.limit ∧ r'.limit ≤ r'.bytes.size ∧ awaits r' rest'
  ended : ∀ r rest n r', awaits r rest → r.limit < r.current + n →
    s.respond n r = (.ok .endOfInput, r') → r.unread.size + rest.length < n

/-- The handler may break an operation off like this, by an answer besides `ok` and `endOfInput`
to being asked for bytes that are missing. -/
def Supplier.BreaksOff (s : Supplier σ) (awaits : Awaits σ) (halt : Halt) : Prop :=
  (halt ≠ .status .ok ∧ halt ≠ .status .endOfInput) ∧
    ∃ n r rest, awaits r rest ∧ r.limit < r.current + n ∧ (s.respond n r).1 = halt.result

namespace Unpacker

open Engine

/-! ### Related contexts and results -/

/-- The one context is refilled by its handler, the other one has all bytes in its region.  The
bytes still to come are the same, and at least `n` of them are in both regions. -/
structure Refilled (awaits : Awaits σ) (n : Nat) (c : Context σ)
    (d : Context τ) : Prop where
  ready : c.current + n ≤ c.limit
  limit_le : c.limit ≤ c.bytes.size
  status_eq : c.status = .ok
  order_eq : ∃ order, c.order = some order ∧ order.Suits
  live : d.Live
  supply : ∃ rest, awaits c.toRegion rest ∧ c.ahead ++ rest = d.ahead

/-- Two results of the same step: both go on, both stop with the same status, or the handler has
broken the first one off. -/
inductive Alike (s : Supplier σ) (awaits : Awaits σ) (Q : Context σ → Context τ → Prop) :
    EStateM.Result Halt (Context σ) α → EStateM.Result Halt (Context τ) α → Prop
  | ok {a : α} {c : Context σ} {d : Context τ} (h : Q c d) : Alike s awaits Q (.ok a c) (.ok a d)
  | stopped {status : Status} {c : Context σ} {d : Context τ} (hs : status ≠ .ok)
      (hc : c.status = status) (hd : d.status = status) :
      Alike s awaits Q (.error (.status status) c) (.error (.status status) d)
  | brokenOff {halt : Halt} {c : Context σ} {r : EStateM.Result Halt (Context τ) α}
      (h : s.BreaksOff awaits halt) : Alike s awaits Q (.error halt c) r

/-- From contexts related by `P`, the steps have like results, in contexts related by `Q`. -/
def Relates (s : Supplier σ) (awaits : Awaits σ) (P : Context σ → Context τ → Prop)
    (step : Engine σ α) (step' : Engine τ α) (Q : Context σ → Context τ → Prop) : Prop :=
  ∀ c d, P c d → Alike s awaits Q (step c) (step' d)

section steps

variable {s : Supplier σ} {awaits : Awaits σ}
  {P Q R : Context σ → Context τ → Prop}

theorem Relates.bind {step : Engine σ α} {step' : Engine τ α} {next : α → Engine σ β}
    {next' : α → Engine τ β} (h : Relates s awaits P step step' Q)
    (hn : ∀ a, Relates s awaits Q (next a) (next' a) R) :
    Relates s awaits P (step >>= next) (step' >>= next') R := by
  intro c d hcd
  have hstep := h c d hcd
  generalize hr : step c = r at hstep
  generalize hr' : step' d = r' at hstep
  cases hstep with
  | @ok a c' d' hq =>
      rw [bind_of_ok hr, bind_of_ok hr']
      exact hn a c' d' hq
  | stopped hs hc hd =>
      rw [bind_of_error hr, bind_of_error hr']
      exact .stopped hs hc hd
  | brokenOff hb =>
      rw [bind_of_error hr]
      exact .brokenOff hb

theorem Relates.pure (a : α) :
    Relates s awaits P (Pure.pure a : Engine σ α) (Pure.pure a : Engine τ α) P :=
  fun _ _ h => .ok h

theorem relates_stop {status : Status} (h : status ≠ .ok) :
    Relates s awaits P (stop status : Engine σ α) (stop status : Engine τ α) Q :=
  fun _ _ _ => .stopped h rfl rfl

/-! ### Bytes that are there -/

section ready

variable {n : Nat} {c : Context σ} {d : Context τ} (h : Refilled awaits n c d)

include h

theorem Refilled.toReady : c.Ready n := ⟨h.ready, h.limit_le, h.status_eq, h.order_eq⟩

theorem Refilled.take_ahead : d.ahead.take n = c.ahead.take n := by
  obtain ⟨rest, -, hrest⟩ := h.supply
  rw [← hrest, List.take_append_of_le_length h.toReady.le_length]

theorem Refilled.le_length' : n ≤ d.ahead.length := by
  obtain ⟨rest, -, hrest⟩ := h.supply
  have := h.toReady.le_length
  rw [← hrest, List.length_append]
  omega

theorem Refilled.ready' : d.Ready n :=
  h.live.ready ((Context.le_limit_iff h.live).mpr h.le_length')

theorem Refilled.forward (hs : s.HandsOut awaits) :
    Refilled awaits 0 (c.forward n) (d.forward n) where
  ready := h.ready
  limit_le := h.limit_le
  status_eq := h.status_eq
  order_eq := h.order_eq
  live := h.live.forward ((Context.le_limit_iff h.live).mpr h.le_length')
  supply := by
    obtain ⟨rest, hrest, hahead⟩ := h.supply
    refine ⟨rest, hs.advance _ _ n hrest h.ready, ?_⟩
    rw [Context.ahead_forward, Context.ahead_forward, ← hahead,
      List.drop_append_of_le_length h.toReady.le_length]

end ready

/-! ### Single steps -/

section single

variable (hs : s.HandsOut awaits)

include hs

/-- Asking for bytes: where the handler does not break off, they are there afterwards if they are
there without a handler. -/
theorem relates_require (n : Nat) {short : Status} (h : short ≠ .ok) :
    Relates s awaits (Refilled awaits 0) (require (some s) n short : Engine σ Unit)
      (require none n short : Engine τ Unit) (Refilled awaits n) := by
  intro c d hcd
  obtain ⟨rest, hrest, hahead⟩ := hcd.supply
  have hlive := hcd.live
  have hlength : d.ahead.length = c.ahead.length + rest.length := by
    rw [← hahead, List.length_append]
  have hplenty : n ≤ d.ahead.length → require none n short d = .ok () d := fun hn =>
    require_of_le hlive (k := 0) (by omega) short
  have hscarce : d.ahead.length < n → require none n short d = stop short d := fun hn =>
    require_of_lt hlive (k := 0) (by omega) short
  by_cases hn : c.current + n ≤ c.limit
  · have hready : Refilled awaits n c d :=
      ⟨hn, hcd.limit_le, hcd.status_eq, hcd.order_eq, hlive, rest, hrest, hahead⟩
    have hc : require (some s) n short c = .ok () c := if_pos hn
    rw [hc, hplenty hready.le_length']
    exact .ok hready
  · have hshort : c.limit < c.current + n := Nat.not_le.mp hn
    cases hr : s.respond n c.toRegion with
    | mk answer r =>
        cases answer with
        | error fault =>
            have hc : require (some s) n short c = _ := ensure_of_fault hshort hr
            rw [hc]
            exact .brokenOff ⟨by simp, n, c.toRegion, rest, hrest, hshort, by
              rw [hr]
              rfl⟩
        | ok status =>
            by_cases hok : status = .ok
            · subst hok
              obtain ⟨next, rest', rfl, hunread, henough, hsize, hrest'⟩ :=
                hs.ok _ _ _ _ hrest hshort hr
              have hsupply : (c.within r).ahead ++ rest' = d.ahead := by
                rw [← hahead, ← List.append_assoc]
                exact congrArg (· ++ rest') hunread
              have hready : Refilled awaits n (c.within r) d :=
                ⟨henough, hsize, hcd.status_eq, hcd.order_eq, hlive, rest', hrest', hsupply⟩
              have hc : require (some s) n short c = _ := ensure_of_ok hshort hr henough
              rw [hc, hplenty hready.le_length']
              exact .ok hready
            · have hc : require (some s) n short c = _ := ensure_of_status hshort hr hok
              rw [hc]
              by_cases hend : status = .endOfInput
              · subst hend
                have hfew := hs.ended _ _ _ _ hrest hshort hr
                have hsize : c.unread.size = c.ahead.length := Array.length_toList.symm
                rw [hscarce (by omega)]
                exact .stopped h rfl rfl
              · have he : atEnd short status = status := if_neg hend
                rw [he]
                exact .brokenOff ⟨by simp [hok, hend], n, c.toRegion, rest, hrest, hshort, by
                  rw [hr]
                  rfl⟩

/-! ### Whole items -/

/-- Besides, the last items are the same, with the bytes that they refer to now. -/
def Presented (awaits : Awaits σ) (c : Context σ) (d : Context τ) : Prop :=
  Refilled awaits 0 c d ∧ c.last = d.last

/-- How the two contexts are related at a stage of an item. -/
def RefilledAt (awaits : Awaits σ) : Stage → Context σ → Context τ → Prop
  | .room n => Refilled awaits n
  | .presented => Presented awaits

omit hs in
theorem Refilled.holding {n : Nat} {c : Context σ} {d : Context τ} (h : Refilled awaits n c d)
    (item item' : Option (Item Span)) :
    Refilled awaits n (c.holding item) (d.holding item') :=
  ⟨h.ready, h.limit_le, h.status_eq, h.order_eq, h.live.holding item', h.supply⟩

omit hs in
theorem relates_present {item : Item Span} (hi : item.payload? = none) :
    Relates s awaits (Refilled awaits 0) (present item : Engine σ Unit)
      (present item : Engine τ Unit) (Presented awaits) := by
  intro c d h
  have hlast : item.resolve c.buffer = item.resolve d.buffer :=
    Item.mapPayload_congr fun p hp => by simp [hi] at hp
  exact .ok ⟨h.holding (some item) (some item), congrArg some hlast⟩

theorem relates_takePayload (kind : Blob) (n : Nat) :
    Relates s awaits (Refilled awaits n) (takePayload kind n : Engine σ Unit)
      (takePayload kind n : Engine τ Unit) (Presented awaits) := by
  refine fun c d h => .ok ⟨(h.forward hs).holding _ _, ?_⟩
  -- the payload is in both regions, so no refill comes between its bytes and the item
  have hc := Context.view_ahead h.toReady.le_length
  have hd := Context.view_ahead h.le_length'
  rw [h.take_ahead, ← hc] at hd
  show some ((kind.item _).mapPayload _) = some ((kind.item _).mapPayload _)
  rw [Blob.mapPayload_item, Blob.mapPayload_item]
  exact congrArg (fun p => some (kind.item p)) hd.symm

/-- With a handler and without, reading takes the same steps. -/
theorem lockstep_relates : Lockstep (some s) (none : Option (Supplier τ))
    fun p step step' q => Relates s awaits (RefilledAt awaits p) step step' (RefilledAt awaits q)
    where
  bind := .bind
  pure _ a := .pure a
  malformed _ _ := relates_stop (by decide)
  require n := relates_require hs n (by decide)
  forward h h' c d hcd := by
    have hcd : Refilled awaits _ c d := hcd
    rw [h c hcd.toReady, h' d hcd.ready', hcd.take_ahead]
    exact .ok (hcd.forward hs)
  present _ hi := relates_present hi
  payload := relates_takePayload hs

omit hs in
theorem relates_running :
    Relates s awaits (Refilled awaits 0) (running : Engine σ Unit) (running : Engine τ Unit)
      (Refilled awaits 0) := by
  intro c d h
  rw [running_eq h.status_eq, running_eq h.live.status_eq]
  exact .ok h

theorem relates_decode :
    Relates s awaits (Refilled awaits 0) (decode (some s) : Engine σ Unit)
      (decode none : Engine τ Unit) (Presented awaits) :=
  relates_running.bind fun _ =>
    (lockstep_relates hs).decodeItem (relates_require hs 1 (by decide))

/-! ### Skipping -/

theorem relates_skipItem :
    Relates s awaits (Refilled awaits 0) (skipItem (some s) : Engine σ Nat)
      (skipItem none : Engine τ Nat) (Refilled awaits 0) :=
  (lockstep_relates hs).skipItem (relates_require hs 1 (by decide))

theorem relates_skipLoop (count : Nat) :
    Relates s awaits (Refilled awaits 0) (skipLoop (some s) count : Engine σ Unit)
      (skipLoop none count : Engine τ Unit) (Refilled awaits 0) := by
  intro c d h
  fun_induction skipLoop (some s) count c generalizing d with
  | case1 c =>
      rw [skipLoop]
      exact .ok h
  | case2 c count more c' hitem ih =>
      have hlike := relates_skipItem hs c d h
      rw [hitem] at hlike
      generalize hitem' : skipItem none d = r at hlike
      cases hlike with
      | ok h' =>
          rw [skipLoop_of_ok hitem']
          exact ih _ h'
  | case3 c count halt c' hitem =>
      have hlike := relates_skipItem hs c d h
      rw [hitem] at hlike
      generalize hitem' : skipItem none d = r at hlike
      cases hlike with
      | stopped hs hc hd =>
          rw [skipLoop_of_error hitem']
          exact .stopped hs hc hd
      | brokenOff hb => exact .brokenOff hb

theorem relates_skip (count : Int) :
    Relates s awaits (Refilled awaits 0) (skip (some s) count : Engine σ Unit)
      (skip none count : Engine τ Unit) (Refilled awaits 0) :=
  relates_running.bind fun _ => relates_skipLoop hs _

end single

end steps

end Unpacker
end MessagePack
