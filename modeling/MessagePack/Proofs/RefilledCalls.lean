import MessagePack.Proofs.Refilling
import MessagePack.Unpacker.Unchanged
import Mathlib

/-! # Refilling is invisible

Calls that decode or skip come to the same for a context that is refilled by a handler and for one
that has all bytes from the beginning, one after another and with the same items
(`refill_invisible`).  A call that stops latches its status in both, so there is nothing to compare
after it; as long as calls are complete, both pass over the same bytes.

`pieces` is such a handler: it moves the unread bytes to a new buffer whenever it is asked. -/

namespace MessagePack

variable {σ τ : Type}

namespace Unpacker

open Engine

/-! ### Sequences of calls -/

/-- A call that reads. -/
inductive Call
  | decode
  | skip (count : Int)
  deriving DecidableEq, Repr

namespace Call

/-- What a call does. -/
def engine (s : Option (Supplier σ)) : Call → Engine σ Unit
  | decode => Unpacker.decode s
  | skip count => Unpacker.skip s count

/-- What is seen right after a call that is complete: the item, with its payload. -/
def sight (c : Context σ) : Call → Option (Item Bytes)
  | decode => c.last
  | skip _ => none

end Call

/-- What a call comes to, and what is seen right after it if it is complete. -/
abbrev Outcome := Except Fault Status × Option (Item Bytes)

/-- Make calls one after another: what each of them comes to, and the context afterwards. -/
def outcomes (s : Option (Supplier σ)) : List Call → Context σ → List Outcome × Context σ
  | [], c => ([], c)
  | call :: calls, c =>
      let (result, c) := (call.engine s).run c
      let (rest, d) := outcomes s calls c
      ((result, if result = .ok .ok then call.sight c else none) :: rest, d)

/-- The calls come to the same, up to the first one that the handler breaks off. -/
inductive SameUntil (s : Supplier σ) (awaits : Awaits σ) :
    List Outcome → List Outcome → Prop
  | nil : SameUntil s awaits [] []
  | cons (a : Outcome) {as bs : List Outcome} (h : SameUntil s awaits as bs) :
      SameUntil s awaits (a :: as) (a :: bs)
  | brokenOff {halt : Halt} (a b : Outcome) {as bs : List Outcome} (h : s.BreaksOff awaits halt)
      (ha : a.1 = halt.result) : SameUntil s awaits (a :: as) (b :: bs)

theorem SameUntil.refl {s : Supplier σ} {awaits : Awaits σ} (as : List Outcome) :
    SameUntil s awaits as as := by
  induction as with
  | nil => exact .nil
  | cons a as ih => exact .cons a ih

theorem SameUntil.eq {s : Supplier σ} {awaits : Awaits σ} {as bs : List Outcome}
    (h : SameUntil s awaits as bs) (hs : ∀ halt, ¬ s.BreaksOff awaits halt) : as = bs := by
  induction h with
  | nil => rfl
  | cons a h ih => rw [ih]
  | brokenOff a b h => exact absurd h (hs _)

theorem run_call_of_latched {s : Option (Supplier σ)} {c : Context σ} (h : c.status ≠ .ok)
    (call : Call) : (call.engine s).run c = (.ok .stopped, c) := by
  cases call <;> exact run_of_latched h _

theorem outcomes_of_latched {s : Option (Supplier σ)} {c : Context σ} (h : c.status ≠ .ok)
    (calls : List Call) : outcomes s calls c = (calls.map fun _ => (.ok .stopped, none), c) := by
  induction calls with
  | nil => rfl
  | cons call calls ih =>
      rw [outcomes, run_call_of_latched h]
      dsimp only
      rw [ih, if_neg (by decide)]
      rfl

/-! ### Passing over bytes of the region -/

theorem progresses_running {s : Option (Supplier σ)} :
    Progresses s (running : Engine σ Unit) := by
  intro c u d h
  by_cases hc : c.status = .ok
  · have hr : running c = .ok () c := if_pos hc
    obtain ⟨-, rfl⟩ := by simpa [hr] using h
    exact .refl _
  · simp [running_of_latched hc] at h

theorem progresses_skipLoop {s : Option (Supplier σ)} (count : Nat) :
    Progresses s (skipLoop s count : Engine σ Unit) := by
  intro c u d h
  fun_induction skipLoop s count c with
  | case1 c =>
      obtain ⟨-, rfl⟩ := by simpa using h
      exact .refl _
  | case2 c count more c' hitem ih => exact .inl ((ih h).trans_less (skipItem_less hitem))
  | case3 c count halt c' hitem => simp at h

theorem progresses_call {s : Option (Supplier σ)} (call : Call) :
    Progresses s (call.engine s : Engine σ Unit) := by
  cases call with
  | decode => exact fun _ _ _ h => .inl (decode_less h)
  | skip count => exact progresses_running.bind fun _ => progresses_skipLoop _

theorem keeps_call (call : Call) : Keeps (call.engine none : Engine σ Unit) := by
  cases call with
  | decode => exact keeps_decode
  | skip count => exact keeps_skip count

theorem call_fixed {c d : Context σ} (hc : c.current ≤ c.limit) {call : Call}
    (h : call.engine none c = .ok () d) : Fixed d c ∧ c.current ≤ d.current := by
  have hfixed : Fixed d c := by
    have := keeps_call call c
    rwa [after, h] at this
  have hwithin := progresses_call call c () d h
  have hlimit := hfixed.limit
  refine ⟨hfixed, ?_⟩
  simp only [Within, Less, rest, Prod.lex_def, Prod.mk.injEq, true_and, lt_self_iff_false,
    false_or] at hwithin
  omega

theorem Fixed.ahead {c d : Context σ} (h : Fixed d c) (hle : c.current ≤ d.current) :
    d.ahead = c.ahead.drop (d.current - c.current) := by
  rw [← Context.ahead_forward, Context.ahead_eq, Context.ahead_eq, Context.current_forward,
    Nat.add_sub_cancel' hle, Context.bytes_forward, Region.bytes, h.buffer, h.limit]
  rfl

section calls

variable {s : Supplier σ} {awaits : Awaits σ} (hs : s.HandsOut awaits)

include hs

theorem relates_call (call : Call) :
    Relates s awaits (Refilled awaits 0) (call.engine (some s) : Engine σ Unit)
      (call.engine none : Engine τ Unit)
      fun c d => Refilled awaits 0 c d ∧ call.sight c = call.sight d := by
  cases call with
  | decode => exact relates_decode hs
  | skip count =>
      intro c d h
      have hlike := relates_skip hs count c d h
      generalize hr : skip (some s) count c = r at hlike
      generalize hr' : skip none count d = r' at hlike
      rw [Call.engine, Call.engine, hr, hr']
      cases hlike with
      | ok h' => exact .ok ⟨h', rfl⟩
      | stopped hs hc hd => exact .stopped hs hc hd
      | brokenOff hb => exact .brokenOff hb

theorem Refilled.call {c : Context σ} {d : Context τ} (h : Refilled awaits 0 c d) (call : Call) :
    (∃ c' d', call.engine (some s) c = .ok () c' ∧ call.engine none d = .ok () d' ∧
      Refilled awaits 0 c' d' ∧ call.sight c' = call.sight d') ∨
    (∃ status c' d', status ≠ .ok ∧ (call.engine (some s)).run c = (.ok status, c') ∧
      (call.engine none).run d = (.ok status, d') ∧ c'.status = status ∧ d'.status = status) ∨
    ∃ halt, s.BreaksOff awaits halt ∧ ((call.engine (some s)).run c).1 = halt.result := by
  have hlike := relates_call hs call c d h
  unfold Engine.run
  generalize call.engine (some s) c = r at hlike ⊢
  generalize call.engine none d = r' at hlike ⊢
  cases hlike with
  | ok h' => exact .inl ⟨_, _, rfl, rfl, h'.1, h'.2⟩
  | stopped hs hc hd => exact .inr (.inl ⟨_, _, _, hs, rfl, rfl, hc, hd⟩)
  | @brokenOff halt c' _ hb =>
      refine .inr (.inr ⟨halt, hb, ?_⟩)
      cases halt <;> rfl

/-- Calls in related contexts.  As long as all of them are complete, both contexts pass over the
same bytes. -/
theorem Refilled.outcomes {c : Context σ} {d : Context τ} (h : Refilled awaits 0 c d)
    (calls : List Call) :
    SameUntil s awaits (outcomes (some s) calls c).1 (outcomes none calls d).1 ∧
      ((∀ a ∈ (outcomes (some s) calls c).1, a.1 = .ok .ok) →
        Refilled awaits 0 (outcomes (some s) calls c).2 (outcomes none calls d).2 ∧
          Fixed (outcomes none calls d).2 d ∧ d.current ≤ (outcomes none calls d).2.current) := by
  induction calls generalizing c d with
  | nil => exact ⟨.nil, fun _ => ⟨h, .refl d, Nat.le_refl _⟩⟩
  | cons call calls ih =>
      rw [Unpacker.outcomes, Unpacker.outcomes]
      obtain ⟨c', d', hc, hd, h', hsight⟩ | ⟨status, c', d', hstatus, hc, hd, hc', hd'⟩ |
        ⟨halt, hb, hc⟩ := h.call hs call
      · obtain ⟨hsame, hpassed⟩ := ih h'
        obtain ⟨hfixed, hle⟩ := call_fixed h.live.inBounds.current_le hd
        rw [run_of_ok hc, run_of_ok hd]
        refine ⟨?_, fun hok => ?_⟩
        · dsimp only
          rw [hsight]
          exact .cons _ hsame
        · obtain ⟨hrefilled, hfixed', hle'⟩ :=
            hpassed fun a ha => hok a (List.mem_cons_of_mem _ ha)
          exact ⟨hrefilled, hfixed'.trans hfixed, Nat.le_trans hle hle'⟩
      · subst hc'
        rw [hc, hd]
        refine ⟨?_, fun hok => absurd (hok _ (List.mem_cons_self ..)) ?_⟩
        · dsimp only
          rw [outcomes_of_latched hstatus, outcomes_of_latched (hd' ▸ hstatus),
            if_neg (by simpa using hstatus), if_neg (by simpa using hstatus)]
          exact .refl _
        · simpa using hstatus
      · refine ⟨.brokenOff _ _ hb hc, fun hok => absurd (hok _ (List.mem_cons_self ..)) ?_⟩
        dsimp only
        rw [hc]
        cases halt with
        | status answer => simpa [Halt.result] using hb.1.1
        | fault raised => simp [Halt.result]

end calls

/-- Refilling is invisible.  Let a handler hand out the bytes that a context without a handler has
in its region: then every sequence of calls comes to the same for both, with the same items,
up to a call that the handler breaks off.  After calls that are all complete, both have passed
over the same number of bytes. -/
theorem refill_invisible {s : Supplier σ} {awaits : Awaits σ} (hs : s.HandsOut awaits)
    {c : Context σ} {d : Context τ} (hc : c.Live) (hd : d.Live) {rest : List UInt8}
    (hr : awaits c.toRegion rest) (h : c.ahead ++ rest = d.ahead) (calls : List Call) :
    SameUntil s awaits (outcomes (some s) calls c).1 (outcomes none calls d).1 ∧
    ((∀ halt, ¬ s.BreaksOff awaits halt) →
      (outcomes (some s) calls c).1 = (outcomes none calls d).1) ∧
    ((∀ a ∈ (outcomes (some s) calls c).1, a.1 = .ok .ok) →
      ∃ k rest', (outcomes none calls d).2.current = d.current + k ∧ k ≤ d.ahead.length ∧
        awaits (outcomes (some s) calls c).2.toRegion rest' ∧
        (outcomes (some s) calls c).2.ahead ++ rest' = d.ahead.drop k) := by
  have hstart : Refilled awaits 0 c d :=
    ⟨hc.inBounds.current_le, hc.inBounds.limit_le, hc.status_eq, hc.order_eq, hd, rest, hr, h⟩
  obtain ⟨hsame, hpassed⟩ := hstart.outcomes hs calls
  refine ⟨hsame, hsame.eq, fun hok => ?_⟩
  obtain ⟨hend, hfixed, hle⟩ := hpassed hok
  obtain ⟨rest', hr', h'⟩ := hend.supply
  refine ⟨_, rest', (Nat.add_sub_cancel' hle).symm, ?_, hr', h'.trans (hfixed.ahead hle)⟩
  have hcurrent := hend.live.inBounds.current_le
  have hlimit := hfixed.limit
  rw [Context.length_ahead hd]
  omega

/-! ### Refilling piece by piece -/

/-- Go on in a new buffer of the unread bytes and exactly those that are missing. -/
def handOut : Handler (List UInt8) := fun n r =>
  let missing := n - r.unread.size
  let bytes := r.unread ++ (r.peer.take missing).toArray
  if missing = 0 ∨ r.peer.length < missing then (.ok .endOfInput, r)
  else (.ok .ok, { r with
    buffer := r.buffer.replace bytes, start := 0, current := 0, limit := bytes.size
    peer := r.peer.drop missing })

/-- The handler has these bytes. -/
def Holds (r : Region (List UInt8)) (rest : List UInt8) : Prop :=
  r.peer = rest ∧ r.current ≤ r.limit ∧ r.limit ≤ r.bytes.size

theorem handOut_cases (n : Nat) (r : Region (List UInt8)) :
    (handOut n r = (.ok .endOfInput, r) ∧
      (n - r.unread.size = 0 ∨ r.peer.length < n - r.unread.size)) ∨
    ∃ next rest r', handOut n r = (.ok .ok, r') ∧ 0 < next.length ∧ r.peer = next ++ rest ∧
      r.unread.size + next.length = n ∧ r'.current = 0 ∧ r'.limit = r'.bytes.size ∧
      r'.bytes = r.unread ++ next.toArray ∧ r'.peer = rest := by
  unfold handOut
  dsimp only
  split_ifs with h
  · exact .inl ⟨rfl, h⟩
  · rw [not_or, Nat.not_lt] at h
    have hlength : (r.peer.take (n - r.unread.size)).length = n - r.unread.size := by
      rw [List.length_take, Nat.min_eq_left h.2]
    exact .inr ⟨_, _, _, rfl, by omega, (List.take_append_drop ..).symm, by omega, rfl, rfl, rfl,
      rfl⟩

theorem handOut_ne {n : Nat} {r r' : Region (List UInt8)} (h : handOut n r = (.ok .ok, r')) :
    handOut n r ≠ (.ok .endOfInput, r) := by
  rw [h]
  simp [Status.ok, Status.endOfInput]

theorem handOut_contained : Handler.Contained handOut := by
  intro n r _ hlimit _
  obtain ⟨he, -⟩ | ⟨_, _, r', he, -, -, -, -, hr', -⟩ := handOut_cases n r
  · rw [he]
    exact hlimit
  · rw [he]
    exact Nat.le_of_eq hr'

/-- Bytes that are handed out as they are asked for. -/
def pieces : Supplier (List UInt8) where
  respond := handOut
  budget := List.length
  spends n r r' _ h := by
    obtain ⟨he, -⟩ | ⟨next, rest, r'', he, hpos, hpeer, -, -, -, -, hrest⟩ := handOut_cases n r
    · exact absurd he (handOut_ne h)
    · obtain rfl : r'' = r' := by simpa [h] using he.symm
      rw [hpeer, hrest, List.length_append]
      omega

theorem pieces_handsOut : pieces.HandsOut Holds where
  advance := by
    rintro r rest k ⟨rfl, -, hlimit⟩ hk
    exact ⟨rfl, hk, hlimit⟩
  ok := by
    rintro r rest n r' ⟨rfl, -, -⟩ - h
    obtain ⟨he, -⟩ | ⟨next, rest, r'', he, -, hpeer, hn, hcurrent, hlimit, hbytes, hrest⟩ :=
      handOut_cases n r
    · exact absurd he (handOut_ne h)
    · obtain rfl : r'' = r' := (Prod.ext_iff.mp (he.symm.trans h)).2
      have hunread : r''.unread = r.unread ++ next.toArray := by
        rw [Region.unread, hcurrent, hlimit, Bytes.slice, Array.extract_size, hbytes]
      refine ⟨next, rest, hpeer, ?_, ?_, Nat.le_of_eq hlimit, hrest, ?_, Nat.le_of_eq hlimit⟩
      · rw [hunread, Array.toList_append, List.toList_toArray]
      · have hsize : r''.bytes.size = r.unread.size + next.length := by
          rw [hbytes, Array.size_append, List.size_toArray]
          rfl
        rw [hcurrent, hlimit, hsize, hn, Nat.zero_add]
      · rw [hcurrent]
        exact Nat.zero_le _
  ended := by
    rintro r rest n r' ⟨rfl, hcurrent, hlimit⟩ hshort h
    obtain ⟨-, hfew⟩ | ⟨next, rest, r'', he, -⟩ := handOut_cases n r
    · have hsize := Region.size_unread hlimit
      omega
    · have h' : handOut n r = (.ok .endOfInput, r') := h
      simp [h', Status.ok, Status.endOfInput] at he

theorem pieces_not_breaksOff (halt : Halt) : ¬ pieces.BreaksOff Holds halt := by
  rintro ⟨⟨hok, hend⟩, n, r, rest, -, -, h⟩
  have hanswer : ∀ status r', handOut n r = (.ok status, r') → halt = .status status := by
    intro status r' he
    have h' : halt.result = .ok status := h.symm.trans (congrArg Prod.fst he)
    cases halt with
    | status answer => rw [Halt.result, Except.ok.injEq] at h'; rw [h']
    | fault raised => simp [Halt.result] at h'
  obtain ⟨he, -⟩ | ⟨_, _, _, he, -⟩ := handOut_cases n r
  · exact hend (hanswer _ _ he)
  · exact hok (hanswer _ _ he)

/-- A text that is refilled in the middle, and a map that is passed over; then the input ends. -/
theorem refill_invisible_pieces :
    ∃ c : Context (List UInt8),
      Context.new .unpacker {} #[0xA2, 0x61] 0 none [0x62, 0x81, 0xC0, 0xCC, 0x80] = .ok c ∧
      (outcomes (some pieces) [.decode, .skip 1, .decode] c).1 =
        [(.ok .ok, some (.str #[0x61, 0x62])), (.ok .ok, none), (.ok .endOfInput, none)] := by
  obtain ⟨d, hd, hds, hdahead, houtcomes⟩ : ∃ d : Context Unit,
      Context.new .unpacker {} #[0xA2, 0x61, 0x62, 0x81, 0xC0, 0xCC, 0x80] 0 none () = .ok d ∧
        d.status = .ok ∧ d.ahead = [0xA2, 0x61, 0x62, 0x81, 0xC0, 0xCC, 0x80] ∧
        (outcomes none [.decode, .skip 1, .decode] d).1 =
          [(.ok .ok, some (.str #[0x61, 0x62])), (.ok .ok, none), (.ok .endOfInput, none)] :=
    ⟨_, rfl, rfl, rfl, by cbv⟩
  obtain ⟨c, hc, hcs, hcahead, hpeer⟩ : ∃ c : Context (List UInt8),
      Context.new .unpacker {} #[0xA2, 0x61] 0 none [0x62, 0x81, 0xC0, 0xCC, 0x80] = .ok c ∧
        c.status = .ok ∧ c.ahead = [0xA2, 0x61] ∧ c.peer = [0x62, 0x81, 0xC0, 0xCC, 0x80] :=
    ⟨_, rfl, rfl, rfl, rfl⟩
  have hlive := Context.live_new hc hcs
  obtain ⟨-, heq, -⟩ := refill_invisible pieces_handsOut hlive (Context.live_new hd hds)
    ⟨hpeer, hlive.inBounds.current_le, hlive.inBounds.limit_le⟩ (by rw [hcahead, hdahead]; rfl)
    [.decode, .skip 1, .decode]
  exact ⟨c, hc, (heq pieces_not_breaksOff).trans houtcomes⟩

end Unpacker
end MessagePack
