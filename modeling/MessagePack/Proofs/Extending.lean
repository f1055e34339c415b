import MessagePack.Proofs.Traversing

/-! # Reading with more bytes

Without a handler, what a call comes to depends on the unread bytes alone, not on the context that
holds them.  A call that is complete needs no more bytes than it has passed over: with more behind
them it comes to the same (`Unpacker.complete_extend`).  A call that stops does so with one of three
statuses, and so does every other one on the same bytes (`Unpacker.stops_alike`). -/

namespace MessagePack

variable {σ τ α : Type}

theorem scan_extend {b : List UInt8} {item : Item Extent} {length : Nat}
    (h : scan b = .complete item length) (more : List UInt8) :
    ∃ found, scan (b ++ more) = .complete found length ∧
      found.mapPayload (Extent.fetch (b ++ more)) = item.mapPayload (Extent.fetch b) := by
  have hholds := scan_holds b
  rw [h] at hholds
  obtain ⟨hle, hdenotes, -⟩ := hholds
  have hfound := scan_append hdenotes (b.drop length ++ more)
  rwa [← List.append_assoc, List.take_append_drop, List.length_take, Nat.min_eq_left hle] at hfound

theorem Scan.status_cases {s : Scan} (h : s.status ≠ .ok) :
    s.status = .endOfInput ∨ s.status = .bufferUnderflow ∨ s.status = .malformedInput := by
  cases s with
  | complete => exact absurd rfl h
  | ended => exact .inl rfl
  | truncated => exact .inr (.inl rfl)
  | malformed => exact .inr (.inr rfl)

theorem scan_malformed {b : List UInt8} (h : (scan b).status = .malformedInput)
    (more : List UInt8) : (scan (b ++ more)).status = .malformedInput := by
  rw [status_scan_eq_malformedInput_iff] at h ⊢
  rw [List.head?_append, h]
  rfl

namespace Unpacker

open Engine

/-- What reading without a handler stops with: it is halted in `d` for want of bytes, or at a
malformed one.  So is `step` in every context with the unread bytes of `c`, in the second case with
more of them as well. -/
def StopsAlike (c : Context σ) (step : Engine τ α) (halt : Halt) (d : Context σ) : Prop :=
  ∃ status, halt = .status status ∧ d.status = status ∧
    (status = .endOfInput ∨ status = .bufferUnderflow ∨ status = .malformedInput) ∧
    ∀ (w : Context τ) more, w.Live → w.ahead = c.ahead ++ more →
      (more = [] ∨ status = .malformedInput) → ∃ x, step w = .error (.status status) x

/-! ### One item -/

section item

variable {c : Context σ} (hc : c.Live)

include hc

theorem decode_extend {d : Context σ} (hd : decode none c = .ok () d) :
    ∃ k, k ≤ c.ahead.length ∧ d.current = c.current + k ∧ ∀ {w : Context τ} {more}, w.Live →
      w.ahead = c.ahead ++ more →
      ∃ x, decode none w = .ok () x ∧ x.current = w.current + k ∧ x.last = d.last := by
  rw [decode_eq hc] at hd
  cases hs : scan c.ahead with
  | complete item k =>
      have hholds := scan_holds c.ahead
      rw [hs] at hd hholds
      obtain rfl : (c.forward k).holding (some (c.place item)) = d := by
        simpa [Scan.decoded] using hd
      refine ⟨k, hholds.1, rfl, ?_⟩
      intro w more hw hahead
      obtain ⟨found, hfound, hfetch⟩ := scan_extend hs more
      rw [← hahead] at hfound hfetch
      refine ⟨(w.forward k).holding (some (w.place found)), ?_, rfl, ?_⟩
      · rw [decode_eq hw, hfound]
        rfl
      · have hlast : (w.place found).resolve w.buffer = (c.place item).resolve c.buffer := by
          rw [Context.resolve_place hfound, Context.resolve_place hs, hfetch]
        exact congrArg some hlast
  | ended | truncated | malformed =>
      rw [hs] at hd
      cases hd

theorem skipItem_extend {n : Nat} {d : Context σ} (hd : skipItem none c = .ok n d) :
    ∃ k, k ≤ c.ahead.length ∧ d = c.forward k ∧ ∀ {w : Context τ} {more}, w.Live →
      w.ahead = c.ahead ++ more → skipItem none w = .ok n (w.forward k) := by
  have hskip := skipped_item hc
  rw [hd] at hskip
  cases hs : scan c.ahead with
  | complete item k =>
      have hholds := scan_holds c.ahead
      rw [hs] at hskip hholds
      obtain ⟨rfl, rfl⟩ := EStateM.Result.ok.inj hskip
      refine ⟨k, hholds.1, rfl, ?_⟩
      intro w more hw hahead
      obtain ⟨found, hfound, hfetch⟩ := scan_extend hs more
      rw [← hahead] at hfound hfetch
      have hcontents : found.contents = item.contents := by
        rw [← Item.contents_mapPayload (Extent.fetch w.ahead) found, hfetch,
          Item.contents_mapPayload]
      have hwskip := skipped_item hw
      rw [hfound] at hwskip
      rw [← hcontents]
      exact hwskip
  | ended | malformed =>
      rw [hs] at hskip
      cases hskip
  | truncated =>
      rw [hs] at hskip
      obtain ⟨k, hskip⟩ := hskip
      cases hskip

theorem decode_stops (h : (scan c.ahead).status ≠ .ok) :
    ∃ d, decode none c = .error (.status (scan c.ahead).status) d ∧
      d.status = (scan c.ahead).status := by
  rw [decode_eq hc]
  cases hs : scan c.ahead with
  | complete => exact absurd (congrArg Scan.status hs) h
  | ended | truncated | malformed => exact ⟨_, rfl, rfl⟩

theorem skipItem_stops (h : (scan c.ahead).status ≠ .ok) :
    ∃ d, skipItem none c = .error (.status (scan c.ahead).status) d ∧
      d.status = (scan c.ahead).status := by
  have hskip := skipped_item hc
  cases hs : scan c.ahead with
  | complete => exact absurd (congrArg Scan.status hs) h
  | ended | malformed =>
      rw [hs] at hskip
      exact ⟨_, hskip, rfl⟩
  | truncated =>
      rw [hs] at hskip
      obtain ⟨k, hskip⟩ := hskip
      exact ⟨_, hskip, rfl⟩

omit hc in
theorem stopsAlike_of_scan {step : Engine τ α}
    (hstep : ∀ w : Context τ, w.Live → (scan w.ahead).status ≠ .ok →
      ∃ x, step w = .error (.status (scan w.ahead).status) x ∧ x.status = (scan w.ahead).status)
    {halt : Halt} {d : Context σ} (h : (scan c.ahead).status ≠ .ok)
    (hhalt : halt = .status (scan c.ahead).status) (hd : d.status = (scan c.ahead).status) :
    StopsAlike c step halt d := by
  refine ⟨_, hhalt, hd, Scan.status_cases h, ?_⟩
  intro w more hw hahead hmore
  have hsame : (scan w.ahead).status = (scan c.ahead).status := by
    rcases hmore with rfl | hmalformed
    · rw [hahead, List.append_nil]
    · rw [hahead, scan_malformed hmalformed, hmalformed]
  obtain ⟨x, hx, -⟩ := hstep w hw (hsame ▸ h)
  exact ⟨x, hsame ▸ hx⟩

end item

/-! ### The loop over a count -/

theorem forward_extend {c : Context σ} {w : Context τ} {more : List UInt8} {k : Nat}
    (hw : w.Live) (hahead : w.ahead = c.ahead ++ more) (hk : k ≤ c.ahead.length) :
    (w.forward k).Live ∧ (w.forward k).ahead = (c.forward k).ahead ++ more := by
  constructor
  · apply hw.forward
    apply (Context.le_limit_iff hw).mpr
    rw [hahead, List.length_append]
    omega
  · rw [Context.ahead_forward, Context.ahead_forward, hahead, List.drop_append_of_le_length hk]

section loop

variable {c : Context σ} (hc : c.Live)

include hc

theorem skipLoop_extend (count : Nat) {d : Context σ} (hd : skipLoop none count c = .ok () d) :
    ∃ k, k ≤ c.ahead.length ∧ d = c.forward k ∧ ∀ {w : Context τ} {more}, w.Live →
      w.ahead = c.ahead ++ more → skipLoop none count w = .ok () (w.forward k) := by
  fun_induction skipLoop none count c with
  | case1 c =>
      obtain ⟨-, rfl⟩ := EStateM.Result.ok.inj hd
      refine ⟨0, Nat.zero_le _, rfl, ?_⟩
      intro w more hw hahead
      rw [skipLoop]
      rfl
  | case2 c count within e hitem ih =>
      obtain ⟨k, hk, rfl, hskip⟩ := skipItem_extend (τ := τ) hc hitem
      have hlimit := (Context.le_limit_iff hc).mpr hk
      obtain ⟨j, hj, rfl, hloop⟩ := ih (hc.forward hlimit) hd
      rw [Context.ahead_forward, List.length_drop] at hj
      refine ⟨k + j, by omega, Context.forward_forward _ _ _, ?_⟩
      intro w more hw hahead
      obtain ⟨hlive, hrest⟩ := forward_extend hw hahead hk
      rw [skipLoop_of_ok (hskip hw hahead), hloop hlive hrest, Context.forward_forward]
  | case3 c count halt e hitem => cases hd

theorem skipLoop_stops (count : Nat) {halt : Halt} {d : Context σ}
    (hd : skipLoop none count c = .error halt d) :
    StopsAlike c (skipLoop none count : Engine τ Unit) halt d := by
  fun_induction skipLoop none count c with
  | case1 c => cases hd
  | case2 c count within e hitem ih =>
      obtain ⟨k, hk, rfl, hskip⟩ := skipItem_extend (τ := τ) hc hitem
      have hlimit := (Context.le_limit_iff hc).mpr hk
      obtain ⟨status, hhalt, hstatus, hcause, hloop⟩ := ih (hc.forward hlimit) hd
      refine ⟨status, hhalt, hstatus, hcause, ?_⟩
      intro w more hw hahead hmore
      obtain ⟨hlive, hrest⟩ := forward_extend hw hahead hk
      obtain ⟨x, hx⟩ := hloop _ more hlive hrest hmore
      refine ⟨x, ?_⟩
      rw [skipLoop_of_ok (hskip hw hahead), hx]
  | case3 c count halt' e hitem =>
      obtain ⟨rfl, rfl⟩ := EStateM.Result.error.inj hd
      have hscan : (scan c.ahead).status ≠ .ok := by
        intro hok
        obtain ⟨item, k, hs⟩ := Scan.status_eq_ok_iff.mp hok
        have hskip := skipped_item hc
        rw [hitem, hs] at hskip
        cases hskip
      obtain ⟨x, hx, hstatus⟩ := skipItem_stops hc hscan
      obtain ⟨rfl, rfl⟩ := EStateM.Result.error.inj (hitem.symm.trans hx)
      apply stopsAlike_of_scan _ hscan rfl hstatus
      intro w hw hwscan
      obtain ⟨y, hy, hystatus⟩ := skipItem_stops hw hwscan
      exact ⟨y, skipLoop_of_error hy, hystatus⟩

end loop

/-! ### Calls -/

section calls

variable {c d : Context σ} (hc : c.Live) {call : Call}

include hc

/-- A complete call comes to the same with more bytes behind those that were unread. -/
theorem complete_extend (hd : call.engine none c = .ok () d) :
    ∃ k, k ≤ c.ahead.length ∧ d.current = c.current + k ∧ ∀ {w : Context τ} {more}, w.Live →
      w.ahead = c.ahead ++ more → ∃ x, call.engine none w = .ok () x ∧
        x.current = w.current + k ∧ call.sight x = call.sight d := by
  cases call with
  | decode => exact decode_extend hc hd
  | skip count =>
      rw [Call.engine, skip_eq hc] at hd
      obtain ⟨k, hk, rfl, hloop⟩ := skipLoop_extend (τ := τ) hc _ hd
      refine ⟨k, hk, rfl, ?_⟩
      intro w more hw hahead
      refine ⟨w.forward k, ?_, rfl, rfl⟩
      rw [Call.engine, skip_eq hw]
      exact hloop hw hahead

/-- A call that stops does so on every context with the same unread bytes, with the same status. -/
theorem stops_alike {halt : Halt} (hd : call.engine none c = .error halt d) :
    StopsAlike c (call.engine none : Engine τ Unit) halt d := by
  cases call with
  | decode =>
      have hscan : (scan c.ahead).status ≠ .ok := by
        intro hok
        obtain ⟨item, k, hs⟩ := Scan.status_eq_ok_iff.mp hok
        rw [Call.engine, decode_eq hc, hs] at hd
        cases hd
      obtain ⟨x, hx, hstatus⟩ := decode_stops hc hscan
      obtain ⟨rfl, rfl⟩ := EStateM.Result.error.inj (hd.symm.trans hx)
      exact stopsAlike_of_scan (fun w hw => decode_stops hw) hscan rfl hstatus
  | skip count =>
      rw [Call.engine, skip_eq hc] at hd
      obtain ⟨status, hhalt, hstatus, hcause, hloop⟩ := skipLoop_stops (τ := τ) hc _ hd
      refine ⟨status, hhalt, hstatus, hcause, ?_⟩
      intro w more hw hahead hmore
      obtain ⟨x, hx⟩ := hloop w more hw hahead hmore
      refine ⟨x, ?_⟩
      rw [Call.engine, skip_eq hw]
      exact hx

end calls

end Unpacker
end MessagePack
