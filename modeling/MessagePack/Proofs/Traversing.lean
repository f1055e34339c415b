import MessagePack.Proofs.RefilledCalls

/-! # What reading does to a context

Between two questions to its handler, reading only moves the cursor over bytes of the region and
sets the last item; a question may do anything to the region.  `Unpacker.Moves` says this of a
whole path and collects the bytes that are passed over, wherever the handler puts them in between.
`Unpacker.Traversed` adds how a path ends: the step is complete, or a question is not granted, or a
tag is malformed.  In the last two cases a status is latched, and no fault is raised besides those
of the handler.

The property `Traverses` of a step is closed under sequences (`Traverses.bind`), so it holds of
decoding and skipping as soon as it holds of the single steps (`lockstep_traverses`,
`called_run`). -/

namespace MessagePack

variable {σ α β : Type}

namespace Context

theorem Ready.holding {n : Nat} {c : Context σ} (h : c.Ready n) (item : Option (Item Span)) :
    (c.holding item).Ready n := ⟨h.le_limit, h.limit_le, h.status_eq, h.order_eq⟩

end Context

namespace Unpacker

open Engine

/-! ### Paths -/

/-- Reading can lead from `c` to this context, and passes over these bytes on the way. -/
inductive Moves (handler : Option (Handler σ)) (c : Context σ) : List UInt8 → Context σ → Prop
  | refl : Moves handler c [] c
  /-- Pass over `k` bytes of the region. -/
  | forward {p : List UInt8} {d : Context σ} (h : Moves handler c p d) (k : Nat)
      (hk : d.current + k ≤ d.limit) : Moves handler c (p ++ d.ahead.take k) (d.forward k)
  /-- Ask for bytes, which may change the region. -/
  | asked {p : List UInt8} {d e : Context σ} {adapt : Status → Status} {n : Nat} {short : Status}
      (h : Moves handler c p d) (ha : Asked handler adapt n short d (.ok () e)) :
      Moves handler c p e
  | present {p : List UInt8} {d : Context σ} (h : Moves handler c p d) (item : Item Span) :
      Moves handler c p (d.holding (some item))

/-- Reading can be halted like this after it has passed over these bytes: a question is not granted,
or a tag is malformed.  Where the input ends, `short` tells whether it was within an item. -/
inductive Halted (handler : Option (Handler σ)) (short : Status) (c : Context σ) :
    List UInt8 → Halt → Context σ → Prop
  | refused {p : List UInt8} {d e : Context σ} {n : Nat} {halt : Halt} (h : Moves handler c p d)
      (ha : Asked handler (atEnd short) n short d (.error halt e)) :
      Halted handler short c p halt e
  | malformed {p : List UInt8} {d : Context σ} (h : Moves handler c p d) :
      Halted handler short c p (.status .malformedInput) (d.latch .malformedInput)

/-- What a step can come to: it is complete with `n` bytes at the cursor, or it is halted. -/
inductive Traversed (handler : Option (Handler σ)) (short : Status) (c : Context σ) (n : Nat) :
    EStateM.Result Halt (Context σ) α → Prop
  | complete {a : α} {p : List UInt8} {d : Context σ} (h : Moves handler c p d) (hd : d.Ready n) :
      Traversed handler short c n (.ok a d)
  | halted {p : List UInt8} {halt : Halt} {d : Context σ} (h : Halted handler short c p halt d) :
      Traversed handler short c n (.error halt d)

section paths

variable {handler : Option (Handler σ)} {short : Status} {c d e : Context σ} {p q : List UInt8}

theorem Moves.trans (h : Moves handler c p d) (h' : Moves handler d q e) :
    Moves handler c (p ++ q) e := by
  induction h' with
  | refl => simpa using h
  | forward h' k hk ih =>
      rw [← List.append_assoc]
      exact ih.forward k hk
  | asked h' ha ih => exact ih.asked ha
  | present h' item ih => exact ih.present item

theorem Halted.after {halt : Halt} (h' : Halted handler short d q halt e)
    (h : Moves handler c p d) : Halted handler short c (p ++ q) halt e := by
  cases h' with
  | refused h' ha => exact .refused (h.trans h') ha
  | malformed h' => exact .malformed (h.trans h')

theorem Traversed.after {n : Nat} {result : EStateM.Result Halt (Context σ) α}
    (h' : Traversed handler short d n result) (h : Moves handler c p d) :
    Traversed handler short c n result := by
  cases h' with
  | complete h' hd => exact .complete (h.trans h') hd
  | halted h' => exact .halted (h'.after h)

theorem atEnd_ne_ok {answer : Status} (hs : short ≠ .ok) (h : answer ≠ .ok) :
    atEnd short answer ≠ .ok := by
  unfold atEnd
  split_ifs
  · exact hs
  · exact h

theorem Moves.assumptions (h : Moves handler c p d) : d.assumptions = c.assumptions := by
  induction h with
  | refl => rfl
  | forward h k hk ih => exact ih
  | asked h ha ih => exact ha.assumptions.trans ih
  | present h item ih => exact ih

theorem Moves.status (h : Moves handler c p d) : d.status = c.status := by
  induction h with
  | refl => rfl
  | forward h k hk ih => exact ih
  | asked h ha ih => exact Eq.trans (by cases ha <;> rfl) ih
  | present h item ih => exact ih

theorem Halted.assumptions {halt : Halt} (h : Halted handler short c p halt d) :
    d.assumptions = c.assumptions := by
  cases h with
  | refused h ha => exact ha.assumptions.trans h.assumptions
  | malformed h => exact h.assumptions

theorem Moves.fault (h : Moves none c p d) : d.fault = c.fault := by
  induction h with
  | refl => rfl
  | forward h k hk ih => exact ih
  | asked h ha ih =>
      cases ha with
      | there => exact ih
      | granted hh => cases hh
  | present h item ih => exact ih

theorem Moves.ahead (h : Moves none c p d) : c.ahead = p ++ d.ahead := by
  induction h with
  | refl => rfl
  | forward h k hk ih =>
      rw [ih, List.append_assoc, Context.ahead_forward, List.take_append_drop]
  | asked h ha ih =>
      cases ha with
      | there => exact ih
      | granted hh => cases hh
  | present h item ih => exact ih

theorem Halted.fault {halt : Halt} (h : Halted none short c p halt d) : d.fault = c.fault := by
  cases h with
  | malformed h => exact h.fault
  | refused h ha =>
      cases ha with
      | alone => exact h.fault
      | declined hh | broken hh | raised hh => cases hh

/-- Reading stops with the status that is latched, or with a fault that the handler has raised
when it was asked on the way. -/
theorem Halted.latched {halt : Halt} (h : Halted handler short c p halt d)
    (hshort : short = .endOfInput ∨ short = .bufferUnderflow) :
    (halt = .status d.status ∧ d.status ≠ .ok) ∨
      ∃ respond fault n r e, handler = some respond ∧ Moves handler c p e ∧
        e.limit < e.current + n ∧ respond n e.toRegion = (.error fault, r) ∧
        halt = .fault fault ∧ d.status = .errorInHandler ∧ d.fault = some fault := by
  cases h with
  | refused h ha =>
      have hs : short ≠ .ok := by
        rcases hshort with rfl | rfl <;> decide
      rcases ha.latched hs fun _ => atEnd_ne_ok hs with hd | ⟨respond, fault, r, hh, hn, hr, hd⟩
      · exact .inl hd
      · exact .inr ⟨respond, fault, _, r, _, hh, h, hn, hr, hd⟩
  | malformed h =>
      have hne : Status.malformedInput ≠ .ok := by decide
      exact .inl ⟨rfl, hne⟩

end paths

/-! ### Steps -/

/-- A context in which `m` bytes are there gets through the step, to one in which `n` bytes are
there, or the step is halted. -/
def Traverses (handler : Option (Handler σ)) (short : Status) (m : Nat) (step : Engine σ α)
    (n : Nat) : Prop :=
  ∀ c : Context σ, c.Ready m → Traversed handler short c n (step c)

section steps

variable {handler : Option (Handler σ)} {short : Status} {m n k : Nat}

theorem Traverses.bind {step : Engine σ α} {next : α → Engine σ β}
    (h : Traverses handler short m step n) (hn : ∀ a, Traverses handler short n (next a) k) :
    Traverses handler short m (step >>= next) k := by
  intro c hc
  have hstep := h c hc
  generalize hr : step c = result at hstep
  cases hstep with
  | complete hmoves hd =>
      rw [bind_of_ok hr]
      exact (hn _ _ hd).after hmoves
  | halted hhalted =>
      rw [bind_of_error hr]
      exact .halted hhalted

theorem Traverses.pure (a : α) : Traverses handler short n (Pure.pure a : Engine σ α) n :=
  fun _ hc => .complete .refl hc

theorem traverses_malformed : Traverses handler short m (stop .malformedInput : Engine σ α) n :=
  fun _ _ => .halted (.malformed .refl)

theorem traverses_present (item : Item Span) :
    Traverses handler short n (present item : Engine σ Unit) n :=
  fun _ hc => .complete (Moves.refl.present item) (hc.holding _)

theorem complete_forward {c : Context σ} (hc : c.Ready n) (a : α) :
    Traversed handler short c 0 (.ok a (c.forward n)) := by
  refine .complete (p := c.ahead.take n) ?_ hc.forward
  exact Moves.refl.forward n hc.le_limit

theorem Traverses.of_takes {value : List UInt8 → α} {step : Engine σ α} (h : Takes n value step) :
    Traverses handler short n step 0 := by
  intro c hc
  rw [h c hc]
  exact complete_forward hc _

theorem traverses_takePayload (kind : Blob) :
    Traverses handler short n (takePayload kind n : Engine σ Unit) 0 :=
  fun c hc => ((traverses_present _).bind fun _ => .of_takes takes_advance) c hc

end steps

/-! ### Items -/

section items

variable {s : Option (Supplier σ)}
  (hin : ∀ respond, s.map Supplier.respond = some respond → respond.Contained)

include hin

theorem traverses_require (n : Nat) (short : Status) :
    Traverses (s.map Supplier.respond) short 0 (require s n short : Engine σ Unit) n := by
  intro c hc
  have ha : Asked (s.map Supplier.respond) (atEnd short) n short c (require s n short c) :=
    asked_ensure
  generalize require s n short c = result at ha
  cases result with
  | ok u d => exact .complete (Moves.refl.asked ha) (ha.ready hc hin)
  | error halt d => exact .halted (.refused .refl ha)

/-- Reading an item takes steps that each get through or are halted. -/
theorem lockstep_traverses : Lockstep s s fun {α} p (step _ : Engine σ α) q =>
    Traverses (s.map Supplier.respond) .bufferUnderflow p.bytes step q.bytes where
  bind := .bind
  pure _ a := .pure a
  malformed _ _ := traverses_malformed
  require n := traverses_require hin n _
  forward h _ := .of_takes h
  present item _ := traverses_present item
  payload kind _ := traverses_takePayload kind

/-- The first byte of an item is passed over, or it cannot be had. -/
theorem traversed_readTag {c : Context σ} (hc : c.Ready 0) :
    (∃ halt d, readTag s c = .error halt d ∧
      Halted (s.map Supplier.respond) .endOfInput c [] halt d) ∨
    ∃ tag d, readTag s c = .ok tag d ∧ Moves (s.map Supplier.respond) c [tag] d ∧ d.Ready 0 := by
  have ha : Asked (s.map Supplier.respond) (atEnd .endOfInput) 1 .endOfInput c
      (require s 1 .endOfInput c) := asked_ensure
  cases hr : require s 1 .endOfInput c with
  | error halt d =>
      rw [hr] at ha
      exact .inl ⟨halt, d, bind_of_error hr, .refused .refl ha⟩
  | ok u d =>
      rw [hr] at ha
      have hd := ha.ready hc hin
      have hmoves := (Moves.refl.asked ha).forward 1 hd.le_limit
      have htag : readTag s c = readByte d := bind_of_ok hr
      cases hb : d.ahead with
      | nil =>
          have hlen := hd.le_length
          simp [hb] at hlen
      | cons tag rest =>
          rw [hb] at hmoves
          rw [takes_readByte d hd, hb] at htag
          exact .inr ⟨tag, d.forward 1, htag, hmoves, hd.forward⟩

/-- What begins with the first byte of an item is halted there, or within the item. -/
theorem traversed_item {next : UInt8 → Engine σ α} {c : Context σ} (hc : c.Ready 0)
    (hn : ∀ tag, Traverses (s.map Supplier.respond) .bufferUnderflow 0 (next tag) 0) :
    (∃ halt d, (readTag s >>= next) c = .error halt d ∧
      Halted (s.map Supplier.respond) .endOfInput c [] halt d) ∨
    Traversed (s.map Supplier.respond) .bufferUnderflow c 0 ((readTag s >>= next) c) := by
  obtain ⟨halt, d, hr, h⟩ | ⟨tag, d, hr, hmoves, hd⟩ := traversed_readTag hin hc
  · exact .inl ⟨halt, d, bind_of_error hr, h⟩
  · right
    rw [bind_of_ok hr]
    exact (hn tag d hd).after hmoves

/-- Where decoding is halted at the end of the input, it has passed over nothing. -/
theorem traversed_decode {c : Context σ} (hc : c.Ready 0) :
    (∃ halt d, decode s c = .error halt d ∧
      Halted (s.map Supplier.respond) .endOfInput c [] halt d) ∨
    Traversed (s.map Supplier.respond) .bufferUnderflow c 0 (decode s c) := by
  have hd : decode s c = decodeItem s c := bind_of_ok (running_eq hc.status_eq)
  rw [hd]
  exact traversed_item hin hc
    ((lockstep_traverses hin).pacing.decodeTagged fun _ => traverses_malformed)

theorem traversed_skipLoop (count : Nat) {c : Context σ} (hc : c.Ready 0) :
    ∃ short, (short = .endOfInput ∨ short = .bufferUnderflow) ∧
      Traversed (s.map Supplier.respond) short c 0 (skipLoop s count c) := by
  have hitem : ∀ c : Context σ, c.Ready 0 → _ := fun c hc =>
    traversed_item hin hc
      ((lockstep_traverses hin).pacing.skipTagged fun _ => traverses_malformed)
  fun_induction skipLoop s count c with
  | case1 c => exact ⟨_, .inl rfl, .complete .refl hc⟩
  | case2 c count more d hskip ih =>
      rcases hitem c hc with ⟨halt, e, he, -⟩ | h
      · cases hskip.symm.trans he
      · have h' : Traversed (s.map Supplier.respond) .bufferUnderflow c 0 (skipItem s c) := h
        rw [hskip] at h'
        cases h' with
        | complete hmoves hd =>
            obtain ⟨short, hs, hrest⟩ := ih hd
            exact ⟨short, hs, hrest.after hmoves⟩
  | case3 c count halt d hskip =>
      rcases hitem c hc with ⟨halt', e, he, h⟩ | h
      · cases hskip.symm.trans he
        exact ⟨_, .inl rfl, .halted h⟩
      · have h' : Traversed (s.map Supplier.respond) .bufferUnderflow c 0 (skipItem s c) := h
        rw [hskip] at h'
        exact ⟨_, .inr rfl, by cases h' with | halted h => exact .halted h⟩

end items

/-! ### Calls -/

/-- What a call can come to after it has passed over these bytes. -/
inductive Called (handler : Option (Handler σ)) (c : Context σ) :
    List UInt8 → Except Fault Status × Context σ → Prop
  | complete {p : List UInt8} {d : Context σ} (h : Moves handler c p d) (hd : d.Ready 0) :
      Called handler c p (.ok .ok, d)
  | halted {short : Status} {p : List UInt8} {halt : Halt} {d : Context σ}
      (hs : short = .endOfInput ∨ short = .bufferUnderflow) (h : Halted handler short c p halt d) :
      Called handler c p (halt.result, d)

section calls

variable {s : Option (Supplier σ)}

theorem Halted.result_ne {handler : Option (Handler σ)} {c d : Context σ} {p : List UInt8}
    {halt : Halt} (h : Halted handler .bufferUnderflow c p halt d) :
    halt.result ≠ .ok .endOfInput := by
  have hne : ∀ answer, atEnd .bufferUnderflow answer ≠ .endOfInput := by
    intro answer
    unfold atEnd
    split_ifs with ha
    · decide
    · exact ha
  cases h with
  | refused h ha =>
      cases ha with
      | alone | broken =>
          simp [Halt.result, Status.endOfInput, Status.bufferUnderflow, Status.errorInHandler]
      | declined => simpa [Halt.result] using hne _
      | raised => simp [Halt.result]
  | malformed h => simp [Halt.result, Status.endOfInput, Status.malformedInput]

theorem Halted.incomplete {handler : Option (Handler σ)} {short : Status} {c d : Context σ}
    {p : List UInt8} {halt : Halt} (h : Halted handler short c p halt d)
    (hs : short = .endOfInput ∨ short = .bufferUnderflow) : halt.result ≠ .ok .ok := by
  intro hr
  rcases h.latched hs with ⟨rfl, hd⟩ | ⟨_, _, _, _, _, _, _, _, _, rfl, _⟩
  · exact hd (by simpa [Halt.result] using hr)
  · simp [Halt.result] at hr

section called

variable {handler : Option (Handler σ)} {c d : Context σ} {p q : List UInt8}
  {outcome : Except Fault Status × Context σ}

theorem Called.after (h' : Called handler d q outcome) (h : Moves handler c p d) :
    Called handler c (p ++ q) outcome := by
  cases h' with
  | complete h' hd => exact .complete (h.trans h') hd
  | halted hs h' => exact .halted hs (h'.after h)

theorem Called.assumptions (h : Called handler c p outcome) :
    outcome.2.assumptions = c.assumptions := by
  cases h with
  | complete h hd => exact h.assumptions
  | halted hs h => exact h.assumptions

theorem Called.fault (h : Called none c p outcome) : outcome.2.fault = c.fault := by
  cases h with
  | complete h hd => exact h.fault
  | halted hs h => exact h.fault

theorem Called.latched (h : Called handler c p outcome) :
    outcome.1 = .ok .ok ∨ outcome.2.status ≠ .ok := by
  cases h with
  | complete h hd => exact .inl rfl
  | halted hs h =>
      right
      rcases h.latched hs with ⟨-, hd⟩ | ⟨-, -, -, -, -, -, -, -, -, -, hd, -⟩
      · exact hd
      · have hne : Status.errorInHandler ≠ .ok := by decide
        rwa [hd]

theorem Called.moves (h : Called handler c p outcome) (hr : outcome.1 = .ok .ok) :
    Moves handler c p outcome.2 ∧ outcome.2.Ready 0 := by
  cases h with
  | complete h hd => exact ⟨h, hd⟩
  | halted hs h => exact absurd hr (h.incomplete hs)

end called

/-- What a call of a context that can go on comes to.  A call that decodes and finds the end of the
input passes over nothing. -/
theorem called_run (hin : ∀ respond, s.map Supplier.respond = some respond → respond.Contained)
    {c : Context σ} (hc : c.Ready 0) (call : Call) :
    ∃ p, Called (s.map Supplier.respond) c p ((call.engine s).run c) ∧
      (call = .decode → ((call.engine s).run c).1 = .ok .endOfInput → p = []) := by
  cases call with
  | decode =>
      rcases traversed_decode hin hc with ⟨halt, d, hr, h⟩ | h
      · refine ⟨[], ?_, fun _ _ => rfl⟩
        rw [Call.engine, run_of_error hr]
        exact .halted (.inl rfl) h
      · rw [Call.engine]
        cases hr : decode s c with
        | ok u d =>
            rw [hr] at h
            rw [run_of_ok hr]
            cases h with
            | complete hmoves hd =>
                refine ⟨_, .complete hmoves hd, ?_⟩
                intro _ hend
                simp [Status.ok, Status.endOfInput] at hend
        | error halt d =>
            rw [hr] at h
            rw [run_of_error hr]
            cases h with
            | halted h => exact ⟨_, .halted (.inr rfl) h, fun _ hend => absurd hend h.result_ne⟩
  | skip count =>
      obtain ⟨short, hs, h⟩ := traversed_skipLoop hin count.toNat hc
      have hskip : skip s count c = skipLoop s count.toNat c :=
        bind_of_ok (running_eq hc.status_eq)
      have hskip' : ∀ {P : Prop}, Call.skip count = .decode → P := fun h => Call.noConfusion h
      rw [Call.engine]
      cases hr : skipLoop s count.toNat c with
      | ok u d =>
          rw [hr] at h
          rw [run_of_ok (hskip.trans hr)]
          cases h with
          | complete hmoves hd => exact ⟨_, .complete hmoves hd, hskip'⟩
      | error halt d =>
          rw [hr] at h
          rw [run_of_error (hskip.trans hr)]
          cases h with
          | halted h => exact ⟨_, .halted hs h, hskip'⟩

end calls

end Unpacker
end MessagePack
