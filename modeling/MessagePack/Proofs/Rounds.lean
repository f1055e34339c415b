import MessagePack.Proofs.Conserving

/-! # The rounds of skipping

`Unpacker.skip` goes round once for each item, and arrays and maps add their contents to the items
still to be passed.  `Unpacker.Rounds` is the loop as it runs, with its counter, which has no upper
bound, and with the number of rounds.

What bounds the rounds is not the counter but the input: each round that is complete has passed over
a tag at least (`skipItem_cases`).  So there is at most one round more than there are bytes that
were passed over (`called_rounds`), be it in a region or over a stream whose refills move the cursor
back (`skip_ends_quickly`). -/

namespace MessagePack
namespace Unpacker

open Engine

variable {σ : Type}

/-- From this count the loop of `skip` goes round so many times, leaves the counter at `left`, and
comes to this. -/
inductive Rounds (s : Option (Supplier σ)) :
    Int → Context σ → Nat → Int → Except Fault Status × Context σ → Prop
  | done {count : Int} {c : Context σ} (h : count ≤ 0) : Rounds s count c 0 count (.ok .ok, c)
  /-- A round that passes over an item, or over the header of an array or a map with `more`
  contents. -/
  | round {count left : Int} {c d : Context σ} {more rounds : Nat}
      {outcome : Except Fault Status × Context σ} (h : 0 < count)
      (hitem : skipItem s c = .ok more d)
      (hrest : Rounds s (count - 1 + more) d rounds left outcome) :
      Rounds s count c (rounds + 1) left outcome
  /-- The last round cannot be completed. -/
  | halted {count : Int} {c d : Context σ} {halt : Halt} (h : 0 < count)
      (hitem : skipItem s c = .error halt d) : Rounds s count c 1 (count - 1) (halt.result, d)

theorem Rounds.unique {s : Option (Supplier σ)} {count left left' : Int} {c : Context σ}
    {rounds rounds' : Nat} {outcome outcome' : Except Fault Status × Context σ}
    (h : Rounds s count c rounds left outcome) (h' : Rounds s count c rounds' left' outcome') :
    rounds' = rounds ∧ left' = left ∧ outcome' = outcome := by
  induction h generalizing rounds' left' outcome' with
  | done h =>
      cases h' with
      | done => exact ⟨rfl, rfl, rfl⟩
      | round h' | halted h' => omega
  | round h hitem hrest ih =>
      cases h' with
      | done h' => omega
      | round _ hitem' hrest' =>
          cases hitem.symm.trans hitem'
          obtain ⟨rfl, rfl, rfl⟩ := ih hrest'
          exact ⟨rfl, rfl, rfl⟩
      | halted _ hitem' => cases hitem.symm.trans hitem'
  | halted h hitem =>
      cases h' with
      | done h' => omega
      | round _ hitem' => cases hitem.symm.trans hitem'
      | halted _ hitem' =>
          cases hitem.symm.trans hitem'
          exact ⟨rfl, rfl, rfl⟩

section rounds

variable {s : Option (Supplier σ)}
  (hin : ∀ respond, s.map Supplier.respond = some respond → respond.Contained)

include hin

theorem skipItem_cases {c : Context σ} (hc : c.Ready 0) :
    (∃ more p d, skipItem s c = .ok more d ∧ 0 < p.length ∧
      Moves (s.map Supplier.respond) c p d ∧ d.Ready 0) ∨
    ∃ halt short p d, skipItem s c = .error halt d ∧
      (short = .endOfInput ∨ short = .bufferUnderflow) ∧
      Halted (s.map Supplier.respond) short c p halt d := by
  obtain ⟨halt, d, hr, h⟩ | ⟨tag, d, hr, hmoves, hd⟩ := traversed_readTag hin hc
  · exact .inr ⟨halt, _, _, d, bind_of_error hr, .inl rfl, h⟩
  · have hrest := (lockstep_traverses hin).pacing.skipTagged (fun _ => traverses_malformed) tag d hd
    have hitem : skipItem s c = skipRest s (Header.ofTag tag) d := bind_of_ok hr
    rw [hitem]
    generalize skipRest s (Header.ofTag tag) d = result at hrest
    cases hrest with
    | @complete more p e h he =>
        exact .inl ⟨more, tag :: p, e, rfl, Nat.succ_pos _, hmoves.trans h, he⟩
    | halted h => exact .inr ⟨_, _, _, _, rfl, .inr rfl, h.after hmoves⟩

/-- The loop passes over as many bytes as it goes round, with the exception of the last round.  The
count is used up if it is complete. -/
theorem called_rounds (n : Nat) {c : Context σ} (hc : c.Ready 0) {count : Int}
    (hn : count.toNat = n) :
    ∃ p rounds left, Called (s.map Supplier.respond) c p (Engine.run (skipLoop s n) c) ∧
      Rounds s count c rounds left (Engine.run (skipLoop s n) c) ∧ rounds ≤ p.length + 1 ∧
      ((Engine.run (skipLoop s n) c).1 = .ok .ok → left = min count 0) := by
  fun_induction skipLoop s n c generalizing count with
  | case1 c =>
      have hcount : count ≤ 0 := Int.toNat_eq_zero.mp hn
      have hdone : skipLoop s 0 c = .ok () c := by rw [skipLoop]
      rw [run_of_ok hdone]
      exact ⟨[], 0, count, .complete .refl hc, .done hcount, Nat.zero_le _, fun _ =>
        (min_eq_left hcount).symm⟩
  | case2 c n more d hitem ih =>
      have hpos : 0 < count := by omega
      have hnext : Engine.run (skipLoop s (n + 1)) c = Engine.run (skipLoop s (n + more)) d := by
        simp only [Engine.run, skipLoop_of_ok hitem]
      obtain ⟨more', p, d', hitem', hp, hmoves, hd⟩ | ⟨halt, short, p, d', hitem', -⟩ :=
        skipItem_cases hin hc
      · cases hitem.symm.trans hitem'
        have hcount : (count - 1 + more).toNat = n + more := by omega
        obtain ⟨q, rounds, left, hcalled, hrounds, hle, hleft⟩ := ih hd hcount
        rw [hnext]
        refine ⟨p ++ q, rounds + 1, left, hcalled.after hmoves, .round hpos hitem hrounds, ?_, ?_⟩
        · rw [List.length_append]
          omega
        · intro hok
          rw [hleft hok]
          omega
      · cases hitem.symm.trans hitem'
  | case3 c n halt d hitem =>
      have hpos : 0 < count := by omega
      obtain ⟨more, p, d', hitem', -⟩ | ⟨halt', short, p, d', hitem', hshort, hhalted⟩ :=
        skipItem_cases hin hc
      · cases hitem.symm.trans hitem'
      · cases hitem.symm.trans hitem'
        rw [run_of_error (skipLoop_of_error hitem)]
        exact ⟨p, 1, count - 1, .halted hshort hhalted, .halted hpos hitem, Nat.le_add_left 1 _,
          fun hok => absurd hok (hhalted.incomplete hshort)⟩

end rounds

/-! ### The cursor of a region -/

section cursor

variable {c d : Context σ} {p : List UInt8}

theorem Moves.cursor (h : Moves none c p d) (hcurrent : c.current ≤ c.limit)
    (hlimit : c.limit ≤ c.bytes.size) :
    d.current = c.current + p.length ∧ d.current ≤ c.limit ∧ d.limit = c.limit ∧
      d.bytes = c.bytes := by
  induction h with
  | refl => exact ⟨rfl, hcurrent, rfl, rfl⟩
  | @forward p d h k hk ih =>
      obtain ⟨hd, -, hl, hb⟩ := ih
      have hsize : d.ahead.length = d.limit - d.current := by
        rw [Context.ahead, Array.length_toList, Region.size_unread (by rwa [hl, hb])]
      refine ⟨?_, hl ▸ hk, hl, hb⟩
      rw [List.length_append, List.length_take, hsize, Context.current_forward, hd]
      omega
  | asked h ha ih =>
      cases ha with
      | there => exact ih
      | granted hh => cases hh
  | present h item ih => exact ih

theorem Halted.cursor {short : Status} {halt : Halt} (h : Halted none short c p halt d)
    (hcurrent : c.current ≤ c.limit) (hlimit : c.limit ≤ c.bytes.size) :
    d.current = c.current + p.length ∧ d.current ≤ c.limit := by
  cases h with
  | malformed h =>
      obtain ⟨hd, hle, -⟩ := h.cursor hcurrent hlimit
      exact ⟨hd, hle⟩
  | refused h ha =>
      obtain ⟨hd, hle, -⟩ := h.cursor hcurrent hlimit
      cases ha with
      | alone => exact ⟨hd, hle⟩
      | declined hh | broken hh | raised hh => cases hh

theorem Called.cursor {outcome : Except Fault Status × Context σ} (h : Called none c p outcome)
    (hcurrent : c.current ≤ c.limit) (hlimit : c.limit ≤ c.bytes.size) :
    outcome.2.current = c.current + p.length ∧ outcome.2.current ≤ c.limit := by
  cases h with
  | complete h hd =>
      obtain ⟨hd, hle, -⟩ := h.cursor hcurrent hlimit
      exact ⟨hd, hle⟩
  | halted hs h => exact h.cursor hcurrent hlimit

end cursor

/-! ### All inputs -/

/-- The loop of `skip` ends, in one way only.  It goes round once more at most than bytes are passed
over, and if it is complete the count is used up; one below zero stays as it is. -/
def EndsWithin (s : Option (Supplier σ)) (count : Int) (c : Context σ) (passed : Nat) : Prop :=
  ∃ rounds left, (∀ k l outcome, Rounds s count c k l outcome ↔
      k = rounds ∧ l = left ∧ outcome = (skip s count).run c) ∧
    rounds ≤ passed + 1 ∧ (((skip s count).run c).1 = .ok .ok → left = min count 0)

theorem endsWithin_skip {s : Option (Supplier σ)}
    (hin : ∀ respond, s.map Supplier.respond = some respond → respond.Contained) {c : Context σ}
    (hc : c.Ready 0) (count : Int) :
    ∃ p, Called (s.map Supplier.respond) c p ((skip s count).run c) ∧
      EndsWithin s count c p.length := by
  obtain ⟨p, rounds, left, hcalled, hrounds, hle, hleft⟩ := called_rounds hin count.toNat hc rfl
  have hskip : (skip s count).run c = Engine.run (skipLoop s count.toNat) c := by
    simp only [Engine.run, show skip s count c = skipLoop s count.toNat c from
      bind_of_ok (running_eq hc.status_eq)]
  rw [← hskip] at hcalled hrounds hleft
  refine ⟨p, hcalled, rounds, left, fun k l outcome => ⟨fun h => hrounds.unique h, ?_⟩, hle, hleft⟩
  rintro ⟨rfl, rfl, rfl⟩
  exact hrounds

end Unpacker

open Unpacker StreamUnpacker in
/-- Skipping ends quickly for every input and every count: there is one round more at most than
there are bytes that the cursor passes over.  These are bytes of the region, or of a stream those
that are unread in the buffer and those that the source still has. -/
theorem skip_ends_quickly :
    (∀ (σ : Type) (c : Context σ) (count : Int), c.Live →
      c.current ≤ ((skip none count).run c).2.current ∧
        ((skip none count).run c).2.current ≤ c.limit ∧
        EndsWithin none count c (((skip none count).run c).2.current - c.current)) ∧
    ∀ (source : Source) (size : Nat) (a : Assumptions) (c d : StreamUnpacker)
      (events : List Event) (count : Int), StreamUnpacker.new source size a = .ok c →
      afterAll events c = d → d.status = .ok →
      ∃ passed, (∀ p, Passed d p ((skip (some supplier) count).run d).2 ↔ p = passed) ∧
        passed.length ≤ d.ahead.length + d.peer.content.length ∧
        EndsWithin (some supplier) count d passed.length := by
  constructor
  · intro σ c count hc
    have hcurrent := hc.inBounds.current_le
    obtain ⟨p, hcalled, hends⟩ :=
      endsWithin_skip (s := none) nofun (hc.ready hcurrent) count
    obtain ⟨hpassed, hle⟩ := hcalled.cursor hcurrent hc.inBounds.limit_le
    rw [hpassed, Nat.add_sub_cancel_left]
    exact ⟨Nat.le_add_right _ _, hpassed ▸ hle, hends⟩
  · intro source size a c d events count hnew hd hs
    obtain ⟨hc, -, -, order, ha, -⟩ := sound_new hnew
    obtain ⟨-, -, -, -, hsound⟩ := hc.passes ha events
    rw [hd] at hsound
    obtain ⟨p, hcalled, hends⟩ :=
      endsWithin_skip (s := some supplier) refill_contained.of_eq_some (hsound.ready hs) count
    have hpassed : Passed d p _ := .of_called hcalled
    obtain ⟨next, hnext, -⟩ := conserves_of_passed hsound.current_le hsound.limit_le hpassed
    have haccount := congrArg List.length hnext.account
    have hcontent := congrArg List.length hnext.content
    rw [List.length_append, List.length_append] at haccount
    rw [List.length_append] at hcontent
    refine ⟨p, fun q => ⟨fun hq => ?_, ?_⟩, by omega, hends⟩
    · exact passed_unique hsound.current_le hsound.limit_le hpassed hq
    · rintro rfl
      exact hpassed

open Unpacker StreamUnpacker in
/-- The header of an array whose contents are missing takes the counter up to `2 ^ 32 - 1`, and the
second round finds the end of the input.  It is the same with a stream whose refills move the cursor
back in the middle of the header. -/
theorem skip_ends_quickly_missing :
    (∃ c d : Context Unit,
      Context.new .unpacker {} #[0xDD, 0xFF, 0xFF, 0xFF, 0xFF] 0 none () = .ok c ∧ c.Live ∧
      Rounds none 1 c 2 (2 ^ 32 - 2) (.ok .endOfInput, d) ∧
      (skip none 1).run c = (.ok .endOfInput, d) ∧ d.current = 5 ∧ EndsWithin none 1 c 5) ∧
    ∃ c d : StreamUnpacker, StreamUnpacker.new { manner := .readInto, chunks :=
        [.data #[0xC0, 0xDD, 0xFF], .data #[0xFF, 0xFF, 0xFF]] } 4 {} = .ok c ∧
      afterAll [.call .decode] c = d ∧ d.current = 1 ∧ d.status = .ok ∧
      ∃ passed, (∀ p, Passed d p ((skip (some supplier) 1).run d).2 ↔ p = passed) ∧
        passed.length ≤ 5 ∧ EndsWithin (some supplier) 1 d passed.length := by
  constructor
  · have hitems : ∃ c d e : Context Unit,
        Context.new .unpacker {} #[0xDD, 0xFF, 0xFF, 0xFF, 0xFF] 0 none () = .ok c ∧
        c.status = .ok ∧ skipItem none c = .ok 4294967295 d ∧
        skipItem none d = .error (.status .endOfInput) e ∧ c.current = 0 ∧ e.current = 5 :=
      ⟨_, _, _, rfl, rfl, rfl, rfl, rfl, rfl⟩
    obtain ⟨c, d, e, hnew, hs, hheader, hmissing, hcurrent, hcurrent'⟩ := hitems
    have hrounds : Rounds none 1 c 2 (2 ^ 32 - 2) (.ok .endOfInput, e) :=
      .round (by decide) hheader (.halted (by decide) hmissing)
    have hc := Context.live_new hnew hs
    obtain ⟨-, -, hends⟩ := skip_ends_quickly.1 Unit c 1 hc
    have hrun : (skip none 1).run c = (.ok .endOfInput, e) := by
      obtain ⟨rounds, left, hunique, -⟩ := hends
      exact ((hunique _ _ _).mp hrounds).2.2.symm
    rw [hrun, hcurrent, hcurrent'] at hends
    exact ⟨c, e, hnew, hc, hrounds, hrun, hcurrent', hends⟩
  · obtain ⟨source, c, hsource, hnew, hcurrent, hs, hahead, hcontent⟩ :
        ∃ (source : Source) (c : StreamUnpacker),
        source = { manner := .readInto, chunks :=
          [.data #[0xC0, 0xDD, 0xFF], .data #[0xFF, 0xFF, 0xFF]] } ∧
        StreamUnpacker.new source 4 {} = .ok c ∧ (afterAll [.call .decode] c).current = 1 ∧
        (afterAll [.call .decode] c).status = .ok ∧
        (afterAll [.call .decode] c).ahead.length = 2 ∧
        (afterAll [.call .decode] c).peer.content.length = 3 :=
      ⟨_, _, rfl, rfl, by cbv, by cbv, by cbv, by cbv⟩
    obtain ⟨passed, hpassed, hle, hends⟩ :=
      skip_ends_quickly.2 source 4 {} c _ [.call .decode] 1 hnew rfl hs
    rw [hahead, hcontent] at hle
    exact ⟨c, _, hsource ▸ hnew, rfl, hcurrent, hs, passed, hpassed, hle, hends⟩

end MessagePack
