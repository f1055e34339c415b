import MessagePack.Proofs.Conserving

/-! # Borrowed payloads

An item that is decoded borrows its payload from the buffer.  Reading never changes a byte of the
buffer, only the handler does; so until the handler is asked the next time the payload stays as it
came, and a detached copy stays so for ever (`Unpacker.borrowed_until_asked`).

A run is looked at between any two of its calls (`Unpacker.moments`), those of a sequence of items
included, and within each of them at any place (`Unpacker.Reaches`).  How often the handler was
asked is told by what is behind it (`Handler.Tallies`), and any handler can be given a counter for
that (`Handler.counted`).  Each call leads from one moment to the next (`Unpacker.leads_call`), and
what it leads to adds up along the run (`Unpacker.Trail`). -/

namespace MessagePack

variable {σ : Type}

/-! ### Questions are counted -/

/-- Whenever the handler is asked for bytes that are missing, this number of what is behind it
grows. -/
def Handler.Tallies (respond : Handler σ) (tally : σ → Nat) : Prop :=
  ∀ n r, r.limit < r.current + n → tally r.peer < tally (respond n r).2.peer

/-- The same handler, which besides counts how often it is asked. -/
def Handler.counted (respond : Handler σ) : Handler (σ × Nat) := fun n r =>
  let (answer, r') := respond n { r with peer := r.peer.1 }
  (answer, { r' with peer := (r'.peer, r.peer.2 + 1) })

def Supplier.counted (s : Supplier σ) : Supplier (σ × Nat) where
  respond := s.respond.counted
  budget peer := s.budget peer.1
  spends n r r' hshort h := by
    obtain ⟨hanswer, rfl⟩ := Prod.mk.inj h
    exact s.spends n { r with peer := r.peer.1 } _ hshort (Prod.ext hanswer rfl)

theorem Handler.tallies_counted (respond : Handler σ) : respond.counted.Tallies Prod.snd :=
  fun _ r _ => Nat.lt_succ_self r.peer.2

theorem Handler.Contained.counted {respond : Handler σ} (h : respond.Contained) :
    respond.counted.Contained := fun n r => h n { r with peer := r.peer.1 }

namespace StreamUnpacker

theorem tallies_fill (needed : Nat) (r : Region Source) :
    r.peer.journal.size ≤ (fill needed r).2.peer.journal.size ∧
      (r.limit < needed → r.peer.journal.size < (fill needed r).2.peer.journal.size) := by
  have honce : ∀ r, r.peer.journal.size < (readOnce r).2.peer.journal.size := by
    intro r
    have hpush : (r.peer.read (r.bytes.size - r.limit)).2.journal.size = r.peer.journal.size + 1 :=
      Array.size_push _
    have hreads := reads_readOnce r
    generalize r.peer.read (r.bytes.size - r.limit) = result at hpush hreads
    generalize readOnce r = outcome at hreads
    cases hreads <;> exact Nat.lt_of_lt_of_eq (Nat.lt_succ_self _) hpush.symm
  fun_induction fill needed r with
  | case1 r hshort answer r' h =>
      have hread := honce r
      rw [h] at hread
      exact ⟨Nat.le_of_lt hread, fun _ => hread⟩
  | case2 r hshort r' h ih =>
      have hread := honce r
      rw [h] at hread
      have hrest := Nat.lt_of_lt_of_le hread ih.1
      exact ⟨Nat.le_of_lt hrest, fun _ => hrest⟩
  | case3 r henough => exact ⟨Nat.le_refl _, fun hshort => absurd hshort henough⟩

theorem refill_tallies : Handler.Tallies refill fun source => source.journal.size := by
  intro n r hshort
  have hroom : (makeRoom n r).limit = r.limit - r.current := rfl
  have hfill := (tallies_fill (n + (r.current - r.limit)) (makeRoom n r)).2 (by omega)
  rwa [peer_makeRoom] at hfill

end StreamUnpacker

namespace Unpacker

open Engine

/-! ### Runs -/

/-- What is called on an unpacker. -/
inductive Reading
  | call (call : Call)
  /-- Read items, at most so many. -/
  | items (atMost : Option Nat)
  deriving DecidableEq, Repr

/-- A context between two calls, and the item that was obtained by the last one. -/
structure Moment (σ : Type) where
  context : Context σ
  obtained : Option (Item Span) := none
  deriving DecidableEq, Repr

/-- Right after an item of a sequence. -/
def Moment.found (c : Context σ) : Moment σ := ⟨c, c.item⟩

/-- Right after a call. -/
def Call.moment (s : Option (Supplier σ)) (call : Call) (c : Context σ) : Moment σ :=
  let (result, d) := (call.engine s).run c
  ⟨d, if call = .decode ∧ result = .ok .ok then d.item else none⟩

namespace Reading

/-- The moments after the single calls. -/
def moments (s : Option (Supplier σ)) (c : Context σ) : Reading → List (Moment σ)
  | call request => [request.moment s c]
  | items atMost =>
      let (found, _, d) := Unpacker.items s Moment.found atMost c
      found.toList ++ [⟨d, none⟩]

/-- The context in the end. -/
def after (s : Option (Supplier σ)) (c : Context σ) : Reading → Context σ
  | call request => (request.moment s c).context
  | items atMost => (Unpacker.items s Moment.found atMost c).2.2

end Reading

/-- The moments after the single calls of a run. -/
def moments (s : Option (Supplier σ)) : List Reading → Context σ → List (Moment σ)
  | [], _ => []
  | reading :: readings, c => reading.moments s c ++ moments s readings (reading.after s c)

/-! ### Items and their copies -/

/-- With this buffer, a borrowed item shows what came, and a detached copy shows it with every
other buffer. -/
structure Shows (i : Item Span) (x : Item Bytes) (b : Buffer) : Prop where
  resolve : i.resolve b = x
  view : ∀ payload, x.payload? = some payload → i.view b = .ok payload
  detach : ∀ later, (i.detach b).resolve later = x
  owned : ∀ payload, x.payload? = some payload → ∀ later, (i.detach b).view later = .ok payload
  same : ∀ payload, x.payload? = some payload →
    ((i.detach b).resolve b).same (i.resolve b) = true

section items

variable {i : Item Span} {x : Item Bytes} {b : Buffer} {payload : Bytes}

theorem view_of_resolve (h : i.resolve b = x) (hx : x.payload? = some payload) :
    i.view b = .ok payload := by
  rw [← h, Item.resolve, Item.payload?_mapPayload] at hx
  obtain ⟨span, hspan, rfl⟩ := Option.map_eq_some_iff.mp hx
  rw [Item.view, hspan]

theorem same_of_payload (hx : x.payload? = some payload) : x.same x = true := by
  cases x with
  | str | bin | ext => exact decide_eq_true rfl
  | nil | boolean | positive | negative | float | double | array | map => cases hx

/-- The bytes that the item refers to now are all that matters. -/
theorem Shows.of_resolve (h : i.resolve b = x) : Shows i x b where
  resolve := h
  view _ := view_of_resolve h
  detach later := (i.resolve_detach b later).trans h
  owned _ hx later := view_of_resolve ((i.resolve_detach b later).trans h) hx
  same _ hx := by
    rw [Item.resolve_detach, h]
    exact same_of_payload hx

end items

/-! ### From one question to the next -/

/-- Within a call, reading can go on from `c` to `d`, or be halted there. -/
def Reaches (handler : Option (Handler σ)) (c d : Context σ) : Prop :=
  ∃ p, Moves handler c p d ∨ ∃ short halt, Halted handler short c p halt d

/-- This is the context at the moment `M` or later, between two calls or within one. -/
def Later (handler : Option (Handler σ)) (M : Moment σ) (back : List (Moment σ))
    (e : Context σ) : Prop :=
  ∃ N ∈ M :: back, Reaches handler N.context e

/-- From the one context to the other the buffer is the same, unless the handler was asked. -/
structure Lasts (tally : σ → Nat) (c d : Context σ) : Prop where
  le : tally c.peer ≤ tally d.peer
  buffer : tally d.peer = tally c.peer → d.buffer = c.buffer

/-- From every moment of a run on, and also from one place within a call to another, the buffer
lasts until the handler is asked.  If an item was obtained at the moment, it shows what came as long
as that.  `Came` tells which bytes of the input have been passed over. -/
def Borrows (s : Option (Supplier σ)) (tally : σ → Nat) (Came : List UInt8 → Context σ → Prop)
    (c : Context σ) (readings : List Reading) : Prop :=
  ∀ M back, M :: back <:+ ⟨c, none⟩ :: moments s readings c →
    (∀ e, Later (s.map Supplier.respond) M back e → Lasts tally M.context e ∧
      ∀ e', Reaches (s.map Supplier.respond) e e' → Lasts tally e e') ∧
    ∀ i, M.obtained = some i → ∃ before p x, Came (before ++ p) M.context ∧ Denotes p x ∧
      ∀ e, Later (s.map Supplier.respond) M back e → tally e.peer = tally M.context.peer →
        Shows i x e.buffer

section borrows

variable {s : Option (Supplier σ)} {tally : σ → Nat} {Came Came' : List UInt8 → Context σ → Prop}
  {c : Context σ} {readings : List Reading} (h : Borrows s tally Came c readings)

include h

theorem Borrows.mono (hcame : ∀ p d, Came p d → Came' p d) :
    Borrows s tally Came' c readings := by
  intro M back hsuffix
  obtain ⟨hlasts, hobtained⟩ := h M back hsuffix
  refine ⟨hlasts, fun i hi => ?_⟩
  obtain ⟨before, p, x, hp, hx, hshows⟩ := hobtained i hi
  exact ⟨before, p, x, hcame _ _ hp, hx, hshows⟩

theorem Borrows.between {M N : Moment σ} {back : List (Moment σ)} {i : Item Span}
    (hsuffix : M :: back <:+ moments s readings c) (hi : M.obtained = some i)
    (hN : N ∈ M :: back) (heq : tally N.context.peer = tally M.context.peer) :
    ∃ before p, Came (before ++ p) M.context ∧ Denotes p (i.resolve N.context.buffer) ∧
      Shows i (i.resolve N.context.buffer) N.context.buffer := by
  obtain ⟨-, hobtained⟩ := h M back (hsuffix.trans (List.suffix_cons _ _))
  obtain ⟨before, p, x, hp, hx, hshows⟩ := hobtained i hi
  have hnow := hshows N.context ⟨N, hN, [], .inl .refl⟩ heq
  rw [hnow.resolve]
  exact ⟨before, p, hp, hx, hnow⟩

end borrows

/-! ### The buffer lasts -/

section lasts

variable {tally : σ → Nat} {handler : Option (Handler σ)} {c d e : Context σ} {p : List UInt8}

theorem Lasts.refl : Lasts tally c c := ⟨Nat.le_refl _, fun _ => rfl⟩

theorem Lasts.of_lt (h : tally c.peer < tally d.peer) : Lasts tally c d :=
  ⟨Nat.le_of_lt h, fun heq => absurd heq (Nat.ne_of_gt h)⟩

theorem Lasts.trans (h : Lasts tally c d) (h' : Lasts tally d e) : Lasts tally c e := by
  have hle := h.le
  have hle' := h'.le
  refine ⟨Nat.le_trans hle hle', fun heq => ?_⟩
  exact (h'.buffer (by omega)).trans (h.buffer (by omega))

variable (ht : ∀ respond, handler = some respond → respond.Tallies tally)

include ht

theorem lasts_asked {adapt : Status → Status} {n : Nat} {short : Status}
    {result : EStateM.Result Halt (Context σ) Unit} (h : Asked handler adapt n short c result) :
    match result with
    | .ok _ d | .error _ d => Lasts tally c d := by
  cases h with
  | there | alone => exact ⟨Nat.le_refl _, fun _ => rfl⟩
  | granted hh hn hr | declined hh hn hr | broken hh hn hr | raised hh hn hr =>
      have hlt := ht _ hh n c.toRegion hn
      rw [hr] at hlt
      exact .of_lt hlt

theorem Moves.lasts (h : Moves handler c p d) : Lasts tally c d := by
  induction h with
  | refl => exact .refl
  | forward h k hk ih => exact ih.trans ⟨Nat.le_refl _, fun _ => rfl⟩
  | asked h ha ih => exact ih.trans (lasts_asked ht ha)
  | present h item ih => exact ih.trans ⟨Nat.le_refl _, fun _ => rfl⟩

theorem Reaches.lasts (h : Reaches handler c d) : Lasts tally c d := by
  obtain ⟨p, h | ⟨short, halt, h⟩⟩ := h
  · exact h.lasts ht
  · cases h with
    | refused h ha => exact (h.lasts ht).trans (lasts_asked ht ha)
    | malformed h => exact (h.lasts ht).trans ⟨Nat.le_refl _, fun _ => rfl⟩

end lasts

/-! ### From moment to moment -/

/-- What there is to be seen at a moment after calls: bytes were passed over, of which the last ones
are those of the item that was obtained, or a status is latched. -/
inductive Arrives (handler : Option (Handler σ)) (c : Context σ) : Moment σ → Prop
  | moved {p : List UInt8} {d : Context σ} (h : Moves handler c p d) (hd : d.Ready 0) :
      Arrives handler c ⟨d, none⟩
  | obtained {before p : List UInt8} {d : Context σ} {i : Item Span} {x : Item Bytes}
      (h : Moves handler c (before ++ p) d) (hd : d.Ready 0) (hp : Denotes p x)
      (hi : i.resolve d.buffer = x) : Arrives handler c ⟨d, some i⟩
  | stopped {d : Context σ} (hd : d.status ≠ .ok) : Arrives handler c ⟨d, none⟩

/-- From a context, calls lead to this moment. -/
structure Leads (handler : Option (Handler σ)) (tally : σ → Nat) (c : Context σ) (M : Moment σ) :
    Prop where
  lasts : Lasts tally c M.context
  arrives : Arrives handler c M

section leads

variable {handler : Option (Handler σ)} {tally : σ → Nat} {c : Context σ} {M N : Moment σ}

theorem Arrives.ready (h : Arrives handler c M) (hs : M.context.status = .ok) :
    M.context.Ready 0 := by
  cases h with
  | moved h hd => exact hd
  | obtained h hd => exact hd
  | stopped hd => exact absurd hs hd

theorem Arrives.after {d : Context σ} {p : List UInt8} (h' : Arrives handler d N)
    (h : Moves handler c p d) : Arrives handler c N := by
  cases h' with
  | moved h' hd => exact .moved (h.trans h') hd
  | obtained h' hd hp hi =>
      have hall := h.trans h'
      rw [← List.append_assoc] at hall
      exact .obtained hall hd hp hi
  | stopped hd => exact .stopped hd

theorem Arrives.of_stopped {d : Context σ} (h : Arrives handler d N) (hd : d.status ≠ .ok) :
    Arrives handler c N := by
  cases h with
  | moved h hready => exact absurd (h.status.symm.trans hready.status_eq) hd
  | obtained h hready => exact absurd (h.status.symm.trans hready.status_eq) hd
  | stopped h => exact .stopped h

theorem Leads.trans (h : Leads handler tally c M) (h' : Leads handler tally M.context N) :
    Leads handler tally c N := by
  refine ⟨h.lasts.trans h'.lasts, ?_⟩
  cases h.arrives with
  | moved hmoves => exact h'.arrives.after hmoves
  | obtained hmoves => exact h'.arrives.after hmoves
  -- nothing moves on from where a status is latched, so nothing is obtained any more
  | stopped hd => exact h'.arrives.of_stopped hd

theorem Leads.idle (hc : c.status = .ok → c.Ready 0) : Leads handler tally c ⟨c, none⟩ := by
  refine ⟨.refl, ?_⟩
  by_cases hs : c.status = .ok
  · exact .moved .refl (hc hs)
  · exact .stopped hs

end leads

/-- Along a list of moments, each of them leads to the next, and the last one to this context. -/
inductive Trail (handler : Option (Handler σ)) (tally : σ → Nat) :
    Context σ → List (Moment σ) → Context σ → Prop
  | nil (c : Context σ) : Trail handler tally c [] c
  | cons {c d : Context σ} {M : Moment σ} {back : List (Moment σ)}
      (h : Leads handler tally c M) (rest : Trail handler tally M.context back d) :
      Trail handler tally c (M :: back) d

section trail

variable {handler : Option (Handler σ)} {tally : σ → Nat} {c d e : Context σ}
  {trail back : List (Moment σ)} {M N : Moment σ}

theorem Trail.append (h : Trail handler tally c trail d) (h' : Trail handler tally d back e) :
    Trail handler tally c (trail ++ back) e := by
  induction h with
  | nil => exact h'
  | cons hM _ ih => exact .cons hM (ih h')

theorem Trail.leads (h : Trail handler tally c trail d) (hN : N ∈ trail) :
    Leads handler tally c N := by
  induction h with
  | nil => cases hN
  | cons hM _ ih =>
      rcases List.mem_cons.mp hN with rfl | hN
      · exact hM
      · exact hM.trans (ih hN)

theorem Trail.of_suffix (h : Trail handler tally c trail d) (hsuffix : M :: back <:+ trail) :
    Leads handler tally c M ∧ Trail handler tally M.context back d := by
  induction h with
  | nil => cases List.suffix_nil.mp hsuffix
  | cons hM hrest ih =>
      rcases List.suffix_cons_iff.mp hsuffix with heq | hsuffix
      · obtain ⟨rfl, rfl⟩ := List.cons.inj heq
        exact ⟨hM, hrest⟩
      · obtain ⟨hlater, hback⟩ := ih hsuffix
        exact ⟨hM.trans hlater, hback⟩

theorem Trail.ready (h : Trail handler tally c trail d) (hc : c.status = .ok → c.Ready 0)
    (hd : d.status = .ok) : d.Ready 0 := by
  induction h with
  | nil => exact hc hd
  | cons hM _ ih => exact ih hM.arrives.ready hd

theorem Trail.lasts (ht : ∀ respond, handler = some respond → respond.Tallies tally)
    (h : Trail handler tally M.context back d) (hlater : Later handler M back e) :
    Lasts tally M.context e := by
  obtain ⟨N, hN, hreaches⟩ := hlater
  rcases List.mem_cons.mp hN with rfl | hN
  · exact hreaches.lasts ht
  · exact (h.leads hN).lasts.trans (hreaches.lasts ht)

end trail

/-! ### Calls -/

section calls

variable {s : Option (Supplier σ)} {tally : σ → Nat}
  (hin : ∀ respond, s.map Supplier.respond = some respond → respond.Contained)
  (ht : ∀ respond, s.map Supplier.respond = some respond → respond.Tallies tally)
  {c d : Context σ}

theorem Called.leads {handler : Option (Handler σ)} {p : List UInt8}
    {outcome : Except Fault Status × Context σ}
    (ht : ∀ respond, handler = some respond → respond.Tallies tally)
    (h : Called handler c p outcome) : Leads handler tally c ⟨outcome.2, none⟩ := by
  cases h with
  | complete h hd => exact ⟨h.lasts ht, .moved h hd⟩
  | halted hs h =>
      refine ⟨Reaches.lasts ht ⟨_, .inr ⟨_, _, h⟩⟩, ?_⟩
      rcases (Called.halted hs h).latched with hok | hd
      · exact absurd hok (h.incomplete hs)
      · exact .stopped hd

theorem running_of_decode (h : decode s c = .ok () d) : c.status = .ok := by
  by_contra hs
  have hstopped : decode s c = .error _ c := bind_of_error (running_of_latched hs)
  cases hstopped.symm.trans h

include hin ht

/-- An item that is obtained is the one whose bytes were passed over. -/
theorem leads_decode (hc : c.status = .ok → c.Ready 0) (h : decode s c = .ok () d) :
    Leads (s.map Supplier.respond) tally c ⟨d, d.item⟩ := by
  obtain ⟨p, x, hmoves, hd, hp, hlast⟩ := denotes_of_complete hin (hc (running_of_decode h)) h
  refine ⟨hmoves.lasts ht, ?_⟩
  obtain ⟨i, hi, hx⟩ := Option.map_eq_some_iff.mp hlast
  have hfirst : Moves (s.map Supplier.respond) c ([] ++ p) d := hmoves
  rw [hi]
  exact .obtained hfirst hd hp hx

theorem leads_halted (hc : c.status = .ok → c.Ready 0) {halt : Halt}
    (h : decode s c = .error halt d) :
    Leads (s.map Supplier.respond) tally c ⟨d, none⟩ ∧ halt.result ≠ .ok .ok := by
  by_cases hs : c.status = .ok
  · obtain ⟨short, p, hshort, hhalted⟩ : ∃ short p, (short = .endOfInput ∨
        short = .bufferUnderflow) ∧ Halted (s.map Supplier.respond) short c p halt d := by
      rcases traversed_decode hin (hc hs) with ⟨halt', d', hd, hhalted⟩ | htraversed
      · cases h.symm.trans hd
        exact ⟨_, _, .inl rfl, hhalted⟩
      · rw [h] at htraversed
        cases htraversed with
        | halted hhalted => exact ⟨_, _, .inr rfl, hhalted⟩
    exact ⟨(Called.halted hshort hhalted).leads ht, hhalted.incomplete hshort⟩
  · have hstopped : decode s c = .error (.status .stopped) c :=
      bind_of_error (running_of_latched hs)
    cases hstopped.symm.trans h
    refine ⟨.idle hc, ?_⟩
    simp [Halt.result, Status.ok, Status.stopped]

theorem leads_call (hc : c.status = .ok → c.Ready 0) (call : Call) :
    Leads (s.map Supplier.respond) tally c (call.moment s c) := by
  cases call with
  | decode =>
      cases h : decode s c with
      | ok u d =>
          have hmoment : Call.decode.moment s c = ⟨d, d.item⟩ := by
            rw [Call.moment, Call.engine, run_of_ok h]
            rfl
          rw [hmoment]
          exact leads_decode hin ht hc h
      | error halt d =>
          obtain ⟨hleads, hhalt⟩ := leads_halted hin ht hc h
          have hmoment : Call.decode.moment s c = ⟨d, none⟩ := by
            rw [Call.moment, Call.engine, run_of_error h]
            exact congrArg (Moment.mk d) (if_neg fun hok => hhalt hok.2)
          rwa [hmoment]
  | skip count =>
      have hmoment : (Call.skip count).moment s c = ⟨((skip s count).run c).2, none⟩ :=
        congrArg (Moment.mk _) (if_neg fun h => Call.noConfusion h.1)
      rw [hmoment]
      by_cases hs : c.status = .ok
      · obtain ⟨p, hcalled, -⟩ := called_run hin (hc hs) (.skip count)
        exact hcalled.leads ht
      · have hidle : (skip s count).run c = (.ok .stopped, c) := run_of_latched hs _
        rw [hidle]
        exact .idle hc

/-- Each item of a sequence leads to the next, and the last one to the end. -/
theorem trail_itemsLoop (hc : c.status = .ok → c.Ready 0) (atMost : Option Nat)
    (found : Array (Moment σ)) :
    ∃ trail, (itemsLoop s Moment.found atMost found c).1.toList = found.toList ++ trail ∧
      Trail (s.map Supplier.respond) tally c
        (trail ++ [⟨(itemsLoop s Moment.found atMost found c).2.2, none⟩])
        (itemsLoop s Moment.found atMost found c).2.2 := by
  fun_induction itemsLoop s Moment.found atMost found c with
  | case1 found c => exact ⟨[], (List.append_nil _).symm, .cons (.idle hc) (.nil c)⟩
  | case2 atMost found c hmore d hdecode ih =>
      have hleads := leads_decode hin ht hc hdecode
      obtain ⟨trail, hfound, htrail⟩ := ih hleads.arrives.ready
      refine ⟨⟨d, d.item⟩ :: trail, ?_, .cons hleads htrail⟩
      rw [hfound, Array.toList_push, List.append_assoc]
      rfl
  | case3 atMost found c hmore halt d hdecode =>
      have hleads := (leads_halted hin ht hc hdecode).1
      exact ⟨[], (List.append_nil _).symm, .cons hleads (.nil d)⟩

theorem trail_reading (hc : c.status = .ok → c.Ready 0) (reading : Reading) :
    Trail (s.map Supplier.respond) tally c (reading.moments s c) (reading.after s c) := by
  cases reading with
  | call request => exact .cons (leads_call hin ht hc request) (.nil _)
  | items atMost =>
      obtain ⟨trail, hfound, htrail⟩ := trail_itemsLoop hin ht hc atMost #[]
      have hmoments : Reading.moments s c (.items atMost) = trail ++ [⟨_, none⟩] :=
        congrArg (· ++ _) hfound
      rw [hmoments]
      exact htrail

theorem trail_moments (hc : c.status = .ok → c.Ready 0) (readings : List Reading) :
    ∃ d, Trail (s.map Supplier.respond) tally c (moments s readings c) d := by
  induction readings generalizing c with
  | nil => exact ⟨c, .nil c⟩
  | cons reading readings ih =>
      have hreading := trail_reading hin ht hc reading
      obtain ⟨d, hd⟩ := ih (hreading.ready hc)
      exact ⟨d, hreading.append hd⟩

theorem borrows (hc : c.status = .ok → c.Ready 0) (readings : List Reading) :
    Borrows s tally (Moves (s.map Supplier.respond) c) c readings := by
  obtain ⟨d, hd⟩ := trail_moments hin ht hc readings
  have htrail := Trail.cons (.idle hc) hd
  intro M back hsuffix
  obtain ⟨hM, hback⟩ := htrail.of_suffix hsuffix
  refine ⟨fun e he => ⟨hback.lasts ht he, fun e' he' => he'.lasts ht⟩, fun i hi => ?_⟩
  cases hM.arrives with
  | moved | stopped => cases hi
  | obtained h hd hp hx =>
      cases hi
      refine ⟨_, _, _, h, hp, fun e he heq => .of_resolve ?_⟩
      rw [(hback.lasts ht he).buffer heq]
      exact hx

end calls

open StreamUnpacker in
/-- A borrowed payload is as it came until the handler is asked, and a detached one is for ever.
Reading leaves the buffer alone, so without a handler all payloads last for the whole run.  With a
handler that keeps the region in its buffer, they last from one question to the next, whatever it
does when it is asked, be it in the middle of the item.  The same holds of every stream, which is
read at every question. -/
theorem borrowed_until_asked :
    (∀ (σ : Type) (c : Context σ) (readings : List Reading), (c.status = .ok → c.Ready 0) →
      Borrows none (fun _ => 0) (fun p d => c.ahead = p ++ d.ahead) c readings) ∧
    (∀ (σ : Type) (s : Supplier σ) (tally : σ → Nat) (c : Context σ) (readings : List Reading),
      s.respond.Contained → s.respond.Tallies tally → (c.status = .ok → c.Ready 0) →
      Borrows (some s) tally (Moves (some s.respond) c) c readings) ∧
    ∀ (source : Source) (size : Nat) (a : Assumptions) (c : StreamUnpacker)
      (readings : List Reading), StreamUnpacker.new source size a = .ok c →
      Borrows (some supplier) (fun source => source.journal.size)
        (fun p d => source.content = p ++ d.ahead ++ d.peer.content) c readings := by
  refine ⟨?_, ?_, ?_⟩
  · intro σ c readings hc
    exact (borrows (s := none) nofun nofun hc readings).mono fun _ _ h => h.ahead
  · intro σ s tally c readings hin ht hc
    exact borrows (s := some s) hin.of_eq_some (by rintro _ ⟨⟩; exact ht) hc readings
  · intro source size a c readings hnew
    obtain ⟨hc, hahead, hpeer, -⟩ := sound_new hnew
    have hborrows := borrows (s := some supplier) refill_contained.of_eq_some
      (by rintro _ ⟨⟩; exact refill_tallies) hc.ready readings
    refine hborrows.mono fun p d h => ?_
    obtain ⟨next, hnext, -⟩ := conserves_of_moves hc.current_le hc.limit_le h
    rw [hnext.account, hahead, List.nil_append, ← hnext.content, hpeer]

open StreamUnpacker in
/-- A string of a region can be seen after the next item.  One that the handler completes in a new
buffer is seen there.  One of a stream is completed in place, and can be seen until the buffer is
used for other bytes, but its copy also then. -/
theorem borrowed_until_asked_strings :
    (∃ (c : Context Unit) (L M : Moment Unit) (i : Item Span) (before p : List UInt8),
      Context.new .unpacker {} #[0xA2, 0x61, 0x62, 0x05] 0 none () = .ok c ∧
      moments none [.call .decode, .call .decode] c = [L, M] ∧ L.obtained = some i ∧
      c.ahead = before ++ p ++ L.context.ahead ∧ Denotes p (.str #[0x61, 0x62]) ∧
      Shows i (.str #[0x61, 0x62]) M.context.buffer) ∧
    (∃ (c : Context (List UInt8 × Nat)) (L : Moment (List UInt8 × Nat)) (i : Item Span)
        (before p : List UInt8),
      Context.new .unpacker {} #[0xA2, 0x61] 0 none ([0x62, 0x05], 0) = .ok c ∧
      moments (some pieces.counted) [.call .decode] c = [L] ∧ L.obtained = some i ∧
      Moves (some pieces.counted.respond) c (before ++ p) L.context ∧
      Denotes p (.str #[0x61, 0x62]) ∧ Shows i (.str #[0x61, 0x62]) L.context.buffer) ∧
    ∃ (source : Source) (c : StreamUnpacker) (L M N : Moment Source) (i : Item Span)
        (before p : List UInt8),
      source = { manner := .readInto, chunks := [.data #[0xA2, 0x61], .data #[0x62, 0x05],
        .data #[0xA2, 0x63, 0x64]] } ∧
      StreamUnpacker.new source 4 {} = .ok c ∧
      moments (some supplier) [.call .decode, .call .decode, .call .decode] c = [L, M, N] ∧
      L.obtained = some i ∧
      source.content = before ++ p ++ L.context.ahead ++ L.context.peer.content ∧
      Denotes p (.str #[0x61, 0x62]) ∧ Shows i (.str #[0x61, 0x62]) M.context.buffer ∧
      i.view N.context.buffer = .ok #[0xA2, 0x63] ∧
      (i.detach M.context.buffer).view N.context.buffer = .ok #[0x61, 0x62] := by
  refine ⟨?_, ?_, ?_⟩
  · obtain ⟨c, L, M, i, hnew, hs, hmoments, hi, hview⟩ :
        ∃ (c : Context Unit) (L M : Moment Unit) (i : Item Span),
        Context.new .unpacker {} #[0xA2, 0x61, 0x62, 0x05] 0 none () = .ok c ∧ c.status = .ok ∧
        moments none [.call .decode, .call .decode] c = [L, M] ∧
        L.obtained = some i ∧ i.resolve M.context.buffer = .str #[0x61, 0x62] :=
      ⟨_, _, _, .str ⟨.borrowed 0, 1, 2⟩, rfl, rfl, rfl, by cbv, by cbv⟩
    have hc := Context.live_new hnew hs
    have hborrows := borrowed_until_asked.1 Unit c [.call .decode, .call .decode]
      fun _ => hc.ready hc.inBounds.current_le
    obtain ⟨before, p, hp, hx, hM⟩ :=
      hborrows.between (N := M) ⟨[], hmoments.symm⟩ hi (by simp) rfl
    rw [hview] at hx hM
    exact ⟨c, L, M, i, before, p, hnew, hmoments, hi, hp, hx, hM⟩
  · obtain ⟨c, L, i, hnew, hs, hmoments, hi, hview⟩ :
        ∃ (c : Context (List UInt8 × Nat)) (L : Moment (List UInt8 × Nat)) (i : Item Span),
        Context.new .unpacker {} #[0xA2, 0x61] 0 none ([0x62, 0x05], 0) = .ok c ∧
        c.status = .ok ∧ moments (some pieces.counted) [.call .decode] c = [L] ∧
        L.obtained = some i ∧ i.resolve L.context.buffer = .str #[0x61, 0x62] :=
      ⟨_, _, .str ⟨.borrowed 1, 0, 2⟩, rfl, rfl, rfl, by cbv, by cbv⟩
    have hc := Context.live_new hnew hs
    have hborrows := borrowed_until_asked.2.1 _ pieces.counted Prod.snd c [.call .decode]
      handOut_contained.counted (Handler.tallies_counted _)
      fun _ => hc.ready hc.inBounds.current_le
    obtain ⟨before, p, hp, hx, hL⟩ :=
      hborrows.between (N := L) ⟨[], hmoments.symm⟩ hi (by simp) rfl
    rw [hview] at hx hL
    exact ⟨c, L, i, before, p, hnew, hmoments, hi, hp, hx, hL⟩
  · obtain ⟨source, c, L, M, N, i, hsource, hnew, hmoments, hi, htally, hview, hlater⟩ :
        ∃ (source : Source) (c : StreamUnpacker) (L M N : Moment Source) (i : Item Span),
        source = { manner := .readInto, chunks := [.data #[0xA2, 0x61],
          .data #[0x62, 0x05], .data #[0xA2, 0x63, 0x64]] } ∧
        StreamUnpacker.new source 4 {} = .ok c ∧
        moments (some supplier) [.call .decode, .call .decode, .call .decode] c = [L, M, N] ∧
        L.obtained = some i ∧ M.context.peer.journal.size = L.context.peer.journal.size ∧
        i.resolve M.context.buffer = .str #[0x61, 0x62] ∧
        i.view N.context.buffer = .ok #[0xA2, 0x63] :=
      ⟨_, _, _, _, _, .str ⟨.borrowed 0, 0, 2⟩, rfl, rfl, rfl, by cbv, by cbv, by cbv, by cbv⟩
    have hborrows := borrowed_until_asked.2.2 source 4 {} c
      [.call .decode, .call .decode, .call .decode] hnew
    obtain ⟨before, p, hp, hx, hM⟩ :=
      hborrows.between (N := M) ⟨[], hmoments.symm⟩ hi (by simp) htally
    rw [hview] at hx hM
    exact ⟨source, c, L, M, N, i, before, p, hsource, hnew, hmoments, hi, hp, hx, hM, hlater,
      hM.owned _ rfl _⟩

end Unpacker
end MessagePack
