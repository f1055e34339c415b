import MessagePack.Engine
import MessagePack.Proofs.BigEndian

/-! # Contexts that can go on

A context is `Live` if nothing is latched, its region lies in its buffer with the cursor
inside, and a byte order was selected for it.  Binding a context to a region makes it live,
unless it is refused or stopped by the byte order (`Context.live_bind`).

Steps that read are described by what they do to the bytes that are still unread: `forward`
moves the cursor, and `readByte_forward`, `readField_forward` and their like say which of the
unread bytes are taken. -/

namespace MessagePack

variable {σ α β : Type}

/-- The region lies in its buffer, and the cursor in the region. -/
structure Region.InBounds (r : Region σ) : Prop where
  start_le : r.start ≤ r.current
  current_le : r.current ≤ r.limit
  limit_le : r.limit ≤ r.bytes.size

theorem Region.size_unread {r : Region σ} (h : r.limit ≤ r.bytes.size) :
    r.unread.size = r.limit - r.current := by
  rw [unread, Bytes.size_slice, Nat.min_eq_left h]

namespace Context

/-- Nothing keeps the context from going on. -/
structure Live (c : Context σ) : Prop where
  inBounds : c.toRegion.InBounds
  status_eq : c.status = .ok
  order_eq : ∃ order, c.order = some order ∧ order.Suits

/-- Nothing is latched, the order of the bytes is known, and the next `n` bytes are in the buffer,
wherever the region starts.  A handler that keeps the region in its buffer leaves no more than
this of a live context. -/
structure Ready (n : Nat) (c : Context σ) : Prop where
  le_limit : c.current + n ≤ c.limit
  limit_le : c.limit ≤ c.bytes.size
  status_eq : c.status = .ok
  order_eq : ∃ order, c.order = some order ∧ order.Suits

/-- The context with its cursor moved on by `k` bytes. -/
def forward (c : Context σ) (k : Nat) : Context σ := { c with current := c.current + k }

/-- The same context with another last item. -/
def holding (c : Context σ) (item : Option (Item Span)) : Context σ := { c with item }

@[simp] theorem current_forward (c : Context σ) (k : Nat) :
    (c.forward k).current = c.current + k := rfl

@[simp] theorem bytes_forward (c : Context σ) (k : Nat) : (c.forward k).bytes = c.bytes := rfl

theorem forward_forward (c : Context σ) (j k : Nat) :
    (c.forward j).forward k = c.forward (j + k) := by
  simp only [forward, Nat.add_assoc]

/-! ### Binding -/

theorem live_bind {c d : Context σ} {buffer : Buffer} {start : Int} {stop : Option Int}
    {status : Status} (h : c.bind buffer start stop = (.ok status, d)) (hd : d.status = .ok) :
    d.Live := by
  unfold bind at h
  cases hr : range? buffer.bytes.size start stop with
  | error fault => simp [hr] at h
  | ok range =>
      have hle := le_of_range?_eq_ok hr
      cases hs : c.assumptions.select with
      | error fault => simp [hr, hs] at h
      | ok order =>
          cases order with
          | none =>
              simp only [hr, hs, Prod.mk.injEq] at h
              obtain ⟨-, rfl⟩ := h
              have hne : Status.wrongByteOrder ≠ .ok := by decide
              exact absurd hd hne
          | some order =>
              simp only [hr, hs, Prod.mk.injEq] at h
              obtain ⟨-, rfl⟩ := h
              exact ⟨⟨Nat.le_refl _, hle.1, hle.2⟩, rfl, order, rfl, ByteOrder.suits_of_select hs⟩

theorem new_whole {a : Assumptions} {order : ByteOrder} (h : a.select = .ok (some order))
    (kind : Kind) (bytes : Bytes) (peer : σ) :
    Context.new kind a bytes 0 none peer = .ok {
      kind, assumptions := a, buffer := ⟨bytes, #[]⟩, limit := bytes.size, order := some order,
      peer } := by
  unfold Context.new rebind bind
  simp only [range?_whole, h]

/-- With the same assumptions, contexts for whatever ranges are stopped from the beginning alike, or
none can be made. -/
theorem new_alike {kind : Kind} {a : Assumptions} {bytes bytes' : Bytes} {start start' : Int}
    {stop stop' : Option Int} {peer : σ} {range range' : Nat × Nat}
    (h : range? bytes.size start stop = .ok range)
    (h' : range? bytes'.size start' stop' = .ok range') :
    (∃ fault, Context.new kind a bytes start stop peer = .error fault ∧
        Context.new kind a bytes' start' stop' peer = .error fault) ∨
      ∃ c d, Context.new kind a bytes start stop peer = .ok c ∧
        Context.new kind a bytes' start' stop' peer = .ok d ∧ d.status = c.status ∧
        c.fault = none ∧ d.fault = none := by
  unfold Context.new rebind bind
  simp only [h, h']
  cases a.select with
  | error fault => exact .inl ⟨fault, rfl, rfl⟩
  | ok order => cases order <;> exact .inr ⟨_, _, rfl, rfl, rfl, rfl, rfl⟩

theorem live_new {kind : Kind} {a : Assumptions} {bytes : Bytes} {start : Int}
    {stop : Option Int} {peer : σ} {c : Context σ}
    (h : Context.new kind a bytes start stop peer = .ok c) (hs : c.status = .ok) : c.Live := by
  unfold Context.new at h
  dsimp only at h
  split at h
  · rename_i status d hb
    obtain rfl : d = c := by simpa using h
    exact live_bind hb hs
  · simp at h

theorem peer_new {kind : Kind} {a : Assumptions} {bytes : Bytes} {start : Int}
    {stop : Option Int} {peer : σ} {c : Context σ}
    (h : Context.new kind a bytes start stop peer = .ok c) :
    c.peer = peer ∧ c.current = c.start := by
  unfold Context.new rebind bind at h
  cases hr : range? bytes.size start stop with
  | error fault => simp [hr] at h
  | ok range =>
      cases hs : a.select with
      | error fault => simp [hr, hs] at h
      | ok order =>
          cases order with
          | none | some order =>
              simp only [hr, hs, Except.ok.injEq] at h
              subst h
              exact ⟨rfl, rfl⟩

theorem region_new {kind : Kind} {a : Assumptions} {bytes : Bytes} {start : Int}
    {stop : Option Int} {peer : σ} {c : Context σ} {first last : Nat}
    (h : Context.new kind a bytes start stop peer = .ok c)
    (hrange : range? bytes.size start stop = .ok (first, last)) :
    c.bytes = bytes ∧ c.current = first ∧ c.limit = last := by
  unfold Context.new rebind bind at h
  simp only [hrange] at h
  cases hs : a.select with
  | error fault => simp [hs] at h
  | ok order =>
      cases order with
      | none | some order =>
          simp only [hs, Except.ok.injEq] at h
          subst h
          exact ⟨rfl, rfl, rfl⟩

/-- A new context keeps its assumptions, which do not contradict each other.  It is stopped if
they contradict the host. -/
theorem select_new {kind : Kind} {a : Assumptions} {bytes : Bytes} {start : Int}
    {stop : Option Int} {peer : σ} {c : Context σ}
    (h : Context.new kind a bytes start stop peer = .ok c) :
    c.assumptions = a ∧ ∃ order, a.select = .ok order ∧ (c.status = .ok → ∃ o, order = some o) := by
  unfold Context.new rebind bind at h
  cases hr : range? bytes.size start stop with
  | error fault => simp [hr] at h
  | ok range =>
      cases hs : a.select with
      | error fault => simp [hr, hs] at h
      | ok order =>
          cases order with
          | none =>
              simp only [hr, hs, Except.ok.injEq] at h
              subst h
              have hne : Status.wrongByteOrder ≠ .ok := by decide
              exact ⟨rfl, none, rfl, fun hs => absurd hs hne⟩
          | some order =>
              simp only [hr, hs, Except.ok.injEq] at h
              subst h
              exact ⟨rfl, some order, rfl, fun _ => ⟨order, rfl⟩⟩

theorem new_of_checked {fresh : Except Fault (Context σ)} {c : Context σ}
    (h : checked fresh = .ok c) : fresh = .ok c ∧ c.status = .ok := by
  unfold checked at h
  cases fresh with
  | error fault => simp at h
  | ok d =>
      dsimp only at h
      cases hd : d.check with
      | error e => simp [hd] at h
      | ok u =>
          obtain rfl : d = c := by simpa [hd] using h
          refine ⟨rfl, ?_⟩
          by_contra hs
          simp [Context.check, Status.raise, hs] at hd

/-- New contexts that differ in their bytes are refused for one reason, or none is. -/
theorem checked_alike {kind : Kind} {a : Assumptions} {bytes bytes' : Bytes} {start start' : Int}
    {stop stop' : Option Int} {peer : σ} {range range' : Nat × Nat}
    (h : range? bytes.size start stop = .ok range)
    (h' : range? bytes'.size start' stop' = .ok range') :
    (∃ refusal refusal', checked (Context.new kind a bytes start stop peer) = .error refusal ∧
        checked (Context.new kind a bytes' start' stop' peer) = .error refusal' ∧
        refusal'.failure = refusal.failure) ∨
      ∃ c d, checked (Context.new kind a bytes start stop peer) = .ok c ∧
        checked (Context.new kind a bytes' start' stop' peer) = .ok d := by
  unfold checked
  rcases new_alike h h' with ⟨fault, hc, hd⟩ | ⟨c, d, hc, hd, hstatus, hfault, hfault'⟩
  · rw [hc, hd]
    exact .inl ⟨_, _, rfl, rfl, rfl⟩
  · have hcheck : d.check = c.check := by
      rw [check, check, hstatus, hfault, hfault']
    rw [hc, hd]
    dsimp only
    rw [hcheck]
    cases c.check with
    | error e => exact .inl ⟨_, _, rfl, rfl, rfl⟩
    | ok u => exact .inr ⟨c, d, rfl, rfl⟩

theorem Live.forward {c : Context σ} (h : c.Live) {k : Nat} (hk : c.current + k ≤ c.limit) :
    (c.forward k).Live :=
  ⟨⟨Nat.le_trans h.inBounds.start_le (Nat.le_add_right _ _), hk, h.inBounds.limit_le⟩,
    h.status_eq, h.order_eq⟩

theorem Live.holding {c : Context σ} (h : c.Live) (item : Option (Item Span)) :
    (c.holding item).Live := ⟨h.inBounds, h.status_eq, h.order_eq⟩

/-! ### Unread bytes -/

/-- The bytes from the cursor to the end of the region. -/
def ahead (c : Context σ) : List UInt8 := c.unread.toList

theorem ahead_eq (c : Context σ) :
    c.ahead = (c.bytes.toList.drop c.current).take (c.limit - c.current) :=
  Bytes.toList_slice _ _ _

theorem ahead_new {a : Assumptions} {order : ByteOrder} (h : a.select = .ok (some order))
    (kind : Kind) (bytes : Bytes) (peer : σ) :
    ∃ c, Context.new kind a bytes 0 none peer = .ok c ∧ c.Live ∧ c.ahead = bytes.toList := by
  have hnew := new_whole h kind bytes peer
  refine ⟨_, hnew, live_new hnew rfl, ?_⟩
  rw [ahead_eq]
  exact List.take_length

theorem Ready.length_ahead {n : Nat} {c : Context σ} (h : c.Ready n) :
    c.ahead.length = c.limit - c.current := by
  rw [ahead, Array.length_toList, Region.size_unread h.limit_le]

theorem Ready.le_length {n : Nat} {c : Context σ} (h : c.Ready n) : n ≤ c.ahead.length := by
  have hle := h.le_limit
  rw [h.length_ahead]
  omega

theorem Ready.mono {m n : Nat} {c : Context σ} (h : c.Ready n) (hm : m ≤ n) : c.Ready m where
  le_limit := Nat.le_trans (Nat.add_le_add_left hm _) h.le_limit
  limit_le := h.limit_le
  status_eq := h.status_eq
  order_eq := h.order_eq

theorem Ready.forward {n : Nat} {c : Context σ} (h : c.Ready n) : (c.forward n).Ready 0 :=
  ⟨h.le_limit, h.limit_le, h.status_eq, h.order_eq⟩

theorem Live.ready {c : Context σ} (h : c.Live) {n : Nat} (hn : c.current + n ≤ c.limit) :
    c.Ready n := ⟨hn, h.inBounds.limit_le, h.status_eq, h.order_eq⟩

theorem length_ahead {c : Context σ} (h : c.Live) : c.ahead.length = c.limit - c.current :=
  Ready.length_ahead (n := 0) (h.ready h.inBounds.current_le)

theorem le_limit_iff {c : Context σ} (h : c.Live) {n : Nat} :
    c.current + n ≤ c.limit ↔ n ≤ c.ahead.length := by
  have := h.inBounds.current_le
  rw [length_ahead h]
  omega

theorem ahead_forward (c : Context σ) (k : Nat) : (c.forward k).ahead = c.ahead.drop k := by
  rw [ahead_eq, ahead_eq, List.drop_take, List.drop_drop, Nat.sub_sub]
  rfl

theorem getElem?_ahead {c : Context σ} {k : Nat} (h : k < c.ahead.length) :
    c.bytes[c.current + k]? = c.ahead[k]? := by
  have hk : k < c.limit - c.current := by
    rw [ahead_eq, List.length_take] at h
    omega
  rw [ahead_eq, List.getElem?_take_of_lt hk, List.getElem?_drop, Array.getElem?_toList]

theorem slice_ahead {c : Context σ} {k n : Nat} (h : k + n ≤ c.ahead.length) :
    (Bytes.slice c.bytes (c.current + k) (c.current + k + n)).toList =
      (c.ahead.drop k).take n := by
  have hk : k + n ≤ c.limit - c.current := by
    rw [ahead_eq, List.length_take] at h
    omega
  rw [Bytes.toList_slice, ahead_eq, List.drop_take, List.drop_drop, List.take_take,
    Nat.add_sub_cancel_left, Nat.min_eq_left (by omega)]

theorem view_ahead {c : Context σ} {n : Nat} (h : n ≤ c.ahead.length) :
    (⟨.borrowed c.buffer.generation, c.current, n⟩ : Span).view c.buffer =
      (c.ahead.take n).toArray := by
  have hle : 0 + n ≤ c.ahead.length := by rwa [Nat.zero_add]
  have hs := slice_ahead hle
  apply Array.toList_inj.mp
  rw [Span.view]
  dsimp only
  rw [Buffer.lookup_generation, List.toList_toArray]
  exact hs

end Context

/-! ### Steps -/

namespace Engine

theorem bind_of_ok {step : Engine σ α} {next : α → Engine σ β} {c d : Context σ} {a : α}
    (h : step c = .ok a d) : (step >>= next) c = next a d := by
  simp only [Bind.bind, EStateM.bind, h]

theorem bind_of_error {step : Engine σ α} {next : α → Engine σ β} {c d : Context σ} {halt : Halt}
    (h : step c = .error halt d) : (step >>= next) c = .error halt d := by
  simp only [Bind.bind, EStateM.bind, h]

theorem get_bind (next : Context σ → Engine σ β) (c : Context σ) :
    (get >>= next : Engine σ β) c = next c c := rfl

theorem running_eq {c : Context σ} (h : c.status = .ok) : running c = .ok () c := if_pos h

theorem running_of_latched {c : Context σ} (h : c.status ≠ .ok) :
    running c = .error (.status .stopped) c := if_neg h

/-- With a status latched, an operation does nothing. -/
theorem run_of_latched {c : Context σ} (h : c.status ≠ .ok) (next : Unit → Engine σ Unit) :
    (running >>= next : Engine σ Unit).run c = (.ok .stopped, c) := by
  rw [run, bind_of_error (running_of_latched h)]

/-! ### Asking for bytes -/

section ensure

variable {respond : Handler σ} {adapt : Status → Status} {n : Nat} {short : Status} {c : Context σ}
  {r : Region σ} (h : c.limit < c.current + n)

include h

/-- A handler is asked only for bytes that are missing. -/
theorem ensure_of_lt :
    ensure (some respond) adapt n short c =
      match respond n c.toRegion with
      | (.error fault, r) =>
        .error (.fault fault) ((c.within { r with fault := some fault }).latch .errorInHandler)
      | (.ok answer, r) =>
        if answer ≠ .ok then stop (adapt answer) (c.within r)
        else if r.current + n ≤ r.limit then .ok () (c.within r)
        else stop .errorInHandler (c.within (r.noteShortage n)) := if_neg (Nat.not_le.mpr h)

theorem ensure_of_ok (hr : respond n c.toRegion = (.ok .ok, r)) (hroom : r.current + n ≤ r.limit) :
    ensure (some respond) adapt n short c = .ok () (c.within r) := by
  rw [ensure_of_lt h, hr]
  exact if_pos hroom

theorem ensure_of_status {status : Status} (hr : respond n c.toRegion = (.ok status, r))
    (hs : status ≠ .ok) :
    ensure (some respond) adapt n short c = stop (adapt status) (c.within r) := by
  rw [ensure_of_lt h, hr]
  exact if_pos hs

theorem ensure_of_fault {fault : Fault} (hr : respond n c.toRegion = (.error fault, r)) :
    ensure (some respond) adapt n short c = .error (.fault fault)
      ((c.within { r with fault := some fault }).latch .errorInHandler) := by
  rw [ensure_of_lt h, hr]

end ensure

/-! ### Reading -/

theorem readByte_forward {c : Context σ} {k : Nat} {b : UInt8} (h : c.ahead[k]? = some b) :
    readByte (c.forward k) = .ok b (c.forward (k + 1)) := by
  have hk : k < c.ahead.length := (List.getElem?_eq_some_iff.mp h).1
  rw [← Context.getElem?_ahead hk] at h
  unfold readByte
  rw [Context.bytes_forward, Context.current_forward, h]
  rfl

section field

variable {c : Context σ} {k width : Nat}

theorem ready_forward (hc : c.Live) (hk : k + width ≤ c.ahead.length) :
    (c.forward k).Ready width :=
  (hc.forward ((Context.le_limit_iff hc).mpr (Nat.le_trans (Nat.le_add_right _ _) hk))).ready (by
    rw [Context.current_forward, Nat.add_assoc]
    exact (Context.le_limit_iff hc).mpr hk)

section ready

variable (h : c.Ready width)

include h

theorem load_ahead {order : ByteOrder} (ho : order.Suits) :
    order.load width c.bytes c.current = .ok (Layout.ofBigEndian (c.ahead.take width)) := by
  have hl : 0 + width ≤ c.ahead.length := by
    rw [Nat.zero_add]
    exact h.le_length
  have hs : (Bytes.slice c.bytes c.current (c.current + width)).toList = c.ahead.take width :=
    Context.slice_ahead hl
  rw [ByteOrder.load_eq ho (Nat.le_trans h.le_limit h.limit_le), hs]

theorem readField_ahead :
    readField width c = .ok (Layout.ofBigEndian (c.ahead.take width)) (c.forward width) := by
  unfold readField
  split_ifs with hw
  · subst hw
    have hlt : 0 < c.ahead.length := h.le_length
    have hb : c.ahead[0]? = some c.ahead[0] := List.getElem?_eq_getElem hlt
    have hr : readByte c = .ok c.ahead[0] (c.forward 1) := readByte_forward (k := 0) hb
    have he : c.ahead.take 1 = [c.ahead[0]] := by
      rw [List.take_one, List.head?_eq_getElem?, hb, Option.toList_some]
    have hn : Layout.ofBigEndian [c.ahead[0]] = c.ahead[0].toNat := by
      simp [Layout.ofBigEndian]
    rw [bind_of_ok hr, he, hn]
    rfl
  · obtain ⟨order, ho, hs⟩ := h.order_eq
    have hl := load_ahead h hs
    simp only [Bind.bind, EStateM.bind, orderFor, Context.forward, ho, get_apply, hl,
      lift, set_apply, Pure.pure, EStateM.pure]

end ready

theorem readSingle_ahead (h : c.Ready 4) :
    readSingle c = .ok (Single.toDouble (.ofNat (Layout.ofBigEndian (c.ahead.take 4))))
      (c.forward 4) := by
  obtain ⟨order, ho, hs⟩ := h.order_eq
  have hl := load_ahead h hs
  simp only [readSingle, ByteOrder.loadSingle, Bind.bind, EStateM.bind, orderFor,
    Context.forward, ho, get_apply, hl, Except.map, lift, set_apply, Pure.pure, EStateM.pure]

theorem readDouble_ahead (h : c.Ready 8) :
    readDouble c = .ok (.ofNat (Layout.ofBigEndian (c.ahead.take 8))) (c.forward 8) := by
  obtain ⟨order, ho, hs⟩ := h.order_eq
  have hl := load_ahead h hs
  simp only [readDouble, ByteOrder.loadDouble, Bind.bind, EStateM.bind, orderFor,
    Context.forward, ho, get_apply, hl, Except.map, lift, set_apply, Pure.pure, EStateM.pure]

theorem readField_forward (hc : c.Live) (hk : k + width ≤ c.ahead.length) :
    readField width (c.forward k) =
      .ok (Layout.ofBigEndian ((c.ahead.drop k).take width)) (c.forward (k + width)) := by
  rw [readField_ahead (ready_forward hc hk), Context.ahead_forward, Context.forward_forward]

theorem readSingle_forward (hc : c.Live) (hk : k + 4 ≤ c.ahead.length) :
    readSingle (c.forward k) =
      .ok (Single.toDouble (.ofNat (Layout.ofBigEndian ((c.ahead.drop k).take 4))))
        (c.forward (k + 4)) := by
  rw [readSingle_ahead (ready_forward hc hk), Context.ahead_forward, Context.forward_forward]

theorem readDouble_forward (hc : c.Live) (hk : k + 8 ≤ c.ahead.length) :
    readDouble (c.forward k) =
      .ok (.ofNat (Layout.ofBigEndian ((c.ahead.drop k).take 8))) (c.forward (k + 8)) := by
  rw [readDouble_ahead (ready_forward hc hk), Context.ahead_forward, Context.forward_forward]

end field

end Engine
end MessagePack
