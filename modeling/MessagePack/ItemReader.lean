import MessagePack.Stream.Source
import MessagePack.Unpacker.Unchanged

/-! # Reading whole items from a stream

A reader keeps the bytes that it has received and not yet used up.  It tries an
operation on them without a handler; if they are too short, it reads on and
tries again from the start.  Bytes are used up only by an operation that is
complete, so whatever goes wrong can be tried again.

* `ItemReader.next` reads one item, which owns its payload.
* `ItemReader.skip` passes over items.
* `ItemReader.all` reads all items up to the end of the source.
-/

namespace MessagePack

/-- A reader of items.  The buffer of its context holds the unread bytes. -/
structure ItemReader where
  context : Context Unit
  source : Source
  readSize : Nat
  deriving DecidableEq, Repr

namespace ItemReader

/-- The size of a read if none is given. -/
def defaultSize : Nat := 4096

/-- The bytes that were received and are not used up. -/
def unread (r : ItemReader) : Bytes := r.context.bytes

/-- A reader of a source. -/
def new (source : Source) (readSize : Nat) (assumptions : Assumptions) :
    Except Refusal ItemReader :=
  match Context.checked (Context.new .unpacker assumptions #[] 0 none ()) with
  | .error refusal => .error refusal
  | .ok context => .ok { context, source, readSize }

/-- Try an operation on all unread bytes. -/
def attempt (operation : Engine Unit Unit) (r : ItemReader) : Except Halt Unit × ItemReader :=
  match r.context.rebind 0 none with
  | (.error fault, context) => (.error (.fault fault), { r with context })
  | (.ok _, context) =>
    match operation context with
    | .ok () context => (.ok (), { r with context })
    | .error halt context => (.error halt, { r with context })

/-- Use up the bytes before the cursor. -/
def consume (r : ItemReader) : ItemReader :=
  let bytes := r.unread
  { r with context := r.context.modifyBytes (Bytes.slice bytes r.context.current bytes.size) }

/-- Read on if the bytes were too short: whether there are more of them now. -/
def more (status : Status) (r : ItemReader) : Except Failure Bool × ItemReader :=
  let stopped := if status = .endOfInput ∨ status = .bufferUnderflow then .ok ()
    else r.context.check
  match stopped with
  | .error e => (.error (.stop e), r)
  | .ok () =>
    match r.source.read r.readSize with
    | (.fault fault, source) => (.error (.fault fault), { r with source })
    | (.absent, source) | (.ended, source) => (.ok false, { r with source })
    | (.data bytes, source) =>
      if bytes.isEmpty then (.ok false, { r with source })
      else
        (.ok true, { r with source, context := r.context.modifyBytes (r.unread ++ bytes) })

/-! ### Trying until there is enough -/

/-- A bound for what is still to be read and used up. -/
def total (r : ItemReader) : Nat := r.unread.size + r.source.weight

theorem attempt_source (operation : Engine Unit Unit) (r : ItemReader) :
    (r.attempt operation).2.source = r.source := by
  unfold attempt
  split
  · rfl
  · split <;> rfl

theorem more_weight {status : Status} {r r' : ItemReader} (h : r.more status = (.ok true, r')) :
    r'.source.weight < r.source.weight := by
  unfold more at h
  simp only at h
  split at h
  · simp at h
  · split at h
    · simp at h
    · simp at h
    · simp at h
    · rename_i bytes source hread
      split at h
      · simp at h
      · rename_i hempty
        simp only [Prod.mk.injEq, true_and] at h
        rw [← h]
        exact Source.weight_read_lt hread (by simpa using hempty)

/-- Try an operation until it is complete, or until the source has no more.  Then the status tells
what it was about. -/
def complete (operation : Engine Unit Unit) (r : ItemReader) :
    Except Failure (Option Status) × ItemReader :=
  match _h : r.attempt operation with
  | (.ok (), r') => (.ok none, r')
  | (.error (.fault fault), r') => (.error (.fault fault), r')
  | (.error (.status status), r') =>
    match _hm : r'.more status with
    | (.error failure, r'') => (.error failure, r'')
    | (.ok false, r'') => (.ok (some status), r'')
    | (.ok true, r'') => complete operation r''
termination_by r.source.weight
decreasing_by
  have hs := attempt_source operation r
  rw [_h] at hs
  have hw := more_weight _hm
  rw [hs] at hw
  exact hw

/-- The error of a source that ends inside an item. -/
def truncated (r : ItemReader) : StopError :=
  Status.bufferUnderflow.error
    (some ("stream ends inside an item, " ++ toString r.unread.size ++ " bytes left")) none

/-- Note that the source ended inside an item. -/
def noteTruncated (r : ItemReader) : ItemReader :=
  { r with context := { r.context with
      log := r.context.log.push
        ⟨.reader, .debug, "ItemReader", "truncated: " ++ toString r.unread.size ++ " bytes"⟩ } }

/-- The next item, or `none` if the source ends between two items. -/
def next (r : ItemReader) : Except Failure (Option (Item Span)) × ItemReader :=
  match r.complete (Unpacker.decode none) with
  | (.error failure, r) => (.error failure, r)
  | (.ok none, r) => (.ok (r.context.item.map (Item.detach r.context.buffer)), r.consume)
  | (.ok (some status), r) =>
    if status = .endOfInput then (.ok none, r)
    else (.error (.stop r.truncated), r.noteTruncated)

/-- Pass over `count` items.  If the source ends before, nothing is used up. -/
def skip (r : ItemReader) (count : Int) : Except Failure Unit × ItemReader :=
  match r.complete (Unpacker.skip none count) with
  | (.error failure, r) => (.error failure, r)
  | (.ok none, r) => (.ok (), r.consume)
  | (.ok (some status), r) => (.error (.stop (status.error none none)), r)

/-! ### All items -/

/-- Binding to all unread bytes keeps them. -/
theorem rebind_ok {c c' : Context Unit} {status : Status} (h : c.rebind 0 none = (.ok status, c')) :
    c'.buffer = c.buffer ∧ c'.current = 0 ∧ c'.limit = c.bytes.size := by
  simp only [Context.rebind, Context.bind, Context.range?_whole] at h
  split at h
  · simp at h
  · simp only [Prod.mk.injEq] at h
    rw [← h.2]
    exact ⟨rfl, rfl, rfl⟩
  · simp only [Prod.mk.injEq] at h
    rw [← h.2]
    exact ⟨rfl, rfl, rfl⟩

/-- An attempt keeps the unread bytes and the source.  If it is complete, it has passed over some
of the bytes. -/
theorem attempt_decode {r r' : ItemReader} {result : Except Halt Unit}
    (h : r.attempt (Unpacker.decode none) = (result, r')) :
    r'.unread = r.unread ∧ r'.source = r.source ∧
      (result = .ok () → r.unread.size - r'.context.current < r.unread.size) := by
  simp only [attempt] at h
  split at h
  · rename_i fault c hbind
    simp only [Prod.mk.injEq] at h
    obtain ⟨rfl, rfl⟩ := h
    have hbuffer := Context.buffer_rebind r.context 0 none
    rw [hbind] at hbuffer
    exact ⟨congrArg Buffer.bytes hbuffer, rfl, by simp⟩
  · rename_i status c hbind
    obtain ⟨hbuffer, hcurrent, hlimit⟩ := rebind_ok hbind
    have hfixed := Unpacker.keeps_decode (σ := Unit) c
    simp only [Unpacker.after] at hfixed
    split at h
    · rename_i d hdecode
      simp only [Prod.mk.injEq] at h
      rw [hdecode] at hfixed
      have hless := Unpacker.decode_less hdecode
      simp only [Unpacker.Less, Unpacker.rest, Prod.lex_def, hfixed.limit, hcurrent, hlimit]
        at hless
      rw [← h.2]
      refine ⟨?_, rfl, fun _ => ?_⟩
      · simp only [unread, Region.bytes, hfixed.buffer, hbuffer]
      · simp only [unread]
        omega
    · rename_i halt d hdecode
      simp only [Prod.mk.injEq] at h
      rw [hdecode] at hfixed
      obtain ⟨rfl, rfl⟩ := h
      refine ⟨?_, rfl, by simp⟩
      simp only [unread, Region.bytes, hfixed.buffer, hbuffer]

/-- Bytes that are read on are taken off the source. -/
theorem total_more {status : Status} {r r' : ItemReader} (h : r.more status = (.ok true, r')) :
    r'.total ≤ r.total := by
  unfold more at h
  simp only at h
  split at h
  · simp at h
  · split at h
    · simp at h
    · simp at h
    · simp at h
    · rename_i bytes source hread
      split at h
      · simp at h
      · simp only [Prod.mk.injEq, true_and] at h
        have hw := Source.size_add_weight_read hread
        rw [← h]
        simp only [total, unread, Context.bytes_modifyBytes, Array.size_append]
        omega

/-- A complete operation has passed over bytes that were there, or that the source had. -/
theorem total_complete {r r' : ItemReader}
    (h : r.complete (Unpacker.decode none) = (.ok none, r')) :
    r'.unread.size - r'.context.current + r'.source.weight < r.total := by
  fun_induction complete (Unpacker.decode none) r with
  | case1 r d hattempt =>
    obtain ⟨hunread, hsource, hless⟩ := attempt_decode hattempt
    simp only [Prod.mk.injEq, true_and] at h
    subst h
    have hlt := hless rfl
    simp only [total, hunread, hsource]
    omega
  | case2 | case3 | case4 => simp at h
  | case5 r status d hattempt e hmore ih =>
    obtain ⟨hunread, hsource, -⟩ := attempt_decode hattempt
    have hd : d.total = r.total := by simp only [total, hunread, hsource]
    have he := total_more hmore
    have hlt := ih h
    omega

/-- An item that was read leaves less to be read. -/
theorem total_next {r r' : ItemReader} {item : Item Span} (h : r.next = (.ok (some item), r')) :
    r'.total < r.total := by
  simp only [next] at h
  split at h
  · simp at h
  · rename_i d hcomplete
    simp only [Prod.mk.injEq] at h
    rw [← h.2]
    have hlt := total_complete hcomplete
    simp only [total, consume, unread, Context.bytes_modifyBytes, Bytes.size_slice] at hlt ⊢
    omega
  · split at h <;> simp at h

/-- Read items until the source ends between two of them. -/
def allLoop (found : Array (Item Span)) (r : ItemReader) :
    Except Failure (Array (Item Span)) × ItemReader :=
  match _h : r.next with
  | (.error failure, r') => (.error failure, r')
  | (.ok none, r') => (.ok found, r')
  | (.ok (some item), r') => allLoop (found.push item) r'
termination_by r.total
decreasing_by exact total_next _h

/-- All items up to the end of the source. -/
def all (r : ItemReader) : Except Failure (Array (Item Span)) × ItemReader := r.allLoop #[]

end ItemReader
end MessagePack
