import MessagePack.Proofs.Answering
import MessagePack.Proofs.Bounding
import MessagePack.Script

/-! # Refusing arguments

An argument that has no encoding is refused before room is made for it, and the context stays as it
was.  Only a float is looked at later, when there is room; then the context is as the handler left
it (`Packer.Refuses`).

Besides that, packing raises what the handler raises (`Packer.Raises`).  There is nothing else that
it raises where room is only made inside the buffer (`Packer.raises_iff`). -/

namespace MessagePack

variable {σ α β : Type}

theorem Request.eq_plain_of_value {request : Request} {bits : DoubleBits}
    (h : request.value = .ok (.float bits)) : request = .plain (.float bits) := by
  have hraw : ∀ {data : Data} {make : Bytes → Value}, (∀ payload, make payload ≠ .float bits) →
      data.raw.map make ≠ .ok (.float bits) := by
    intro data make hmake hmap
    cases hd : data.raw with
    | error raised =>
        rw [hd] at hmap
        cases hmap
    | ok payload =>
        rw [hd] at hmap
        exact hmake payload (Except.ok.inj hmap)
  cases request with
  | plain v =>
      cases h
      rfl
  | str data | bin data => exact absurd h (hraw fun _ h => by cases h)
  | ext type data =>
      rw [value] at h
      split_ifs at h
      exact absurd h (hraw fun _ h => by cases h)

namespace ByteOrder

theorem isIndexing_storeBytewise {buffer bytes : Bytes} {pos width : Nat} {n : Int} {fault : Fault}
    (h : storeBytewise buffer pos width n = (.error fault, bytes)) : fault.isIndexing = true := by
  induction width generalizing buffer n with
  | zero => cases h
  | succ width ih =>
      rw [storeBytewise] at h
      split_ifs at h
      · exact ih h
      · cases h
        rfl

/-- A store is only broken off where it is outside the buffer, or the number does not fit. -/
theorem isIndexing_store {order : ByteOrder} {width pos : Nat} {buffer bytes : Bytes} {n : Int}
    {fault : Fault} (h : order.store width buffer pos n = (.error fault, bytes)) :
    fault.isIndexing = true := by
  have hfield : ∀ {layout : Layout} {residue : Nat},
      storeField layout width buffer pos n residue = (.error fault, bytes) →
        fault.isIndexing = true := by
    intro layout residue h
    unfold storeField at h
    dsimp only at h
    split_ifs at h <;> cases h <;> rfl
  cases order with
  | native host => exact hfield h
  | swapped => exact hfield h
  | portable => exact isIndexing_storeBytewise h

end ByteOrder

namespace Packer

open Engine

/-! ### Floats -/

/-- The step does not refuse a float. -/
def TakesFloats (step : Engine σ α) : Prop := ∀ c d, step c ≠ .error (.fault .floatTooLarge) d

theorem TakesFloats.bind {step : Engine σ α} {next : α → Engine σ β} (h : TakesFloats step)
    (hn : ∀ x, TakesFloats (next x)) : TakesFloats (step >>= next) := by
  intro c d
  cases hr : step c with
  | error halt e =>
      rw [bind_of_error hr]
      rintro ⟨⟩
      exact h c d hr
  | ok x e =>
      rw [bind_of_ok hr]
      exact hn x e d

theorem writing_takesFloats : Writing (TakesFloats (σ := σ)) where
  bind := .bind
  atCursor h c d := h c.current c d
  nothing _ _ := nofun
  orderFor access c d := by
    unfold Engine.orderFor
    cases c.order <;> nofun
  writeByte pos b c d := by
    unfold Packer.writeByte
    split_ifs <;> nofun
  store order width pos n c d := by
    rw [get_bind]
    cases hs : order.store width c.bytes pos n with
    | mk result bytes =>
        cases result with
        | ok u => nofun
        | error fault =>
            rintro ⟨⟩
            cases ByteOrder.isIndexing_store hs
  advance n _ _ := nofun
  writePayload payload c d := by
    unfold Packer.writePayload
    split_ifs <;> nofun

/-- Where there is room, a float is refused if and only if it is too large. -/
theorem overflows_of_written {bits : DoubleBits} {c d : Context σ}
    (h : Written (.float bits) c (.error (.fault .floatTooLarge) d)) : Double.Overflows bits := by
  have hrefused : ∀ {fault}, (Value.float bits).frame = .error fault → Double.Overflows bits := by
    intro fault hframe
    cases Value.frame_error_iff.mp hframe with
    | float hover => exact hover
  cases h with
  | refused hframe => exact hrefused hframe
  | astray _ hw =>
      cases hframe : (Value.float bits).frame with
      | error fault => exact hrefused hframe
      | ok f =>
          have hlift : TakesFloats (lift (Value.float bits).frame : Engine σ Frame) := by
            rw [hframe]
            intro c d h
            cases h
          have hwriting : TakesFloats (inscribe (.float bits) : Engine σ Unit) :=
            writing_takesFloats.inscribe hlift
          exact absurd hw (hwriting c d)

/-! ### What packing raises -/

/-- The length of the room that is made for what is asked for. -/
def room (request : Request) : Except Fault Nat := request.value >>= Value.room

/-- Packing refuses its argument, and this is what it leaves. -/
inductive Refuses (handler : Option (Handler σ)) (c : Context σ) :
    Request → Fault → Context σ → Prop
  | early {request : Request} {fault : Fault} (hr : ∀ bits, request ≠ .plain (.float bits))
      (h : request.Refused fault) : Refuses handler c request fault c
  /-- A float is refused once there is room for it. -/
  | float {bits : DoubleBits} {d : Context σ} (hg : Given handler Frame.floatSize c d)
      (h : Double.Overflows bits) : Refuses handler c (.plain (.float bits)) .floatTooLarge d

/-- What packing raises, and what it leaves. -/
inductive Raises (handler : Option (Handler σ)) (c : Context σ) (request : Request) :
    Fault → Context σ → Prop
  | refused {fault : Fault} {d : Context σ} (h : Refuses handler c request fault d) :
      Raises handler c request fault d
  /-- The handler raises, and this is kept and latched. -/
  | handler {respond : Handler σ} {n : Nat} {fault : Fault} {r : Region σ}
      (hn : room request = .ok n) (hh : handler = some respond) (hshort : c.limit < c.current + n)
      (hr : respond n c.toRegion = (.error fault, r)) :
      Raises handler c request fault
        ((c.within { r with fault := some fault }).latch .errorInHandler)

/-- Where there is room for what is asked for, or the handler makes room, the region does not reach
beyond the buffer. -/
def RoomInside (handler : Option (Handler σ)) (c : Context σ) (request : Request) : Prop :=
  ∀ n d, room request = .ok n → Given handler n c d → d.limit ≤ d.bytes.size

section raises

variable {handler : Option (Handler σ)} {c d : Context σ} {fault : Fault} {request : Request}

theorem room_of_value {v : Value} (h : request.value = .ok v) : room request = v.room := by
  rw [room, h]
  rfl

/-- What is refused once there is room is a float. -/
theorem refuses_of_frame_error {v : Value} {n : Nat} (hv : request.value = .ok v)
    (hn : v.room = .ok n) (hg : Given handler n c d) (hframe : v.frame = .error fault) :
    Refuses handler c request fault d := by
  by_cases hf : ∃ bits, v = .float bits
  · obtain ⟨bits, rfl⟩ := hf
    obtain rfl := Except.ok.inj hn
    obtain rfl := Request.eq_plain_of_value hv
    cases Value.frame_error_iff.mp hframe with
    | float hover => exact .float hg hover
  · rw [room_of_ne_float fun bits hv => hf ⟨bits, hv⟩, hframe] at hn
    cases hn

theorem Refuses.refused (h : Refuses handler c request fault d) : request.Refused fault := by
  cases h with
  | early _ h => exact h
  | float _ h => exact .plain (.float h)

variable (hc : c.status = .ok)
  (ho : ∃ order, c.order = some order ∧ order.Suits)

include hc ho

theorem run_of_refuses (h : Refuses handler c request fault d) :
    (give handler request).run c = (.error fault, d) := by
  cases h with
  | early hr h =>
      have hframe := Request.frame_error_iff.mpr h
      cases hv : request.value with
      | error raised =>
          rw [hv] at hframe
          cases hframe
          rw [run_give_of_error hv, if_pos hc]
      | ok v =>
          rw [hv] at hframe
          have hne : ∀ bits, v ≠ .float bits := fun bits hf =>
            hr bits (Request.eq_plain_of_value (hf ▸ hv))
          have hframe : v.frame = .error fault := hframe
          have hroom : v.room = .error fault := by
            rw [room_of_ne_float hne, hframe]
            rfl
          have hplaces : Places handler v c (.error (.fault fault) c) := .refused hroom
          rw [run_give hv]
          exact hplaces.run_eq hc
  | @float bits d hg hover =>
      have hframe : (Value.float bits).frame = .error .floatTooLarge :=
        Value.frame_error_iff.mpr (.float hover)
      have hplaces : Places handler (.float bits) c (.error (.fault .floatTooLarge) d) :=
        .asks rfl (.given hg (.refused hframe (hg.order_eq ▸ ho)))
      rw [run_give rfl]
      exact hplaces.run_eq hc

theorem run_of_raises (h : Raises handler c request fault d) :
    (give handler request).run c = (.error fault, d) := by
  cases h with
  | refused h => exact run_of_refuses hc ho h
  | handler hn hh hshort hr =>
      cases hv : request.value with
      | error raised =>
          rw [room, hv] at hn
          cases hn
      | ok v =>
          rw [room_of_value hv] at hn
          have hplaces : Places handler v c _ := .asks hn (.denied hshort (.raised hh hr))
          rw [run_give hv]
          exact hplaces.run_eq hc

omit ho in
/-- A float that is refused where there is room for it is too large. -/
theorem overflows_of_run {bits : DoubleBits} {e : Context σ}
    (hg : Given handler Frame.floatSize c d)
    (h : (pack handler (.float bits)).run c = (.error .floatTooLarge, e)) :
    Double.Overflows bits := by
  have hlift : lift (Value.float bits).room c = .ok Frame.floatSize c := rfl
  have hwritten : Written (.float bits) d (inscribe (.float bits) d) :=
    (written_iff (hg.status_eq.trans hc) rfl hg.le_limit).mpr rfl
  have hreserve : reserve handler Frame.floatSize c = .ok () d := ensure_of_given id _ hg
  rw [run_eq, pack_eq hc, bind_of_ok hlift, bind_of_ok hreserve] at h
  generalize inscribe (.float bits) d = result at h hwritten
  cases result with
  | ok => cases h
  | error halt =>
      cases halt with
      | status => cases h
      | fault =>
          cases h
          exact overflows_of_written hwritten

omit hc in
/-- In the room that lies in the buffer, only a float can still be refused. -/
theorem refuses_of_written {v : Value} {n : Nat} {e : Context σ} {result : Result σ Unit}
    (hv : request.value = .ok v) (hn : v.room = .ok n) (hg : Given handler n c d)
    (hin : d.limit ≤ d.bytes.size) (hw : Written v d result)
    (hresult : result.outcome = (.error fault, e)) : Refuses handler c request fault e := by
  cases hw with
  | appended => cases hresult
  | refused hframe =>
      cases hresult
      exact refuses_of_frame_error hv hn hg hframe
  | astray hout =>
      rw [hg.order_eq] at hout
      exact absurd hout (not_or.mpr ⟨Nat.not_lt.mpr hin, not_not.mpr ho⟩)

omit hc in
theorem raises_of_places {v : Value} {result : Result σ Unit}
    (hinside : RoomInside handler c request) (hv : request.value = .ok v)
    (hplaces : Places handler v c result)
    (hresult : result.outcome = (.error fault, d)) : Raises handler c request fault d := by
  cases hplaces with
  | refused hn =>
      cases hresult
      refine .refused (.early ?_ (Request.frame_error_iff.mp ?_))
      · rintro bits rfl
        cases hv
        cases hn
      · rw [hv]
        exact Value.frame_of_room_error hn
  | asks hn hasks =>
      have hroom := (room_of_value hv).trans hn
      cases hasks with
      | denied hshort hd =>
          cases hd with
          | alone | ended | declined | broken => cases hresult
          | raised hh hr =>
              cases hresult
              exact .handler hroom hh hshort hr
      | given hg hw =>
          exact .refused (refuses_of_written ho hv hn hg (hinside _ _ hroom hg) hw hresult)

theorem raises_of_run (hinside : RoomInside handler c request)
    (h : (give handler request).run c = (.error fault, d)) :
    Raises handler c request fault d := by
  cases hv : request.value with
  | error raised =>
      rw [run_give_of_error hv, if_pos hc] at h
      cases h
      refine .refused (.early ?_ (Request.frame_error_iff.mp (by rw [hv]; rfl)))
      rintro bits rfl
      cases hv
  | ok v =>
      rw [run_give hv] at h
      have hpacks : Packs handler v c (.error fault, d) := packs_iff.mpr h
      generalize houtcome : ((.error fault : Except Fault Status), d) = outcome at hpacks
      cases hpacks with
      | stopped hs => exact absurd hc hs
      | begun _ hplaces => exact raises_of_places ho hinside hv hplaces houtcome.symm

theorem raises_iff (hinside : RoomInside handler c request) :
    (give handler request).run c = (.error fault, d) ↔ Raises handler c request fault d :=
  ⟨raises_of_run hc ho hinside, run_of_raises hc ho⟩

/-- Arguments are refused if and only if they are out of range, and nothing has changed then except
for what the handler did to make room for a float.  Besides that, packing raises what the handler
raises, and nothing else where room is only made inside the buffer. -/
theorem refuses_exactly (handler : Option (Handler σ)) (request : Request) :
    ((∃ fault, request.Refused fault) ↔ ¬ request.Sound) ∧
    (∀ fault d, Refuses handler c request fault d → request.Refused fault ∧
      (give handler request).run c = (.error fault, d) ∧ d.status = .ok ∧
      ∀ next : PackStep, next.run handler ((give handler request).run c).2 = next.run handler d) ∧
    (∀ bits d, request = .plain (.float bits) → Given handler Frame.floatSize c d →
      ((give handler request).run c = (.error .floatTooLarge, d) ↔ Double.Overflows bits)) ∧
    (RoomInside handler c request → ∀ fault d,
      (give handler request).run c = (.error fault, d) ↔ Raises handler c request fault d) := by
  refine ⟨Request.refused_iff, fun fault d h => ?_, ?_, fun hinside _ _ => raises_iff hc ho hinside⟩
  · have hrun := run_of_refuses hc ho h
    refine ⟨h.refused, hrun, ?_, fun next => by rw [hrun]⟩
    cases h with
    | early => exact hc
    | float hg => exact hg.status_eq.trans hc
  · rintro bits d rfl hg
    refine ⟨fun h => ?_, fun hover => run_of_refuses hc ho (.float hg hover)⟩
    rw [run_give rfl] at h
    exact overflows_of_run hc hg h

end raises

/-- A handler makes room for a float that is then refused: it is the least that overflows. -/
theorem refuses_exactly_middle :
    ∃ c : Context Script, Context.new .packer {} #[] 0 none
        (Script.ofActions [{ deed := some (.extend 5) }] 0) = .ok c ∧
      c.status = .ok ∧ (∃ order, c.order = some order ∧ order.Suits) ∧
      RoomInside (some Script.respond) c (.plain (.float 0x47EFFFFFF0000000)) ∧
      ∃ d, Given (some Script.respond) Frame.floatSize c d ∧
        (give (some Script.respond) (.plain (.float 0x47EFFFFFF0000000))).run c =
          (.error .floatTooLarge, d) ∧
        Raises (some Script.respond) c (.plain (.float 0x47EFFFFFF0000000)) .floatTooLarge d := by
  have hover : Double.Overflows 0x47EFFFFFF0000000 := (Double.overflows_iff _).mpr (by decide)
  obtain ⟨c, hnew, hc, ho, d, hg, hin⟩ : ∃ c : Context Script, Context.new .packer {} #[] 0 none
      (Script.ofActions [{ deed := some (.extend 5) }] 0) = .ok c ∧
      c.status = .ok ∧ (∃ order, c.order = some order ∧ order.Suits) ∧
      ∃ d, Given (some Script.respond) Frame.floatSize c d ∧ d.limit ≤ d.bytes.size :=
    ⟨_, rfl, rfl, ⟨.swapped, rfl, trivial⟩, _, .granted rfl (by decide) rfl (by decide), by decide⟩
  have hinside : RoomInside (some Script.respond) c (.plain (.float 0x47EFFFFFF0000000)) := by
    intro n e hn he
    obtain rfl := Except.ok.inj hn
    obtain rfl := hg.unique he
    exact hin
  have hexact := refuses_exactly hc ho (some Script.respond) (.plain (.float 0x47EFFFFFF0000000))
  have hrun := (hexact.2.2.1 _ d rfl hg).mpr hover
  exact ⟨c, hnew, hc, ho, hinside, d, hg, hrun, (hexact.2.2.2 hinside _ d).mp hrun⟩

/-- Not only handlers make packing fail where the argument looks sound.  A text may have no UTF-8, a
view that lies in one piece may have no item, or have its items column by column, and the latch of a
context without a byte order may have been cleared. -/
theorem more_than_handlers_raise :
    (∃ c : Context Unit, Context.new .packer {} #[0, 0, 0, 0, 0, 0] 0 none () = .ok c ∧
      c.status = .ok ∧
      ((give none (.str (.text [0xD800]))).run c).1 = .error .unencodable ∧
      (∃ v : View, v.contiguous = true ∧ v.size = 0 ∧
        ((give none (.bin (.view v))).run c).1 = .error .zeroInShape) ∧
      ∃ v : View, Axis.rowMajor v.itemSize v.axes.reverse = true ∧ v.size = 4 ∧
        ((give none (.bin (.view v))).run c).1 = .error .notContiguous) ∧
    ∃ c : Context Unit, Context.new .packer { order := some "big" } #[0, 0, 0] 0 none () = .ok c ∧
      ((give none (.plain (.unsigned 300))).run (c.latch .ok)).1 =
        .error (.noOrder (.store 2)) := by
  refine ⟨⟨_, rfl, rfl, rfl, ?_, ?_⟩, _, rfl, rfl⟩
  · exact ⟨⟨#[], 0, 1, "B", [⟨0, 5⟩, ⟨5, 1⟩], by decide, by decide⟩, rfl, rfl, rfl⟩
  · exact ⟨⟨#[1, 2, 3, 4], 0, 1, "B", [⟨2, 1⟩, ⟨2, 2⟩], by decide, by decide⟩, rfl, rfl, rfl⟩

end Packer
end MessagePack
