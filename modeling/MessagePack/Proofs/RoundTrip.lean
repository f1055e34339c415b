import MessagePack.Proofs.Appending
import MessagePack.Proofs.Canonical
import MessagePack.Proofs.Recognition

/-! # Round trips of whole streams

Values that are packed one after another into a growing buffer are decoded one after another
from the packed bytes, and then the input ends (`round_trip`).

What joins the two sides is the wire format: the packed bytes are a sequence of complete items
(`GrowingPacker.packAll_factors`), and decoding takes such a sequence apart item by item
(`Unpacker.decodeTimes_factors`).  Both go by induction along the list. -/

namespace MessagePack

variable {σ α : Type}

/-! ### New contexts -/

theorem GrowingPacker.live_new {a : Assumptions} {order : ByteOrder}
    (h : a.select = .ok (some order)) (size : Nat) :
    ∃ c : GrowingPacker, new size a = .ok c ∧ c.Live ∧ c.done = #[] := by
  have hnew := Context.new_whole h .growingPacker (Bytes.zeros size) ()
  refine ⟨_, hnew, Context.live_new hnew rfl, ?_⟩
  apply Array.toList_inj.mp
  rw [Region.done, Bytes.toList_slice]
  rfl

/-! ### Packing a list of values -/

/-- Pack values one after another: what each call comes to, and the packer afterwards. -/
def GrowingPacker.packAll : List Value → GrowingPacker → List (Except Fault Status) × GrowingPacker
  | [], c => ([], c)
  | v :: vs, c =>
      let (result, c) := (pack v).run c
      let (results, c) := packAll vs c
      (result :: results, c)

/-- Every call is complete, and the packed bytes are a sequence of the items of the values. -/
theorem GrowingPacker.packAll_factors {vs : List Value} {is : List (Item Bytes)}
    (h : vs.map Value.item? = is.map some) {c : GrowingPacker} (hc : c.Live) :
    (packAll vs c).1 = vs.map (fun _ => .ok .ok) ∧
      ∃ b, Factors b is ∧ (packAll vs c).2.done = c.done ++ b.toArray := by
  induction vs generalizing is c with
  | nil =>
      obtain rfl : is = [] := by simpa using h.symm
      exact ⟨rfl, [], .nil, by simp [packAll]⟩
  | cons v vs ih =>
      cases is with
      | nil => simp at h
      | cons i is =>
          rw [List.map_cons, List.map_cons, List.cons.injEq] at h
          obtain ⟨f, hv, hf⟩ := Value.frame_canonical h.1
          obtain ⟨d, hpack, hd, hdone⟩ := pack_append hc hv hf.fits
          have hrun : (pack v).run c = (.ok .ok, d) := by rw [Engine.run, hpack]
          obtain ⟨hok, b, hb, hdone'⟩ := ih h.2 hd
          rw [packAll, hrun]
          refine ⟨congrArg _ hok, f.bytes ++ b, .cons hf.denotes hb, ?_⟩
          apply Array.toList_inj.mp
          simp [hdone', hdone]

/-! ### Decoding a number of items -/

namespace Unpacker

/-- Decode so many times: what each call comes to, what `observe` makes of the context right after
it, and the context afterwards. -/
def decodeTimes (observe : Context σ → α) :
    Nat → Context σ → List (Except Fault Status × α) × Context σ
  | 0, c => ([], c)
  | n + 1, c =>
      let (result, c) := (decode none).run c
      let (results, d) := decodeTimes observe n c
      ((result, observe c) :: results, d)

/-- Where the unread bytes are a sequence of items, decoding reads them one by one. -/
theorem decodeTimes_factors {observe : Context σ → α} (sight : Item Bytes → α)
    (ho : ∀ c item, c.item = some item → observe c = sight (item.resolve c.buffer))
    {b : List UInt8} {is : List (Item Bytes)} (h : Factors b is) {c : Context σ} (hc : c.Live)
    (hb : c.ahead = b) :
    (decodeTimes observe is.length c).1 = is.map (fun i => (.ok .ok, sight i)) ∧
      (decodeTimes observe is.length c).2.Live ∧
      (decodeTimes observe is.length c).2.ahead = [] := by
  induction h generalizing c with
  | nil => exact ⟨rfl, hc, hb⟩
  | @cons p b i is hd hs ih =>
      obtain ⟨item, hi, hdec⟩ := decode_of_denotes hc hd hb
      have hlen : p.length ≤ c.ahead.length := by simp [hb]
      have hrun : (decode none).run c = (.ok .ok, (c.forward p.length).holding (some item)) := by
        rw [Engine.run, hdec]
      have hsight : observe ((c.forward p.length).holding (some item)) = sight i :=
        (ho _ item rfl).trans (congrArg sight hi)
      have hahead : ((c.forward p.length).holding (some item)).ahead = b := by
        show (c.forward p.length).ahead = b
        rw [Context.ahead_forward, hb, List.drop_left]
      obtain ⟨hok, hrest⟩ := ih (live_decoded hc hlen (some item)) hahead
      rw [List.length_cons, decodeTimes, hrun]
      refine ⟨?_, hrest⟩
      dsimp only
      rw [hok, hsight, List.map_cons]

theorem decode_at_end {c : Context σ} (hc : c.Live) (hb : c.ahead = []) :
    ((decode none).run c).1 = .ok .endOfInput ∧ ((decode none).run c).2.remaining = 0 := by
  have hl := Context.length_ahead hc
  have hle := hc.inBounds.current_le
  rw [hb, List.length_nil] at hl
  rw [Engine.run, decode_eq hc, hb]
  refine ⟨rfl, ?_⟩
  show (c.limit : Int) - c.current = 0
  omega

end Unpacker

/-! ### Texts -/

/-- The text of the last item, or why it has none. -/
def Context.text (c : Context σ) : Option (Except Fault String) := c.item.map (Item.text c.buffer)

/-- The text of an item that stands for itself. -/
def Item.ownText (i : Item Bytes) : Except Fault String :=
  match i.payload? with
  | some payload => decodeText payload
  | none => .error (.noPayload i.type)

theorem Item.text_eq (b : Buffer) (i : Item Span) : i.text b = (i.resolve b).ownText := by
  cases i <;> rfl

theorem Item.decodeText_toUTF8 (s : String) : decodeText s.toUTF8.data = .ok s := by
  have h : String.fromUTF8? ⟨s.toUTF8.data⟩ = some s := by
    rw [String.fromUTF8?]
    exact dif_pos s.isValidUTF8
  rw [decodeText, h]

/-! ### The round trip -/

open GrowingPacker Unpacker

/-- Values that have an encoding are packed without an error, and decoding the packed bytes gives
their items, all of them and in this order, and texts as they were.  Then the input ends. -/
theorem round_trip {packing unpacking : Assumptions} {packed unpacked : ByteOrder}
    (hp : packing.select = .ok (some packed)) (hu : unpacking.select = .ok (some unpacked))
    (size : Nat) {vs : List Value} {is : List (Item Bytes)}
    (h : vs.map Value.item? = is.map some) :
    ∃ (p : GrowingPacker) (u : Context Unit), GrowingPacker.new size packing = .ok p ∧
      (packAll vs p).1 = vs.map (fun _ => .ok .ok) ∧
      Context.new .unpacker unpacking (packAll vs p).2.done 0 none () = .ok u ∧
      (decodeTimes Context.last vs.length u).1 = is.map (fun i => (.ok .ok, some i)) ∧
      (∀ (k : Nat) (s : String), vs[k]? = some (.str s.toUTF8.data) →
        (decodeTimes Context.text vs.length u).1[k]? = some (.ok .ok, some (.ok s))) ∧
      ((decode none).run (decodeTimes Context.last vs.length u).2).1 = .ok .endOfInput ∧
      ((decode none).run (decodeTimes Context.last vs.length u).2).2.remaining = 0 := by
  have hlen : vs.length = is.length := by simpa using congrArg List.length h
  obtain ⟨p, hnew, hp, hempty⟩ := GrowingPacker.live_new hp size
  obtain ⟨hok, b, hb, hdone⟩ := packAll_factors h hp
  obtain ⟨u, hnew', hu, hahead⟩ :=
    Context.ahead_new hu .unpacker (packAll vs p).2.done ()
  rw [hdone, hempty, Array.empty_append, List.toList_toArray] at hahead
  have hlast : ∀ (c : Context Unit) item, c.item = some item →
      c.last = some (item.resolve c.buffer) := by
    intro c item hi
    rw [Context.last, hi, Option.map_some]
  have htext : ∀ (c : Context Unit) item, c.item = some item →
      c.text = some (item.resolve c.buffer).ownText := by
    intro c item hi
    rw [Context.text, hi, Option.map_some, Item.text_eq]
  obtain ⟨hitems, hlive, hend⟩ := decodeTimes_factors some hlast hb hu hahead
  obtain ⟨htexts, -⟩ := decodeTimes_factors (fun i => some i.ownText) htext hb hu hahead
  rw [← hlen] at hitems hlive hend htexts
  refine ⟨p, u, hnew, hok, hnew', hitems, fun k s hk => ?_, decode_at_end hlive hend⟩
  have hi := congrArg (·[k]?) h
  simp only [List.getElem?_map, hk, Option.map_some] at hi
  obtain ⟨i, hi', hs⟩ := Option.map_eq_some_iff.mp hi.symm
  obtain ⟨-, hs⟩ := Option.ite_none_right_eq_some.mp hs.symm
  obtain rfl := Option.some.inj hs
  rw [htexts, List.getElem?_map, hi', Option.map_some, Item.ownText]
  exact congrArg (fun r => some (_, some r)) (Item.decodeText_toUTF8 s)

/-- Values of several kinds, from an empty buffer that grows. -/
theorem round_trip_from_empty :
    ∃ (p : GrowingPacker) (u : Context Unit), GrowingPacker.new 0 {} = .ok p ∧
      Context.new .unpacker {} (packAll [.signed (-33), .array 16, .str "é".toUTF8.data] p).2.done
        0 none () = .ok u ∧
      (decodeTimes Context.last 3 u).1 =
        [(.ok .ok, some (.negative (-33))), (.ok .ok, some (.array 16)),
          (.ok .ok, some (.str #[0xC3, 0xA9]))] := by
  have hselect : Assumptions.select {} = .ok (some .swapped) := rfl
  have hitems : [Value.signed (-33), .array 16, .str "é".toUTF8.data].map Value.item? =
      [.negative (-33), .array 16, .str #[0xC3, 0xA9]].map some := by
    rfl
  obtain ⟨p, u, hnew, -, hnew', hread, -⟩ := round_trip hselect hselect 0 hitems
  exact ⟨p, u, hnew, hnew', hread⟩

end MessagePack
