import MessagePack.Proofs.BigEndian
import MessagePack.Proofs.Grammar
import Mathlib.Tactic.IntervalCases

/-! # Scanning bytes for an item

What a list of bytes starts with can be told without a context: `scan` looks at the tag, the
field after it and the length of the payload, and answers with a complete item, or with the
place where the bytes run out.  A payload is not looked at; it stays an `Extent` of the list.

The scan agrees with the wire format: `scan_append` finds every item that `Denotes` knows, and
`scan_sound` says that it finds nothing else, and that bytes which run out are the beginning of
some item. -/

namespace MessagePack

/-- A part of a list of bytes. -/
structure Extent where
  offset : Nat
  length : Nat
  deriving DecidableEq, Repr

namespace Extent

/-- The bytes of a part. -/
def fetch (b : List UInt8) (e : Extent) : Bytes := ((b.drop e.offset).take e.length).toArray

end Extent

/-- A kind of item with a payload. -/
inductive Blob
  | str
  | bin
  | ext (type : Int)
  deriving DecidableEq, Repr

namespace Blob

variable {π ρ : Type}

/-- The item of this kind with the given payload. -/
def item : Blob → π → Item π
  | str, p => .str p
  | bin, p => .bin p
  | ext type, p => .ext type p

@[simp] theorem payload?_item (kind : Blob) (p : π) : (kind.item p).payload? = some p := by
  cases kind <;> rfl

@[simp] theorem mapPayload_item (kind : Blob) (f : π → ρ) (p : π) :
    (kind.item p).mapPayload f = kind.item (f p) := by
  cases kind <;> rfl

end Blob

/-- What a list of bytes starts with. -/
inductive Scan
  /-- A complete item of the given length. -/
  | complete (item : Item Extent) (length : Nat)
  /-- There is nothing. -/
  | ended
  /-- There is the beginning of an item; the next part of it starts at the given place. -/
  | truncated (place : Nat)
  /-- There is a byte that starts no item. -/
  | malformed
  deriving DecidableEq, Repr

/-! ### The scan -/

/-- An item whose payload starts at `offset`. -/
def scanPayload (kind : Blob) (offset length : Nat) (b : List UInt8) : Scan :=
  if offset + length ≤ b.length then .complete (kind.item ⟨offset, length⟩) (offset + length)
  else .truncated offset

/-- An extension whose type is at `offset`. -/
def scanExt (offset length : Nat) (b : List UInt8) : Scan :=
  match b[offset]? with
  | some type => scanPayload (.ext (twosComplement 1 type.toNat)) (offset + 1) length b
  | none => .truncated offset

/-- An item whose field, of the given width, holds `n`. -/
def scanValue (field : Field) (width n : Nat) (b : List UInt8) : Scan :=
  match field with
  | .unsigned => .complete (.positive n) (1 + width)
  | .signed => .complete (.ofSigned width n) (1 + width)
  | .float => .complete (.float (Single.toDouble (.ofNat n))) (1 + width)
  | .double => .complete (.double (.ofNat n)) (1 + width)
  | .array => .complete (.array n) (1 + width)
  | .map => .complete (.map n) (1 + width)
  | .str => scanPayload .str (1 + width) n b
  | .bin => scanPayload .bin (1 + width) n b
  | .ext => scanExt (1 + width) n b

/-- An item whose tag announces a field. -/
def scanField (field : Field) (width : Nat) (b : List UInt8) : Scan :=
  if 1 + width ≤ b.length then
    scanValue field width (Layout.ofBigEndian ((b.drop 1).take width)) b
  else .truncated 1

/-- What the bytes start with, if the first of them announces `header`. -/
def scanRest (header : Header) (b : List UInt8) : Scan :=
  match header with
  | .whole item => .complete (item.mapPayload Empty.elim) 1
  | .shortStr length => scanPayload .str 1 length b
  | .fixExt length => scanExt 1 length b
  | .field field width => scanField field width b
  | .undefined => .malformed

/-- What the bytes start with. -/
def scan : List UInt8 → Scan
  | [] => .ended
  | tag :: rest => scanRest (Header.ofTag tag) (tag :: rest)

/-! ### The rows of the table -/

namespace Field

/-- The first tag with such a field. -/
def firstTag : Field → Nat
  | .bin => 0xC4 | .ext => 0xC7 | .float => 0xCA | .double => 0xCB | .unsigned => 0xCC
  | .signed => 0xD0 | .str => 0xD9 | .array => 0xDC | .map => 0xDE

/-- The number of tags with such a field. -/
def tags : Field → Nat
  | .float | .double => 1
  | .array | .map => 2
  | .bin | .ext | .str => 3
  | .unsigned | .signed => 4

/-- The power of two that the width is after the first tag. -/
def firstPower : Field → Nat
  | .bin | .ext | .str | .unsigned | .signed => 0
  | .array | .map => 1
  | .float => 2
  | .double => 3

end Field

theorem ofTag_whole {n : Nat} {item : Item Empty}
    (h : n < 0x80 ∧ item = .positive n ∨ (0x80 ≤ n ∧ n < 0x90 ∧ item = .map (n - 0x80)) ∨
      (0x90 ≤ n ∧ n < 0xA0 ∧ item = .array (n - 0x90)) ∨
      (0xE0 ≤ n ∧ n < 0x100 ∧ item = .negative ((n : Int) - 0x100))) :
    Header.ofTag (.ofNat n) = .whole item := by
  have hn : (UInt8.ofNat n).toNat = n := by
    rw [UInt8.toNat_ofNat', Nat.mod_eq_of_lt]
    omega
  unfold Header.ofTag
  rw [hn]
  dsimp only
  obtain ⟨h, rfl⟩ | ⟨h, h', rfl⟩ | ⟨h, h', rfl⟩ | ⟨h, h', rfl⟩ := h
  · rw [if_pos h]
  · rw [if_neg (by omega), if_pos h']
  · rw [if_neg (by omega), if_neg (by omega), if_pos h']
  · rw [if_neg (by omega), if_neg (by omega), if_neg (by omega), if_neg (by omega),
      if_neg (by omega)]

theorem ofTag_field {field : Field} {i : Nat} (h : i < field.tags) :
    Header.ofTag (.ofNat (field.firstTag + i)) = .field field (2 ^ (field.firstPower + i)) := by
  cases field <;> simp only [Field.tags] at h <;> interval_cases i <;> rfl

theorem ofTag_fixExt {i : Nat} (h : i < 5) :
    Header.ofTag (.ofNat (0xD4 + i)) = .fixExt (2 ^ i) := by
  interval_cases i <;> rfl

theorem ofTag_shortStr {n : Nat} (h : n < 0x20) :
    Header.ofTag (.ofNat (0xA0 + n)) = .shortStr n := by
  interval_cases n <;> rfl

theorem ofTag_cases (tag : UInt8) :
    match Header.ofTag tag with
    | .whole item => Denotes [tag] (item.mapPayload Empty.elim)
    | .shortStr n => n < 0x20 ∧ tag = .ofNat (0xA0 + n)
    | .fixExt n => ∃ i < 5, tag = .ofNat (0xD4 + i) ∧ n = 2 ^ i
    | .field field width =>
      ∃ i < field.tags, tag = .ofNat (field.firstTag + i) ∧ width = 2 ^ (field.firstPower + i)
    | .undefined => tag = 0xC1 := by
  have htag : tag = .ofNat tag.toNat := UInt8.ofNat_toNat.symm
  have hlt := tag.toNat_lt
  unfold Header.ofTag
  generalize tag.toNat = c at htag hlt
  subst htag
  dsimp only
  split_ifs with h₁ h₂ h₃ h₄ h₅
  · exact .positiveFixint h₁
  · obtain ⟨n, rfl⟩ : ∃ n, c = 0x80 + n := ⟨c - 0x80, by omega⟩
    rw [Nat.add_sub_cancel_left]
    exact .fixmap (by omega)
  · obtain ⟨n, rfl⟩ : ∃ n, c = 0x90 + n := ⟨c - 0x90, by omega⟩
    rw [Nat.add_sub_cancel_left]
    exact .fixarray (by omega)
  · obtain ⟨n, rfl⟩ : ∃ n, c = 0xA0 + n := ⟨c - 0xA0, by omega⟩
    rw [Nat.add_sub_cancel_left]
    exact ⟨by omega, rfl⟩
  · have h₆ : 0xC0 ≤ c := by omega
    interval_cases c
    · exact .nil
    · rfl
    · exact .booleanFalse
    · exact .booleanTrue
    all_goals
      show Exists _
      decide
  · obtain ⟨n, rfl⟩ : ∃ n, c = 0xE0 + n := ⟨c - 0xE0, by omega⟩
    have e : ((0xE0 + n : Nat) : Int) - 0x100 = (n : Int) - 0x20 := by omega
    rw [e]
    exact .negativeFixint (by omega)

/-! ### Fields -/

theorem natural_eq (field : List UInt8) : Wire.natural field = Layout.ofBigEndian field :=
  (Layout.ofBigEndian_eq_ofDigits field).symm

theorem natural_lt (field : List UInt8) : Wire.natural field < 256 ^ field.length := by
  rw [natural_eq]
  exact Layout.ofBigEndian_lt field

/-- Two's complement is the integer of the same residue next to zero. -/
theorem twosComplement_eq {field : List UInt8} (h : field ≠ []) :
    twosComplement field.length (Wire.natural field) = Wire.signed field := by
  have hlt := natural_lt field
  have e := pow_eq_two_mul_half (List.length_pos_iff.mpr h).ne'
  have hmod : (Wire.natural field : Int) % (256 ^ field.length : Nat) = Wire.natural field :=
    Int.emod_eq_of_lt (by omega) (by omega)
  rw [Wire.signed, Int.bmod_def, hmod]
  rcases Nat.lt_or_ge (Wire.natural field) (2 ^ (8 * field.length - 1)) with h' | h'
  · rw [twosComplement_of_lt h', if_pos (by omega)]
  · rw [twosComplement_of_le h', if_neg (by omega)]

theorem twosComplement_one (type : UInt8) :
    twosComplement 1 type.toNat = Wire.signed [type] := by
  rw [← twosComplement_eq (List.cons_ne_nil _ _), natural_eq]
  simp [Layout.ofBigEndian]

theorem ofSigned_eq {π : Type} {field : List UInt8} (h : field ≠ []) :
    (Item.ofSigned field.length (Wire.natural field) : Item π) =
      .integer (Wire.signed field) := by
  have hlt := natural_lt field
  rw [← twosComplement_eq h, Item.integer]
  rcases Nat.lt_or_ge (Wire.natural field) (2 ^ (8 * field.length - 1)) with h' | h'
  · rw [Item.ofSigned_of_lt h', twosComplement_of_lt h', if_pos (by omega), Int.toNat_natCast]
  · have hneg : ¬ 0 ≤ twosComplement field.length (Wire.natural field) := by
      rw [twosComplement_of_le h']
      omega
    rw [Item.ofSigned_of_le h', if_neg hneg]

/-! ### Soundness -/

/-- The answer is right about the bytes: a complete item is in the wire format, and its payload is
the end of it; bytes that run out are the beginning of an item. -/
def Scan.Holds (b : List UInt8) : Scan → Prop
  | .complete item length =>
      length ≤ b.length ∧ Denotes (b.take length) (item.mapPayload (Extent.fetch b)) ∧
        ∀ e ∈ item.payload?, e.offset + e.length = length
  | .ended => b = []
  | .truncated place => place ≤ b.length ∧ b ≠ [] ∧ Unfinished b
  | .malformed => b.head? = some 0xC1

theorem scanPayload_holds {kind : Blob} {n : Nat} {front : List UInt8} (hf : front ≠ [])
    (h : ∀ payload : Bytes, payload.size = n →
      Denotes (front ++ payload.toList) (kind.item payload)) (tail : List UInt8) :
    (scanPayload kind front.length n (front ++ tail)).Holds (front ++ tail) := by
  unfold scanPayload
  split_ifs with hn
  · rw [List.length_append] at hn
    refine ⟨by rw [List.length_append]; omega, ?_, by simp⟩
    have hd := h (tail.take n).toArray (by simp; omega)
    rw [Blob.mapPayload_item, Extent.fetch, List.drop_left, List.take_length_add_append]
    exact hd
  · rw [List.length_append] at hn
    have hd := h (tail ++ List.replicate (n - tail.length) 0).toArray (by simp; omega)
    rw [List.toList_toArray, ← List.append_assoc] at hd
    refine ⟨by rw [List.length_append]; omega, by simp [hf], hd.unfinished ?_⟩
    simp only [ne_eq, List.replicate_eq_nil_iff]
    omega

theorem scanExt_holds {n : Nat} {front : List UInt8} (hf : front ≠ [])
    (h : ∀ (type : UInt8) (payload : Bytes), payload.size = n →
      Denotes (front ++ type :: payload.toList) (.ext (Wire.signed [type]) payload))
    (tail : List UInt8) :
    (scanExt front.length n (front ++ tail)).Holds (front ++ tail) := by
  cases tail with
  | nil =>
      have hd := h 0 (Bytes.zeros n) (Bytes.size_zeros n)
      have e : (front ++ [])[front.length]? = none := by simp
      rw [scanExt, e]
      rw [List.append_nil]
      exact ⟨Nat.le_refl _, hf, hd.unfinished (List.cons_ne_nil _ _)⟩
  | cons type tail =>
      have e : (front ++ type :: tail)[front.length]? = some type := by simp
      rw [scanExt, e]
      dsimp only
      have hd : ∀ payload : Bytes, payload.size = n → Denotes (front ++ [type] ++ payload.toList)
          ((Blob.ext (twosComplement 1 type.toNat)).item payload) := by
        intro payload hn
        rw [twosComplement_one, List.append_assoc]
        exact h type payload hn
      have hp := scanPayload_holds (by simp) hd tail
      rw [List.length_append, List.append_assoc] at hp
      exact hp

/-! ### Soundness of the rows with a field -/

section field

variable {f : Field} {i : Nat} {field : List UInt8}

theorem scanValue_holds (hi : i < f.tags) (hw : field.length = 2 ^ (f.firstPower + i))
    (tail : List UInt8) :
    (scanValue f field.length (Wire.natural field)
        (.ofNat (f.firstTag + i) :: field ++ tail)).Holds
      (.ofNat (f.firstTag + i) :: field ++ tail) := by
  have hscalar : ∀ item : Item Extent, item.payload? = none →
      Denotes (.ofNat (f.firstTag + i) :: field)
        (item.mapPayload (Extent.fetch (.ofNat (f.firstTag + i) :: field ++ tail))) →
      (Scan.complete item (1 + field.length)).Holds (.ofNat (f.firstTag + i) :: field ++ tail) := by
    intro item hp hd
    refine ⟨by simp; omega, ?_, by simp [hp]⟩
    rw [List.take_left' (by simp; omega)]
    exact hd
  have hfield : field ≠ [] := by
    rintro rfl
    exact absurd hw.symm (Nat.two_pow_pos _).ne'
  have hl : 1 + field.length = (UInt8.ofNat (f.firstTag + i) :: field).length := by
    rw [List.length_cons, Nat.add_comm]
  have hone : ∀ {p}, i < 1 → field.length = 2 ^ (p + i) → i = 0 ∧ field.length = 2 ^ p := by
    intro p hi hw
    obtain rfl : i = 0 := by omega
    exact ⟨rfl, hw⟩
  cases f with
  | unsigned =>
      rw [Field.firstPower, Nat.zero_add] at hw
      exact hscalar _ rfl (.uint hi hw)
  | signed =>
      rw [Field.firstPower, Nat.zero_add] at hw
      rw [scanValue, ofSigned_eq hfield]
      refine hscalar _ (Item.payload?_integer _) ?_
      rw [Item.mapPayload_integer]
      exact .int hi hw
  | float =>
      obtain ⟨rfl, hw⟩ := hone hi hw
      exact hscalar _ rfl (.float32 hw)
  | double =>
      obtain ⟨rfl, hw⟩ := hone hi hw
      exact hscalar _ rfl (.float64 hw)
  | array =>
      rw [Field.firstPower, Nat.add_comm] at hw
      exact hscalar _ rfl (.array hi hw)
  | map =>
      rw [Field.firstPower, Nat.add_comm] at hw
      exact hscalar _ rfl (.map hi hw)
  | str =>
      rw [Field.firstPower, Nat.zero_add] at hw
      rw [scanValue, hl]
      exact scanPayload_holds (List.cons_ne_nil _ _) (fun _ hn => .str hi hw hn.symm) tail
  | bin =>
      rw [Field.firstPower, Nat.zero_add] at hw
      rw [scanValue, hl]
      exact scanPayload_holds (List.cons_ne_nil _ _) (fun _ hn => .bin hi hw hn.symm) tail
  | ext =>
      rw [Field.firstPower, Nat.zero_add] at hw
      rw [scanValue, hl]
      exact scanExt_holds (List.cons_ne_nil _ _) (fun _ _ hn => .ext hi hw hn.symm) tail

theorem exists_denotes_field (hi : i < f.tags) (hw : field.length = 2 ^ (f.firstPower + i)) :
    ∃ more item, Denotes (.ofNat (f.firstTag + i) :: field ++ more) item := by
  have hscalar : ∀ item, Denotes (.ofNat (f.firstTag + i) :: field) item →
      ∃ more item, Denotes (.ofNat (f.firstTag + i) :: field ++ more) item := by
    intro item hd
    exact ⟨[], item, by rwa [List.append_nil]⟩
  have hn := (Bytes.size_zeros (Wire.natural field)).symm
  cases f with
  | unsigned => exact hscalar _ (.uint hi (by simpa [Field.firstPower] using hw))
  | signed => exact hscalar _ (.int hi (by simpa [Field.firstPower] using hw))
  | float =>
      obtain rfl : i = 0 := by simpa [Field.tags] using hi
      exact hscalar _ (.float32 hw)
  | double =>
      obtain rfl : i = 0 := by simpa [Field.tags] using hi
      exact hscalar _ (.float64 hw)
  | array => exact hscalar _ (.array hi (by rwa [Nat.add_comm]))
  | map => exact hscalar _ (.map hi (by rwa [Nat.add_comm]))
  | str => exact ⟨_, _, .str hi (by simpa [Field.firstPower] using hw) hn⟩
  | bin => exact ⟨_, _, .bin hi (by simpa [Field.firstPower] using hw) hn⟩
  | ext => exact ⟨0 :: _, _, .ext hi (by simpa [Field.firstPower] using hw) hn⟩

theorem scanField_holds (hi : i < f.tags) (tail : List UInt8) :
    (scanField f (2 ^ (f.firstPower + i)) (.ofNat (f.firstTag + i) :: tail)).Holds
      (.ofNat (f.firstTag + i) :: tail) := by
  unfold scanField
  generalize hw : 2 ^ (f.firstPower + i) = width
  split_ifs with h
  · have hl : (tail.take width).length = width := by
      rw [List.length_take, Nat.min_eq_left]
      rw [List.length_cons] at h
      omega
    have hs := scanValue_holds hi (hl.trans hw.symm) (tail.drop width)
    rw [natural_eq, hl, List.cons_append, List.take_append_drop] at hs
    exact hs
  · rw [List.length_cons] at h
    have hl : (tail ++ List.replicate (width - tail.length) 0).length = width := by
      rw [List.length_append, List.length_replicate]
      omega
    obtain ⟨more, item, hd⟩ := exists_denotes_field hi (hl.trans hw.symm)
    refine ⟨by simp, List.cons_ne_nil _ _, ?_⟩
    rw [← List.cons_append, List.append_assoc] at hd
    refine hd.unfinished ?_
    simp only [ne_eq, List.append_eq_nil_iff, List.replicate_eq_nil_iff]
    omega

end field

/-- The scan is right about all bytes. -/
theorem scan_holds (b : List UInt8) : (scan b).Holds b := by
  cases b with
  | nil => rfl
  | cons tag tail =>
      have hrow := ofTag_cases tag
      rw [scan]
      cases h : Header.ofTag tag with
      | whole item =>
          rw [h] at hrow
          refine ⟨by simp, ?_, by simp [Item.payload?_empty]⟩
          have e : Extent.fetch (tag :: tail) ∘ Empty.elim = Empty.elim := funext (·.elim)
          rw [Item.mapPayload_mapPayload, e]
          exact hrow
      | shortStr n =>
          rw [h] at hrow
          obtain ⟨hn, rfl⟩ := hrow
          exact scanPayload_holds (List.cons_ne_nil _ [])
            (fun payload hp => hp ▸ .fixstr (hp ▸ hn)) tail
      | fixExt n =>
          rw [h] at hrow
          obtain ⟨i, hi, rfl, rfl⟩ := hrow
          exact scanExt_holds (List.cons_ne_nil _ []) (fun _ _ hp => .fixext hi hp) tail
      | field f width =>
          rw [h] at hrow
          obtain ⟨i, hi, rfl, rfl⟩ := hrow
          exact scanField_holds hi tail
      | undefined =>
          rw [h] at hrow
          exact congrArg some hrow

/-! ### Completeness -/

/-- The scan finds a complete item in the first `length` bytes. -/
def Finds (b : List UInt8) (item : Item Bytes) (length : Nat) (s : Scan) : Prop :=
  ∃ found, s = .complete found length ∧ found.mapPayload (Extent.fetch b) = item

theorem finds_payload (kind : Blob) {front : List UInt8} {offset : Nat}
    (ho : front.length = offset) (payload : Bytes) (rest : List UInt8) :
    Finds (front ++ payload.toList ++ rest) (kind.item payload) (front ++ payload.toList).length
      (scanPayload kind offset payload.size (front ++ payload.toList ++ rest)) := by
  subst ho
  have hl : front.length + payload.size = (front ++ payload.toList).length := by simp
  refine ⟨kind.item ⟨front.length, payload.size⟩, ?_, ?_⟩
  · rw [scanPayload, if_pos (by simp), hl]
  · rw [Blob.mapPayload_item, Extent.fetch, List.append_assoc, List.drop_left,
      List.take_left' Array.length_toList]

theorem finds_ext {front : List UInt8} {offset : Nat} (ho : front.length = offset)
    (type : UInt8) (payload : Bytes) (rest : List UInt8) :
    Finds (front ++ type :: payload.toList ++ rest) (.ext (Wire.signed [type]) payload)
      (front ++ type :: payload.toList).length
      (scanExt offset payload.size (front ++ type :: payload.toList ++ rest)) := by
  subst ho
  have e : (front ++ type :: payload.toList ++ rest)[front.length]? = some type := by simp
  have hl : (front ++ [type]).length = front.length + 1 := List.length_append
  have h := finds_payload (.ext (Wire.signed [type])) hl payload rest
  rw [List.append_assoc front] at h
  rw [scanExt, e]
  dsimp only
  rw [twosComplement_one]
  exact h

theorem finds_whole {tag : UInt8} {item : Item Empty} (h : Header.ofTag tag = .whole item)
    (rest : List UInt8) :
    Finds ([tag] ++ rest) (item.mapPayload Empty.elim) 1 (scan ([tag] ++ rest)) := by
  have e : Extent.fetch ([tag] ++ rest) ∘ Empty.elim = Empty.elim := funext (·.elim)
  refine ⟨item.mapPayload Empty.elim, ?_, by rw [Item.mapPayload_mapPayload, e]⟩
  rw [List.singleton_append, scan, h, scanRest]

section field

variable {f : Field} {i : Nat} {field b rest : List UInt8} {item : Item Bytes}

theorem finds_field {n k : Nat} (hi : i < f.tags) (hw : field.length = 2 ^ (f.firstPower + i))
    (hn : Wire.natural field = n) (hb : b = .ofNat (f.firstTag + i) :: field ++ rest)
    (h : Finds b item k (scanValue f field.length n b)) : Finds b item k (scan b) := by
  subst hb hn
  rw [natural_eq] at h
  rw [List.cons_append, scan, ofTag_field hi, scanRest, ← hw, scanField, if_pos (by simp; omega)]
  simpa using h

theorem finds_scalar {found : Item Extent} (hi : i < f.tags)
    (hw : field.length = 2 ^ (f.firstPower + i))
    (hs : ∀ b, scanValue f field.length (Wire.natural field) b =
      .complete found (1 + field.length))
    (hf : ∀ b, found.mapPayload (Extent.fetch b) = item) :
    Finds (.ofNat (f.firstTag + i) :: field ++ rest) item
      (UInt8.ofNat (f.firstTag + i) :: field).length
      (scan (.ofNat (f.firstTag + i) :: field ++ rest)) := by
  refine finds_field hi hw rfl rfl ⟨found, ?_, hf _⟩
  rw [hs, List.length_cons, Nat.add_comm]

end field

/-- The scan finds a complete item, whatever follows it. -/
theorem scan_append {bytes : List UInt8} {item : Item Bytes} (h : Denotes bytes item)
    (rest : List UInt8) : Finds (bytes ++ rest) item bytes.length (scan (bytes ++ rest)) := by
  cases h with
  | positiveFixint hn => exact finds_whole (ofTag_whole (.inl ⟨hn, rfl⟩)) rest
  | @fixmap n hn =>
      have h := finds_whole (ofTag_whole (n := 0x80 + n)
        (.inr (.inl ⟨by omega, by omega, rfl⟩))) rest
      rwa [Nat.add_sub_cancel_left] at h
  | @fixarray n hn =>
      have h := finds_whole (ofTag_whole (n := 0x90 + n)
        (.inr (.inr (.inl ⟨by omega, by omega, rfl⟩)))) rest
      rwa [Nat.add_sub_cancel_left] at h
  | fixstr hn =>
      rw [List.cons_append, scan, ofTag_shortStr hn]
      exact finds_payload .str (List.length_singleton (a := _)) _ rest
  | nil => exact ⟨.nil, rfl, rfl⟩
  | booleanFalse => exact ⟨.boolean false, rfl, rfl⟩
  | booleanTrue => exact ⟨.boolean true, rfl, rfl⟩
  | bin hi hw hn =>
      exact finds_field (f := .bin) hi (by simpa [Field.firstPower] using hw) hn
        (List.append_assoc _ _ _) (finds_payload .bin (Nat.add_comm _ _) _ rest)
  | ext hi hw hn =>
      exact finds_field (f := .ext) hi (by simpa [Field.firstPower] using hw) hn
        (List.append_assoc _ _ _) (finds_ext (Nat.add_comm _ _) _ _ rest)
  | float32 hw =>
      exact finds_scalar (f := .float) (i := 0) Nat.one_pos hw (fun _ => rfl) fun _ => rfl
  | float64 hw =>
      exact finds_scalar (f := .double) (i := 0) Nat.one_pos hw (fun _ => rfl) fun _ => rfl
  | uint hi hw =>
      exact finds_scalar (f := .unsigned) hi (by simpa [Field.firstPower] using hw) (fun _ => rfl)
        fun _ => rfl
  | int hi hw =>
      refine finds_scalar (f := .signed) hi (by simpa [Field.firstPower] using hw) (fun b => ?_)
        fun _ => Item.mapPayload_integer _ _
      rw [scanValue, ofSigned_eq]
      rintro rfl
      exact absurd hw.symm (Nat.two_pow_pos _).ne'
  | @fixext i type payload hi hn =>
      have hl : [UInt8.ofNat (0xD4 + i)].length = 1 := rfl
      have h := finds_ext hl type payload rest
      rw [List.cons_append, scan, ofTag_fixExt hi, scanRest, ← hn]
      exact h
  | str hi hw hn =>
      exact finds_field (f := .str) hi (by simpa [Field.firstPower] using hw) hn
        (List.append_assoc _ _ _) (finds_payload .str (Nat.add_comm _ _) _ rest)
  | array hi hw =>
      exact finds_scalar (f := .array) hi (by rwa [Nat.add_comm]) (fun _ => rfl) fun _ => rfl
  | map hi hw =>
      exact finds_scalar (f := .map) hi (by rwa [Nat.add_comm]) (fun _ => rfl) fun _ => rfl
  | @negativeFixint n hn =>
      have e : ((0xE0 + n : Nat) : Int) - 0x100 = (n : Int) - 0x20 := by omega
      have h := finds_whole (ofTag_whole (n := 0xE0 + n)
        (.inr (.inr (.inr ⟨by omega, by omega, rfl⟩)))) rest
      rwa [e] at h

end MessagePack
