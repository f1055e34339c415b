import MessagePack.Unpacker.Progress

/-! # Unpacking

An unpacker reads one item at a time.  Arrays and maps arrive as headers with
their count; their contents are the items that follow.

* `Unpacker.decode` reads the next item into the context.
* `Unpacker.skip` passes over items, with all that arrays and maps among them
  contain.  It counts the items still to pass, so nesting needs no stack.
* `Unpacker.items` reads items until the input ends.

All of them end for every input, since each round leaves less to do.
-/

namespace MessagePack
namespace Unpacker

variable {σ : Type}

/-- Read the next item, unless a status is latched. -/
def decode (s : Option (Supplier σ)) : Engine σ Unit := do
  Engine.running
  decodeItem s

/-- Pass over `count` items and all that they contain. -/
def skipLoop (s : Option (Supplier σ)) (count : Nat) (c : Context σ) :
    EStateM.Result Halt (Context σ) Unit :=
  match count with
  | 0 => .ok () c
  | count + 1 =>
    match _h : skipItem s c with
    | .ok more c' => skipLoop s (count + more) c'
    | .error halt c' => .error halt c'
termination_by rest s c
decreasing_by exact skipItem_less _h

/-- Pass over `count` items and all that they contain, unless a status is latched. -/
def skip (s : Option (Supplier σ)) (count : Int) : Engine σ Unit := do
  Engine.running
  skipLoop s count.toNat

/-! ### Many items -/

/-- How a sequence of items comes to its end. -/
inductive Ending
  /-- As it should: the input ends between two items, or enough items were read. -/
  | clean
  /-- With an error. -/
  | failed (failure : Failure)
  deriving DecidableEq, Repr

/-- The end of a sequence of items whose next item could not be read. -/
def ending (halt : Halt) (c : Context σ) : Ending :=
  match halt with
  | .fault fault => .failed (.fault fault)
  | .status status =>
    if status = .endOfInput then .clean
    else if status = .stopped then .failed (.stop (status.error none none))
    else .failed (.stop (c.status.error none c.fault))

theorem decode_less {s : Option (Supplier σ)} {c c' : Context σ} {u : Unit}
    (h : decode s c = .ok u c') : Less s c' c := by
  simp only [decode, Bind.bind, EStateM.bind, Engine.running] at h
  split at h
  · rename_i heq
    split at heq
    · simp only [EStateM.Result.ok.injEq] at heq
      obtain ⟨-, rfl⟩ := heq
      exact decodeItem_less h
    · simp at heq
  · simp at h

/-- Read items until the input ends, or until there are `atMost` of them.  Of each is kept what
`observe` makes of the context right after. -/
def itemsLoop {α : Type} (s : Option (Supplier σ)) (observe : Context σ → α)
    (atMost : Option Nat) (found : Array α) (c : Context σ) : Array α × Ending × Context σ :=
  if atMost = some 0 then (found, .clean, c)
  else
    match _h : decode s c with
    | .ok () c' => itemsLoop s observe (atMost.map (· - 1)) (found.push (observe c')) c'
    | .error halt c' => (found, ending halt c', c')
termination_by rest s c
decreasing_by exact decode_less _h

/-- What `observe` makes of the context after each item, and how the items end. -/
def items {α : Type} (s : Option (Supplier σ)) (observe : Context σ → α) (atMost : Option Nat)
    (c : Context σ) : Array α × Ending × Context σ :=
  itemsLoop s observe atMost #[] c

end Unpacker
end MessagePack
