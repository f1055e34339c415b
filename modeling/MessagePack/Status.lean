/-! # Result codes

Every engine operation answers with a status.  `Status.ok` lets the work go on;
any other code latches in the context, which then answers `Status.stopped`
until it is bound to a region again.

Handlers may answer with codes of their own, so a status is any integer and the
codes known to the library are named values of it.
-/

namespace MessagePack

/-- A result code. -/
structure Status where
  code : Int
  deriving DecidableEq, Repr, Inhabited

namespace Status

/-- The operation is complete. -/
def ok : Status := ⟨0⟩
/-- The input ends between two items. -/
def endOfInput : Status := ⟨-1⟩
/-- No room is left to pack into. -/
def bufferOverflow : Status := ⟨-2⟩
/-- The input ends in the middle of an item. -/
def bufferUnderflow : Status := ⟨-3⟩
/-- A byte that starts no item. -/
def malformedInput : Status := ⟨-4⟩
/-- The host's byte order is not the assumed one. -/
def wrongByteOrder : Status := ⟨-5⟩
/-- The handler failed, or provided less than it said. -/
def errorInHandler : Status := ⟨-6⟩
/-- An earlier operation has latched its code. -/
def stopped : Status := ⟨-9⟩

/-- The named codes, in the order of their definition. -/
def named : List (String × Status) :=
  [("OK", ok), ("END_OF_INPUT", endOfInput), ("BUFFER_OVERFLOW", bufferOverflow),
   ("BUFFER_UNDERFLOW", bufferUnderflow), ("MALFORMED_INPUT", malformedInput),
   ("WRONG_BYTE_ORDER", wrongByteOrder), ("ERROR_IN_HANDLER", errorInHandler),
   ("STOPPED", stopped)]

/-- The name of a code, or its number if it has none. -/
def name (s : Status) : String :=
  match named.find? (fun entry => entry.2 == s) with
  | some (name, _) => name
  | none => toString s.code

/-- What a named code other than `ok` means, in a sentence. -/
def meaning? (s : Status) : Option String :=
  if s = endOfInput then some "Input ended cleanly, between two items"
  else if s = bufferOverflow then some "No room left to pack into"
  else if s = bufferUnderflow then some "Input ended in the middle of an item"
  else if s = malformedInput then some "Undefined tag byte"
  else if s = wrongByteOrder then
    some "Byte order self-test contradicts the configured assumption"
  else if s = errorInHandler then some "The overflow/underflow handler failed"
  else if s = stopped then some "The context already latched an error"
  else none

end Status
end MessagePack
