import MessagePack.ItemType
import MessagePack.Status
import MessagePack.Text.Quoted

/-! # What can go wrong

A `Fault` is the cause of an operation that is broken off: an argument that has
no encoding, a place outside a buffer, or something that a stream or a handler
raised.  A `StopError` is a latched status reported as an error, with the fault
that led to it.  Each has its text in one place.
-/

namespace MessagePack

/-- The kinds of errors that streams and handlers raise besides device errors. -/
inductive Outside
  | runtime | value | interrupt | abort
  deriving DecidableEq, Repr

/-- An access to a multi-byte field. -/
inductive Access
  | store (width : Nat)
  | load (width : Nat)
  | storeFloat (width : Nat)
  | loadFloat (width : Nat)
  deriving DecidableEq, Repr

namespace Access

/-- The name of an access, with its width in bits. -/
def name : Access → String
  | store width => "store" ++ toString (8 * width)
  | load width => "load" ++ toString (8 * width)
  | storeFloat width => "store_f" ++ toString (8 * width)
  | loadFloat width => "load_f" ++ toString (8 * width)

end Access

/-- The cause of an operation that was broken off. -/
inductive Fault
  /-- A count or an unsigned integer below zero. -/
  | negative (n : Int)
  /-- An integer beyond 64 bits. -/
  | exceeds64 (n : Int)
  /-- A length beyond 32 bits. -/
  | exceeds32 (n : Int)
  /-- A double that rounds to an infinite single. -/
  | floatTooLarge
  /-- An extension type that is no signed byte. -/
  | subtypeRange (type : Int)
  /-- A region that does not lie in its buffer. -/
  | badRegion (start stop : Int) (size : Nat)
  /-- A byte order that has no such name. -/
  | unknownOrder (name : String)
  /-- No byte order was selected. -/
  | noOrder (access : Access)
  /-- A property of an item where there is no item. -/
  | noItem (property : String)
  /-- The payload of an item without one. -/
  | noPayload (type : ItemType)
  /-- The payload of an item that was put together without a buffer. -/
  | noBuffer
  /-- The bytes of a view that is not contiguous. -/
  | notContiguous
  /-- The bytes of a view of several axes without an item. -/
  | zeroInShape
  /-- The hash of an item. -/
  | unhashable
  /-- A payload that is no UTF-8 text. -/
  | invalidText
  /-- A text that has no UTF-8. -/
  | unencodable
  /-- A single byte outside the buffer. -/
  | outOfBounds
  /-- A field outside the buffer, or a value too large for it. -/
  | fieldRange
  /-- An operation that a byte order leaves out. -/
  | notImplemented
  /-- Data cut into pieces of no bytes. -/
  | zeroChunk
  /-- A read that yields nothing, not even an empty byte string. -/
  | noData
  /-- Not exactly one of a path and a stream. -/
  | pathOrStream
  /-- A failure of the device behind a stream. -/
  | device (errno : Option Int)
  /-- An error of a stream, a handler or the caller. -/
  | outside (kind : Outside) (message : String)
  deriving DecidableEq, Repr

namespace Fault

/-- The text about something that is wanted of nothing. -/
def absent (wanted : String) : String :=
  "'NoneType' object has no attribute '" ++ wanted ++ "'"

/-- The text of a fault; empty for those that are told by their kind. -/
def message : Fault → String
  | negative n => toString n ++ " is negative"
  | exceeds64 n => toString n ++ " exceeds 64 bits"
  | exceeds32 n => "length " ++ toString n ++ " exceeds 32 bits"
  | floatTooLarge => "float too large to pack with f format"
  | subtypeRange type => "extension type " ++ toString type ++ " is not a signed byte"
  | badRegion start stop size =>
    "bad region " ++ toString start ++ ":" ++ toString stop ++ " of " ++ toString size
  | unknownOrder name => "unknown byte order " ++ Text.quoted name
  | noOrder access => absent access.name
  | noItem property => absent property
  | noPayload type => type.name ++ " has no payload"
  | noBuffer => "memoryview: a bytes-like object is required, not 'NoneType'"
  | notContiguous => "memoryview: casts are restricted to C-contiguous views"
  | zeroInShape => "memoryview: cannot cast view with zeros in shape or strides"
  | unhashable => "unhashable type: 'Item'"
  | noData => "object of type 'NoneType' has no len()"
  | pathOrStream => "You need to specify either path or stream"
  | outside _ message => message
  | invalidText | unencodable | outOfBounds | fieldRange | notImplemented | zeroChunk
  | device _ => ""

/-- The failures that stream contexts turn into a status. -/
def isDevice : Fault → Bool
  | device _ => true
  | _ => false

/-- The error number of a device failure, zero if there is none. -/
def errorNumber : Fault → Int
  | device errno => errno.getD 0
  | _ => 0

end Fault

/-- A latched status reported as an error. -/
structure StopError where
  status : Status
  message : String
  cause : Option Fault
  deriving DecidableEq, Repr

/-- What a call that does not return raises. -/
inductive Failure
  | fault (fault : Fault)
  | stop (error : StopError)
  deriving DecidableEq, Repr

namespace Status

/-- The error that reports a status.  Without a message it carries the meaning of a named code,
or the number of any other. -/
def error (s : Status) (message : Option String) (cause : Option Fault) : StopError where
  status := s
  message := message.getD (s.meaning?.getD (toString s.code))
  cause := cause

/-- Fails with the error of the status unless that is `ok`. -/
def raise (s : Status) (message : Option String) (cause : Option Fault) : Except StopError Unit :=
  if s = ok then .ok () else .error (s.error message cause)

end Status
end MessagePack
