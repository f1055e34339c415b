/-! # The kinds of items -/

namespace MessagePack

/-- The kinds of items on the wire. -/
inductive ItemType
  | nil | boolean | positiveInteger | negativeInteger | float | double
  | str | bin | array | map | ext
  deriving DecidableEq, Repr

namespace ItemType

/-- The kinds in the order of their numbers, which count from zero. -/
def all : List ItemType :=
  [nil, boolean, positiveInteger, negativeInteger, float, double, str, bin, array, map, ext]

/-- The name of a kind. -/
def name : ItemType → String
  | nil => "NIL"
  | boolean => "BOOLEAN"
  | positiveInteger => "POSITIVE_INTEGER"
  | negativeInteger => "NEGATIVE_INTEGER"
  | float => "FLOAT"
  | double => "DOUBLE"
  | str => "STR"
  | bin => "BIN"
  | array => "ARRAY"
  | map => "MAP"
  | ext => "EXT"

/-- The number of a kind. -/
def number (t : ItemType) : Nat := all.idxOf t

/-- Strings, binaries and extensions have a payload. -/
def hasPayload : ItemType → Bool
  | str | bin | ext => true
  | _ => false

end ItemType
end MessagePack
