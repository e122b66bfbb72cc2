/-
  JSON values, and their text with two blanks of indentation per level.

  Text escapes the quotation mark, the backslash and control characters, and
  nothing else. A value is read back from its text by `Json.readValue`.
-/
import CilCoverage.Decimal

namespace CilCoverage.Json

/-- A JSON value. Members of an object keep their order. -/
inductive Value where
  | null
  | bool (b : Bool)
  | integer (i : Int)
  /-- A number with a fraction or an exponent, or beyond 64 bits, as the bits of a double. -/
  | real (bits : UInt64)
  | string (s : String)
  | array (items : List Value)
  | object (members : List (String × Value))

/-! ## Writing -/

/-- A character between quotation marks. -/
def escape (c : Char) : List Char :=
  if c = '"' then ['\\', '"']
  else if c = '\\' then ['\\', '\\']
  else if c = '\x08' then ['\\', 'b']
  else if c = '\x0c' then ['\\', 'f']
  else if c = '\n' then ['\\', 'n']
  else if c = '\r' then ['\\', 'r']
  else if c = '\t' then ['\\', 't']
  else if c.toNat < 0x20 then
    ['\\', 'u', '0', '0', Nat.digitChar (c.toNat / 16), Nat.digitChar (c.toNat % 16)]
  else [c]

/-- A quoted string. -/
def writeString (s : String) : List Char :=
  '"' :: s.toList.flatMap escape ++ ['"']

/-- A line break and the indentation of the line after it. -/
def newline (level : Nat) : List Char :=
  '\n' :: List.replicate (2 * level) ' '

mutual

/-- The text of a value whose first line is indented to `level`. -/
def write (level : Nat) : Value → List Char
  | .null => "null".toList
  | .bool true => "true".toList
  | .bool false => "false".toList
  | .integer i => (Numeral.signedDecimal i).toList
  | .real bits => (Decimal.double.text bits.toNat).toList
  | .string s => writeString s
  | .array [] => ['[', ']']
  | .array (v :: vs) =>
    '[' :: newline (level + 1) ++ write (level + 1) v ++ writeItems (level + 1) vs ++
      newline level ++ [']']
  | .object [] => ['\x7b', '\x7d']
  | .object ((k, v) :: ms) =>
    '\x7b' :: newline (level + 1) ++ writeString k ++ [':', ' '] ++ write (level + 1) v ++
      writeMembers (level + 1) ms ++ newline level ++ ['\x7d']

/-- The items after the first one. -/
def writeItems (level : Nat) : List Value → List Char
  | [] => []
  | v :: vs => ',' :: newline level ++ write level v ++ writeItems level vs

/-- The members after the first one. -/
def writeMembers (level : Nat) : List (String × Value) → List Char
  | [] => []
  | (k, v) :: ms =>
    ',' :: newline level ++ writeString k ++ [':', ' '] ++ write level v ++ writeMembers level ms

end

/-- The text of a document. -/
def Value.text (v : Value) : String := String.ofList (write 0 v)

/-! ## Looking at values -/

namespace Value

/-- A string. -/
def string? : Value → Option String
  | string s => some s
  | _ => none

/-- A truth value. -/
def bool? : Value → Option Bool
  | bool b => some b
  | _ => none

/-- An integer of 32 bits without sign. -/
def uint32? : Value → Option UInt32
  | integer (.ofNat n) => if n < UInt32.size then some (UInt32.ofNat n) else none
  | _ => none

/-- A list whose items can all be looked at as `f` does. -/
def list? {α : Type} (f : Value → Option α) : Value → Option (List α)
  | array items => items.mapM f
  | _ => none

/-- The fields of a record, each one if it is there. A record is an object, where unknown
members are passed over and known ones must not be repeated, or the array of its fields. -/
def fields? (names : List String) : Value → Option (List (Option Value))
  | object members =>
    if names.any fun name => decide (1 < members.countP fun m => m.1 == name) then none
    else some (names.map fun name => members.lookup name)
  | array items =>
    if names.length < items.length then none
    else some (items.map some ++ List.replicate (names.length - items.length) none)
  | _ => none

end Value

end CilCoverage.Json
