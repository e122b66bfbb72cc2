/-
  Reading JSON straight into records, field by field, while the text is met.

  A record is an object, with members in any order and unknown ones passed
  over, or an array of its fields in order.
-/
import CilCoverage.Json.Reader

namespace CilCoverage.Json

/-- A string. -/
def readString : Reader String := fun text => do
  match ← readStart .keep text with
  | (.scalar (.string s), rest) => .ok (s, rest)
  | _ => .error .mismatch

/-- A truth value. -/
def readBool : Reader Bool := fun text => do
  match ← readStart .keep text with
  | (.scalar (.bool b), rest) => .ok (b, rest)
  | _ => .error .mismatch

/-- A number of any kind, as a double. -/
def readFloat : Reader Float := fun text => do
  match ← readStart .keep text with
  | (.scalar (.integer i), rest) => .ok (Float.ofInt i, rest)
  | (.scalar (.real bits), rest) => .ok (Float.ofBits bits, rest)
  | _ => .error .mismatch

/-- A list of what `item` reads. -/
def readList {α : Type} (item : Reader α) : Reader (List α) := fun text => do
  match ← readStart .keep text with
  | (.array, rest) => readItems item (rest.length + 1) true rest
  | _ => .error .mismatch

/-- Nothing, for null, or what `value` reads. -/
def readOption {α : Type} (value : Reader α) : Reader (Option α) := fun text =>
  match skipBlank text with
  | 'n' :: rest => (readWord ['u', 'l', 'l'] rest).map fun r => (none, r.2)
  | _ => (value text).map fun r => (some r.1, r.2)

/-- A field of a record in the making. -/
structure Field (σ : Type) where
  name : String
  read : σ → Reader σ

/-- A field that is read by `reader` and then stored. -/
def Field.of {σ α : Type} (name : String) (reader : Reader α) (set : σ → α → σ) : Field σ :=
  ⟨name, fun s text => (reader text).map fun r => (set s r.1, r.2)⟩

/-- The members of an object up to its end; a field must not be repeated. -/
def readFields {σ : Type} (fields : List (Field σ)) :
    (bound : Nat) → (first : Bool) → (seen : List String) → σ → Reader σ
  | 0, _, _, _, _ => .error .malformed
  | bound + 1, first, seen, s, text => do
    match ← nextKey? .keep first text with
    | none => .ok (s, text)
    | some (key, rest) =>
      match fields.find? fun f => f.name == key with
      | some f =>
        if seen.contains key then .error .mismatch
        else
          let rest ← after ':' rest
          let (s, rest) ← f.read s rest
          readFields fields bound false (key :: seen) s rest
      | none =>
        let rest ← after ':' rest
        let (_, rest) ← passValue rest
        readFields fields bound false seen s rest

/-- The items of an array, as fields in order, up to its end or to the last field. -/
def readPositions {σ : Type} : (fields : List (Field σ)) → (first : Bool) → σ → Reader σ
  | [], _, s, text => .ok (s, text)
  | f :: fields, first, s, text => do
    match ← nextItem? first text with
    | none => .ok (s, text)
    | some text =>
      let (s, rest) ← f.read s text
      readPositions fields false s rest

/-- A record that starts as `start`; `finish` refuses it if a field is missing. -/
def readRecord {σ α : Type} (fields : List (Field σ)) (start : σ) (finish : σ → Option α) :
    Reader α := fun text => do
  let done := fun s : σ => match finish s with
    | some a => .ok a
    | none => .error .mismatch
  match ← readStart .keep text with
  | (.scalar _, _) => .error .mismatch
  | (.array, rest) =>
    let (s, rest) ← readPositions fields true start rest
    let a ← done s
    let rest ← after ']' rest
    .ok (a, rest)
  | (.object, rest) =>
    let (s, rest) ← readFields fields (rest.length + 1) true [] start rest
    let a ← done s
    let rest ← after '\x7d' rest
    .ok (a, rest)

end CilCoverage.Json
