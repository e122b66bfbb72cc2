/-
  Reading JSON text, from the front, with the first fault that is met.

  A reader takes the text and gives back what it read and the text after it.
  There are three kinds of fault: the text ends too early, the text is not
  JSON, or the JSON is not what the reader asks for. Which one is reported
  depends on which is met first, so a value of the wrong type counts even where
  the text is cut off later on.
-/
import CilCoverage.Json.Value
import CilCoverage.Result

namespace CilCoverage.Json

/-- Why a text could not be read. -/
inductive Fault where
  | endOfText
  | malformed
  | mismatch
  deriving DecidableEq, Repr

/-- Reads from the front of a text. -/
abbrev Reader (α : Type) := List Char → Except Fault (α × List Char)

/-- What a value is read for. A value that is only passed over may hold numbers out of range
and halves of surrogate pairs, and a number in it that is cut off is malformed. -/
inductive Purpose where
  | keep
  | pass
  deriving DecidableEq

/-- White space between tokens. -/
def isBlank (c : Char) : Bool := c == ' ' || c == '\n' || c == '\t' || c == '\r'

/-- The text from its next token on. -/
def skipBlank (text : List Char) : List Char := text.dropWhile isBlank

/-! ## Strings -/

/-- Four hexadecimal digits; where fewer than four bytes are left the text has ended. -/
def hexEscape : Reader Nat
  | a :: b :: c :: d :: rest =>
    match [a, b, c, d].mapM Numeral.hexDigitValue? with
    | some ds => .ok (ds.foldl (fun n d => 16 * n + d) 0, rest)
    | none => .error .malformed
  | text =>
    if (String.ofList text).utf8ByteSize < 4 then .error .endOfText else .error .malformed

/-- The second half of a surrogate pair, as an escape. -/
def lowSurrogate : Reader Nat
  | [] => .error .endOfText
  | ['\\'] => .error .endOfText
  | '\\' :: 'u' :: rest => do
    let (n, rest) ← hexEscape rest
    if 0xdc00 ≤ n ∧ n ≤ 0xdfff then .ok (n, rest) else .error .malformed
  | _ => .error .malformed

/-- The character of a numeric escape. -/
def unicodeEscape (purpose : Purpose) : Reader Char := fun text => do
  let (n, rest) ← hexEscape text
  if purpose = .pass then .ok (' ', rest)
  else if 0xd800 ≤ n ∧ n ≤ 0xdbff then
    let (low, rest) ← lowSurrogate rest
    .ok (Char.ofNat (0x10000 + (n - 0xd800) * 0x400 + (low - 0xdc00)), rest)
  else if 0xdc00 ≤ n ∧ n ≤ 0xdfff then .error .malformed
  else .ok (Char.ofNat n, rest)

/-- The character of an escape, after its backslash. -/
def readEscape (purpose : Purpose) : Reader Char
  | [] => .error .endOfText
  | '"' :: rest => .ok ('"', rest)
  | '\\' :: rest => .ok ('\\', rest)
  | '/' :: rest => .ok ('/', rest)
  | 'b' :: rest => .ok ('\x08', rest)
  | 'f' :: rest => .ok ('\x0c', rest)
  | 'n' :: rest => .ok ('\n', rest)
  | 'r' :: rest => .ok ('\r', rest)
  | 't' :: rest => .ok ('\t', rest)
  | 'u' :: rest => unicodeEscape purpose rest
  | _ => .error .malformed

/-- The next character of a string, or nothing at its closing quotation mark. -/
def readUnit (purpose : Purpose) : Reader (Option Char)
  | [] => .error .endOfText
  | '"' :: rest => .ok (none, rest)
  | '\\' :: rest => (readEscape purpose rest).map fun r => (some r.1, r.2)
  | c :: rest => if c.toNat < 0x20 then .error .malformed else .ok (some c, rest)

open Result

theorem hexEscape_length {text : List Char} {r : Nat × List Char}
    (h : hexEscape text = .ok r) : r.2.length ≤ text.length := by
  unfold hexEscape at h
  split at h
  · split at h
    · rw [← Except.ok.inj h]
      simp only [List.length_cons]
      omega
    · cases h
  · split at h <;> cases h

theorem lowSurrogate_length {text : List Char} {r : Nat × List Char}
    (h : lowSurrogate text = .ok r) : r.2.length ≤ text.length := by
  unfold lowSurrogate at h
  split at h
  · cases h
  · cases h
  · obtain ⟨a, ha, h⟩ := bind_eq_ok.mp h
    have := hexEscape_length ha
    dsimp only at h
    split at h
    · rw [← Except.ok.inj h]
      simp only [List.length_cons]
      omega
    · cases h
  · cases h

theorem unicodeEscape_length {purpose : Purpose} {text : List Char} {r : Char × List Char}
    (h : unicodeEscape purpose text = .ok r) : r.2.length ≤ text.length := by
  obtain ⟨a, ha, h⟩ := bind_eq_ok.mp h
  have h1 := hexEscape_length ha
  dsimp only at h
  split at h
  · rw [← Except.ok.inj h]
    exact h1
  · split at h
    · obtain ⟨b, hb, h⟩ := bind_eq_ok.mp h
      have h2 := lowSurrogate_length hb
      rw [← Except.ok.inj h]
      exact Nat.le_trans h2 h1
    · split at h
      · cases h
      · rw [← Except.ok.inj h]
        exact h1

theorem readEscape_length {purpose : Purpose} {text : List Char} {r : Char × List Char}
    (h : readEscape purpose text = .ok r) : r.2.length ≤ text.length := by
  unfold readEscape at h
  split at h
  case h_10 =>
    have := unicodeEscape_length h
    simp only [List.length_cons]
    omega
  all_goals first
    | (rw [← Except.ok.inj h]
       simp)
    | cases h

theorem readUnit_length {purpose : Purpose} {text : List Char} {r : Option Char × List Char}
    (h : readUnit purpose text = .ok r) : r.2.length < text.length := by
  unfold readUnit at h
  split at h
  · cases h
  · rw [← Except.ok.inj h]
    simp
  · obtain ⟨a, ha, h⟩ := map_eq_ok.mp h
    have := readEscape_length ha
    rw [← h]
    simp only [List.length_cons]
    omega
  · split at h
    · cases h
    · rw [← Except.ok.inj h]
      simp

/-- The characters of a string, after its opening quotation mark. -/
def readChars (purpose : Purpose) (text : List Char) : Except Fault (List Char × List Char) :=
  match h : readUnit purpose text with
  | .error e => .error e
  | .ok (none, rest) => .ok ([], rest)
  | .ok (some c, rest) =>
    have : rest.length < text.length := readUnit_length h
    (readChars purpose rest).map fun r => (c :: r.1, r.2)
termination_by text.length

/-! ## Numbers -/

/-- A number as it is spelled. -/
structure Spelling where
  negative : Bool
  whole : List Char
  fraction : Option (List Char)
  /-- Sign and digits. -/
  exponent : Option (Bool × List Char)

/-- The fault where a digit is needed before `text`. -/
def missingDigit (purpose : Purpose) (text : List Char) : Fault :=
  if text.isEmpty ∧ purpose = .keep then .endOfText else .malformed

/-- One digit or more. -/
def readDigits (purpose : Purpose) : Reader (List Char) := fun text =>
  match text.takeWhile Numeral.isDigit with
  | [] => .error (missingDigit purpose text)
  | ds => .ok (ds, text.dropWhile Numeral.isDigit)

/-- The digits before the point, where a leading zero stands alone. -/
def readWhole (purpose : Purpose) : Reader (List Char) := fun text => do
  let (ds, rest) ← readDigits purpose text
  if ds.head? = some '0' ∧ 1 < ds.length then .error .malformed else .ok (ds, rest)

/-- A number. -/
def readSpelling (purpose : Purpose) : Reader Spelling := fun text => do
  let (negative, text) := match text with
    | '-' :: rest => (true, rest)
    | _ => (false, text)
  let (whole, text) ← readWhole purpose text
  let (fraction, text) ← match text with
    | '.' :: rest => (readDigits purpose rest).map fun r => (some r.1, r.2)
    | _ => .ok (none, text)
  let (exponent, text) ← match text with
    | 'e' :: '-' :: rest | 'E' :: '-' :: rest =>
      (readDigits purpose rest).map fun r => (some (true, r.1), r.2)
    | 'e' :: '+' :: rest | 'E' :: '+' :: rest | 'e' :: rest | 'E' :: rest =>
      (readDigits purpose rest).map fun r => (some (false, r.1), r.2)
    | _ => .ok (none, text)
  .ok (⟨negative, whole, fraction, exponent⟩, text)

/-- The leading digits that fit 64 bits after `acc`, and the number of digits that do not. -/
def leading (acc : Nat) : List Char → Nat × Nat
  | [] => (acc, 0)
  | d :: ds =>
    let n := 10 * acc + Numeral.digitValue d
    if n < UInt64.size then leading n ds else (acc, ds.length + 1)

/-- `significand · 10 ^ exponent` as a double, by one multiplication or division with a power
of ten, or by several where the power is out of range; nothing if the result is. -/
def scaled (significand : UInt64) (exponent : Int) : Option Float :=
  let f := significand.toFloat
  if 0 ≤ exponent then
    if exponent ≤ 308 then
      let r := f * Float.ofScientific 1 false exponent.toNat
      if r.isInf then none else some r
    else if f == 0 then some f else none
  else
    let n := (-exponent).toNat
    if n ≤ 308 then some (f / Float.ofScientific 1 false n)
    else if n ≤ 1232 then
      let step := Float.ofScientific 1 false 308
      let steps := (n - 1) / 308
      some ((steps.repeat (· / step) f) / Float.ofScientific 1 false (n - 308 * steps))
    else some 0

/-- A number that is no integer of 64 bits, as a double. Digits that do not fit a significand
of 64 bits are dropped. -/
def Spelling.real? (s : Spelling) : Option Float :=
  let (n, dropped) := leading 0 s.whole
  let fraction := s.fraction.getD []
  let (n, beyond) := leading n fraction
  let shift := match s.exponent with
    | none => 0
    | some (false, ds) => (Numeral.value ds : Int)
    | some (true, ds) => -(Numeral.value ds : Int)
  (scaled (UInt64.ofNat n) (shift + dropped - (fraction.length - beyond : Nat))).map fun f =>
    if s.negative then -f else f

/-- The number that is spelled, unless it is out of range. Minus zero is no integer. -/
def Spelling.value? (s : Spelling) : Option Value :=
  let n := Numeral.value s.whole
  let integral := s.fraction.isNone && s.exponent.isNone
  if integral && !s.negative && decide (n < UInt64.size) then some (.integer n)
  else if integral && s.negative && decide (0 < n ∧ n ≤ UInt64.size / 2) then some (.integer (-n))
  else s.real?.map fun f => .real f.toBits

/-! ## Values -/

/-- The start of a value: all of a scalar, or the bracket that opens a container. -/
inductive Start where
  | scalar (v : Value)
  | array
  | object

/-- Reads exactly these characters. -/
def readWord : (word : List Char) → Reader Unit
  | [], text => .ok ((), text)
  | _ :: _, [] => .error .endOfText
  | w :: ws, c :: text => if c = w then readWord ws text else .error .malformed

/-- Reads the start of a value. -/
def readStart (purpose : Purpose) : Reader Start := fun text =>
  match skipBlank text with
  | [] => .error .endOfText
  | 'n' :: rest => (readWord ['u', 'l', 'l'] rest).map fun r => (.scalar .null, r.2)
  | 't' :: rest => (readWord ['r', 'u', 'e'] rest).map fun r => (.scalar (.bool true), r.2)
  | 'f' :: rest =>
    (readWord ['a', 'l', 's', 'e'] rest).map fun r => (.scalar (.bool false), r.2)
  | '"' :: rest =>
    (readChars purpose rest).map fun r => (.scalar (.string (String.ofList r.1)), r.2)
  | '[' :: rest => .ok (.array, rest)
  | '\x7b' :: rest => .ok (.object, rest)
  | c :: rest =>
    if c = '-' ∨ Numeral.isDigit c then do
      let (s, rest) ← readSpelling purpose (c :: rest)
      match purpose, s.value? with
      | .pass, _ => .ok (.scalar .null, rest)
      | .keep, some v => .ok (.scalar v, rest)
      | .keep, none => .error .malformed
    else .error .malformed

/-- The text of the next item of an array, or nothing at its end. -/
def nextItem? (first : Bool) (text : List Char) : Except Fault (Option (List Char)) :=
  match skipBlank text with
  | [] => .error .endOfText
  | ']' :: _ => .ok none
  | c :: rest =>
    if first then .ok (some (c :: rest))
    else if c = ',' then
      match skipBlank rest with
      | [] => .error .endOfText
      | ']' :: _ => .error .malformed
      | item => .ok (some item)
    else .error .malformed

/-- The key of the next member of an object and the text after it, or nothing at the end. -/
def nextKey? (purpose : Purpose) (first : Bool) (text : List Char) :
    Except Fault (Option (String × List Char)) :=
  let key := fun (text : List Char) => match text with
    | [] => .error .endOfText
    | '"' :: rest => (readChars purpose rest).map fun r => some (String.ofList r.1, r.2)
    | _ => .error .malformed
  match skipBlank text with
  | [] => .error .endOfText
  | '\x7d' :: _ => .ok none
  | c :: rest =>
    if first then key (c :: rest)
    else if c = ',' then key (skipBlank rest)
    else .error .malformed

/-- The text after a punctuation mark. -/
def after (mark : Char) (text : List Char) : Except Fault (List Char) :=
  match skipBlank text with
  | [] => .error .endOfText
  | c :: rest => if c = mark then .ok rest else .error .malformed

/-- The items of an array, after its opening bracket. Every item takes up some text, so that
the length of the text bounds their number. -/
def readItems {α : Type} (item : Reader α) : (bound : Nat) → (first : Bool) → Reader (List α)
  | 0, _, _ => .error .malformed
  | bound + 1, first, text => do
    match ← nextItem? first text with
    | none => (after ']' text).map fun rest => ([], rest)
    | some text =>
      let (a, rest) ← item text
      let (as, rest) ← readItems item bound false rest
      .ok (a :: as, rest)

/-- The members of an object, after its opening bracket. -/
def readMembers {α : Type} (purpose : Purpose) (value : Reader α) :
    (bound : Nat) → (first : Bool) → Reader (List (String × α))
  | 0, _, _ => .error .malformed
  | bound + 1, first, text => do
    match ← nextKey? purpose first text with
    | none => (after '\x7d' text).map fun rest => ([], rest)
    | some (key, rest) =>
      let rest ← after ':' rest
      let (a, rest) ← value rest
      let (as, rest) ← readMembers purpose value bound false rest
      .ok ((key, a) :: as, rest)

/-- A value with at most `depth` containers inside each other. -/
def readValue (purpose : Purpose) : (depth : Nat) → Reader Value
  | 0, text => do
    match ← readStart purpose text with
    | (.scalar v, rest) => .ok (v, rest)
    | _ => .error .malformed
  | depth + 1, text => do
    match ← readStart purpose text with
    | (.scalar v, rest) => .ok (v, rest)
    | (.array, rest) =>
      (readItems (readValue purpose depth) (rest.length + 1) true rest).map fun r =>
        (.array r.1, r.2)
    | (.object, rest) =>
      (readMembers purpose (readValue purpose depth) (rest.length + 1) true rest).map fun r =>
        (.object r.1, r.2)

/-- How many containers a kept value may have inside each other. -/
def maxDepth : Nat := 127

/-- Passes over a value of any depth. -/
def passValue : Reader Unit := fun text =>
  (readValue .pass (text.length + 1) text).map fun r => ((), r.2)

/-- A document: nothing but blanks follows what is read. -/
def readDocument {α : Type} (reader : Reader α) (text : String) : Except Fault α := do
  let (a, rest) ← reader text.toList
  if (skipBlank rest).isEmpty then .ok a else .error .malformed

end CilCoverage.Json
