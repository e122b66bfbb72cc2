/-
  Numerals: numbers written in a base of at most sixteen, with small letters
  for the digits above nine, and numerals that are read in other bases.

  `value_digits` says that the digits denote the number they were made from.
-/

namespace CilCoverage.Numeral

/-- Digits of `n`, most significant first; zero has one digit. -/
def digits (base n : Nat) : List Char :=
  if n < base ∨ base < 2 then [Nat.digitChar n]
  else digits base (n / base) ++ [Nat.digitChar (n % base)]
termination_by n
decreasing_by exact Nat.div_lt_self (by omega) (by omega)

/-- Decimal numeral of a natural number. -/
def decimal (n : Nat) : String := String.ofList (digits 10 n)

/-- Decimal numeral of an integer, with a minus sign below zero. -/
def signedDecimal : Int → String
  | .ofNat n => decimal n
  | .negSucc n => "-" ++ decimal (n + 1)

/-- Hexadecimal numeral. -/
def hex (n : Nat) : String := String.ofList (digits 16 n)

/-- Hexadecimal numeral of at least `width` digits, filled up with zeros. -/
def hexPadded (width n : Nat) : String :=
  let ds := digits 16 n
  String.ofList (List.replicate (width - ds.length) '0' ++ ds)

/-- Name of a code position: `IL_` and at least four hexadecimal digits. -/
def codeLabel (offset : Nat) : String := "IL_" ++ hexPadded 4 offset

/-- Value of a decimal digit. -/
def digitValue (c : Char) : Nat := c.toNat - 48

/-- One of the ten ASCII digits. -/
def isDigit (c : Char) : Bool := decide ('0' ≤ c) && decide (c ≤ '9')

/-- Value of a hexadecimal digit, with letters of either case. -/
def hexDigitValue? (c : Char) : Option Nat :=
  if isDigit c then some (digitValue c)
  else if 'a' ≤ c ∧ c ≤ 'f' then some (c.toNat - 87)
  else if 'A' ≤ c ∧ c ≤ 'F' then some (c.toNat - 55)
  else none

/-- Number denoted by decimal digits. -/
def value (ds : List Char) : Nat :=
  ds.foldl (fun acc c => 10 * acc + digitValue c) 0

/-! ## Base 64 -/

/-- Value of a digit in base 64: capital letters, small letters, digits, `+` and `/`. -/
def digit64? (c : Char) : Option Nat :=
  if 'A' ≤ c ∧ c ≤ 'Z' then some (c.toNat - 65)
  else if 'a' ≤ c ∧ c ≤ 'z' then some (c.toNat - 71)
  else if isDigit c then some (digitValue c + 52)
  else if c = '+' then some 62
  else if c = '/' then some 63
  else none

/-- The number with these digits in base 64. -/
def value64? (digits : List Char) : Option Nat :=
  digits.foldlM (fun n c => (digit64? c).map (64 * n + ·)) 0

/-! ## Numbers of 64 bits -/

/-- Why a text is no number of 64 bits. -/
inductive Fault where
  | missing
  | invalidDigit
  | tooLarge
  deriving DecidableEq, Repr

def Fault.message : Fault → String
  | missing => "cannot parse integer from empty string"
  | invalidDigit => "invalid digit found in string"
  | tooLarge => "number too large to fit in target type"

/-- Adds a digit to a number; the digit is looked at first. -/
def pushDigit (n : Nat) (c : Char) : Except Fault Nat :=
  if !isDigit c then .error .invalidDigit
  else if 10 * n + digitValue c < UInt64.size then .ok (10 * n + digitValue c)
  else .error .tooLarge

/-- The number of 64 bits that a text denotes; a plus sign may come first. -/
def parse : List Char → Except Fault Nat
  | [] => .error .missing
  | ['+'] => .error .invalidDigit
  | '+' :: digits => digits.foldlM pushDigit 0
  | digits => digits.foldlM pushDigit 0

/-! ## Digits and values -/

theorem value_append_digit (ds : List Char) (c : Char) :
    value (ds ++ [c]) = 10 * value ds + digitValue c := by
  simp [value]

theorem digitValue_digitChar {d : Nat} (h : d < 10) : digitValue (Nat.digitChar d) = d := by
  have all : ∀ d < 10, digitValue (Nat.digitChar d) = d := by decide
  exact all d h

theorem hexDigitValue?_digitChar {d : Nat} (h : d < 16) :
    hexDigitValue? (Nat.digitChar d) = some d := by
  have all : ∀ d < 16, hexDigitValue? (Nat.digitChar d) = some d := by decide
  exact all d h

theorem value_digits (n : Nat) : value (digits 10 n) = n := by
  induction n using Nat.strongRecOn with
  | ind n ih =>
    unfold digits
    split
    · next h =>
      have hn : n < 10 := by omega
      simp [value, digitValue_digitChar hn]
    · next h =>
      have hd : n / 10 < n := Nat.div_lt_self (by omega) (by omega)
      have hlast := digitValue_digitChar (Nat.mod_lt n (by omega : 10 > 0))
      rw [value_append_digit, ih _ hd, hlast]
      omega

end CilCoverage.Numeral
