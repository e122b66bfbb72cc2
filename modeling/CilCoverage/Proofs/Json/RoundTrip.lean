/-
  Reading back JSON text that was written.

  A reader takes a value off the front of a text, whatever blanks come before
  it, and leaves the rest (`Takes`). What may follow a value is all that cannot
  go on with a number (`Ends`). From characters and digits, strings and numbers
  are put together, from these the items of arrays and the members of objects,
  and from these the values, by induction on how deep they are
  (`takes_readValue`).
-/
import CilCoverage.Json.Reader

namespace CilCoverage

/-! ## Digits -/

namespace Numeral

theorem isDigit_digitChar {d : Nat} (h : d < 10) : isDigit (Nat.digitChar d) = true := by
  have all : ∀ d < 10, isDigit (Nat.digitChar d) = true := by decide
  exact all d h

theorem digits_ne_nil (base n : Nat) : digits base n ≠ [] := by
  unfold digits
  split <;> simp

theorem isDigit_of_mem_digits {n : Nat} : ∀ c ∈ digits 10 n, isDigit c = true := by
  induction n using Nat.strongRecOn with
  | ind n ih =>
    unfold digits
    split
    · next h =>
      simpa using isDigit_digitChar (by omega)
    · next h =>
      intro c hc
      rcases List.mem_append.mp hc with hc | hc
      · exact ih _ (by omega) c hc
      · rw [List.mem_singleton.mp hc]
        exact isDigit_digitChar (by omega)

/-- Only the numeral of zero begins with the digit zero. -/
theorem head?_digits_ne {n : Nat} (hn : 0 < n) : (digits 10 n).head? ≠ some '0' := by
  induction n using Nat.strongRecOn with
  | ind n ih =>
    unfold digits
    split
    · next h =>
      have all : ∀ d < 10, 0 < d → Nat.digitChar d ≠ '0' := by decide
      simpa using all n (by omega) hn
    · next h =>
      have hfront := ih (n / 10) (by omega) (by omega)
      obtain ⟨d, ds, hds⟩ := List.exists_cons_of_ne_nil (digits_ne_nil 10 (n / 10))
      rw [hds] at hfront ⊢
      exact hfront

/-- A leading zero stands alone. -/
theorem not_leadingZero (n : Nat) :
    ¬ ((digits 10 n).head? = some '0' ∧ 1 < (digits 10 n).length) := by
  rintro ⟨hzero, hlong⟩
  by_cases hn : 0 < n
  · exact head?_digits_ne hn hzero
  · have : n = 0 := by omega
    subst this
    rw [digits, if_pos (by omega)] at hlong
    simp at hlong

end Numeral

namespace Json

open Numeral (isDigit)

/-! ## Blanks, and what may follow a value -/

theorem skipBlank_cons {c : Char} (h : isBlank c = false) (rest : List Char) :
    skipBlank (c :: rest) = c :: rest := by
  rw [skipBlank, List.dropWhile_cons_of_neg (by simp [h])]

theorem skipBlank_cons_blank {c : Char} (h : isBlank c = true) (rest : List Char) :
    skipBlank (c :: rest) = skipBlank rest := by
  rw [skipBlank, List.dropWhile_cons_of_pos h, skipBlank]

theorem skipBlank_newline (level : Nat) (text : List Char) :
    skipBlank (newline level ++ text) = skipBlank text := by
  rw [newline, List.cons_append, skipBlank_cons_blank (by decide)]
  induction 2 * level with
  | zero => rfl
  | succ n ih => rw [List.replicate_succ, List.cons_append, skipBlank_cons_blank (by decide), ih]

/-- The text does not go on with a number. -/
def Ends (rest : List Char) : Prop :=
  ∀ c ∈ rest.head?, isDigit c = false ∧ c ≠ '.' ∧ c ≠ 'e' ∧ c ≠ 'E'

theorem ends_comma (rest : List Char) : Ends (',' :: rest) := by
  simp only [Ends, List.head?_cons, Option.mem_some_iff, forall_eq']
  decide

theorem ends_newline (level : Nat) (rest : List Char) : Ends (newline level ++ rest) := by
  simp only [Ends, newline, List.cons_append, List.head?_cons, Option.mem_some_iff, forall_eq']
  decide

/-- The reader takes `a` off a text that goes on with `chars` after blanks. -/
def Takes {α : Type} (reader : Reader α) (chars : List Char) (a : α) : Prop :=
  ∀ text rest, skipBlank text = chars ++ rest → Ends rest → reader text = .ok (a, rest)

/-! ## Strings -/

theorem readUnit_escape (c : Char) (rest : List Char) :
    readUnit .keep (escape c ++ rest) = .ok (some c, rest) := by
  unfold escape
  iterate 7
    split
    · next h => subst h; rfl
  split
  · next h =>
    -- the four digits denote the number of the character
    have hhigh := Numeral.hexDigitValue?_digitChar (show c.toNat / 16 < 16 by omega)
    have hlow := Numeral.hexDigitValue?_digitChar (show c.toNat % 16 < 16 by omega)
    have hzero : Numeral.hexDigitValue? '0' = some 0 := by decide
    have hdigits : 16 * (c.toNat / 16) + c.toNat % 16 = c.toNat := Nat.div_add_mod ..
    have hhex : hexEscape ('0' :: '0' :: Nat.digitChar (c.toNat / 16) ::
        Nat.digitChar (c.toNat % 16) :: rest) = .ok (c.toNat, rest) := by
      simp [hexEscape, hhigh, hlow, hzero, hdigits]
    have hunit : unicodeEscape .keep ('0' :: '0' :: Nat.digitChar (c.toNat / 16) ::
        Nat.digitChar (c.toNat % 16) :: rest) = .ok (c, rest) := by
      have hfirst : ¬ (0xd800 ≤ c.toNat ∧ c.toNat ≤ 0xdbff) := by omega
      have hsecond : ¬ (0xdc00 ≤ c.toNat ∧ c.toNat ≤ 0xdfff) := by omega
      rw [unicodeEscape, hhex]
      simp only [bind, Except.bind, hfirst, hsecond, reduceCtorEq, if_false, Char.ofNat_toNat]
    simp only [List.cons_append, List.nil_append, readUnit, readEscape]
    rw [hunit]
    rfl
  · next hquote hback _ _ _ _ _ hcontrol =>
    rw [List.cons_append, List.nil_append]
    unfold readUnit
    split <;> simp_all

/-- The characters one by one. -/
theorem readChars_eq (purpose : Purpose) (text : List Char) :
    readChars purpose text = readUnit purpose text >>= fun r =>
      match r.1 with
      | none => .ok ([], r.2)
      | some c => (readChars purpose r.2).map fun s => (c :: s.1, s.2) := by
  rw [readChars]
  split <;> simp_all [bind, Except.bind]

theorem readChars_escape (cs rest : List Char) :
    readChars .keep (cs.flatMap escape ++ '"' :: rest) = .ok (cs, rest) := by
  induction cs with
  | nil =>
    rw [readChars_eq]
    rfl
  | cons c cs ih =>
    rw [List.flatMap_cons, List.append_assoc, readChars_eq, readUnit_escape]
    simp only [bind, Except.bind]
    rw [ih]
    rfl

theorem takes_string (s : String) :
    Takes (readStart .keep) (writeString s) (.scalar (.string s)) := by
  intro text rest htext _
  simp only [writeString, List.cons_append, List.append_assoc, List.nil_append] at htext
  have hstart : readStart .keep text =
      (readChars .keep (s.toList.flatMap escape ++ '"' :: rest)).map
        fun r => (.scalar (.string (String.ofList r.1)), r.2) := by
    rw [readStart, htext]
    rfl
  rw [hstart, readChars_escape, Except.map, String.ofList_toList]

/-! ## Numbers -/

section Numbers

variable {rest : List Char} (hrest : Ends rest)
include hrest

theorem readDigits_digits (n : Nat) :
    readDigits .keep (Numeral.digits 10 n ++ rest) = .ok (Numeral.digits 10 n, rest) := by
  have hall : ∀ c ∈ Numeral.digits 10 n, isDigit c = true := Numeral.isDigit_of_mem_digits
  have hnone : rest.takeWhile isDigit = [] ∧ rest.dropWhile isDigit = rest := by
    cases rest with
    | nil => exact ⟨rfl, rfl⟩
    | cons c rest =>
      have hc := (hrest c rfl).1
      exact ⟨List.takeWhile_cons_of_neg (by simp [hc]), List.dropWhile_cons_of_neg (by simp [hc])⟩
  rw [readDigits, List.takeWhile_append_of_pos hall, List.dropWhile_append_of_pos hall, hnone.1,
    hnone.2, List.append_nil]
  split
  · next h => exact absurd h (Numeral.digits_ne_nil _ _)
  · rfl

theorem readWhole_digits (n : Nat) :
    readWhole .keep (Numeral.digits 10 n ++ rest) = .ok (Numeral.digits 10 n, rest) := by
  rw [readWhole, readDigits_digits hrest]
  simp only [bind, Except.bind]
  rw [if_neg (Numeral.not_leadingZero n)]

theorem readSpelling_digits (negative : Bool) (n : Nat) :
    readSpelling .keep ((if negative then ['-'] else []) ++ (Numeral.digits 10 n ++ rest)) =
      .ok (⟨negative, Numeral.digits 10 n, none, none⟩, rest) := by
  have hwhole := readWhole_digits hrest n
  obtain ⟨d, ds, hds⟩ := List.exists_cons_of_ne_nil (Numeral.digits_ne_nil 10 n)
  have hd : d ≠ '-' := by
    have hdigit := Numeral.isDigit_of_mem_digits d (by rw [hds]; exact List.mem_cons_self)
    rintro rfl
    cases hdigit
  rw [hds] at hwhole ⊢
  unfold readSpelling
  split
  next sign text hsign =>
  have hsplit : sign = negative ∧ text = d :: ds ++ rest := by
    cases negative <;> split at hsign <;> simp_all
  obtain ⟨rfl, rfl⟩ := hsplit
  rw [hwhole]
  simp only [bind, Except.bind]
  -- neither a fraction nor an exponent follows
  cases rest with
  | nil => rfl
  | cons c rest =>
    obtain ⟨-, hpoint, he, hE⟩ := hrest c rfl
    simp [hpoint, he, hE]

end Numbers

theorem value?_digits {n : Nat} :
    (n < UInt64.size → (⟨false, Numeral.digits 10 n, none, none⟩ : Spelling).value? =
      some (.integer n)) ∧
    (0 < n → n ≤ UInt64.size / 2 → (⟨true, Numeral.digits 10 n, none, none⟩ : Spelling).value? =
      some (.integer (-n))) := by
  constructor
  · intro hn
    simp [Spelling.value?, Numeral.value_digits, hn]
  · intro hpos hn
    simp [Spelling.value?, Numeral.value_digits, hpos, hn]

/-- A number begins with a digit or with a sign, and no other value does. -/
theorem readStart_number {c : Char} {text rest more : List Char} {s : Spelling} {v : Value}
    (htext : skipBlank text = c :: more) (hc : c = '-' ∨ isDigit c = true)
    (hs : readSpelling .keep (c :: more) = .ok (s, rest)) (hv : s.value? = some v) :
    readStart .keep text = .ok (.scalar v, rest) := by
  unfold readStart
  rw [htext]
  split
  case h_1 heq => cases heq
  case h_8 heq =>
    obtain ⟨rfl, rfl⟩ := List.cons.inj heq
    rw [if_pos hc, hs]
    simp only [bind, Except.bind, hv]
  all_goals
    next heq =>
    obtain ⟨rfl, -⟩ := List.cons.inj heq
    exact absurd hc (by decide)

/-- An integer of 64 bits, with or without a sign. -/
def Fits (i : Int) : Prop := -(UInt64.size / 2 : Nat) ≤ i ∧ i < UInt64.size

theorem takes_integer {i : Int} (hi : Fits i) :
    Takes (readStart .keep) (Numeral.signedDecimal i).toList (.scalar (.integer i)) := by
  intro text rest htext hrest
  obtain ⟨hlow, hhigh⟩ := hi
  cases i with
  | ofNat n =>
    have hspelling := readSpelling_digits hrest false n
    have hdigits := Numeral.isDigit_of_mem_digits (n := n)
    rw [Numeral.signedDecimal, Numeral.decimal, String.toList_ofList] at htext
    obtain ⟨d, ds, hds⟩ := List.exists_cons_of_ne_nil (Numeral.digits_ne_nil 10 n)
    rw [hds] at htext hspelling hdigits
    refine readStart_number htext (.inr (hdigits d List.mem_cons_self)) hspelling ?_
    rw [← hds]
    exact value?_digits.1 (Int.ofNat_lt.mp hhigh)
  | negSucc n =>
    have hspelling := readSpelling_digits hrest true (n + 1)
    simp only [Numeral.signedDecimal, Numeral.decimal, String.toList_append,
      String.toList_ofList, List.append_assoc] at htext
    refine readStart_number htext (.inl rfl) hspelling ?_
    have hle : n + 1 ≤ UInt64.size / 2 := by
      rw [Int.negSucc_eq] at hlow
      omega
    exact value?_digits.2 (Nat.succ_pos n) hle

/-! ## Items and members -/

/-- How the text of a value begins. -/
def Opens (chars : List Char) : Prop :=
  ∃ c more, chars = c :: more ∧ isBlank c = false ∧ c ≠ ']'

theorem Opens.skipBlank_append {chars : List Char} (h : Opens chars) (rest : List Char) :
    skipBlank (chars ++ rest) = chars ++ rest := by
  obtain ⟨c, more, rfl, hc, -⟩ := h
  exact skipBlank_cons hc _

theorem skipBlank_newline_append {chars : List Char} (h : Opens chars) (level : Nat)
    (rest : List Char) : skipBlank (newline level ++ (chars ++ rest)) = chars ++ rest := by
  rw [skipBlank_newline, h.skipBlank_append]

section Marks

variable {text rest : List Char}

theorem after_of_skipBlank {mark : Char} (h : skipBlank text = mark :: rest) :
    after mark text = .ok rest := by
  rw [after, h]
  exact if_pos rfl

theorem nextItem?_end {first : Bool} (h : skipBlank text = ']' :: rest) :
    nextItem? first text = .ok none := by
  rw [nextItem?, h]
  rfl

theorem nextItem?_first {chars : List Char} (hopens : Opens chars)
    (h : skipBlank text = chars ++ rest) : nextItem? true text = .ok (some (chars ++ rest)) := by
  obtain ⟨c, more, rfl, -, hc⟩ := hopens
  simp [nextItem?, h]

theorem nextItem?_comma {chars : List Char} (hopens : Opens chars)
    (h : skipBlank text = chars ++ rest) :
    nextItem? false (',' :: text) = .ok (some (chars ++ rest)) := by
  obtain ⟨c, more, rfl, -, hc⟩ := hopens
  have hcomma : skipBlank (',' :: text) = ',' :: text := skipBlank_cons (by decide) _
  simp [nextItem?, hcomma, h, hc]

theorem nextKey?_end {purpose : Purpose} {first : Bool} (h : skipBlank text = '\x7d' :: rest) :
    nextKey? purpose first text = .ok none := by
  rw [nextKey?, h]
  rfl

theorem nextKey?_string {key : String} (h : skipBlank text = writeString key ++ rest) :
    nextKey? .keep true text = .ok (some (key, rest)) ∧
      nextKey? .keep false (',' :: text) = .ok (some (key, rest)) := by
  have hchars : (readChars .keep (key.toList.flatMap escape ++ '"' :: rest)).map
      (fun r => some (String.ofList r.1, r.2)) = .ok (some (key, rest)) := by
    rw [readChars_escape, Except.map, String.ofList_toList]
  simp only [writeString, List.cons_append, List.append_assoc, List.nil_append] at h
  constructor
  · rw [nextKey?, h]
    exact hchars
  · have hcomma : skipBlank (',' :: text) = ',' :: text := skipBlank_cons (by decide) _
    simpa [nextKey?, hcomma, h] using hchars

end Marks

section Items

variable {α : Type} {item : Reader α} {level : Nat} {chars : α → List Char}

/-- After an item comes the next comma or the end. -/
theorem ends_rest (as : List α) (outer : Nat) (rest : List Char) :
    Ends (as.flatMap (fun a => ',' :: newline level ++ chars a) ++ (newline outer ++ rest)) := by
  cases as with
  | nil => exact ends_newline _ _
  | cons a as => exact ends_comma _

/-- The items after the first one, and the end of the array. -/
theorem readItems_rest {rest : List Char} {as : List α} (hopens : ∀ a ∈ as, Opens (chars a))
    (htakes : ∀ a ∈ as, Takes item (chars a) a) {bound : Nat} (hbound : as.length < bound)
    {outer : Nat} :
    readItems item bound false
      (as.flatMap (fun a => ',' :: newline level ++ chars a) ++ (newline outer ++ ']' :: rest)) =
      .ok (as, rest) := by
  obtain ⟨bound, rfl⟩ := Nat.exists_eq_add_one_of_ne_zero (by omega : bound ≠ 0)
  induction as generalizing bound with
  | nil =>
    have hend : skipBlank (newline outer ++ ']' :: rest) = ']' :: rest := by
      rw [skipBlank_newline, skipBlank_cons (by decide)]
    rw [List.flatMap_nil, List.nil_append, readItems, nextItem?_end hend]
    simp only [bind, Except.bind]
    rw [after_of_skipBlank hend]
    rfl
  | cons a as ih =>
    obtain ⟨hopen, hopens⟩ := List.forall_mem_cons.mp hopens
    obtain ⟨htake, htakes⟩ := List.forall_mem_cons.mp htakes
    obtain ⟨bound, rfl⟩ := Nat.exists_eq_add_one_of_ne_zero
      (by rw [List.length_cons] at hbound; omega : bound ≠ 0)
    rw [List.length_cons] at hbound
    have hnext := nextItem?_comma hopen (skipBlank_newline_append hopen level
      (as.flatMap (fun a => ',' :: newline level ++ chars a) ++ (newline outer ++ ']' :: rest)))
    rw [List.flatMap_cons, List.append_assoc, List.append_assoc, List.cons_append, readItems, hnext]
    simp only [bind, Except.bind]
    rw [htake _ _ (hopen.skipBlank_append _) (ends_rest _ _ _)]
    dsimp only
    rw [ih hopens htakes bound (by omega)]

/-- The items of an array that is not empty. -/
theorem readItems_eq {rest : List Char} {a : α} {as : List α}
    (hopens : ∀ b ∈ a :: as, Opens (chars b)) (htakes : ∀ b ∈ a :: as, Takes item (chars b) b)
    {bound : Nat} (hbound : as.length + 1 < bound) {outer : Nat} :
    readItems item bound true
      (newline level ++ (chars a ++ (as.flatMap (fun a => ',' :: newline level ++ chars a) ++
        (newline outer ++ ']' :: rest)))) =
      .ok (a :: as, rest) := by
  obtain ⟨hopen, hopens⟩ := List.forall_mem_cons.mp hopens
  obtain ⟨htake, htakes⟩ := List.forall_mem_cons.mp htakes
  obtain ⟨bound, rfl⟩ := Nat.exists_eq_add_one_of_ne_zero (by omega : bound ≠ 0)
  rw [readItems, nextItem?_first hopen (skipBlank_newline_append hopen level _)]
  simp only [bind, Except.bind]
  rw [htake _ _ (hopen.skipBlank_append _) (ends_rest _ _ _)]
  dsimp only
  rw [readItems_rest hopens htakes (by omega)]

end Items

section Members

variable {α : Type} {value : Reader α} {level : Nat} {chars : α → List Char}

/-- The text of a member. -/
def memberChars (chars : α → List Char) (m : String × α) : List Char :=
  writeString m.1 ++ ([':', ' '] ++ chars m.2)

/-- The value of a member, after the key. -/
theorem Takes.after_colon {a : α} (htake : Takes value (chars a) a) (hopen : Opens (chars a))
    {rest : List Char} (hrest : Ends rest) :
    after ':' ([':', ' '] ++ (chars a ++ rest)) = .ok (' ' :: (chars a ++ rest)) ∧
      value (' ' :: (chars a ++ rest)) = .ok (a, rest) := by
  refine ⟨rfl, htake _ _ ?_ hrest⟩
  rw [skipBlank_cons_blank (by decide), hopen.skipBlank_append]

/-- The key of a member is given, with or without a comma before it. -/
theorem nextKey?_member (chars : α → List Char) (level : Nat) (m : String × α)
    (rest : List Char) :
    let text := newline level ++ (memberChars chars m ++ rest)
    let left := [':', ' '] ++ (chars m.2 ++ rest)
    nextKey? .keep true text = .ok (some (m.1, left)) ∧
      nextKey? .keep false (',' :: text) = .ok (some (m.1, left)) := by
  apply nextKey?_string
  rw [skipBlank_newline, memberChars, List.append_assoc, List.append_assoc, writeString,
    List.cons_append, List.cons_append]
  exact skipBlank_cons (by decide) _

/-- The members after the first one, and the end of the object. -/
theorem readMembers_rest {rest : List Char} {ms : List (String × α)}
    (hopens : ∀ m ∈ ms, Opens (chars m.2)) (htakes : ∀ m ∈ ms, Takes value (chars m.2) m.2)
    {bound : Nat} (hbound : ms.length < bound) {outer : Nat} :
    readMembers .keep value bound false
      (ms.flatMap (fun m => ',' :: newline level ++ memberChars chars m) ++
        (newline outer ++ '\x7d' :: rest)) = .ok (ms, rest) := by
  obtain ⟨bound, rfl⟩ := Nat.exists_eq_add_one_of_ne_zero (by omega : bound ≠ 0)
  induction ms generalizing bound with
  | nil =>
    have hend : skipBlank (newline outer ++ '\x7d' :: rest) = '\x7d' :: rest := by
      rw [skipBlank_newline, skipBlank_cons (by decide)]
    rw [List.flatMap_nil, List.nil_append, readMembers, nextKey?_end hend]
    simp only [bind, Except.bind]
    rw [after_of_skipBlank hend]
    rfl
  | cons m ms ih =>
    obtain ⟨hopen, hopens⟩ := List.forall_mem_cons.mp hopens
    obtain ⟨htake, htakes⟩ := List.forall_mem_cons.mp htakes
    obtain ⟨bound, rfl⟩ := Nat.exists_eq_add_one_of_ne_zero
      (by rw [List.length_cons] at hbound; omega : bound ≠ 0)
    rw [List.length_cons] at hbound
    obtain ⟨-, hnext⟩ := nextKey?_member chars level m
      (ms.flatMap (fun m => ',' :: newline level ++ memberChars chars m) ++
        (newline outer ++ '\x7d' :: rest))
    obtain ⟨hcolon, hvalue⟩ := htake.after_colon hopen (ends_rest ms outer ('\x7d' :: rest))
    rw [List.flatMap_cons, List.append_assoc, List.append_assoc, List.cons_append, readMembers,
      hnext]
    simp only [bind, Except.bind]
    rw [hcolon]
    dsimp only
    rw [hvalue]
    dsimp only
    rw [ih hopens htakes bound (by omega)]

/-- The members of an object that is not empty. -/
theorem readMembers_eq {rest : List Char} {m : String × α} {ms : List (String × α)}
    (hopens : ∀ n ∈ m :: ms, Opens (chars n.2))
    (htakes : ∀ n ∈ m :: ms, Takes value (chars n.2) n.2) {bound : Nat}
    (hbound : ms.length + 1 < bound) {outer : Nat} :
    readMembers .keep value bound true
      (newline level ++ (memberChars chars m ++
        (ms.flatMap (fun m => ',' :: newline level ++ memberChars chars m) ++
          (newline outer ++ '\x7d' :: rest)))) = .ok (m :: ms, rest) := by
  obtain ⟨hopen, hopens⟩ := List.forall_mem_cons.mp hopens
  obtain ⟨htake, htakes⟩ := List.forall_mem_cons.mp htakes
  obtain ⟨bound, rfl⟩ := Nat.exists_eq_add_one_of_ne_zero (by omega : bound ≠ 0)
  obtain ⟨hnext, -⟩ := nextKey?_member chars level m
    (ms.flatMap (fun m => ',' :: newline level ++ memberChars chars m) ++
      (newline outer ++ '\x7d' :: rest))
  obtain ⟨hcolon, hvalue⟩ := htake.after_colon hopen (ends_rest ms outer ('\x7d' :: rest))
  rw [readMembers, hnext]
  simp only [bind, Except.bind]
  rw [hcolon]
  dsimp only
  rw [hvalue]
  dsimp only
  rw [readMembers_rest hopens htakes (by omega)]

end Members

/-! ## Values -/

/-- A value with at most `depth` containers inside each other and no numbers but integers of 64
bits. -/
inductive Plain : (depth : Nat) → Value → Prop
  | null {depth : Nat} : Plain depth .null
  | bool {depth : Nat} (b : Bool) : Plain depth (.bool b)
  | integer {depth : Nat} {i : Int} : Fits i → Plain depth (.integer i)
  | string {depth : Nat} (s : String) : Plain depth (.string s)
  | array {depth : Nat} {items : List Value} :
    (∀ v ∈ items, Plain depth v) → Plain (depth + 1) (.array items)
  | object {depth : Nat} {members : List (String × Value)} :
    (∀ m ∈ members, Plain depth m.2) → Plain (depth + 1) (.object members)

theorem writeItems_eq (level : Nat) (vs : List Value) :
    writeItems level vs = vs.flatMap fun v => ',' :: newline level ++ write level v := by
  induction vs with
  | nil => rfl
  | cons v vs ih => rw [writeItems, ih, List.flatMap_cons]

theorem writeMembers_eq (level : Nat) (ms : List (String × Value)) :
    writeMembers level ms =
      ms.flatMap fun m => ',' :: newline level ++ memberChars (write level) m := by
  induction ms with
  | nil => rfl
  | cons m ms ih =>
    obtain ⟨k, v⟩ := m
    rw [writeMembers, ih, List.flatMap_cons]
    simp [memberChars]

theorem opens_of_isDigit {c : Char} (h : isDigit c = true) (more : List Char) :
    Opens (c :: more) := by
  refine ⟨c, more, rfl, ?_, ?_⟩
  · cases hblank : isBlank c with
    | false => rfl
    | true =>
      simp only [isBlank, Bool.or_eq_true, beq_iff_eq] at hblank
      rcases hblank with ((rfl | rfl) | rfl) | rfl <;> cases h
  · rintro rfl
    cases h

theorem opens_write {depth : Nat} {v : Value} (h : Plain depth v) (level : Nat) :
    Opens (write level v) := by
  cases h with
  | null => exact ⟨'n', _, rfl, by decide, by decide⟩
  | bool b => cases b <;> exact ⟨_, _, rfl, by decide, by decide⟩
  | @integer _ i _ =>
    cases i with
    | ofNat n =>
      rw [write, Numeral.signedDecimal, Numeral.decimal, String.toList_ofList]
      obtain ⟨d, ds, hds⟩ := List.exists_cons_of_ne_nil (Numeral.digits_ne_nil 10 n)
      rw [hds]
      exact opens_of_isDigit (Numeral.isDigit_of_mem_digits d (by rw [hds]; simp)) ds
    | negSucc n =>
      rw [write, Numeral.signedDecimal, String.toList_append]
      exact ⟨'-', _, rfl, by decide, by decide⟩
  | string s => exact ⟨'"', _, rfl, by decide, by decide⟩
  | @array _ items _ => cases items <;> exact ⟨'[', _, rfl, by decide, by decide⟩
  | @object _ members _ =>
    cases members with
    | nil => exact ⟨'\x7b', _, rfl, by decide, by decide⟩
    | cons m ms =>
      obtain ⟨k, v⟩ := m
      exact ⟨'\x7b', _, rfl, by decide, by decide⟩

theorem readValue_scalar {depth : Nat} {text rest : List Char} {v : Value}
    (h : readStart .keep text = .ok (.scalar v, rest)) :
    readValue .keep depth text = .ok (v, rest) := by
  cases depth <;>
  · rw [readValue, h]
    rfl

/-- A container takes up more text than it has items after the first one. -/
theorem length_lt_text {α : Type} (as : List α) (chars : α → List Char) (level : Nat)
    (first last : List Char) :
    as.length < (newline level ++ (first ++
      (as.flatMap (fun a => ',' :: newline level ++ chars a) ++ last))).length := by
  have hle : as.length ≤ (as.flatMap fun a => ',' :: newline level ++ chars a).length := by
    induction as with
    | nil => exact Nat.le_refl _
    | cons a as ih =>
      rw [List.flatMap_cons, List.length_append, List.cons_append, List.length_cons,
        List.length_cons]
      omega
  simp only [List.length_append, newline, List.length_cons] at hle ⊢
  omega

section Containers

variable {depth level : Nat}

theorem takes_array {items : List Value} (hopens : ∀ v ∈ items, Opens (write (level + 1) v))
    (htakes : ∀ v ∈ items, Takes (readValue .keep depth) (write (level + 1) v) v) :
    Takes (readValue .keep (depth + 1)) (write level (.array items)) (.array items) := by
  intro text rest htext _
  cases items with
  | nil =>
    have hstart : readStart .keep text = .ok (.array, ']' :: rest) := by
      rw [readStart, htext]
      rfl
    rw [readValue, hstart]
    rfl
  | cons v vs =>
    let tail := newline (level + 1) ++ (write (level + 1) v ++
      (vs.flatMap (fun v => ',' :: newline (level + 1) ++ write (level + 1) v) ++
        (newline level ++ ']' :: rest)))
    have hstart : readStart .keep text = .ok (.array, tail) := by
      rw [readStart, htext, write, writeItems_eq]
      simp only [List.cons_append, List.append_assoc, List.nil_append]
      rfl
    have hlength : vs.length + 1 < tail.length + 1 :=
      Nat.succ_lt_succ (length_lt_text vs (write (level + 1)) (level + 1) _ _)
    rw [readValue, hstart]
    simp only [bind, Except.bind]
    rw [readItems_eq hopens htakes hlength]
    rfl

theorem takes_object {members : List (String × Value)}
    (hopens : ∀ m ∈ members, Opens (write (level + 1) m.2))
    (htakes : ∀ m ∈ members, Takes (readValue .keep depth) (write (level + 1) m.2) m.2) :
    Takes (readValue .keep (depth + 1)) (write level (.object members)) (.object members) := by
  intro text rest htext _
  cases members with
  | nil =>
    have hstart : readStart .keep text = .ok (.object, '\x7d' :: rest) := by
      rw [readStart, htext]
      rfl
    rw [readValue, hstart]
    rfl
  | cons m ms =>
    let tail := newline (level + 1) ++ (memberChars (write (level + 1)) m ++
      (ms.flatMap (fun m => ',' :: newline (level + 1) ++ memberChars (write (level + 1)) m) ++
        (newline level ++ '\x7d' :: rest)))
    have hstart : readStart .keep text = .ok (.object, tail) := by
      obtain ⟨k, v⟩ := m
      rw [readStart, htext, write, writeMembers_eq]
      simp only [List.cons_append, List.append_assoc, List.nil_append]
      simp only [tail, memberChars, List.cons_append, List.append_assoc, List.nil_append]
    have hlength : ms.length + 1 < tail.length + 1 :=
      Nat.succ_lt_succ (length_lt_text ms (memberChars (write (level + 1))) (level + 1) _ _)
    rw [readValue, hstart]
    simp only [bind, Except.bind]
    rw [readMembers_eq hopens htakes hlength]
    rfl

end Containers

/-- A value is read back from its text. -/
theorem takes_readValue {depth : Nat} {v : Value} (h : Plain depth v) (level : Nat) :
    Takes (readValue .keep depth) (write level v) v := by
  induction h generalizing level with
  | null =>
    intro text rest htext _
    apply readValue_scalar
    rw [readStart, htext]
    rfl
  | bool b =>
    intro text rest htext _
    apply readValue_scalar
    cases b <;>
    · rw [readStart, htext]
      rfl
  | integer hi =>
    intro text rest htext hrest
    exact readValue_scalar (takes_integer hi text rest htext hrest)
  | string s =>
    intro text rest htext hrest
    exact readValue_scalar (takes_string s text rest htext hrest)
  | array hitems ih =>
    exact takes_array (fun v hv => opens_write (hitems v hv) _) (fun v hv => ih v hv _)
  | object hmembers ih =>
    exact takes_object (fun m hm => opens_write (hmembers m hm) _) (fun m hm => ih m hm _)

end Json

end CilCoverage
