/-
  White space of the Unicode standard (property White_Space), and text without
  it at either end; lines and other pieces of a text; backslashes as slashes.
-/

namespace CilCoverage.Text

/-- The character has the property White_Space. -/
def isBlank (c : Char) : Bool :=
  let n := c.toNat
  (9 ≤ n && n ≤ 13) || n == 0x20 || n == 0x85 || n == 0xa0 || n == 0x1680 ||
    (0x2000 ≤ n && n ≤ 0x200a) || n == 0x2028 || n == 0x2029 || n == 0x202f ||
    n == 0x205f || n == 0x3000

/-- The text without white space at its ends. -/
def trim (text : List Char) : List Char :=
  ((text.dropWhile isBlank).reverse.dropWhile isBlank).reverse

/-- The pieces of a text between the characters that `isMark` tells. -/
def pieces (isMark : Char → Bool) : List Char → List (List Char)
  | [] => [[]]
  | c :: rest =>
    if isMark c then [] :: pieces isMark rest
    else match pieces isMark rest with
      | [] => [[c]]
      | piece :: more => (c :: piece) :: more

/-- The lines of a text, without the line breaks. -/
def lines (text : List Char) : List (List Char) := pieces (· == '\n') text

/-- Backslashes written as slashes. -/
def slashes (text : List Char) : List Char :=
  text.map fun c => if c = '\\' then '/' else c

/-- No backslash is left, and all but backslashes and slashes is there as before. -/
theorem mem_slashes_iff {c : Char} {text : List Char} :
    c ∈ slashes text ↔ c ≠ '\\' ∧ (c ∈ text ∨ c = '/' ∧ '\\' ∈ text) := by
  rw [slashes, List.mem_map]
  constructor
  · rintro ⟨d, hd, hc⟩
    split at hc
    · next h =>
      obtain rfl := h
      obtain rfl := hc
      exact ⟨by decide, .inr ⟨rfl, hd⟩⟩
    · next h =>
      obtain rfl := hc
      exact ⟨h, .inl hd⟩
  · rintro ⟨hne, hc | ⟨rfl, hback⟩⟩
    · exact ⟨c, hc, if_neg hne⟩
    · exact ⟨'\\', hback, if_pos rfl⟩

theorem slashes_of_notMem {text : List Char} (h : '\\' ∉ text) : slashes text = text := by
  have hsame : ∀ c ∈ text, (if c = '\\' then '/' else c) = id c := by
    intro c hc
    exact if_neg fun hback : c = '\\' => h (hback ▸ hc)
  rw [slashes, List.map_congr_left hsame, List.map_id]

theorem pieces_ne_nil (isMark : Char → Bool) (text : List Char) : pieces isMark text ≠ [] := by
  cases text with
  | nil => simp [pieces]
  | cons c rest =>
    simp only [pieces]
    split
    · simp
    · split <;> simp

theorem pieces_append {isMark : Char → Bool} {mark : Char} (h : isMark mark = true)
    (a b : List Char) :
    pieces isMark (a ++ mark :: b) = pieces isMark a ++ pieces isMark b := by
  induction a with
  | nil => simp [pieces, h]
  | cons c rest ih =>
    rw [List.cons_append, pieces, pieces, ih]
    split
    · simp
    · cases hp : pieces isMark rest with
      | nil => exact absurd hp (pieces_ne_nil isMark rest)
      | cons piece more => simp

theorem pieces_of_unmarked {isMark : Char → Bool} {text : List Char}
    (h : ∀ c ∈ text, isMark c = false) : pieces isMark text = [text] := by
  induction text with
  | nil => rfl
  | cons c rest ih =>
    obtain ⟨hc, hrest⟩ := List.forall_mem_cons.mp h
    simp [pieces, hc, ih hrest]

theorem unmarked_of_mem_pieces {isMark : Char → Bool} {text piece : List Char}
    (h : piece ∈ pieces isMark text) : ∀ c ∈ piece, isMark c = false := by
  induction text generalizing piece with
  | nil =>
    obtain rfl : piece = [] := List.mem_singleton.mp h
    simp
  | cons c rest ih =>
    rw [pieces] at h
    split at h
    · rcases List.mem_cons.mp h with rfl | h
      · simp
      · exact ih h
    · next hc =>
      have hc : isMark c = false := Bool.eq_false_iff.mpr hc
      cases hp : pieces isMark rest with
      | nil => exact absurd hp (pieces_ne_nil isMark rest)
      | cons first more =>
        rw [hp] at h ih
        rcases List.mem_cons.mp h with rfl | h
        · exact List.forall_mem_cons.mpr ⟨hc, ih List.mem_cons_self⟩
        · exact ih (List.mem_cons_of_mem first h)

end CilCoverage.Text
