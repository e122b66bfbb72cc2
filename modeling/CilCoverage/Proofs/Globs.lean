/-
  What globs match.

  `Matches` says it of a glob and a path as they are written: the path is cut
  into pieces, one for each item of the glob. Matching does not cut the path.
  It keeps a table of the beginnings of the path that the items so far match
  (`Marks`), and each item turns one table into the next (`marks_advance`). So
  the last mark tells of the whole path (`isMatch_iff`), and a filter decides
  as its globs say (`accepts_ofGlobs_iff`).
-/
import CilCoverage.SourceFilter
import Mathlib.Data.List.Basic

namespace CilCoverage.Glob

/-! ## Meaning -/

/-- The glob matches the path, both written with slashes: the path begins with a piece for the
first item of the glob, and the rest of the glob matches the rest of the path. -/
inductive Matches (ignoreCase : Bool) : (glob path : List Char) → Prop where
  | done : Matches ignoreCase [] []
  /-- `**/` stands for nothing. -/
  | noFolders {glob path : List Char} (more : Matches ignoreCase glob path) :
      Matches ignoreCase ('*' :: '*' :: '/' :: glob) path
  /-- `**/` stands for text without line feeds that is followed by a slash. -/
  | folders {glob path : List Char} (piece : List Char) (hpiece : '\n' ∉ piece)
      (more : Matches ignoreCase glob path) :
      Matches ignoreCase ('*' :: '*' :: '/' :: glob) (piece ++ '/' :: path)
  /-- Any other `**` stands for text without line feeds. -/
  | text {glob path : List Char} (hglob : glob.head? ≠ some '/') (piece : List Char)
      (hpiece : '\n' ∉ piece) (more : Matches ignoreCase glob path) :
      Matches ignoreCase ('*' :: '*' :: glob) (piece ++ path)
  /-- A single `*` stands for text without slashes. -/
  | name {glob path : List Char} (hglob : glob.head? ≠ some '*') (piece : List Char)
      (hpiece : '/' ∉ piece) (more : Matches ignoreCase glob path) :
      Matches ignoreCase ('*' :: glob) (piece ++ path)
  /-- `?` stands for one character other than a slash. -/
  | char {glob path : List Char} (c : Char) (hc : c ≠ '/') (more : Matches ignoreCase glob path) :
      Matches ignoreCase ('?' :: glob) (c :: path)
  /-- Every other character stands for itself, or for a letter that differs from it in case if
  case does not count. -/
  | literal {glob path : List Char} (c d : Char) (hc : c ≠ '*' ∧ c ≠ '?')
      (hd : d = c ∨ ignoreCase = true ∧ Text.fold c = Text.fold d)
      (more : Matches ignoreCase glob path) : Matches ignoreCase (c :: glob) (d :: path)

/-! ## Items -/

/-- Text without line feeds that is followed by a slash. -/
def IsFolders (piece : List Char) : Prop := ∃ text, piece = text ++ ['/'] ∧ '\n' ∉ text

/-- The piece is one that the item stands for. -/
def Item.StandsFor (ignoreCase : Bool) : Item → (piece : List Char) → Prop
  | folders, piece => piece = [] ∨ IsFolders piece
  | text, piece => '\n' ∉ piece
  | name, piece => '/' ∉ piece
  | char, piece => ∃ c, piece = [c] ∧ c ≠ '/'
  | literal c, piece => ∃ d, piece = [d] ∧ (d = c ∨ ignoreCase = true ∧ Text.fold c = Text.fold d)

/-- The path is cut into one piece for each item. -/
def Covers (ignoreCase : Bool) : List Item → (path : List Char) → Prop
  | [], path => path = []
  | item :: items, path =>
    ∃ piece rest, path = piece ++ rest ∧ item.StandsFor ignoreCase piece ∧
      Covers ignoreCase items rest

section Meaning

variable {ignoreCase : Bool}

theorem itemsOf_text {glob : List Char} (h : glob.head? ≠ some '/') :
    itemsOf ('*' :: '*' :: glob) = .text :: itemsOf glob := by
  refine itemsOf.eq_2 glob fun more heq => h ?_
  rw [heq]
  rfl

theorem itemsOf_name {glob : List Char} (h : glob.head? ≠ some '*') :
    itemsOf ('*' :: glob) = .name :: itemsOf glob := by
  refine itemsOf.eq_3 glob (fun more heq => h ?_) (fun more heq => h ?_)
  all_goals
    rw [heq]
    rfl

theorem itemsOf_literal {c : Char} (h : c ≠ '*' ∧ c ≠ '?') (glob : List Char) :
    itemsOf (c :: glob) = .literal c :: itemsOf glob :=
  itemsOf.eq_5 c glob (fun _ heq => absurd heq h.1) (fun _ heq => absurd heq h.1) h.1 h.2

theorem covers_of_matches {glob path : List Char} (h : Matches ignoreCase glob path) :
    Covers ignoreCase (itemsOf glob) path := by
  induction h with
  | done => exact rfl
  | noFolders _ ih => exact ⟨[], _, rfl, .inl rfl, ih⟩
  | @folders glob path piece hpiece _ ih =>
    exact ⟨piece ++ ['/'], path, by simp, .inr ⟨piece, rfl, hpiece⟩, ih⟩
  | text hglob piece hpiece _ ih =>
    rw [itemsOf_text hglob]
    exact ⟨piece, _, rfl, hpiece, ih⟩
  | name hglob piece hpiece _ ih =>
    rw [itemsOf_name hglob]
    exact ⟨piece, _, rfl, hpiece, ih⟩
  | char c hc _ ih => exact ⟨[c], _, rfl, ⟨c, rfl, hc⟩, ih⟩
  | literal c d hc hd _ ih =>
    rw [itemsOf_literal hc]
    exact ⟨[d], _, rfl, ⟨d, rfl, hd⟩, ih⟩

theorem matches_of_covers {glob path : List Char} (h : Covers ignoreCase (itemsOf glob) path) :
    Matches ignoreCase glob path := by
  fun_induction itemsOf glob generalizing path with
  | case1 glob ih =>
    obtain ⟨piece, rest, rfl, hpiece, hmore⟩ := h
    rcases hpiece with rfl | ⟨text, rfl, htext⟩
    · exact .noFolders (ih hmore)
    · rw [List.append_assoc]
      exact .folders text htext (ih hmore)
  | case2 glob hglob ih =>
    obtain ⟨piece, rest, rfl, hpiece, hmore⟩ := h
    refine .text (fun hhead => ?_) piece hpiece (ih hmore)
    obtain ⟨more, hmore⟩ := List.head?_eq_some_iff.mp hhead
    exact hglob more hmore
  | case3 glob _ hglob ih =>
    obtain ⟨piece, rest, rfl, hpiece, hmore⟩ := h
    refine .name (fun hhead => ?_) piece hpiece (ih hmore)
    obtain ⟨more, hmore⟩ := List.head?_eq_some_iff.mp hhead
    exact hglob more hmore
  | case4 glob ih =>
    obtain ⟨piece, rest, rfl, ⟨c, rfl, hc⟩, hmore⟩ := h
    exact .char c hc (ih hmore)
  | case5 c glob _ _ hstar hquestion ih =>
    obtain ⟨piece, rest, rfl, ⟨d, rfl, hd⟩, hmore⟩ := h
    exact .literal c d ⟨hstar, hquestion⟩ hd (ih hmore)
  | case6 =>
    obtain rfl : path = [] := h
    exact .done

/-- A glob matches what its items cover. -/
theorem matches_iff_covers {glob path : List Char} :
    Matches ignoreCase glob path ↔ Covers ignoreCase (itemsOf glob) path :=
  ⟨covers_of_matches, matches_of_covers⟩

end Meaning

/-! ## Marks -/

/-- The marks of a path tell which of its beginnings satisfy the predicate. -/
def Marks (P : List Char → Prop) : (path : List Char) → List Bool → Prop
  | [], [m] => m = true ↔ P []
  | c :: path, m :: marks => (m = true ↔ P []) ∧ Marks (fun t => P (c :: t)) path marks
  | _, _ => False

theorem Marks.congr {P Q : List Char → Prop} (h : ∀ t, P t ↔ Q t) {path : List Char}
    {marks : List Bool} (hmarks : Marks P path marks) : Marks Q path marks := by
  obtain rfl : P = Q := funext fun t => propext (h t)
  exact hmarks

/-- The last mark tells of the whole path. -/
theorem Marks.getLast? {P : List Char → Prop} {path : List Char} {marks : List Bool}
    (h : Marks P path marks) : marks.getLast? = some true ↔ P path := by
  induction path generalizing P marks with
  | nil =>
    match marks, h with
    | [m], h => simpa [Marks] using h
  | cons c path ih =>
    match marks, h with
    | m :: marks, h =>
      obtain ⟨-, h⟩ := h
      cases marks with
      | nil => cases path <;> exact h.elim
      | cons m' marks =>
        rw [List.getLast?_cons_cons]
        exact ih h

theorem marks_false (path : List Char) :
    Marks (fun _ => False) path (false :: path.map fun _ => false) := by
  induction path with
  | nil => simp [Marks]
  | cons c path ih => exact ⟨by simp, ih⟩

/-- No items match the beginning without characters, and no other. -/
theorem marks_initial (path : List Char) : Marks (· = []) path (initialMarks path) := by
  cases path with
  | nil => simp [Marks, initialMarks]
  | cons c path => exact ⟨by simp, (marks_false path).congr fun t => by simp⟩

/-- A text that satisfies `P`, and a piece that satisfies `Q` behind it. -/
def Then (P Q : List Char → Prop) (t : List Char) : Prop :=
  ∃ before piece, t = before ++ piece ∧ P before ∧ Q piece

theorem then_congr {P Q R : List Char → Prop} (h : ∀ piece, Q piece ↔ R piece) (t : List Char) :
    Then P Q t ↔ Then P R t := by
  simp only [Then, h]

theorem then_nil (P Q : List Char → Prop) : Then P Q [] ↔ P [] ∧ Q [] := by
  simp [Then, and_assoc]

theorem then_cons (P Q : List Char → Prop) (c : Char) (t : List Char) :
    Then P Q (c :: t) ↔ P [] ∧ Q (c :: t) ∨ Then (fun t => P (c :: t)) Q t := by
  simp only [Then, List.cons_eq_append_iff]
  constructor
  · rintro ⟨before, piece, ⟨rfl, rfl⟩ | ⟨before, rfl, rfl⟩, hbefore, hpiece⟩
    · exact .inl ⟨hbefore, hpiece⟩
    · exact .inr ⟨before, piece, rfl, hbefore, hpiece⟩
  · rintro (⟨hbefore, hpiece⟩ | ⟨before, piece, rfl, hbefore, hpiece⟩)
    · exact ⟨[], c :: t, .inl ⟨rfl, rfl⟩, hbefore, hpiece⟩
    · exact ⟨c :: before, piece, .inr ⟨before, rfl, rfl⟩, hbefore, hpiece⟩

section Advance

variable {P : List Char → Prop} {path : List Char} {marks : List Bool}

/-- `carry` tells whether the character before the path is the piece. -/
theorem marks_zipWith (p : Char → Bool) (carry : Bool) (h : Marks P path marks) :
    Marks (fun t => carry = true ∧ t = [] ∨ Then P (fun b => ∃ c, b = [c] ∧ p c = true) t) path
      (carry :: List.zipWith (fun c m => m && p c) path marks) := by
  induction path generalizing P marks carry with
  | nil => simp [Marks, then_nil]
  | cons c path ih =>
    match marks, h with
    | m :: marks, ⟨hm, h⟩ =>
      refine ⟨by simp [then_nil], (ih (m && p c) h).congr fun t => ?_⟩
      simp [then_cons, ← hm, and_assoc, and_comm]

/-- `carry` tells whether a piece can go on that began before the path. -/
theorem marks_afterMany (p : Char → Bool) (carry : Bool) (h : Marks P path marks) :
    Marks (fun t => carry = true ∧ (∀ c ∈ t, p c = true) ∨ Then P (fun b => ∀ c ∈ b, p c = true) t)
      path (afterMany p carry path marks) := by
  induction path generalizing P marks carry with
  | nil =>
    match marks, h with
    | [m], hm =>
      simp only [Marks] at hm
      simp [Marks, afterMany, then_nil, hm]
  | cons c path ih =>
    match marks, h with
    | m :: marks, ⟨hm, h⟩ =>
      refine ⟨by simp [then_nil, hm], (ih _ h).congr fun t => ?_⟩
      simp only [then_cons, List.forall_mem_cons, ← hm, Bool.and_eq_true, Bool.or_eq_true,
        or_and_right, and_assoc, or_assoc]

theorem forall_ne_iff (piece : List Char) (c : Char) :
    (∀ d ∈ piece, (d != c) = true) ↔ c ∉ piece := by
  simp only [bne_iff_ne]
  exact ⟨fun h hc => h c hc rfl, fun h d hd heq => h (heq ▸ hd)⟩

theorem isFolders_cons (c : Char) (t : List Char) :
    IsFolders (c :: t) ↔ c = '/' ∧ t = [] ∨ c ≠ '\n' ∧ IsFolders t := by
  simp only [IsFolders, List.cons_eq_append_iff]
  constructor
  · rintro ⟨text, ⟨rfl, heq⟩ | ⟨text, rfl, rfl⟩, htext⟩
    · cases heq
      exact .inl ⟨rfl, rfl⟩
    · rw [List.mem_cons, not_or] at htext
      exact .inr ⟨Ne.symm htext.1, text, rfl, htext.2⟩
  · rintro (⟨rfl, rfl⟩ | ⟨hc, text, rfl, htext⟩)
    · exact ⟨[], .inl ⟨rfl, rfl⟩, List.not_mem_nil⟩
    · refine ⟨c :: text, .inr ⟨text, rfl, rfl⟩, ?_⟩
      rw [List.mem_cons, not_or]
      exact ⟨Ne.symm hc, htext⟩

theorem marks_afterFolders (running ended : Bool) (h : Marks P path marks) :
    Marks (fun t => running = true ∧ IsFolders t ∨ ended = true ∧ t = [] ∨
      Then P (fun b => b = [] ∨ IsFolders b) t) path (afterFolders running ended path marks) := by
  have hnil : ¬ IsFolders [] := by simp [IsFolders]
  induction path generalizing P marks running ended with
  | nil =>
    match marks, h with
    | [m], hm =>
      simp only [Marks] at hm
      simp [Marks, afterFolders, then_nil, hm, hnil]
  | cons c path ih =>
    match marks, h with
    | m :: marks, ⟨hm, h⟩ =>
      refine ⟨by simp [then_nil, hm, hnil], (ih _ _ h).congr fun t => ?_⟩
      simp only [then_cons, isFolders_cons, ← hm, Bool.and_eq_true, Bool.or_eq_true, beq_iff_eq,
        bne_iff_ne, reduceCtorEq, and_false, false_or]
      -- a piece goes on that began before the path, or one begins here
      have hgoes (X Y : Prop) : running = true ∧ X ∨ m = true ∧ X ∨ Y ↔
          (running = true ∨ m = true) ∧ X ∨ Y := by
        rw [or_and_right, or_assoc]
      rw [hgoes, and_or_left, or_assoc, or_left_comm, and_assoc, and_assoc]

/-- An item turns the marks of what is before it into those of what ends with it. -/
theorem marks_advance {ignoreCase : Bool} (item : Item) (h : Marks P path marks) :
    Marks (Then P (item.StandsFor ignoreCase)) path (item.advance ignoreCase path marks) := by
  -- at the start of the path no piece has begun
  have hstart (X Y : Prop) : false = true ∧ X ∨ Y ↔ Y := by simp
  cases item with
  | folders =>
    refine (marks_afterFolders false false h).congr fun t => ?_
    rw [hstart, hstart]
    exact then_congr (fun _ => Iff.rfl) t
  | text =>
    refine (marks_afterMany _ false h).congr fun t => ?_
    rw [hstart]
    exact then_congr (fun piece => forall_ne_iff piece '\n') t
  | name =>
    refine (marks_afterMany _ false h).congr fun t => ?_
    rw [hstart]
    exact then_congr (fun piece => forall_ne_iff piece '/') t
  | char =>
    refine (marks_zipWith _ false h).congr fun t => ?_
    rw [hstart]
    exact then_congr (fun piece => by simp [Item.StandsFor]) t
  | literal c =>
    refine (marks_zipWith _ false h).congr fun t => ?_
    rw [hstart]
    refine then_congr (fun piece => ?_) t
    have hletter (d : Char) : Text.sameLetter ignoreCase c d = true ↔
        d = c ∨ ignoreCase = true ∧ Text.fold c = Text.fold d := by
      rw [Text.sameLetter, Bool.or_eq_true, Bool.and_eq_true, beq_iff_eq, beq_iff_eq, eq_comm]
    simp only [hletter]
    exact Iff.rfl

end Advance

/-- After all items, the marks tell of what is before them and then is covered by them. -/
theorem marks_foldl {ignoreCase : Bool} {path : List Char} (items : List Item)
    {P : List Char → Prop} {marks : List Bool} (h : Marks P path marks) :
    Marks (Then P (Covers ignoreCase items)) path
      (items.foldl (fun marks item => item.advance ignoreCase path marks) marks) := by
  induction items generalizing P marks with
  | nil => exact h.congr fun t => by simp [Then, Covers]
  | cons item items ih =>
    refine (ih (marks_advance item h)).congr fun t => ?_
    simp only [Then, Covers]
    constructor
    · rintro ⟨_, rest, rfl, ⟨before, piece, rfl, hbefore, hpiece⟩, hrest⟩
      exact ⟨before, piece ++ rest, by simp, hbefore, piece, rest, rfl, hpiece, hrest⟩
    · rintro ⟨before, _, rfl, hbefore, piece, rest, rfl, hpiece, hrest⟩
      exact ⟨before ++ piece, rest, by simp, ⟨before, piece, rfl, hbefore, hpiece⟩, hrest⟩

theorem coverAll_iff {ignoreCase : Bool} {items : List Item} {path : List Char} :
    coverAll ignoreCase items path = true ↔ Covers ignoreCase items path := by
  have hmarks : Marks (Then (· = []) (Covers ignoreCase items)) path
      (items.foldl (fun marks item => item.advance ignoreCase path marks) (initialMarks path)) :=
    marks_foldl items (marks_initial path)
  rw [coverAll, beq_iff_eq, hmarks.getLast?]
  simp [Then]

/-- Matching decides what the glob says, with backslashes as slashes. -/
theorem isMatch_iff {ignoreCase : Bool} {glob path : List Char} :
    isMatch ignoreCase (parse glob) path = true ↔
      Matches ignoreCase (Text.slashes glob) (Text.slashes path) := by
  rw [isMatch, coverAll_iff, parse, matches_iff_covers]

instance (ignoreCase : Bool) (glob path : List Char) : Decidable (Matches ignoreCase glob path) :=
  decidable_of_iff (coverAll ignoreCase (itemsOf glob) path = true)
    (coverAll_iff.trans matches_iff_covers.symm)

-- the folders may be missing, but a name has no slashes
example : Matches false "**/obj/*.cs".toList "obj/a.cs".toList ∧
    ¬ Matches false "**/obj/*.cs".toList "src/obj/a/b.cs".toList := by
  decide +kernel

end CilCoverage.Glob

namespace CilCoverage.SourceFilter

/-- The glob matches the path, where backslashes are taken as slashes. -/
def MatchesPath (ignoreCase : Bool) (glob path : String) : Prop :=
  Glob.Matches ignoreCase (Text.slashes glob.toList) (Text.slashes path.toList)

theorem covers_pattern {ignoreCase : Bool} {glob path : List Char} :
    (pattern glob).covers ignoreCase path = true ↔
      Glob.Matches ignoreCase (Text.slashes glob) (Text.slashes path) :=
  Glob.isMatch_iff

/-- A filter of globs accepts the paths that some include glob matches, where `**` stands for no
include globs, and that no exclude glob matches. -/
theorem accepts_ofGlobs_iff (included excluded : List String) (path : String)
    (ignoreCase : Bool) :
    (ofGlobs included excluded).accepts path ignoreCase = true ↔
      (∃ glob ∈ if included = [] then ["**"] else included, MatchesPath ignoreCase glob path) ∧
        ¬ ∃ glob ∈ excluded, MatchesPath ignoreCase glob path := by
  have hexcluded : (ofGlobs included excluded).deny.any (·.covers ignoreCase path.toList) = true ↔
      ∃ glob ∈ excluded, MatchesPath ignoreCase glob path := by
    simp [ofGlobs, covers_pattern, MatchesPath]
  have hincluded : (ofGlobs included excluded).allow.any (·.covers ignoreCase path.toList) = true ↔
      ∃ glob ∈ if included = [] then ["**"] else included, MatchesPath ignoreCase glob path := by
    cases included with
    | nil => simp [ofGlobs, covers_pattern, MatchesPath]
    | cons glob globs => simp [ofGlobs, covers_pattern, MatchesPath]
  rw [accepts, Bool.and_eq_true, Bool.not_eq_true', ← Bool.not_eq_true, hincluded, hexcluded]

end CilCoverage.SourceFilter
