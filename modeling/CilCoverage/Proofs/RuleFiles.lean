/-
  Rule files, and filters that have no include globs.

  `IsRuleFile` says how a rule file with given globs may be written: one line
  for each glob, in any order among blank lines and comments, with white space
  around. Each line is read as the rule that it was written for
  (`Rule.ofLine_eq`), so the file decides as the globs do (`accepts_parse`),
  except that without include globs it allows nothing. Globs without include
  globs allow what no exclude glob matches, as long as the path has no line
  feed: `**` stands for text without line breaks (`accepts_ofGlobs_nil_iff`).
-/
import CilCoverage.Proofs.Globs
import Mathlib.Data.List.Forall2

namespace CilCoverage

/-! ## White space -/

namespace Text

/-- White space within a line. -/
def IsGap (gap : List Char) : Prop := ∀ c ∈ gap, isBlank c = true ∧ c ≠ '\n'

/-- There is no white space at either end. -/
structure Trimmed (text : List Char) : Prop where
  first : ∀ c ∈ text.head?, isBlank c = false
  last : ∀ c ∈ text.getLast?, isBlank c = false

-- without a hint, a range over all characters is decided by trying each of them
instance (gap : List Char) : Decidable (IsGap gap) := List.decidableBAll _ gap

instance (text : List Char) : Decidable (Trimmed text) :=
  decidable_of_iff (text.head?.any isBlank = false ∧ text.getLast?.any isBlank = false) <| by
    rw [Option.any_eq_false, Option.any_eq_false]
    exact ⟨fun h => ⟨h.1, h.2⟩, fun h => ⟨h.first, h.last⟩⟩

theorem IsGap.append {a b : List Char} (ha : IsGap a) (hb : IsGap b) : IsGap (a ++ b) := by
  intro c hc
  rcases List.mem_append.mp hc with hc | hc
  · exact ha c hc
  · exact hb c hc

theorem IsGap.notMem {gap : List Char} (h : IsGap gap) : '\n' ∉ gap := fun hmem =>
  (h '\n' hmem).2 rfl

theorem isGap_nil : IsGap [] := by simp [IsGap]

theorem trimmed_nil : Trimmed [] := ⟨by simp, by simp⟩

theorem isGap_return : IsGap ['\r'] := by simp [IsGap, isBlank]

/-- White space in front of other text is dropped. -/
theorem dropWhile_gap {gap rest : List Char} (hgap : ∀ c ∈ gap, isBlank c = true)
    (hrest : ∀ c ∈ rest.head?, isBlank c = false) : (gap ++ rest).dropWhile isBlank = rest := by
  rw [List.dropWhile_append_of_pos hgap]
  cases rest with
  | nil => rfl
  | cons c rest =>
    have hc : isBlank c = false := hrest c rfl
    exact List.dropWhile_cons_of_neg (by simp [hc])

/-- White space around other text is dropped. -/
theorem trim_append {before text after : List Char} (hbefore : IsGap before)
    (htext : Trimmed text) (hafter : IsGap after) : trim (before ++ text ++ after) = text := by
  cases text with
  | nil =>
    have hgap : ∀ c ∈ before ++ [] ++ after, isBlank c = true := by
      rw [List.append_nil]
      exact fun c hc => (hbefore.append hafter c hc).1
    have hall : (before ++ [] ++ after).dropWhile isBlank = [] := by
      rw [← List.append_nil (before ++ [] ++ after)]
      exact dropWhile_gap hgap (by simp)
    rw [trim, hall]
    rfl
  | cons c text =>
    have hstart : (before ++ (c :: text) ++ after).dropWhile isBlank = (c :: text) ++ after := by
      rw [List.append_assoc]
      exact dropWhile_gap (fun c hc => (hbefore c hc).1) htext.first
    rw [trim, hstart, List.reverse_append, dropWhile_gap, List.reverse_reverse]
    · exact fun c hc => (hafter c (List.mem_reverse.mp hc)).1
    · rw [List.head?_reverse]
      exact htext.last

/-- What is not white space stays in front. -/
theorem trim_cons {c : Char} (hc : isBlank c = false) (text : List Char) :
    ∃ rest, trim (c :: text) = c :: rest := by
  rw [trim, List.dropWhile_cons_of_neg (by simp [hc]), List.reverse_cons, List.dropWhile_append]
  split
  · exact ⟨[], by simp [hc]⟩
  · exact ⟨_, by rw [List.reverse_append]; rfl⟩

/-! ## Lines -/

/-- The text has these lines. A line ends in a line feed, with or without a carriage return before
it; the last one may end without. -/
inductive HasLines : List (List Char) → (text : List Char) → Prop where
  | empty : HasLines [] []
  | last (line : List Char) : HasLines [line] line
  | feed (line : List Char) {lines : List (List Char)} {text : List Char}
      (more : HasLines lines text) : HasLines (line :: lines) (line ++ '\n' :: text)
  | returnFeed (line : List Char) {lines : List (List Char)} {text : List Char}
      (more : HasLines lines text) : HasLines (line :: lines) (line ++ '\r' :: '\n' :: text)

end Text

namespace SourceFilter

open Text

/-! ## Rule files -/

/-- The line may be written for the rule. -/
inductive Rule.WrittenAs : Rule → (line : List Char) → Prop where
  | blank {gap : List Char} (hgap : IsGap gap) : WrittenAs .blank gap
  | comment {before text : List Char} (hbefore : IsGap before) (htext : '\n' ∉ text) :
      WrittenAs .comment (before ++ '#' :: text)
  | allow {before after : List Char} (glob : List Char) (hbefore : IsGap before)
      (hafter : IsGap after) : WrittenAs (.allow glob) (before ++ glob ++ after)
  | deny {before gap after : List Char} (glob : List Char) (hbefore : IsGap before)
      (hgap : IsGap gap) (hafter : IsGap after) :
      WrittenAs (.deny glob) (before ++ '!' :: ' ' :: (gap ++ glob) ++ after)

/-- There is one rule for each of the globs, in any order among blank lines and comments. -/
def IsArranged (included excluded : List String) (rules : List Rule) : Prop :=
  ∃ idle : List Rule, (∀ rule ∈ idle, rule = .blank ∨ rule = .comment) ∧
    rules.Perm (included.map (fun glob => .allow glob.toList) ++
      excluded.map (fun glob => .deny glob.toList) ++ idle)

/-- The text is a rule file with these globs: its lines are written for the rules. -/
def IsRuleFile (included excluded : List String) (text : String) : Prop :=
  ∃ (rules : List Rule) (lines : List (List Char)), IsArranged included excluded rules ∧
    List.Forall₂ Rule.WrittenAs rules lines ∧ HasLines lines text.toList

/-- A glob that a line can hold. -/
structure FitsLine (glob : List Char) : Prop where
  ne_nil : glob ≠ []
  noFeed : '\n' ∉ glob
  trimmed : Trimmed glob

/-- The glob does not begin as a comment or as an exclude glob does. -/
def LooksIncluded (glob : List Char) : Prop := glob.head? ≠ some '#' ∧ ¬ ['!', ' '] <+: glob

instance (glob : List Char) : Decidable (FitsLine glob) :=
  decidable_of_iff (glob ≠ [] ∧ '\n' ∉ glob ∧ Trimmed glob)
    ⟨fun h => ⟨h.1, h.2.1, h.2.2⟩, fun h => ⟨h.ne_nil, h.noFeed, h.trimmed⟩⟩

instance (glob : List Char) : Decidable (LooksIncluded glob) :=
  inferInstanceAs (Decidable (_ ∧ _))

/-- The globs of a rule can be told from what is around them. -/
def Rule.Plain : Rule → Prop
  | blank | comment => True
  | allow glob => FitsLine glob ∧ LooksIncluded glob
  | deny glob => FitsLine glob

theorem FitsLine.trimmed_deny {glob : List Char} (h : FitsLine glob) (gap : List Char) :
    Trimmed ('!' :: ' ' :: (gap ++ glob)) where
  first := by simp [isBlank]
  last := by
    have hlast : ('!' :: ' ' :: (gap ++ glob)).getLast? = glob.getLast? := by
      rw [← List.cons_append, ← List.cons_append, List.getLast?_append_of_ne_nil _ h.ne_nil]
    rw [hlast]
    exact h.trimmed.last

theorem Rule.ofLine_of_included {line glob : List Char} (htrim : trim line = glob)
    (hne : glob ≠ []) (hglob : LooksIncluded glob) : ofLine line = .allow glob := by
  unfold ofLine
  rw [htrim]
  split
  · exact absurd rfl hne
  · exact absurd rfl hglob.1
  · exact absurd ⟨_, rfl⟩ hglob.2
  · rfl

/-- A line is read as the rule that it was written for. -/
theorem Rule.ofLine_eq {rule : Rule} {line : List Char} (h : rule.WrittenAs line)
    (hplain : rule.Plain) : ofLine line = rule := by
  cases h with
  | blank hgap =>
    have htrim : trim line = [] := by
      simpa using trim_append hgap trimmed_nil isGap_nil
    rw [ofLine, htrim]
  | @comment before text hbefore htext =>
    have hstart : (before ++ '#' :: text).dropWhile isBlank = '#' :: text :=
      dropWhile_gap (fun c hc => (hbefore c hc).1) (by simp [isBlank])
    have hmark : isBlank '#' = false := by decide
    obtain ⟨rest, hrest⟩ := trim_cons hmark text
    have htrim : trim (before ++ '#' :: text) = '#' :: rest := by
      rw [← hrest, trim, trim, hstart, List.dropWhile_cons_of_neg (by decide)]
    simp [ofLine, htrim]
  | allow glob hbefore hafter =>
    obtain ⟨hfits, hincluded⟩ := hplain
    exact ofLine_of_included (trim_append hbefore hfits.trimmed hafter) hfits.ne_nil hincluded
  | @deny before gap after glob hbefore hgap hafter =>
    have hfits : FitsLine glob := hplain
    have hglob : trim (gap ++ glob) = glob := by
      simpa using trim_append hgap hfits.trimmed isGap_nil
    rw [ofLine, trim_append hbefore (hfits.trimmed_deny gap) hafter]
    exact congrArg Rule.deny hglob

theorem Rule.WrittenAs.noFeed {rule : Rule} {line : List Char} (h : rule.WrittenAs line)
    (hplain : rule.Plain) : '\n' ∉ line := by
  cases h with
  | blank hgap => exact hgap.notMem
  | comment hbefore htext => simp [hbefore.notMem, htext]
  | allow glob hbefore hafter =>
    have hglob : '\n' ∉ glob := hplain.1.noFeed
    simp [hbefore.notMem, hglob, hafter.notMem]
  | deny glob hbefore hgap hafter =>
    have hglob : '\n' ∉ glob := FitsLine.noFeed hplain
    simp [hbefore.notMem, hgap.notMem, hglob, hafter.notMem]

/-- A carriage return at the end of a line is white space, or part of a comment. -/
theorem Rule.WrittenAs.concat_return {rule : Rule} {line : List Char} (h : rule.WrittenAs line) :
    rule.WrittenAs (line ++ ['\r']) := by
  cases h with
  | blank hgap => exact .blank (hgap.append isGap_return)
  | comment hbefore htext =>
    rw [List.append_assoc, List.cons_append]
    exact .comment hbefore (by simp [htext])
  | allow glob hbefore hafter =>
    rw [List.append_assoc]
    exact .allow glob hbefore (hafter.append isGap_return)
  | deny glob hbefore hgap hafter =>
    rw [List.append_assoc]
    exact .deny glob hbefore hgap (hafter.append isGap_return)

theorem beq_feed_eq_false {line : List Char} (h : '\n' ∉ line) :
    ∀ c ∈ line, (c == '\n') = false := by
  intro c hc
  rw [beq_eq_false_iff_ne]
  rintro rfl
  exact h hc

theorem ofLine_lines_append {line : List Char} (hline : '\n' ∉ line) (text : List Char) :
    (lines (line ++ '\n' :: text)).map Rule.ofLine =
      Rule.ofLine line :: (lines text).map Rule.ofLine := by
  have hsplit : lines (line ++ '\n' :: text) = lines line ++ lines text := pieces_append rfl _ _
  have hone : lines line = [line] := pieces_of_unmarked (beq_feed_eq_false hline)
  rw [hsplit, hone, List.singleton_append, List.map_cons]

/-- The lines of a text are read as the rules that they were written for; behind the end of the
last line there may be one that is blank. -/
theorem ofLine_lines {rules : List Rule} {ls : List (List Char)} {text : List Char}
    (htext : HasLines ls text) (hrules : List.Forall₂ Rule.WrittenAs rules ls)
    (hplain : ∀ rule ∈ rules, rule.Plain) :
    (lines text).map Rule.ofLine = rules ∨ (lines text).map Rule.ofLine = rules ++ [.blank] := by
  induction htext generalizing rules with
  | empty =>
    cases hrules
    exact .inr rfl
  | last line =>
    cases hrules with
    | @cons rule _ rules _ hrule hrules =>
    cases hrules
    have hrule' := hplain rule List.mem_cons_self
    have hone : lines line = [line] :=
      pieces_of_unmarked (beq_feed_eq_false (hrule.noFeed hrule'))
    left
    rw [hone, List.map_singleton, Rule.ofLine_eq hrule hrule']
  | feed line more ih =>
    cases hrules with
    | @cons rule _ rules _ hrule hrules =>
    obtain ⟨hrule', hrules'⟩ := List.forall_mem_cons.mp hplain
    rw [ofLine_lines_append (hrule.noFeed hrule'), Rule.ofLine_eq hrule hrule']
    exact (ih hrules hrules').imp (congrArg (rule :: ·)) (congrArg (rule :: ·))
  | @returnFeed line _ text more ih =>
    cases hrules with
    | @cons rule _ rules _ hrule hrules =>
    obtain ⟨hrule', hrules'⟩ := List.forall_mem_cons.mp hplain
    have hreturn := hrule.concat_return
    have hsplit : line ++ '\r' :: '\n' :: text = (line ++ ['\r']) ++ '\n' :: text := by simp
    rw [hsplit, ofLine_lines_append (hreturn.noFeed hrule'), Rule.ofLine_eq hreturn hrule']
    exact (ih hrules hrules').imp (congrArg (rule :: ·)) (congrArg (rule :: ·))

/-! ## Order -/

section Order

variable {included excluded : List String} {rules : List Rule}

theorem IsArranged.concat_blank (h : IsArranged included excluded rules) :
    IsArranged included excluded (rules ++ [.blank]) := by
  obtain ⟨idle, hidle, hrules⟩ := h
  refine ⟨idle ++ [.blank], fun rule hrule => ?_, ?_⟩
  · rcases List.mem_append.mp hrule with hrule | hrule
    · exact hidle rule hrule
    · exact .inl (List.mem_singleton.mp hrule)
  · rw [← List.append_assoc]
    exact hrules.append_right [.blank]

/-- Every rule is that of a glob, or a blank line or comment. -/
theorem IsArranged.plain (h : IsArranged included excluded rules)
    (hincluded : ∀ glob ∈ included, FitsLine glob.toList ∧ LooksIncluded glob.toList)
    (hexcluded : ∀ glob ∈ excluded, FitsLine glob.toList) : ∀ rule ∈ rules, rule.Plain := by
  obtain ⟨idle, hidle, hrules⟩ := h
  intro rule hrule
  rw [hrules.mem_iff, List.mem_append, List.mem_append, List.mem_map, List.mem_map] at hrule
  rcases hrule with (⟨glob, hglob, rfl⟩ | ⟨glob, hglob, rfl⟩) | hrule
  · exact hincluded glob hglob
  · exact hexcluded glob hglob
  · rcases hidle rule hrule with rfl | rfl <;> trivial

/-- Neither the order of the rules nor blank lines and comments make a difference. -/
theorem IsArranged.any_eq (h : IsArranged included excluded rules) {p : Rule → Bool}
    (hblank : p .blank = false) (hcomment : p .comment = false) :
    rules.any p = (included.any (fun glob => p (.allow glob.toList)) ||
      excluded.any fun glob => p (.deny glob.toList)) := by
  obtain ⟨idle, hidle, hrules⟩ := h
  have hother : idle.any p = false := by
    rw [List.any_eq_false]
    intro rule hrule
    rcases hidle rule hrule with rfl | rfl
    · simp [hblank]
    · simp [hcomment]
  rw [hrules.any_eq, List.any_append, List.any_append, List.any_map, List.any_map, hother,
    Bool.or_false]
  rfl

end Order

/-! ## Decisions -/

section Decisions

variable (ignoreCase : Bool) (path : String)

/-- The rule allows the path. -/
def Rule.allowsPath : Rule → Bool
  | allow glob => (pattern glob).covers ignoreCase path.toList
  | _ => false

/-- The rule denies the path. -/
def Rule.deniesPath : Rule → Bool
  | deny glob => (pattern glob).covers ignoreCase path.toList
  | _ => false

theorem accepts_ofRules (rules : List Rule) : (ofRules rules).accepts path ignoreCase =
    (rules.any (·.allowsPath ignoreCase path) && !rules.any (·.deniesPath ignoreCase path)) := by
  have hallow : (ofRules rules).allow.any (·.covers ignoreCase path.toList) =
      rules.any (·.allowsPath ignoreCase path) := by
    rw [ofRules, List.any_filterMap]
    congr 1
    funext rule
    cases rule <;> rfl
  have hdeny : (ofRules rules).deny.any (·.covers ignoreCase path.toList) =
      rules.any (·.deniesPath ignoreCase path) := by
    rw [ofRules, List.any_filterMap]
    congr 1
    funext rule
    cases rule <;> rfl
  rw [accepts, hallow, hdeny]

/-- Some glob covers the path. -/
def anyCovers (globs : List String) : Bool :=
  globs.any fun glob => (pattern glob.toList).covers ignoreCase path.toList

theorem accepts_ofRules_arranged {included excluded : List String} {rules : List Rule}
    (h : IsArranged included excluded rules) :
    (ofRules rules).accepts path ignoreCase =
      (anyCovers ignoreCase path included && !anyCovers ignoreCase path excluded) := by
  have hnever : ∀ globs : List String, globs.any (fun _ => false) = false :=
    fun globs => List.any_eq_false.mpr fun _ _ => Bool.false_ne_true
  have hallows : rules.any (·.allowsPath ignoreCase path) = anyCovers ignoreCase path included := by
    rw [h.any_eq rfl rfl]
    simp only [Rule.allowsPath, hnever, Bool.or_false, anyCovers]
  have hdenies : rules.any (·.deniesPath ignoreCase path) = anyCovers ignoreCase path excluded := by
    rw [h.any_eq rfl rfl]
    simp only [Rule.deniesPath, hnever, Bool.false_or, anyCovers]
  rw [accepts_ofRules, hallows, hdenies]

theorem accepts_ofGlobs (included excluded : List String) :
    (ofGlobs included excluded).accepts path ignoreCase =
      (anyCovers ignoreCase path (if included = [] then ["**"] else included) &&
        !anyCovers ignoreCase path excluded) := by
  cases included <;> simp [accepts, ofGlobs, anyCovers, Function.comp_def]

theorem anyCovers_iff (globs : List String) :
    anyCovers ignoreCase path globs = true ↔ ∃ glob ∈ globs, MatchesPath ignoreCase glob path := by
  simp [anyCovers, covers_pattern, MatchesPath]

end Decisions

/-- A rule file decides about every path as the globs in it do, and without include globs it allows
nothing. -/
theorem accepts_parse {included excluded : List String} {text : String}
    (hincluded : ∀ glob ∈ included, FitsLine glob.toList ∧ LooksIncluded glob.toList)
    (hexcluded : ∀ glob ∈ excluded, FitsLine glob.toList)
    (htext : IsRuleFile included excluded text) (path : String) (ignoreCase : Bool) :
    (parse text).accepts path ignoreCase =
      if included = [] then false else (ofGlobs included excluded).accepts path ignoreCase := by
  obtain ⟨rules, ls, hrules, hwritten, hlines⟩ := htext
  have hread : IsArranged included excluded ((lines text.toList).map Rule.ofLine) := by
    rcases ofLine_lines hlines hwritten (hrules.plain hincluded hexcluded) with h | h
    · rw [h]
      exact hrules
    · rw [h]
      exact hrules.concat_blank
  rw [parse, accepts_ofRules_arranged ignoreCase path hread]
  split
  · next hnone => simp [hnone, anyCovers]
  · next hsome => rw [accepts_ofGlobs, if_neg hsome]

/-- Two include globs, of which one begins with an exclamation mark, and an exclude glob. -/
def mixedFile : String := "# what counts\r\n\t!  **/obj/**\n\n src/** \r\n!x#"

theorem isRuleFile_mixedFile : IsRuleFile ["src/**", "!x#"] ["**/obj/**"] mixedFile := by
  have htab : IsGap ['\t'] := by decide
  have hspace : IsGap [' '] := by decide
  refine ⟨[.comment, .deny "**/obj/**".toList, .blank, .allow "src/**".toList,
      .allow "!x#".toList],
    ["# what counts".toList, "\t!  **/obj/**".toList, [], " src/** ".toList, "!x#".toList],
    ⟨[.blank, .comment], by simp, by decide⟩, ?_, ?_⟩
  · refine .cons (.comment isGap_nil (by decide)) (.cons ?_ (.cons (.blank isGap_nil)
      (.cons ?_ (.cons ?_ .nil))))
    · exact .deny "**/obj/**".toList htab hspace isGap_nil
    · exact .allow "src/**".toList hspace hspace
    · exact .allow "!x#".toList isGap_nil isGap_nil
  · exact .returnFeed "# what counts".toList (.feed "\t!  **/obj/**".toList (.feed []
      (.returnFeed " src/** ".toList (.last "!x#".toList))))

theorem accepts_parse_mixedFile :
    (∀ glob ∈ ["src/**", "!x#"], FitsLine glob.toList ∧ LooksIncluded glob.toList) ∧
    (∀ glob ∈ ["**/obj/**"], FitsLine glob.toList) ∧
    IsRuleFile ["src/**", "!x#"] ["**/obj/**"] mixedFile ∧
    (parse mixedFile).accepts "SRC/a.cs" true =
      (ofGlobs ["src/**", "!x#"] ["**/obj/**"]).accepts "SRC/a.cs" true := by
  have hincluded : ∀ glob ∈ ["src/**", "!x#"],
      FitsLine glob.toList ∧ LooksIncluded glob.toList := by
    decide
  have hexcluded : ∀ glob ∈ ["**/obj/**"], FitsLine glob.toList := by decide
  exact ⟨hincluded, hexcluded, isRuleFile_mixedFile,
    accepts_parse hincluded hexcluded isRuleFile_mixedFile "SRC/a.cs" true⟩

example : (parse mixedFile).accepts "SRC/a.cs" true = true ∧
    (parse mixedFile).accepts "src/obj/a.cs" false = false := by
  decide +kernel

/-! ## No include globs -/

end SourceFilter

/-- `**` alone stands for text without line feeds. -/
theorem Glob.matches_text_iff {ignoreCase : Bool} {path : List Char} :
    Matches ignoreCase ['*', '*'] path ↔ '\n' ∉ path := by
  constructor
  · intro h
    cases h with
    | text hglob piece hpiece more =>
      cases more
      rwa [List.append_nil]
    | name hglob piece hpiece more => exact absurd rfl hglob
    | literal c d hc hd more => exact absurd rfl hc.1
  · intro h
    rw [← List.append_nil path]
    exact .text (by simp) path h .done

namespace SourceFilter

theorem matchesPath_text_iff {ignoreCase : Bool} {path : String} :
    MatchesPath ignoreCase "**" path ↔ '\n' ∉ path.toList := by
  have hglob : Text.slashes "**".toList = ['*', '*'] := Text.slashes_of_notMem (by decide)
  rw [MatchesPath, hglob, Glob.matches_text_iff, Text.mem_slashes_iff]
  simp

/-- Without include globs, and whether or not case counts, a path is accepted if no exclude glob
matches it and there is no line feed in it. So of the two filters that are to leave nothing out,
the one of no globs and the one that allows everything, only the second accepts paths with line
feeds; on all others they agree. -/
theorem accepts_ofGlobs_nil_iff (excluded : List String) (path : String) (ignoreCase : Bool) :
    ((ofGlobs [] excluded).accepts path ignoreCase = true ↔
      '\n' ∉ path.toList ∧ ¬ ∃ glob ∈ excluded, MatchesPath ignoreCase glob path) ∧
    all.accepts path ignoreCase = true ∧
    ((ofGlobs [] []).accepts path ignoreCase = all.accepts path ignoreCase ↔
      '\n' ∉ path.toList) := by
  have hall : all.accepts path ignoreCase = true := rfl
  have hnone : ∀ excluded : List String, (ofGlobs [] excluded).accepts path ignoreCase = true ↔
      '\n' ∉ path.toList ∧ ¬ ∃ glob ∈ excluded, MatchesPath ignoreCase glob path := by
    intro excluded
    have htext : (∃ glob ∈ ["**"], MatchesPath ignoreCase glob path) ↔ '\n' ∉ path.toList := by
      simp only [List.mem_singleton, exists_eq_left]
      exact matchesPath_text_iff
    rw [accepts_ofGlobs, if_pos rfl, Bool.and_eq_true, Bool.not_eq_true', ← Bool.not_eq_true,
      anyCovers_iff, anyCovers_iff, htext]
  refine ⟨hnone excluded, hall, ?_⟩
  rw [hall, hnone []]
  simp

/-- Two lines. -/
def brokenPath : String := "a\nb"

/-- No glob excludes a path of two lines, but without include globs it is left out. -/
theorem brokenPath_left_out : (ofGlobs [] []).allows brokenPath = false ∧
    all.allows brokenPath = true := by
  decide +kernel

end SourceFilter

end CilCoverage
