/-
  Source filters: which documents take part in the coverage.

  A document is allowed if a pattern of the filter includes it and none excludes
  it. Filters come from lists of globs or from a text with one rule per line.

  The pattern of a glob stands for its regular expression (see `Glob`), with or
  without regard to case; `every` stands for `.*` that need not match the whole
  path. Since every glob has a pattern here, building a filter never fails, and
  no rule of a text is passed over with a warning, as one would be whose
  expression exceeds the limit on its size.
-/
import CilCoverage.Glob

namespace CilCoverage

/-- A set of paths. -/
inductive PathPattern where
  /-- Every path. -/
  | every
  /-- The paths that match a glob. -/
  | glob (items : List Glob.Item)
  deriving DecidableEq, Repr

/-- The pattern covers the path. -/
def PathPattern.covers (ignoreCase : Bool) (path : List Char) : PathPattern → Bool
  | every => true
  | glob items => Glob.isMatch ignoreCase items path

/-- Which documents to allow. -/
structure SourceFilter where
  allow : List PathPattern
  deny : List PathPattern
  deriving DecidableEq, Repr

/-- The path starts with a drive or contains a backslash. -/
def isWindowsPath (path : String) : Bool :=
  let drive := match path.toList with
    | letter :: ':' :: _ => letter.isAlpha
    | _ => false
  drive || path.toList.contains '\\'

namespace SourceFilter

/-- The pattern of a glob. -/
def pattern (glob : List Char) : PathPattern := .glob (Glob.parse glob)

/-- Allows every document. -/
def all : SourceFilter := ⟨[.every], []⟩

/-- Allows what an include glob matches and no exclude glob does. Without include globs,
`**` stands for them. -/
def ofGlobs (included excluded : List String) : SourceFilter where
  allow := match included with
    | [] => [pattern ['*', '*']]
    | globs => globs.map fun glob => pattern glob.toList
  deny := excluded.map fun glob => pattern glob.toList

/-- What a line of a rule file says. -/
inductive Rule where
  | blank
  | comment
  | allow (glob : List Char)
  | deny (glob : List Char)
  deriving DecidableEq

/-- Reads a line: `# …` is a comment, `! <glob>` denies, `<glob>` allows. White space around
the line and around the glob does not count. -/
def Rule.ofLine (line : List Char) : Rule :=
  match Text.trim line with
  | [] => .blank
  | '#' :: _ => .comment
  | '!' :: ' ' :: rest => .deny (Text.trim rest)
  | glob => .allow glob

/-- The filter of a list of rules. -/
def ofRules (rules : List Rule) : SourceFilter where
  allow := rules.filterMap fun
    | .allow glob => some (pattern glob)
    | _ => none
  deny := rules.filterMap fun
    | .deny glob => some (pattern glob)
    | _ => none

/-- Reads a rule file, one rule per line. -/
def parse (text : String) : SourceFilter :=
  ofRules ((Text.lines text.toList).map Rule.ofLine)

/-- The path is allowed, with letters of either case taken as equal if `ignoreCase` is set. -/
def accepts (filter : SourceFilter) (path : String) (ignoreCase : Bool) : Bool :=
  filter.allow.any (·.covers ignoreCase path.toList) &&
    !filter.deny.any (·.covers ignoreCase path.toList)

/-- The path is allowed, where the case of letters does not count in a Windows path. -/
def allows (filter : SourceFilter) (path : String) : Bool :=
  filter.accepts path (isWindowsPath path)

end SourceFilter

end CilCoverage
