/-
  Symbols: which source text an instruction comes from.

  A sequence point ties a code offset to a span of lines in a document. Points
  on a reserved line mark code that the compiler made up; these are hidden.
-/
import CilCoverage.OrderedMap
import CilCoverage.Token

namespace CilCoverage

/-- Ties a code offset to a span of source text. -/
structure SequencePoint where
  offset : Nat
  document : String
  startLine : UInt32
  startColumn : UInt32
  endLine : UInt32
  endColumn : UInt32
  deriving DecidableEq, Repr

namespace SequencePoint

/-- The line that marks code without source text. -/
def hiddenLine : UInt32 := 0x00feefee

/-- Marks code without source text. -/
def isHidden (p : SequencePoint) : Bool := p.startLine == hiddenLine

/-- Ends on a line before the one it starts on. -/
def isInverted (p : SequencePoint) : Bool := decide (p.endLine < p.startLine)

end SequencePoint

/-- Answers with the points of a method, in any order, or that the method has none; reading
symbols may fail with a message. -/
abbrev SymbolReader := Token → Except String (Option (List SequencePoint))

instance : Ord Token := ⟨fun a b => compare a.raw b.raw⟩

instance : Std.TransOrd Token where
  eq_swap {a b} := Std.OrientedOrd.eq_swap (a := a.raw) (b := b.raw)
  isLE_trans {a b c} h k := Std.TransOrd.isLE_trans (a := a.raw) (b := b.raw) (c := c.raw) h k

instance : Std.LawfulEqOrd Token where
  compare_self {a} := Std.ReflOrd.compare_self (a := a.raw)
  eq_of_compare {a b} h := by
    cases a
    cases b
    exact congrArg Token.mk (Std.LawfulEqOrd.eq_of_compare h)

/-- Symbols held in memory, by method. -/
structure DebugInfo where
  methods : OrderedMap Token (List SequencePoint)

namespace DebugInfo

/-- No symbols. -/
def empty : DebugInfo := ⟨.empty⟩

/-- Sets the points of a method. -/
def insert (info : DebugInfo) (method : Token) (points : List SequencePoint) : DebugInfo :=
  ⟨info.methods.insert method points⟩

/-- The methods with symbols, in token order. -/
def tokens (info : DebugInfo) : List Token := info.methods.keys

/-- The documents that points refer to, once each, in order. -/
def documents (info : DebugInfo) : List String :=
  (info.methods.values.flatten.foldl
    (fun (m : OrderedMap String Unit) p => m.insert p.document ()) .empty).keys

/-- The points of a method. -/
def points? (info : DebugInfo) (method : Token) : Option (List SequencePoint) :=
  info.methods.find? method

end DebugInfo

end CilCoverage
