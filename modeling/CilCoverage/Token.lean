/-
  Metadata tokens: a table number in the high byte, a row in the lower three.

  A token made from parts has these parts, the row taken modulo `rowLimit`
  (`table_ofParts`, `row_ofParts`), and no other token has them (`eq_ofParts`).
-/
import CilCoverage.Numeral

namespace CilCoverage

/-- Reference to a row of a metadata table. -/
structure Token where
  raw : UInt32
  deriving DecidableEq, Repr, Inhabited

namespace Token

/-- The table of method definitions. -/
def methodTable : UInt8 := 0x06

/-- The table of references to members of other modules. -/
def memberRefTable : UInt8 := 0x0a

/-- Number of rows that the lower three bytes tell apart. -/
def rowLimit : Nat := 0x1000000

/-- The token of a row; only the lower 24 bits of the row count. -/
def ofParts (table : UInt8) (row : Nat) : Token :=
  ⟨UInt32.ofNat (table.toNat * rowLimit + row % rowLimit)⟩

/-- Number of the table. -/
def table (t : Token) : Nat := t.raw.toNat / rowLimit

/-- Number of the row; rows count from one. -/
def row (t : Token) : Nat := t.raw.toNat % rowLimit

/-- Refers to no row. -/
def isNil (t : Token) : Bool := t.row == 0

/-- Eight hexadecimal digits. -/
def text (t : Token) : String := Numeral.hexPadded 8 t.raw.toNat

theorem toNat_ofParts (table : UInt8) (row : Nat) :
    (ofParts table row).raw.toNat = table.toNat * rowLimit + row % rowLimit := by
  have := table.toNat_lt
  simp only [ofParts, rowLimit, UInt32.toNat_ofNat']
  omega

theorem table_ofParts (table : UInt8) (row : Nat) :
    (ofParts table row).table = table.toNat := by
  rw [Token.table, toNat_ofParts]
  simp only [rowLimit]
  omega

theorem row_ofParts (table : UInt8) (row : Nat) :
    (ofParts table row).row = row % rowLimit := by
  rw [Token.row, toNat_ofParts]
  simp only [rowLimit]
  omega

theorem eq_ofParts {t : Token} {table : UInt8} {row : Nat} (htable : t.table = table.toNat)
    (hrow : t.row = row % rowLimit) : t = ofParts table row := by
  have hraw : t.raw.toNat = (ofParts table row).raw.toNat := by
    rw [toNat_ofParts, ← htable, ← hrow, Token.table, Token.row, Nat.div_add_mod']
  exact congrArg Token.mk (UInt32.toNat_inj.mp hraw)

end Token

end CilCoverage
