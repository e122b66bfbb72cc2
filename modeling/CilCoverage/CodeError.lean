/-
  What can be wrong with the stored form of a method body.
-/
import CilCoverage.OpCode
import CilCoverage.Numeral

namespace CilCoverage

/-- What is wrong with the header of a method body. -/
inductive HeaderError where
  /-- A fat header that is not three double words long. -/
  | fatSize (bytes : Nat)
  | format (bits : Nat)
  deriving DecidableEq, Repr

/-- What is wrong with a data section or an exception clause. -/
inductive SectionError where
  | unsupportedKind (kind : Nat)
  | unknownFlags (flags : Nat)
  | tryOverflow
  | handlerOverflow
  | tooManyClauses
  | clauseStart
  | clauseEnd (start : Nat)
  deriving DecidableEq, Repr

/-- Malformed or unsupported method body data. -/
inductive CodeError where
  | unknownOpcode (offset value : Nat)
  /-- The data ends where something should start at `offset`. -/
  | truncated (offset : Nat)
  | targetOutOfRange (offset : Nat)
  | shortBranchOverflow (offset target : Nat)
  /-- The recorded offset of an instruction is not where it is written. -/
  | misplaced (offset : Nat)
  | operandMismatch (offset : Nat) (opcode : OpCode)
  | header (cause : HeaderError)
  | dataSection (cause : SectionError)
  deriving DecidableEq, Repr

open Numeral (codeLabel decimal hex)

def HeaderError.message : HeaderError → String
  | fatSize bytes => "unexpected fat header size " ++ decimal bytes
  | format bits => "unknown body format 0x" ++ hex bits

def SectionError.message : SectionError → String
  | unsupportedKind kind => "unsupported section kind 0x" ++ hex kind
  | unknownFlags flags => "unknown exception clause flags 0x" ++ hex flags
  | tryOverflow => "try range overflows"
  | handlerOverflow => "handler range overflows"
  | tooManyClauses => "too many exception clauses"
  | clauseStart => "clause starts outside the method"
  | clauseEnd start => "clause at " ++ codeLabel start ++ " ends outside the method"

def CodeError.message : CodeError → String
  | unknownOpcode offset value =>
    "unknown opcode 0x" ++ hex value ++ " at " ++ codeLabel offset
  | truncated offset => "truncated data at offset 0x" ++ hex offset
  | targetOutOfRange offset =>
    "branch at " ++ codeLabel offset ++ " targets an offset outside the method"
  | shortBranchOverflow offset target =>
    "short branch at " ++ codeLabel offset ++ " cannot reach " ++ codeLabel target
  | misplaced offset =>
    "instruction at " ++ codeLabel offset ++ " is not at its encoded position"
  | operandMismatch offset opcode =>
    "operand does not match opcode `" ++ opcode.name ++ "` at " ++ codeLabel offset
  | header cause => "invalid method body header: " ++ cause.message
  | dataSection cause => "invalid method data section: " ++ cause.message

end CilCoverage
