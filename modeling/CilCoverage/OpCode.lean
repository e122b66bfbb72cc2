/-
  Opcodes of the Common Intermediate Language, with the facts about each that
  decoding, layout and the stack analysis need: its encoded value, its
  mnemonic, the shape of its inline operand, its stack behaviour and the way
  control leaves it.

  One table (`OpCode.spec`) holds all of them. Everything else is read off it.
-/

namespace CilCoverage

/-- Shape of the inline operand that follows an opcode. -/
inductive OperandKind where
  /-- No operand. -/
  | none
  /-- Branch displacement in one byte. -/
  | target8
  /-- Branch displacement in four bytes. -/
  | target32
  /-- Jump table: a count and that many displacements of four bytes. -/
  | table
  | int8
  | int32
  | int64
  | float32
  | float64
  /-- Number of a local or an argument in one byte. -/
  | var8
  /-- Number of a local or an argument in two bytes. -/
  | var16
  | token
  deriving DecidableEq, Repr

namespace OperandKind

/-- Encoded size in bytes; a jump table has none of its own. -/
def size? : OperandKind → Option Nat
  | none => some 0
  | target8 | int8 | var8 => some 1
  | var16 => some 2
  | target32 | int32 | float32 | token => some 4
  | int64 | float64 => some 8
  | table => Option.none

end OperandKind

/-- How control leaves an instruction. -/
inductive Flow where
  | next
  | breakpoint
  | branch
  | condBranch
  | call
  | exit
  | throw
  /-- Belongs to the instruction after it. -/
  | modifier
  deriving DecidableEq, Repr

/-- An operation of the instruction set. -/
inductive OpCode where
  | nop | breakpoint | ldarg0 | ldarg1 | ldarg2 | ldarg3 | ldloc0 | ldloc1 | ldloc2 | ldloc3
  | stloc0 | stloc1 | stloc2 | stloc3 | ldargS | ldargaS | stargS | ldlocS | ldlocaS | stlocS
  | ldnull | ldcI4M1 | ldcI40 | ldcI41 | ldcI42 | ldcI43 | ldcI44 | ldcI45 | ldcI46 | ldcI47
  | ldcI48 | ldcI4S | ldcI4 | ldcI8 | ldcR4 | ldcR8 | dup | pop | jmp | call | calli | ret
  | brS | brfalseS | brtrueS | beqS | bgeS | bgtS | bleS | bltS | bneUnS | bgeUnS | bgtUnS
  | bleUnS | bltUnS | br | brfalse | brtrue | beq | bge | bgt | ble | blt | bneUn | bgeUn
  | bgtUn | bleUn | bltUn | switch | ldindI1 | ldindU1 | ldindI2 | ldindU2 | ldindI4 | ldindU4
  | ldindI8 | ldindI | ldindR4 | ldindR8 | ldindRef | stindRef | stindI1 | stindI2 | stindI4
  | stindI8 | stindR4 | stindR8 | add | sub | mul | div | divUn | rem | remUn | and | or | xor
  | shl | shr | shrUn | neg | not | convI1 | convI2 | convI4 | convI8 | convR4 | convR8
  | convU4 | convU8 | callvirt | cpobj | ldobj | ldstr | newobj | castclass | isinst | convRUn
  | unbox | throw | ldfld | ldflda | stfld | ldsfld | ldsflda | stsfld | stobj | convOvfI1Un
  | convOvfI2Un | convOvfI4Un | convOvfI8Un | convOvfU1Un | convOvfU2Un | convOvfU4Un
  | convOvfU8Un | convOvfIUn | convOvfUUn | box | newarr | ldlen | ldelema | ldelemI1
  | ldelemU1 | ldelemI2 | ldelemU2 | ldelemI4 | ldelemU4 | ldelemI8 | ldelemI | ldelemR4
  | ldelemR8 | ldelemRef | stelemI | stelemI1 | stelemI2 | stelemI4 | stelemI8 | stelemR4
  | stelemR8 | stelemRef | ldelem | stelem | unboxAny | convOvfI1 | convOvfU1 | convOvfI2
  | convOvfU2 | convOvfI4 | convOvfU4 | convOvfI8 | convOvfU8 | refanyval | ckfinite | mkrefany
  | ldtoken | convU2 | convU1 | convI | convOvfI | convOvfU | addOvf | addOvfUn | mulOvf
  | mulOvfUn | subOvf | subOvfUn | endfinally | leave | leaveS | stindI | convU | arglist | ceq
  | cgt | cgtUn | clt | cltUn | ldftn | ldvirtftn | ldarg | ldarga | starg | ldloc | ldloca
  | stloc | localloc | endfilter | unaligned | volatile | tail | initobj | constrained | cpblk
  | initblk | no | rethrow | sizeof | refanytype | readonly
  deriving DecidableEq, Repr

namespace OpCode

/-- The row of one opcode in the table. -/
structure Spec where
  /-- Encoded value; two-byte opcodes carry `0xfe` in the high byte. -/
  value : Nat
  name : String
  operand : OperandKind
  /-- Stack slots popped, unless a signature decides. -/
  pop : Option Nat
  /-- Stack slots pushed, unless a signature decides. -/
  push : Option Nat
  flow : Flow

/-- The table of opcodes. -/
def spec : OpCode → Spec
  | nop => ⟨0x00, "nop", .none, some 0, some 0, .next⟩
  | breakpoint => ⟨0x01, "break", .none, some 0, some 0, .breakpoint⟩
  | ldarg0 => ⟨0x02, "ldarg.0", .none, some 0, some 1, .next⟩
  | ldarg1 => ⟨0x03, "ldarg.1", .none, some 0, some 1, .next⟩
  | ldarg2 => ⟨0x04, "ldarg.2", .none, some 0, some 1, .next⟩
  | ldarg3 => ⟨0x05, "ldarg.3", .none, some 0, some 1, .next⟩
  | ldloc0 => ⟨0x06, "ldloc.0", .none, some 0, some 1, .next⟩
  | ldloc1 => ⟨0x07, "ldloc.1", .none, some 0, some 1, .next⟩
  | ldloc2 => ⟨0x08, "ldloc.2", .none, some 0, some 1, .next⟩
  | ldloc3 => ⟨0x09, "ldloc.3", .none, some 0, some 1, .next⟩
  | stloc0 => ⟨0x0a, "stloc.0", .none, some 1, some 0, .next⟩
  | stloc1 => ⟨0x0b, "stloc.1", .none, some 1, some 0, .next⟩
  | stloc2 => ⟨0x0c, "stloc.2", .none, some 1, some 0, .next⟩
  | stloc3 => ⟨0x0d, "stloc.3", .none, some 1, some 0, .next⟩
  | ldargS => ⟨0x0e, "ldarg.s", .var8, some 0, some 1, .next⟩
  | ldargaS => ⟨0x0f, "ldarga.s", .var8, some 0, some 1, .next⟩
  | stargS => ⟨0x10, "starg.s", .var8, some 1, some 0, .next⟩
  | ldlocS => ⟨0x11, "ldloc.s", .var8, some 0, some 1, .next⟩
  | ldlocaS => ⟨0x12, "ldloca.s", .var8, some 0, some 1, .next⟩
  | stlocS => ⟨0x13, "stloc.s", .var8, some 1, some 0, .next⟩
  | ldnull => ⟨0x14, "ldnull", .none, some 0, some 1, .next⟩
  | ldcI4M1 => ⟨0x15, "ldc.i4.m1", .none, some 0, some 1, .next⟩
  | ldcI40 => ⟨0x16, "ldc.i4.0", .none, some 0, some 1, .next⟩
  | ldcI41 => ⟨0x17, "ldc.i4.1", .none, some 0, some 1, .next⟩
  | ldcI42 => ⟨0x18, "ldc.i4.2", .none, some 0, some 1, .next⟩
  | ldcI43 => ⟨0x19, "ldc.i4.3", .none, some 0, some 1, .next⟩
  | ldcI44 => ⟨0x1a, "ldc.i4.4", .none, some 0, some 1, .next⟩
  | ldcI45 => ⟨0x1b, "ldc.i4.5", .none, some 0, some 1, .next⟩
  | ldcI46 => ⟨0x1c, "ldc.i4.6", .none, some 0, some 1, .next⟩
  | ldcI47 => ⟨0x1d, "ldc.i4.7", .none, some 0, some 1, .next⟩
  | ldcI48 => ⟨0x1e, "ldc.i4.8", .none, some 0, some 1, .next⟩
  | ldcI4S => ⟨0x1f, "ldc.i4.s", .int8, some 0, some 1, .next⟩
  | ldcI4 => ⟨0x20, "ldc.i4", .int32, some 0, some 1, .next⟩
  | ldcI8 => ⟨0x21, "ldc.i8", .int64, some 0, some 1, .next⟩
  | ldcR4 => ⟨0x22, "ldc.r4", .float32, some 0, some 1, .next⟩
  | ldcR8 => ⟨0x23, "ldc.r8", .float64, some 0, some 1, .next⟩
  | dup => ⟨0x25, "dup", .none, some 1, some 2, .next⟩
  | pop => ⟨0x26, "pop", .none, some 1, some 0, .next⟩
  | jmp => ⟨0x27, "jmp", .token, some 0, some 0, .call⟩
  | call => ⟨0x28, "call", .token, none, none, .call⟩
  | calli => ⟨0x29, "calli", .token, none, none, .call⟩
  | ret => ⟨0x2a, "ret", .none, none, some 0, .exit⟩
  | brS => ⟨0x2b, "br.s", .target8, some 0, some 0, .branch⟩
  | brfalseS => ⟨0x2c, "brfalse.s", .target8, some 1, some 0, .condBranch⟩
  | brtrueS => ⟨0x2d, "brtrue.s", .target8, some 1, some 0, .condBranch⟩
  | beqS => ⟨0x2e, "beq.s", .target8, some 2, some 0, .condBranch⟩
  | bgeS => ⟨0x2f, "bge.s", .target8, some 2, some 0, .condBranch⟩
  | bgtS => ⟨0x30, "bgt.s", .target8, some 2, some 0, .condBranch⟩
  | bleS => ⟨0x31, "ble.s", .target8, some 2, some 0, .condBranch⟩
  | bltS => ⟨0x32, "blt.s", .target8, some 2, some 0, .condBranch⟩
  | bneUnS => ⟨0x33, "bne.un.s", .target8, some 2, some 0, .condBranch⟩
  | bgeUnS => ⟨0x34, "bge.un.s", .target8, some 2, some 0, .condBranch⟩
  | bgtUnS => ⟨0x35, "bgt.un.s", .target8, some 2, some 0, .condBranch⟩
  | bleUnS => ⟨0x36, "ble.un.s", .target8, some 2, some 0, .condBranch⟩
  | bltUnS => ⟨0x37, "blt.un.s", .target8, some 2, some 0, .condBranch⟩
  | br => ⟨0x38, "br", .target32, some 0, some 0, .branch⟩
  | brfalse => ⟨0x39, "brfalse", .target32, some 1, some 0, .condBranch⟩
  | brtrue => ⟨0x3a, "brtrue", .target32, some 1, some 0, .condBranch⟩
  | beq => ⟨0x3b, "beq", .target32, some 2, some 0, .condBranch⟩
  | bge => ⟨0x3c, "bge", .target32, some 2, some 0, .condBranch⟩
  | bgt => ⟨0x3d, "bgt", .target32, some 2, some 0, .condBranch⟩
  | ble => ⟨0x3e, "ble", .target32, some 2, some 0, .condBranch⟩
  | blt => ⟨0x3f, "blt", .target32, some 2, some 0, .condBranch⟩
  | bneUn => ⟨0x40, "bne.un", .target32, some 2, some 0, .condBranch⟩
  | bgeUn => ⟨0x41, "bge.un", .target32, some 2, some 0, .condBranch⟩
  | bgtUn => ⟨0x42, "bgt.un", .target32, some 2, some 0, .condBranch⟩
  | bleUn => ⟨0x43, "ble.un", .target32, some 2, some 0, .condBranch⟩
  | bltUn => ⟨0x44, "blt.un", .target32, some 2, some 0, .condBranch⟩
  | switch => ⟨0x45, "switch", .table, some 1, some 0, .condBranch⟩
  | ldindI1 => ⟨0x46, "ldind.i1", .none, some 1, some 1, .next⟩
  | ldindU1 => ⟨0x47, "ldind.u1", .none, some 1, some 1, .next⟩
  | ldindI2 => ⟨0x48, "ldind.i2", .none, some 1, some 1, .next⟩
  | ldindU2 => ⟨0x49, "ldind.u2", .none, some 1, some 1, .next⟩
  | ldindI4 => ⟨0x4a, "ldind.i4", .none, some 1, some 1, .next⟩
  | ldindU4 => ⟨0x4b, "ldind.u4", .none, some 1, some 1, .next⟩
  | ldindI8 => ⟨0x4c, "ldind.i8", .none, some 1, some 1, .next⟩
  | ldindI => ⟨0x4d, "ldind.i", .none, some 1, some 1, .next⟩
  | ldindR4 => ⟨0x4e, "ldind.r4", .none, some 1, some 1, .next⟩
  | ldindR8 => ⟨0x4f, "ldind.r8", .none, some 1, some 1, .next⟩
  | ldindRef => ⟨0x50, "ldind.ref", .none, some 1, some 1, .next⟩
  | stindRef => ⟨0x51, "stind.ref", .none, some 2, some 0, .next⟩
  | stindI1 => ⟨0x52, "stind.i1", .none, some 2, some 0, .next⟩
  | stindI2 => ⟨0x53, "stind.i2", .none, some 2, some 0, .next⟩
  | stindI4 => ⟨0x54, "stind.i4", .none, some 2, some 0, .next⟩
  | stindI8 => ⟨0x55, "stind.i8", .none, some 2, some 0, .next⟩
  | stindR4 => ⟨0x56, "stind.r4", .none, some 2, some 0, .next⟩
  | stindR8 => ⟨0x57, "stind.r8", .none, some 2, some 0, .next⟩
  | add => ⟨0x58, "add", .none, some 2, some 1, .next⟩
  | sub => ⟨0x59, "sub", .none, some 2, some 1, .next⟩
  | mul => ⟨0x5a, "mul", .none, some 2, some 1, .next⟩
  | div => ⟨0x5b, "div", .none, some 2, some 1, .next⟩
  | divUn => ⟨0x5c, "div.un", .none, some 2, some 1, .next⟩
  | rem => ⟨0x5d, "rem", .none, some 2, some 1, .next⟩
  | remUn => ⟨0x5e, "rem.un", .none, some 2, some 1, .next⟩
  | and => ⟨0x5f, "and", .none, some 2, some 1, .next⟩
  | or => ⟨0x60, "or", .none, some 2, some 1, .next⟩
  | xor => ⟨0x61, "xor", .none, some 2, some 1, .next⟩
  | shl => ⟨0x62, "shl", .none, some 2, some 1, .next⟩
  | shr => ⟨0x63, "shr", .none, some 2, some 1, .next⟩
  | shrUn => ⟨0x64, "shr.un", .none, some 2, some 1, .next⟩
  | neg => ⟨0x65, "neg", .none, some 1, some 1, .next⟩
  | not => ⟨0x66, "not", .none, some 1, some 1, .next⟩
  | convI1 => ⟨0x67, "conv.i1", .none, some 1, some 1, .next⟩
  | convI2 => ⟨0x68, "conv.i2", .none, some 1, some 1, .next⟩
  | convI4 => ⟨0x69, "conv.i4", .none, some 1, some 1, .next⟩
  | convI8 => ⟨0x6a, "conv.i8", .none, some 1, some 1, .next⟩
  | convR4 => ⟨0x6b, "conv.r4", .none, some 1, some 1, .next⟩
  | convR8 => ⟨0x6c, "conv.r8", .none, some 1, some 1, .next⟩
  | convU4 => ⟨0x6d, "conv.u4", .none, some 1, some 1, .next⟩
  | convU8 => ⟨0x6e, "conv.u8", .none, some 1, some 1, .next⟩
  | callvirt => ⟨0x6f, "callvirt", .token, none, none, .call⟩
  | cpobj => ⟨0x70, "cpobj", .token, some 2, some 0, .next⟩
  | ldobj => ⟨0x71, "ldobj", .token, some 1, some 1, .next⟩
  | ldstr => ⟨0x72, "ldstr", .token, some 0, some 1, .next⟩
  | newobj => ⟨0x73, "newobj", .token, none, some 1, .call⟩
  | castclass => ⟨0x74, "castclass", .token, some 1, some 1, .next⟩
  | isinst => ⟨0x75, "isinst", .token, some 1, some 1, .next⟩
  | convRUn => ⟨0x76, "conv.r.un", .none, some 1, some 1, .next⟩
  | unbox => ⟨0x79, "unbox", .token, some 1, some 1, .next⟩
  | throw => ⟨0x7a, "throw", .none, some 1, some 0, .throw⟩
  | ldfld => ⟨0x7b, "ldfld", .token, some 1, some 1, .next⟩
  | ldflda => ⟨0x7c, "ldflda", .token, some 1, some 1, .next⟩
  | stfld => ⟨0x7d, "stfld", .token, some 2, some 0, .next⟩
  | ldsfld => ⟨0x7e, "ldsfld", .token, some 0, some 1, .next⟩
  | ldsflda => ⟨0x7f, "ldsflda", .token, some 0, some 1, .next⟩
  | stsfld => ⟨0x80, "stsfld", .token, some 1, some 0, .next⟩
  | stobj => ⟨0x81, "stobj", .token, some 2, some 0, .next⟩
  | convOvfI1Un => ⟨0x82, "conv.ovf.i1.un", .none, some 1, some 1, .next⟩
  | convOvfI2Un => ⟨0x83, "conv.ovf.i2.un", .none, some 1, some 1, .next⟩
  | convOvfI4Un => ⟨0x84, "conv.ovf.i4.un", .none, some 1, some 1, .next⟩
  | convOvfI8Un => ⟨0x85, "conv.ovf.i8.un", .none, some 1, some 1, .next⟩
  | convOvfU1Un => ⟨0x86, "conv.ovf.u1.un", .none, some 1, some 1, .next⟩
  | convOvfU2Un => ⟨0x87, "conv.ovf.u2.un", .none, some 1, some 1, .next⟩
  | convOvfU4Un => ⟨0x88, "conv.ovf.u4.un", .none, some 1, some 1, .next⟩
  | convOvfU8Un => ⟨0x89, "conv.ovf.u8.un", .none, some 1, some 1, .next⟩
  | convOvfIUn => ⟨0x8a, "conv.ovf.i.un", .none, some 1, some 1, .next⟩
  | convOvfUUn => ⟨0x8b, "conv.ovf.u.un", .none, some 1, some 1, .next⟩
  | box => ⟨0x8c, "box", .token, some 1, some 1, .next⟩
  | newarr => ⟨0x8d, "newarr", .token, some 1, some 1, .next⟩
  | ldlen => ⟨0x8e, "ldlen", .none, some 1, some 1, .next⟩
  | ldelema => ⟨0x8f, "ldelema", .token, some 2, some 1, .next⟩
  | ldelemI1 => ⟨0x90, "ldelem.i1", .none, some 2, some 1, .next⟩
  | ldelemU1 => ⟨0x91, "ldelem.u1", .none, some 2, some 1, .next⟩
  | ldelemI2 => ⟨0x92, "ldelem.i2", .none, some 2, some 1, .next⟩
  | ldelemU2 => ⟨0x93, "ldelem.u2", .none, some 2, some 1, .next⟩
  | ldelemI4 => ⟨0x94, "ldelem.i4", .none, some 2, some 1, .next⟩
  | ldelemU4 => ⟨0x95, "ldelem.u4", .none, some 2, some 1, .next⟩
  | ldelemI8 => ⟨0x96, "ldelem.i8", .none, some 2, some 1, .next⟩
  | ldelemI => ⟨0x97, "ldelem.i", .none, some 2, some 1, .next⟩
  | ldelemR4 => ⟨0x98, "ldelem.r4", .none, some 2, some 1, .next⟩
  | ldelemR8 => ⟨0x99, "ldelem.r8", .none, some 2, some 1, .next⟩
  | ldelemRef => ⟨0x9a, "ldelem.ref", .none, some 2, some 1, .next⟩
  | stelemI => ⟨0x9b, "stelem.i", .none, some 3, some 0, .next⟩
  | stelemI1 => ⟨0x9c, "stelem.i1", .none, some 3, some 0, .next⟩
  | stelemI2 => ⟨0x9d, "stelem.i2", .none, some 3, some 0, .next⟩
  | stelemI4 => ⟨0x9e, "stelem.i4", .none, some 3, some 0, .next⟩
  | stelemI8 => ⟨0x9f, "stelem.i8", .none, some 3, some 0, .next⟩
  | stelemR4 => ⟨0xa0, "stelem.r4", .none, some 3, some 0, .next⟩
  | stelemR8 => ⟨0xa1, "stelem.r8", .none, some 3, some 0, .next⟩
  | stelemRef => ⟨0xa2, "stelem.ref", .none, some 3, some 0, .next⟩
  | ldelem => ⟨0xa3, "ldelem", .token, some 2, some 1, .next⟩
  | stelem => ⟨0xa4, "stelem", .token, some 3, some 0, .next⟩
  | unboxAny => ⟨0xa5, "unbox.any", .token, some 1, some 1, .next⟩
  | convOvfI1 => ⟨0xb3, "conv.ovf.i1", .none, some 1, some 1, .next⟩
  | convOvfU1 => ⟨0xb4, "conv.ovf.u1", .none, some 1, some 1, .next⟩
  | convOvfI2 => ⟨0xb5, "conv.ovf.i2", .none, some 1, some 1, .next⟩
  | convOvfU2 => ⟨0xb6, "conv.ovf.u2", .none, some 1, some 1, .next⟩
  | convOvfI4 => ⟨0xb7, "conv.ovf.i4", .none, some 1, some 1, .next⟩
  | convOvfU4 => ⟨0xb8, "conv.ovf.u4", .none, some 1, some 1, .next⟩
  | convOvfI8 => ⟨0xb9, "conv.ovf.i8", .none, some 1, some 1, .next⟩
  | convOvfU8 => ⟨0xba, "conv.ovf.u8", .none, some 1, some 1, .next⟩
  | refanyval => ⟨0xc2, "refanyval", .token, some 1, some 1, .next⟩
  | ckfinite => ⟨0xc3, "ckfinite", .none, some 1, some 1, .next⟩
  | mkrefany => ⟨0xc6, "mkrefany", .token, some 1, some 1, .next⟩
  | ldtoken => ⟨0xd0, "ldtoken", .token, some 0, some 1, .next⟩
  | convU2 => ⟨0xd1, "conv.u2", .none, some 1, some 1, .next⟩
  | convU1 => ⟨0xd2, "conv.u1", .none, some 1, some 1, .next⟩
  | convI => ⟨0xd3, "conv.i", .none, some 1, some 1, .next⟩
  | convOvfI => ⟨0xd4, "conv.ovf.i", .none, some 1, some 1, .next⟩
  | convOvfU => ⟨0xd5, "conv.ovf.u", .none, some 1, some 1, .next⟩
  | addOvf => ⟨0xd6, "add.ovf", .none, some 2, some 1, .next⟩
  | addOvfUn => ⟨0xd7, "add.ovf.un", .none, some 2, some 1, .next⟩
  | mulOvf => ⟨0xd8, "mul.ovf", .none, some 2, some 1, .next⟩
  | mulOvfUn => ⟨0xd9, "mul.ovf.un", .none, some 2, some 1, .next⟩
  | subOvf => ⟨0xda, "sub.ovf", .none, some 2, some 1, .next⟩
  | subOvfUn => ⟨0xdb, "sub.ovf.un", .none, some 2, some 1, .next⟩
  | endfinally => ⟨0xdc, "endfinally", .none, some 0, some 0, .exit⟩
  | leave => ⟨0xdd, "leave", .target32, some 0, some 0, .branch⟩
  | leaveS => ⟨0xde, "leave.s", .target8, some 0, some 0, .branch⟩
  | stindI => ⟨0xdf, "stind.i", .none, some 2, some 0, .next⟩
  | convU => ⟨0xe0, "conv.u", .none, some 1, some 1, .next⟩
  | arglist => ⟨0xfe00, "arglist", .none, some 0, some 1, .next⟩
  | ceq => ⟨0xfe01, "ceq", .none, some 2, some 1, .next⟩
  | cgt => ⟨0xfe02, "cgt", .none, some 2, some 1, .next⟩
  | cgtUn => ⟨0xfe03, "cgt.un", .none, some 2, some 1, .next⟩
  | clt => ⟨0xfe04, "clt", .none, some 2, some 1, .next⟩
  | cltUn => ⟨0xfe05, "clt.un", .none, some 2, some 1, .next⟩
  | ldftn => ⟨0xfe06, "ldftn", .token, some 0, some 1, .next⟩
  | ldvirtftn => ⟨0xfe07, "ldvirtftn", .token, some 1, some 1, .next⟩
  | ldarg => ⟨0xfe09, "ldarg", .var16, some 0, some 1, .next⟩
  | ldarga => ⟨0xfe0a, "ldarga", .var16, some 0, some 1, .next⟩
  | starg => ⟨0xfe0b, "starg", .var16, some 1, some 0, .next⟩
  | ldloc => ⟨0xfe0c, "ldloc", .var16, some 0, some 1, .next⟩
  | ldloca => ⟨0xfe0d, "ldloca", .var16, some 0, some 1, .next⟩
  | stloc => ⟨0xfe0e, "stloc", .var16, some 1, some 0, .next⟩
  | localloc => ⟨0xfe0f, "localloc", .none, some 1, some 1, .next⟩
  | endfilter => ⟨0xfe11, "endfilter", .none, some 1, some 0, .exit⟩
  | unaligned => ⟨0xfe12, "unaligned.", .int8, some 0, some 0, .modifier⟩
  | volatile => ⟨0xfe13, "volatile.", .none, some 0, some 0, .modifier⟩
  | tail => ⟨0xfe14, "tail.", .none, some 0, some 0, .modifier⟩
  | initobj => ⟨0xfe15, "initobj", .token, some 1, some 0, .next⟩
  | constrained => ⟨0xfe16, "constrained.", .token, some 0, some 0, .modifier⟩
  | cpblk => ⟨0xfe17, "cpblk", .none, some 3, some 0, .next⟩
  | initblk => ⟨0xfe18, "initblk", .none, some 3, some 0, .next⟩
  | no => ⟨0xfe19, "no.", .int8, some 0, some 0, .modifier⟩
  | rethrow => ⟨0xfe1a, "rethrow", .none, some 0, some 0, .throw⟩
  | sizeof => ⟨0xfe1c, "sizeof", .token, some 0, some 1, .next⟩
  | refanytype => ⟨0xfe1d, "refanytype", .none, some 1, some 1, .next⟩
  | readonly => ⟨0xfe1e, "readonly.", .none, some 0, some 0, .modifier⟩

/-- Every opcode, by ascending value. -/
def all : List OpCode :=
  [nop, breakpoint, ldarg0, ldarg1, ldarg2, ldarg3, ldloc0, ldloc1, ldloc2, ldloc3, stloc0,
   stloc1, stloc2, stloc3, ldargS, ldargaS, stargS, ldlocS, ldlocaS, stlocS, ldnull, ldcI4M1,
   ldcI40, ldcI41, ldcI42, ldcI43, ldcI44, ldcI45, ldcI46, ldcI47, ldcI48, ldcI4S, ldcI4,
   ldcI8, ldcR4, ldcR8, dup, pop, jmp, call, calli, ret, brS, brfalseS, brtrueS, beqS, bgeS,
   bgtS, bleS, bltS, bneUnS, bgeUnS, bgtUnS, bleUnS, bltUnS, br, brfalse, brtrue, beq, bge,
   bgt, ble, blt, bneUn, bgeUn, bgtUn, bleUn, bltUn, switch, ldindI1, ldindU1, ldindI2,
   ldindU2, ldindI4, ldindU4, ldindI8, ldindI, ldindR4, ldindR8, ldindRef, stindRef, stindI1,
   stindI2, stindI4, stindI8, stindR4, stindR8, add, sub, mul, div, divUn, rem, remUn, and, or,
   xor, shl, shr, shrUn, neg, not, convI1, convI2, convI4, convI8, convR4, convR8, convU4,
   convU8, callvirt, cpobj, ldobj, ldstr, newobj, castclass, isinst, convRUn, unbox, throw,
   ldfld, ldflda, stfld, ldsfld, ldsflda, stsfld, stobj, convOvfI1Un, convOvfI2Un, convOvfI4Un,
   convOvfI8Un, convOvfU1Un, convOvfU2Un, convOvfU4Un, convOvfU8Un, convOvfIUn, convOvfUUn,
   box, newarr, ldlen, ldelema, ldelemI1, ldelemU1, ldelemI2, ldelemU2, ldelemI4, ldelemU4,
   ldelemI8, ldelemI, ldelemR4, ldelemR8, ldelemRef, stelemI, stelemI1, stelemI2, stelemI4,
   stelemI8, stelemR4, stelemR8, stelemRef, ldelem, stelem, unboxAny, convOvfI1, convOvfU1,
   convOvfI2, convOvfU2, convOvfI4, convOvfU4, convOvfI8, convOvfU8, refanyval, ckfinite,
   mkrefany, ldtoken, convU2, convU1, convI, convOvfI, convOvfU, addOvf, addOvfUn, mulOvf,
   mulOvfUn, subOvf, subOvfUn, endfinally, leave, leaveS, stindI, convU, arglist, ceq, cgt,
   cgtUn, clt, cltUn, ldftn, ldvirtftn, ldarg, ldarga, starg, ldloc, ldloca, stloc, localloc,
   endfilter, unaligned, volatile, tail, initobj, constrained, cpblk, initblk, no, rethrow,
   sizeof, refanytype, readonly]

/-- Encoded value. Two-byte opcodes carry `0xfe` in the high byte. -/
def value (op : OpCode) : Nat := op.spec.value

/-- Mnemonic. -/
def name (op : OpCode) : String := op.spec.name

/-- Shape of the operand that follows. -/
def operandKind (op : OpCode) : OperandKind := op.spec.operand

/-- How control leaves. -/
def flow (op : OpCode) : Flow := op.spec.flow

/-- Stack slots popped, or nothing if a signature decides. -/
def pop? (op : OpCode) : Option Nat := op.spec.pop

/-- Stack slots pushed, or nothing if a signature decides. -/
def push? (op : OpCode) : Option Nat := op.spec.push

/-- The opcode with an encoded value. -/
def ofValue? (value : Nat) : Option OpCode :=
  all.find? fun op => op.value == value

/-- The opcode with a mnemonic. -/
def ofName? (name : String) : Option OpCode :=
  all.find? fun op => op.name == name

/-- Size of the encoded opcode in bytes. -/
def size (op : OpCode) : Nat :=
  if 0xff < op.value then 2 else 1

/-- A branch taken or not, by what is on the stack. -/
def isConditionalBranch (op : OpCode) : Bool :=
  op.flow == .condBranch && op != switch

/-- Holds code positions in its operand. -/
def isBranch (op : OpCode) : Bool :=
  match op.operandKind with
  | .target8 | .target32 | .table => true
  | _ => false

/-- More than one instruction can run next. -/
def isDecision (op : OpCode) : Bool :=
  op.isConditionalBranch || op == switch

/-- Empties the evaluation stack. -/
def clearsStack : OpCode → Bool
  | leave | leaveS | endfinally => true
  | _ => false

/-- Control can reach the instruction after this one. -/
def fallsThrough (op : OpCode) : Bool :=
  match op.flow with
  | .branch | .exit | .throw => false
  | _ => op != jmp

/-- The branch with a displacement of one byte that does the same. -/
def shortForm? : OpCode → Option OpCode
  | br => some brS
  | brfalse => some brfalseS
  | brtrue => some brtrueS
  | beq => some beqS
  | bge => some bgeS
  | bgt => some bgtS
  | ble => some bleS
  | blt => some bltS
  | bneUn => some bneUnS
  | bgeUn => some bgeUnS
  | bgtUn => some bgtUnS
  | bleUn => some bleUnS
  | bltUn => some bltUnS
  | leave => some leaveS
  | _ => Option.none

/-- The branch with a displacement of four bytes that does the same. -/
def longForm? : OpCode → Option OpCode
  | brS => some br
  | brfalseS => some brfalse
  | brtrueS => some brtrue
  | beqS => some beq
  | bgeS => some bge
  | bgtS => some bgt
  | bleS => some ble
  | bltS => some blt
  | bneUnS => some bneUn
  | bgeUnS => some bgeUn
  | bgtUnS => some bgtUn
  | bleUnS => some bleUn
  | bltUnS => some bltUn
  | leaveS => some leave
  | _ => Option.none

theorem mem_all (op : OpCode) : op ∈ all := by
  cases op <;> decide

theorem value_of_ofValue? {v : Nat} {op : OpCode} (h : ofValue? v = some op) :
    op.value = v := by
  simpa using List.find?_some h

theorem ofValue?_value (op : OpCode) : ofValue? op.value = some op := by
  cases op <;> rfl

end OpCode

end CilCoverage
