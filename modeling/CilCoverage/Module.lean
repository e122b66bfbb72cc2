/-
  Modules held in memory, whose method bodies can be replaced.

  Tokens are given out in order: what is added next has the row after as many
  as there are, of the method table or of the reference table. Methods are kept
  by token, so that one whose row comes round takes the place of the one that
  had it. The probe, the method that instrumented code calls, is a member
  reference that is imported once.
-/
import CilCoverage.Bytes
import CilCoverage.Token

namespace CilCoverage

/-- What a call does to the evaluation stack. -/
structure StackEffect where
  pop : Nat
  push : Nat
  deriving DecidableEq, Repr

/-- The method that instrumented code calls to record a hit; it takes one 32-bit integer and
returns nothing. -/
structure ProbeReference where
  assembly : String
  typeName : String
  method : String
  deriving DecidableEq, Repr

/-- What a call of the probe does to the evaluation stack. -/
def ProbeReference.effect : StackEffect := ⟨1, 0⟩

/-- The name under which a module refers to the probe. -/
def ProbeReference.memberName (p : ProbeReference) : String :=
  "[" ++ p.assembly ++ "]" ++ p.typeName ++ "::" ++ p.method

/-- A method definition; the body has its header in front. -/
structure MethodDef where
  token : Token
  declaringType : String
  name : String
  body : Option Bytes
  deriving DecidableEq

/-- Name with the declaring type. -/
def MethodDef.fullName (m : MethodDef) : String := m.declaringType ++ "::" ++ m.name

/-- A reference to a method of another module, with the stack effect of its signature. -/
structure MemberRef where
  name : String
  effect : StackEffect
  deriving DecidableEq, Repr

/-- A loaded module. -/
structure Module where
  name : String
  /-- The file the module was read from; empty if it was built from parts. -/
  image : Bytes
  /-- Names of the assemblies it refers to. -/
  references : List String
  methods : List MethodDef
  memberRefs : List MemberRef
  probe : Option (ProbeReference × Token)
  instrumented : Bool
  deriving DecidableEq

/-- Why a module refuses a change. -/
inductive ModuleError where
  /-- Another probe was imported before. -/
  | otherProbe (module : String) (imported : ProbeReference)
  | unknownMethod (token : Token) (module : String)
  deriving DecidableEq

def ModuleError.message : ModuleError → String
  | otherProbe module imported =>
    "module " ++ module ++ " already imports probe " ++ imported.typeName ++ "::" ++
      imported.method
  | unknownMethod token module => "no method with token " ++ token.text ++ " in module " ++ module

namespace Module

/-- A module without contents. -/
def new (name : String) (image : Bytes) : Module where
  name := name
  image := image
  references := []
  methods := []
  memberRefs := []
  probe := none
  instrumented := false

/-- Adds a reference to an assembly. -/
def addReference (m : Module) (assembly : String) : Module :=
  { m with references := m.references ++ [assembly] }

/-- Puts a method among others by its token, in place of the one that has it. -/
def insertMethod (d : MethodDef) : List MethodDef → List MethodDef
  | [] => [d]
  | e :: rest =>
    if d.token.raw < e.token.raw then d :: e :: rest
    else if d.token = e.token then d :: rest
    else e :: insertMethod d rest

/-- Adds a method. -/
def addMethod (m : Module) (declaringType name : String) (body : Option Bytes) :
    Token × Module :=
  let token := Token.ofParts Token.methodTable (m.methods.length + 1)
  (token, { m with methods := insertMethod ⟨token, declaringType, name, body⟩ m.methods })

/-- Adds a member reference. -/
def addMemberRef (m : Module) (name : String) (effect : StackEffect) : Token × Module :=
  (Token.ofParts Token.memberRefTable (m.memberRefs.length + 1),
    { m with memberRefs := m.memberRefs ++ [⟨name, effect⟩] })

/-- The method with a token. -/
def method? (m : Module) (token : Token) : Option MethodDef :=
  m.methods.find? fun d => d.token == token

/-- The stack effect of each member reference, by token. -/
def effects (m : Module) : List (Token × StackEffect) :=
  m.memberRefs.mapIdx fun k r => (Token.ofParts Token.memberRefTable (k + 1), r.effect)

/-- What a call through the token does to the stack, if the token is a member reference. Of
several references with one token the last counts. -/
def callEffect? (m : Module) (token : Token) : Option StackEffect :=
  m.effects.reverse.lookup token

/-- The token of the imported probe. -/
def probeToken? (m : Module) : Option Token := m.probe.map (·.2)

/-- Imports the probe and refers to its assembly. A second import gives the same token; a
module takes one probe only. -/
def importProbe (m : Module) (probe : ProbeReference) : Except ModuleError (Token × Module) :=
  match m.probe with
  | some (imported, token) =>
    if imported = probe then .ok (token, m) else .error (.otherProbe m.name imported)
  | none =>
    let (token, m) := m.addMemberRef probe.memberName ProbeReference.effect
    let m := if m.references.contains probe.assembly then m else m.addReference probe.assembly
    .ok (token, { m with probe := some (probe, token) })

/-- Replaces the body of a method. -/
def replaceBody (m : Module) (token : Token) (body : Bytes) : Except ModuleError Module :=
  if (m.method? token).isSome then
    .ok { m with
      methods := m.methods.map fun d =>
        if d.token = token then { d with body := some body } else d }
  else
    .error (.unknownMethod token m.name)

/-- Marks the module as instrumented. -/
def mark (m : Module) : Module := { m with instrumented := true }

end Module

end CilCoverage
