/-
  Loading the images of referenced assemblies.

  A resolver finds images by assembly name. The loader keeps what it found, and
  only that: a name without an image is looked up again each time.
-/
import CilCoverage.Bytes
import CilCoverage.Numeral
import CilCoverage.Result

namespace CilCoverage

/-- Finds the image of an assembly, or that there is none; looking may fail with a message. -/
abbrev Resolver := String → Except String (Option Bytes)

/-- Images that were found, and how often the resolver was asked. -/
structure Loader where
  loaded : List (String × Bytes)
  calls : Nat
  deriving DecidableEq

namespace Loader

/-- Nothing was loaded. -/
def new : Loader := ⟨[], 0⟩

/-- The log line about an answer of the resolver. -/
def logLine (name : String) : Option Bytes → LogLine
  | some image =>
    ⟨.debug, "resolved assembly " ++ name ++ ": " ++ Numeral.decimal image.length ++ " bytes"⟩
  | none => ⟨.debug, "unable to resolve assembly " ++ name⟩

/-- The answer to a request, and the loader after it. -/
structure Reply where
  answer : Except String (Option Bytes)
  loader : Loader
  log : Log

/-- Loads an image, from what is kept if it is there. -/
def load (resolver : Resolver) (loader : Loader) (name : String) : Reply :=
  match loader.loaded.lookup name with
  | some image => ⟨.ok (some image), loader, []⟩
  | none =>
    let answer := resolver name
    let calls := loader.calls + 1
    match answer with
    | .error _ => ⟨answer, { loader with calls := calls }, []⟩
    | .ok none => ⟨answer, { loader with calls := calls }, [logLine name none]⟩
    | .ok (some image) =>
      ⟨answer, ⟨(name, image) :: loader.loaded, calls⟩, [logLine name (some image)]⟩

/-- Whether there is an image; one that is found is kept, as if it had been loaded. -/
def isResolvable (resolver : Resolver) (loader : Loader) (name : String) :
    Log × Loader × Except String Bool :=
  let r := loader.load resolver name
  (r.log, r.loader, r.answer.map Option.isSome)

end Loader

end CilCoverage
