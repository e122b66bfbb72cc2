/-
  Configuration of an instrumentation run.

  A configuration is read from JSON, where missing keys take their defaults, or
  made from single options.
-/
import CilCoverage.Json.Record
import CilCoverage.Module
import CilCoverage.SourceFilter

namespace CilCoverage

/-- What to instrument and where hits go. -/
structure Config where
  /-- Globs of the documents to instrument; none means all. -/
  sources : List String
  /-- Globs of the documents to leave alone. -/
  excludeSources : List String
  /-- Directory that documents are recorded relative to. -/
  sourceRoot : Option String
  hitsDir : String
  /-- Record which way decisions go, too. -/
  branches : Bool
  /-- Instrument the assemblies of a batch side by side. -/
  parallel : Bool
  probe : ProbeReference
  deriving DecidableEq, Repr

namespace Config

/-- Where hits go if nothing else is said. -/
def defaultHitsDir : String := "coverage-hits"

/-- The configuration that holds if nothing is said. -/
def standard : Config where
  sources := []
  excludeSources := []
  sourceRoot := none
  hitsDir := defaultHitsDir
  branches := true
  parallel := true
  probe := ⟨"Coverage.Runtime", "Coverage.Runtime.HitService", "Hit"⟩

/-- How many values an option takes. -/
inductive Arity where
  | flag
  | single
  | multi
  deriving DecidableEq, Repr

/-- A single setting. -/
inductive Setting where
  | sources (globs : List String)
  | excludeSources (globs : List String)
  | sourceRoot (root : String)
  | hitsDir (dir : String)
  | noBranches
  | sequential
  | probe (probe : ProbeReference)
  deriving DecidableEq, Repr

/-- Name of the option that makes the setting. -/
def Setting.name : Setting → String
  | sources _ => "sources"
  | excludeSources _ => "exclude-sources"
  | sourceRoot _ => "source-root"
  | hitsDir _ => "hits-dir"
  | noBranches => "no-branches"
  | sequential => "sequential"
  | probe _ => "probe"

/-- How many values the option takes. -/
def Setting.arity : Setting → Arity
  | noBranches | sequential => .flag
  | sourceRoot _ | hitsDir _ | probe _ => .single
  | sources _ | excludeSources _ => .multi

/-- Applies a setting. Globs add to those given before. -/
def apply (c : Config) : Setting → Config
  | .sources globs => { c with sources := c.sources ++ globs }
  | .excludeSources globs => { c with excludeSources := c.excludeSources ++ globs }
  | .sourceRoot root => { c with sourceRoot := some root }
  | .hitsDir dir => { c with hitsDir := dir }
  | .noBranches => { c with branches := false }
  | .sequential => { c with parallel := false }
  | .probe probe => { c with probe := probe }

/-- Applies settings one after the other. -/
def applyAll (c : Config) (settings : List Setting) : Config :=
  settings.foldl apply c

/-- The documents to instrument. -/
def filter (c : Config) : SourceFilter :=
  SourceFilter.ofGlobs c.sources c.excludeSources

/-! ## JSON -/

open Json

/-- The document of a probe. -/
def probeValue (p : ProbeReference) : Value :=
  .object [("assembly", .string p.assembly), ("type_name", .string p.typeName),
    ("method", .string p.method)]

/-- The document of a configuration. -/
def toValue (c : Config) : Value :=
  .object [("sources", .array (c.sources.map .string)),
    ("exclude_sources", .array (c.excludeSources.map .string)),
    ("source_root", c.sourceRoot.elim .null .string), ("hits_dir", .string c.hitsDir),
    ("branches", .bool c.branches), ("parallel", .bool c.parallel), ("probe", probeValue c.probe)]

/-- Reads a probe, of which no part may be missing. -/
def readProbe : Reader ProbeReference :=
  readRecord
    [ .of "assembly" readString fun (_, t, m) a => (some a, t, m),
      .of "type_name" readString fun (a, _, m) t => (a, some t, m),
      .of "method" readString fun (a, t, _) m => (a, t, some m) ]
    (none, none, none)
    fun
      | (some a, some t, some m) => some ⟨a, t, m⟩
      | _ => none

/-- Reads a configuration. -/
def read : Reader Config :=
  readRecord
    [ .of "sources" (readList readString) fun c v => { c with sources := v },
      .of "exclude_sources" (readList readString) fun c v => { c with excludeSources := v },
      .of "source_root" (readOption readString) fun c v => { c with sourceRoot := v },
      .of "hits_dir" readString fun c v => { c with hitsDir := v },
      .of "branches" readBool fun c v => { c with branches := v },
      .of "parallel" readBool fun c v => { c with parallel := v },
      .of "probe" readProbe fun c v => { c with probe := v } ]
    standard some

/-- The configuration of a JSON text. -/
def ofText (text : String) : Except Fault Config := readDocument read text

end Config

end CilCoverage
