/-
  The hits directory, where every recording process or test keeps a file.

  A file is written next to its place and then moved there, so that a reader
  finds it as a whole or not at all; `writeSteps` lists the single steps. What
  is no hit file is passed over when the directory is read.
-/
import CilCoverage.FileSystem
import CilCoverage.HitFile

namespace CilCoverage

/-- What is done to write a hit file. -/
inductive StoreTask where
  | createFolder
  | createFile
  | replaceFile
  deriving DecidableEq, Repr

/-- A hit file could not be written. -/
structure StoreError where
  task : StoreTask
  path : String
  deriving DecidableEq, Repr

def StoreError.message (e : StoreError) : String :=
  match e.task with
  | .createFolder => "unable to create hits dir " ++ e.path
  | .createFile => "unable to create " ++ e.path
  | .replaceFile => "unable to replace hit file " ++ e.path

/-- The hits of one process or test. -/
structure ContextHits where
  fileName : String
  test : Option String
  hits : Hits

/-- A hits directory, which need not exist, and the files around it. -/
structure HitsDir where
  path : String
  files : FileSystem

namespace HitsDir

/-- A directory where nothing exists. -/
def missing (path : String) : HitsDir := ⟨path, .empty⟩

/-! ## Names -/

/-- Extension of hit files. -/
def hitExtension : String := "hits"

/-- Extension of a hit file that is still being written. -/
def scratchExtension : String := "tmp"

/-- The run id with nothing but letters, digits, `-` and `_` of ASCII, and not empty. -/
def sanitize (runId : String) : String :=
  if runId.isEmpty then "run"
  else runId.map fun c => if (c.isAlphanum || c == '-') || c == '_' then c else '_'

/-- Name of a hit file; `unique` is a number of 128 bits that no other file has. -/
def newFileName (runId : String) (process unique : Nat) : String :=
  sanitize runId ++ "." ++ Numeral.decimal process ++ "." ++ Numeral.hexPadded 32 unique ++ "." ++
    hitExtension

/-- The path of a file in the directory. -/
def filePath (d : HitsDir) (name : String) : String := Path.join d.path name

/-- There is a file or a folder of the name. -/
def contains (d : HitsDir) (name : String) : Bool := d.files.contains (d.filePath name)

/-! ## Writing -/

/-- A single change of the files. -/
inductive WriteStep where
  /-- Makes the folder if it is missing. -/
  | makeFolder (path : String)
  /-- Starts a file without contents. -/
  | create (path : String)
  | append (path : String) (data : Bytes)
  | move (source target : String)
  deriving DecidableEq

/-- Makes a change. Folders that were made on the way to one that cannot be made stay. -/
def WriteStep.run (step : WriteStep) (fs : FileSystem) : FileSystem × Except StoreError Unit :=
  let orElse := fun (changed : Option FileSystem) (e : StoreError) =>
    match changed with
    | some fs => (fs, .ok ())
    | none => (fs, .error e)
  match step with
  | makeFolder path =>
    match fs.makeFolders path with
    | (fs, true) => (fs, .ok ())
    | (fs, false) => (fs, .error ⟨.createFolder, path⟩)
  | create path => orElse (fs.write? path []) ⟨.createFile, path⟩
  | append path data => orElse (fs.append? path data) ⟨.createFile, path⟩
  | move source target => orElse (fs.move? source target) ⟨.replaceFile, target⟩

/-- Makes changes up to the first one that fails. -/
def runSteps (fs : FileSystem) : List WriteStep → FileSystem × Except StoreError Unit
  | [] => (fs, .ok ())
  | step :: rest =>
    match step.run fs with
    | (fs, .ok ()) => runSteps fs rest
    | failed => failed

/-- The changes that put a hit file in its place. -/
def writeSteps (dir path : String) (file : HitFile) : List WriteStep :=
  let scratch := Path.withExtension path scratchExtension
  [.makeFolder dir, .create scratch, .append scratch file.toBytes, .move scratch path]

/-- Puts a hit file in its place. -/
def write (d : HitsDir) (name : String) (file : HitFile) : HitsDir × Except StoreError Unit :=
  let (files, result) := runSteps d.files (writeSteps d.path (d.filePath name) file)
  ({ d with files }, result)

/-! ## Reading -/

/-- Names and contents of the files with the extension of hit files. -/
def candidates (d : HitsDir) : List (String × Bytes) :=
  (d.files.filesIn d.path).filter fun e => Path.extension? e.1 == some hitExtension

/-- Names of the files with the extension of hit files. -/
def fileNames (d : HitsDir) : List String := d.candidates.map (·.1)

/-- The hits of each process or test, without files that cannot be read. -/
def contexts (d : HitsDir) : List ContextHits :=
  d.candidates.filterMap fun (name, data) =>
    match HitFile.ofBytes data with
    | .ok file => some ⟨name, file.test, file.hits⟩
    | .error _ => none

/-- The sum of all hits. -/
def read (d : HitsDir) : Hits := Hits.mergeAll (d.contexts.map (·.hits))

/-- Removes the files with the extension of hit files. -/
def reset (d : HitsDir) : HitsDir :=
  { d with files := d.fileNames.foldl (fun fs name => fs.remove (d.filePath name)) d.files }

end HitsDir

end CilCoverage
