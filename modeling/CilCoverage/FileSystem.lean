/-
  File systems: folders, and files with their bytes, by the names on the way to
  them.

  A path is walked step by step from the outermost folder, and every step starts
  in a folder that exists. A file can be written where a path ends in a name
  and no folder has it. Moving a file replaces the one at the new place in one
  step.
-/
import CilCoverage.Bytes
import CilCoverage.OrderedMap
import CilCoverage.Path

namespace CilCoverage

/-- The names on the way from the outermost folder. -/
abbrev Place := List String

/-- What is found at a place. -/
inductive FileEntry where
  | file (data : Bytes)
  | folder
  deriving DecidableEq

/-- Files and folders by their places. -/
structure FileSystem where
  entries : OrderedMap Place FileEntry

namespace FileSystem

/-- Nothing but the outermost folder. -/
def empty : FileSystem := ⟨.empty⟩

/-- What is at a place; the outermost folder always exists. -/
def entryAt? (fs : FileSystem) : Place → Option FileEntry
  | [] => some .folder
  | name :: names => fs.entries.find? (name :: names)

/-- There is a folder at the place. -/
def isFolder (fs : FileSystem) (place : Place) : Bool :=
  match fs.entryAt? place with
  | some .folder => true
  | _ => false

/-! ## Paths -/

/-- Where a step leads from a place. -/
def next (place : Place) : PathStep → Place
  | .into name => place ++ [name]
  | .out => place.dropLast

/-- Where steps lead from a place. Each starts in a folder; nothing has to be at the end. -/
def walk? (fs : FileSystem) (place : Place) : List PathStep → Option Place
  | [] => some place
  | step :: rest => if fs.isFolder place then fs.walk? (next place step) rest else none

/-- Where a path leads. -/
def place? (fs : FileSystem) (path : String) : Option Place :=
  if Path.isValid path then fs.walk? [] (Path.steps path) else none

/-- What a path leads to, if to anything. -/
def find? (fs : FileSystem) (path : String) : Option FileEntry :=
  match (fs.place? path).bind fs.entryAt? with
  | some (.file data) => if Path.endsInFolder path then none else some (.file data)
  | found => found

/-- The path leads to a file or a folder. -/
def contains (fs : FileSystem) (path : String) : Bool := (fs.find? path).isSome

/-- The contents of a file. -/
def file? (fs : FileSystem) (path : String) : Option Bytes :=
  match fs.find? path with
  | some (.file data) => some data
  | _ => none

/-- The place of the file that can be written at a path. -/
def filePlace? (fs : FileSystem) (path : String) : Option Place :=
  if Path.endsInName path then (fs.place? path).filter fun place => !fs.isFolder place else none

/-! ## Files -/

/-- Writes a file, which replaces the one that was there. -/
def write? (fs : FileSystem) (path : String) (data : Bytes) : Option FileSystem :=
  (fs.filePlace? path).map fun place => ⟨fs.entries.insert place (.file data)⟩

/-- Adds to the end of a file. -/
def append? (fs : FileSystem) (path : String) (data : Bytes) : Option FileSystem := do
  fs.write? path ((← fs.file? path) ++ data)

/-- Removes a file. -/
def remove (fs : FileSystem) (path : String) : FileSystem :=
  match fs.filePlace? path with
  | some place => ⟨fs.entries.erase place⟩
  | none => fs

/-- Moves a file, which replaces the one at the new place. -/
def move? (fs : FileSystem) (source target : String) : Option FileSystem := do
  let data ← fs.file? source
  let place ← fs.filePlace? target
  some ⟨(fs.remove source).entries.insert place (.file data)⟩

/-! ## Folders -/

/-- Makes the folders that steps lead into, where they are missing, up to a file that is in the
way or a name that is too long. -/
def makeAlong (fs : FileSystem) (place : Place) : List PathStep → FileSystem
  | [] => fs
  | .out :: rest => fs.makeAlong place.dropLast rest
  | .into name :: rest =>
    let inner := place ++ [name]
    match fs.entryAt? inner with
    | some .folder => fs.makeAlong inner rest
    | some (.file _) => fs
    | none =>
      if Path.isShort name then makeAlong ⟨fs.entries.insert inner .folder⟩ inner rest else fs

/-- Makes a folder, with those that it is in, and tells whether there is one then. One with a
dot after its name is not made itself, and an empty path asks for none. -/
def makeFolders (fs : FileSystem) (path : String) : FileSystem × Bool :=
  if path.isEmpty then (fs, true)
  else if Path.isValid path then
    let steps := Path.steps path
    let made := fs.makeAlong [] (if Path.endsInDot path then steps.dropLast else steps)
    (made, made.find? path == some .folder)
  else (fs, false)

/-- Names and contents of the files that lie directly in a folder, in the order of names; none
where there is no folder. -/
def filesIn (fs : FileSystem) (path : String) : List (String × Bytes) :=
  match (fs.place? path).filter fs.isFolder with
  | none => []
  | some folder =>
    fs.entries.entries.filterMap fun
      | (place, .file data) =>
        match folder.isPrefixOf? place with
        | some [name] => some (name, data)
        | _ => none
      | _ => none

/-! ## Laws of walking -/

theorem walk?_append (fs : FileSystem) (place : Place) (s t : List PathStep) :
    fs.walk? place (s ++ t) = (fs.walk? place s).bind fun p => fs.walk? p t := by
  induction s generalizing place with
  | nil => rfl
  | cons step rest ih =>
    simp only [List.cons_append, walk?]
    split
    · exact ih _
    · rfl

/-- Where folders stay, paths lead where they led. -/
theorem walk?_of_isFolder_le {fs more : FileSystem}
    (h : ∀ p, fs.isFolder p = true → more.isFolder p = true) {place target : Place}
    {steps : List PathStep} (hw : fs.walk? place steps = some target) :
    more.walk? place steps = some target := by
  induction steps generalizing place with
  | nil => exact hw
  | cons step rest ih =>
    rw [walk?] at hw ⊢
    split at hw
    · next hf => rw [if_pos (h place hf)]; exact ih hw
    · simp at hw

end FileSystem

end CilCoverage
