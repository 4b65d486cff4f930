/-
  MiniC.Command.Folder

  Files: what the command needs of them, and a folder kept in memory.

  The command reads and writes through a host, in any monad.  A folder in
  memory is such a host: paths are relative to it, and of what is outside it
  only the folders on the way are known.
-/

namespace MiniC.Command

/-! ## §1. Hosts -/

/-- Why a file cannot be read or written. -/
inductive FileError where
  /-- There is no such file. -/
  | notFound
  /-- It is a folder. -/
  | isFolder
  /-- The path goes through a file. -/
  | notFolder
  /-- The path or a name on it is too long. -/
  | nameTooLong
  /-- The bytes are not a text. -/
  | notText
  /-- Any other reason. -/
  | other (reason : String)
  deriving DecidableEq, Repr

/-- The reason in words. -/
def FileError.message : FileError → String
  | .notFound => "No such file or directory (os error 2)"
  | .isFolder => "Is a directory (os error 21)"
  | .notFolder => "Not a directory (os error 20)"
  | .nameTooLong => "File name too long (os error 36)"
  | .notText => "stream did not contain valid UTF-8"
  | .other reason => reason

/-- Reading and writing files. -/
structure Host (m : Type → Type) where
  /-- The text of a file. -/
  read : String → m (Except FileError String)
  /-- Makes a file with a text, in place of the one that is there. -/
  write : String → String → m (Except FileError Unit)

/-- The text that bytes stand for. -/
def decodeText (bytes : ByteArray) : Except FileError String :=
  match String.fromUTF8? bytes with
  | some text => .ok text
  | none => .error .notText

/-! ## §2. Folders -/

/-- A file or folder. -/
inductive Entry where
  | file (bytes : ByteArray)
  | folder

/-- What is in a folder, each entry with the names on the way to it. -/
structure Folder where
  entries : List (List String × Entry) := []

/-- A place: a number of folders up from this one, then the names on the way
down. -/
structure Place where
  up : Nat := 0
  down : List String := []
  deriving DecidableEq, Repr

/-- The folder that a place is in. -/
def Place.parent (place : Place) : Place :=
  if place.down = [] then ⟨place.up + 1, []⟩ else ⟨place.up, place.down.dropLast⟩

/-- The place of a name in a folder. -/
def Place.child (place : Place) (name : String) : Place := ⟨place.up, place.down ++ [name]⟩

/-- The most bytes of a name. -/
def nameLimit : Nat := 255

/-- The most bytes of a path. -/
def pathLimit : Nat := 4095

/-- The names on a path.  Slashes that follow each other count as one. -/
def names (path : String) : List String := (path.splitOn "/").filter (· ≠ "")

/-- The path can only be that of a folder. -/
def wantsFolder (path : String) : Bool := path.endsWith "/"

namespace Folder

/-- What stands at a place.  A folder is there also if something is in it. -/
def find? (f : Folder) (place : Place) : Option Entry :=
  if place.up = 0 then
    match f.entries.lookup place.down with
    | some entry => some entry
    | none =>
      if place.down = [] ∨ f.entries.any (place.down.isPrefixOf ·.1) then some .folder else none
  else if place.down = [] then some .folder else none

/-- Looks for what stands at a place, in a folder that is there. -/
def look (f : Folder) (place : Place) : Except FileError (Option Entry) :=
  if place.down.getLast?.any (nameLimit < ·.utf8ByteSize) then .error .nameTooLong
  else .ok (f.find? place)

/-- Puts an entry at a place.  What is outside the folder is not kept. -/
def put (f : Folder) (place : Place) (entry : Entry) : Folder :=
  if place.up = 0 then ⟨(place.down, entry) :: f.entries.filter (·.1 ≠ place.down)⟩ else f

/-- Goes from a folder to a name in it. -/
def step (f : Folder) (here : Place) (name : String) : Except FileError Place := do
  match ← f.look here with
  | none => throw .notFound
  | some (.file _) => throw .notFolder
  | some .folder =>
    return if name = "." then here else if name = ".." then here.parent else here.child name

/-- The place that a path leads to. -/
def locate (f : Folder) (path : String) : Except FileError Place :=
  if path.isEmpty then .error .notFound
  else if pathLimit < path.utf8ByteSize then .error .nameTooLong
  else (names path).foldlM f.step (if path.startsWith "/" then ⟨1, []⟩ else ⟨0, []⟩)

/-- The text of the file at a path. -/
def read (f : Folder) (path : String) : Except FileError String := do
  match ← f.look (← f.locate path) with
  | none => throw .notFound
  | some .folder => throw .isFolder
  | some (.file bytes) => if wantsFolder path then throw .notFolder else decodeText bytes

/-- The folder with a text in the file at a path. -/
def write (f : Folder) (path text : String) : Except FileError Folder := do
  let place ← f.locate path
  if wantsFolder path then throw .isFolder
  match ← f.look place with
  | some .folder => throw .isFolder
  | _ => return f.put place (.file text.toUTF8)

/-- A folder that is read and written. -/
def host : Host (StateM Folder) where
  read path := return (← get).read path
  write path text := do
    match (← get).write path text with
    | .ok f => set f; return .ok ()
    | .error e => return .error e

end Folder

end MiniC.Command
