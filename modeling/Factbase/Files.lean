import Factbase.Text.Cut
import Std.Data.HashMap

/-!
# Files

The files that the library can reach. It works in a scratch folder, which lies among the folders
that every system has; no operation creates a folder. A path is followed part by part, from the
scratch folder or from the root: a part of a path leads from a folder to an entry of it, and
only a folder can be followed further.

* `Path.join` goes on from a path by a name, which may be a path of its own;
* `Files.walk` follows the parts of a path, `Files.locate` the path to the address of a file, or
  they fail with an `AccessError`;
* `Files.read?`, `Files.write?` use the file that a path leads to.
-/

namespace Factbase

/-- Why a file cannot be used. -/
inductive AccessError where
  | notFound
  /-- The bytes are not UTF-8. -/
  | invalidData
  /-- The path leads to a folder. -/
  | isFolder
  /-- The path goes on behind a file. -/
  | notFolder
  /-- The path has a NUL. -/
  | malformedPath
  /-- The path, or a name on it, is too long. -/
  | longName
deriving DecidableEq, Repr, Inhabited

/-- The word for an access error. -/
def AccessError.word : AccessError → String
  | .notFound => "NotFound"
  | .invalidData => "InvalidData"
  | .isFolder => "IsADirectory"
  | .notFolder => "NotADirectory"
  | .malformedPath => "InvalidInput"
  | .longName => "InvalidFilename"

/-! ## 1. Paths -/

/-- A path as it is written. -/
inductive Path where
  /-- What stands behind the name of the scratch folder. -/
  | scratch (rest : String)
  /-- A path from the root on. -/
  | absolute (text : String)
deriving DecidableEq, Repr, Inhabited

namespace Path

/-- The text of a path. -/
def text : Path → String
  | .scratch rest => "$DIR" ++ rest
  | .absolute text => text

/-- Write more behind a path. -/
def append : Path → String → Path
  | .scratch rest, more => .scratch (rest ++ more)
  | .absolute text, more => .absolute (text ++ more)

/-- Go on from a path by a name. A name that starts at the root forgets the path. -/
def join (p : Path) (name : String) : Path :=
  if name.toList.head? = some '/' then .absolute name
  else if p.text.toList.getLast? = some '/' then p.append name
  else p.append ("/" ++ name)

/-- The parts of a path behind its start. -/
def parts : Path → List (List Char)
  | .scratch rest => Text.pieces '/' rest.toList
  | .absolute text => Text.pieces '/' text.toList

end Path

/-! ## 2. Folders -/

/-- A folder that exists. -/
inductive Folder where
  | scratch
  /-- A folder of the system, by the names on the way to it from the root. -/
  | system (names : List String)
deriving DecidableEq, Hashable, Repr, Inhabited

namespace Folder

/-- The root. -/
def root : Folder := .system []

/-- The folder for things that do not last, where the scratch folder lies. -/
def temporary : Folder := .system ["tmp"]

/-- The folder above; the root is above itself. -/
def parent : Folder → Folder
  | .scratch => temporary
  | .system names => .system names.dropLast

/-- The folders of the root. -/
def rootFolders : List String :=
  ["bin", "boot", "dev", "etc", "home", "lib", "lib64", "media", "mnt", "opt", "proc", "root",
    "run", "sbin", "srv", "sys", "tmp", "usr", "var"]

/-- The folders that every system has, the root apart. -/
def systemFolders : List (List String) :=
  rootFolders.map (fun name => [name])
    ++ ["bin", "include", "lib", "local", "sbin", "share", "src"].map (fun name => ["usr", name])
    ++ ["cache", "lib", "log", "spool", "tmp"].map (fun name => ["var", name])

/-- The folder of a name inside a folder, if there is one. -/
def child? : Folder → String → Option Folder
  | .scratch, _ => none
  | .system names, name =>
    let names := names ++ [name]
    if systemFolders.contains names then some (.system names) else none

end Folder

/-- The folder that a path starts from. -/
def Path.start : Path → Folder
  | .scratch _ => .scratch
  | .absolute _ => .root

/-! ## 3. Files -/

/-- The folder of a file and its name there. -/
structure Address where
  folder : Folder
  name : String
deriving DecidableEq, Hashable, Repr, Inhabited

/-- The file that is always empty. -/
def Address.null : Address := ⟨.system ["dev"], "null"⟩

/-- The contents of all files. -/
structure Files where
  entries : Std.HashMap Address ByteArray := .ofList [(.null, .empty)]

namespace Files

instance : Inhabited Files := ⟨{}⟩

/-- The longest name of a file in bytes. -/
def longestName : Nat := 255

/-- The longest path in bytes. -/
def longestPath : Nat := 4095

/-- Where the parts of a path lead. -/
inductive Goal where
  | folder (folder : Folder)
  /-- A file, which need not exist. -/
  | file (address : Address)
deriving DecidableEq, Repr, Inhabited

/-- Follow parts of a path from a folder. Empty parts and single dots stay in the folder, double
dots go up. -/
def walk (files : Files) : Folder → List (List Char) → Except AccessError Goal
  | folder, [] => .ok (.folder folder)
  | folder, part :: rest =>
    if part = [] ∨ part = ['.'] then
      files.walk folder rest
    else if part = ['.', '.'] then
      files.walk folder.parent rest
    else
      let name := String.ofList part
      if longestName < name.utf8ByteSize then
        .error .longName
      else
        match folder.child? name with
        | some folder => files.walk folder rest
        | none =>
          if rest.isEmpty then .ok (.file ⟨folder, name⟩)
          else if files.entries.contains ⟨folder, name⟩ then .error .notFolder
          else .error .notFound

/-- The address of the file that a path leads to, which need not exist. -/
def locate (files : Files) (path : Path) : Except AccessError Address :=
  if path.text.contains '\x00' then
    .error .malformedPath
  else if longestPath < path.text.utf8ByteSize then
    .error .longName
  else
    match files.walk path.start path.parts with
    | .ok (.file address) => .ok address
    | .ok (.folder _) => .error .isFolder
    | .error error => .error error

/-- The contents of a file. -/
def read? (files : Files) (path : Path) : Except AccessError ByteArray := do
  match files.entries[← files.locate path]? with
  | some data => return data
  | none => throw .notFound

/-- The contents of a file as text. -/
def readText? (files : Files) (path : Path) : Except AccessError String := do
  match String.fromUTF8? (← files.read? path) with
  | some text => return text
  | none => throw .invalidData

/-- Create a file or replace its contents. -/
def write? (files : Files) (path : Path) (data : ByteArray) : Except AccessError Files := do
  let address ← files.locate path
  return ⟨files.entries.insert address data⟩

/-- The same for text. -/
def writeText? (files : Files) (path : Path) (text : String) : Except AccessError Files :=
  files.write? path text.toUTF8

/-- The names of all files of the scratch folder in order. -/
def names (files : Files) : List String :=
  let inScratch := files.entries.keys.filter fun address => address.folder = .scratch
  (inScratch.map Address.name).mergeSort fun a b => decide (a ≤ b)

end Files

end Factbase
