import Typewright.Text.Bytes

/-!
# Folders and paths

The files of a working folder as a value, and what a path means in it. A path is a row of names with slashes
between them; it starts in the working folder, or at the root if a slash comes first.

* `Device`: the files that are there without being in the folder.
* `Location`: what a path leads to; `Folder.find`.
* `Folder.contents?`: what is read at a path.
* `Writing`, `Folder.write`: what comes of writing a text to a path.
-/

namespace Typewright

/-- A file that stands for something else than stored bytes. -/
inductive Device where
  /-- Is empty, and takes everything. -/
  | null
  /-- Has no room for anything. -/
  | full
  | standardInput
  | standardOutput
  | standardError
  deriving DecidableEq, Repr

namespace Device

def all : List Device := [.null, .full, .standardInput, .standardOutput, .standardError]

def name : Device → Bytes
  | .null => Bytes.ascii "null"
  | .full => Bytes.ascii "full"
  | .standardInput => Bytes.ascii "stdin"
  | .standardOutput => Bytes.ascii "stdout"
  | .standardError => Bytes.ascii "stderr"

def ofName? (s : Bytes) : Option Device := all.find? fun d => d.name == s

end Device

/-- A folder on the way of a path. -/
inductive FolderPlace where
  | root
  | devices
  /-- A folder that holds the working folder. -/
  | above
  /-- The working folder, or the folder of these names in it. -/
  | within (names : List Bytes)
  deriving DecidableEq, Repr

/-- The folder that holds a folder; the root holds itself. -/
def FolderPlace.parent : FolderPlace → FolderPlace
  | .root | .devices => .root
  | .above => .above
  | .within [] => .above
  | .within (n :: ns) => .within (n :: ns).dropLast

/-- What a path leads to. -/
inductive Location where
  | folder (p : FolderPlace)
  | file (names : List Bytes)
  /-- There is no such file, but the folder for it. -/
  | vacant (names : List Bytes)
  | device (d : Device)
  /-- A place for a file outside the working folder. -/
  | outside
  /-- The path leads nowhere. -/
  | nowhere
  deriving DecidableEq, Repr

/-- The files of a working folder: their names from the folder on, and their contents. -/
structure Folder where
  files : List (List Bytes × Bytes)
  deriving DecidableEq, Repr

/-- What comes of writing a text to a file. -/
inductive Writing where
  /-- The file cannot be opened. -/
  | refused
  /-- The file is opened, which makes it empty, but only `kept` gets into it. What is still in a buffer when the program
  ends may fail to get there unnoticed. -/
  | failed (noticed : Bool) (kept : Bytes)
  | complete
  deriving DecidableEq, Repr

namespace Folder

def slash : UInt8 := Bytes.byte '/'

def maxName : Nat := 255

def maxPath : Nat := 4095

/-- A folder from paths and contents. -/
def ofFiles (files : List (Bytes × Bytes)) : Folder :=
  ⟨files.map fun (path, content) => (Bytes.split slash path, content)⟩

/-- What stands under a row of names in the folder. There are no empty folders. -/
def lookup (w : Folder) (names : List Bytes) : Location :=
  match w.files.lookup names with
  | some _ => .file names
  | none => if w.files.any fun f => names.isPrefixOf f.1 then .folder (.within names) else .vacant names

/-- What a name leads to from a folder. -/
def enter (w : Folder) (p : FolderPlace) (name : Bytes) : Location :=
  if name.isEmpty ∨ name = Bytes.ascii "." then .folder p
  else if name = Bytes.ascii ".." then .folder p.parent
  else if maxName < name.length then .nowhere
  else
    match p with
    | .root => if name = Bytes.ascii "dev" then .folder .devices else .nowhere
    | .devices => ((Device.ofName? name).map Location.device).getD .nowhere
    | .above => .outside
    | .within names => w.lookup (names ++ [name])

/-- What a row of names leads to from a folder: only a folder leads on. -/
def walk (w : Folder) (p : FolderPlace) : List Bytes → Location
  | [] => .folder p
  | name :: rest =>
    match w.enter p name with
    | .folder p => w.walk p rest
    | t => if rest.isEmpty then t else .nowhere

def find (w : Folder) (path : Bytes) : Location :=
  if path.isEmpty ∨ maxPath < path.length then .nowhere
  else w.walk (if path.head? = some slash then .root else .within []) (Bytes.split slash path)

/-- What is read at a path, if it can be opened, given what standard input holds. A folder opens and reads as empty. -/
def contents? (w : Folder) (stdin path : Bytes) : Option Bytes :=
  match w.find path with
  | .folder _ | .device .null => some []
  | .file names => w.files.lookup names
  | .device .standardInput => some stdin
  | _ => none

/-- What comes of writing a text to a path. A text of less than `buffered` bytes is written when the program ends. -/
def write (w : Folder) (buffered : Nat) (path text : Bytes) : Writing :=
  match w.find path with
  | .folder _ | .nowhere => .refused
  | .device .full => .failed (buffered ≤ text.length) []
  | _ => .complete

end Folder

end Typewright
