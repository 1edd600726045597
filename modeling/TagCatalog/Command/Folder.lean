import TagCatalog.Command.Run
import TagCatalog.Text.Blank

/-! A folder of files, as a command that runs in it sees it. A path leads through folders to a
file, or to a place where one can be made. -/

namespace TagCatalog

/-- Files by the names that lead to them; all that stands before a file's own name is a folder. -/
structure Folder where
  files : List (List String × ByteArray)

namespace Folder

def names (path : String) : List String :=
  (Text.pieces (· = '/') path.toList).map String.ofList

def ofFiles (files : List (String × ByteArray)) : Folder where
  files := files.map fun (path, bytes) => (names path, bytes)

/-- The folder and those above it; of what else is up there nothing is known. -/
def isAbove (place : List String) : Bool := place.all (· = "..")

def isFolder (f : Folder) (place : List String) : Bool :=
  isAbove place || f.files.any fun (names, _) => place.isPrefixOf names && place != names

def maxName : Nat := 255

def maxPath : Nat := 4095

def step? (f : Folder) (place : List String) (name : String) : Option (List String) :=
  if !f.isFolder place || maxName < name.utf8ByteSize then none
  else if name = "" || name = "." then some place
  else if name = ".." && !isAbove place then some place.dropLast
  else some (place ++ [name])

/-- Where a path leads; one that starts with `/` leads nowhere that is known. -/
def place? (f : Folder) (path : String) : Option (List String) :=
  if path.toList.head? = some '/' || maxPath < path.utf8ByteSize then none
  else (names path).foldlM f.step? []

def file? (f : Folder) (path : String) : Option ByteArray :=
  (f.place? path).bind fun place => f.files.lookup place

def accepts (f : Folder) (path : String) : Bool :=
  (f.place? path).any (!f.isFolder ·)

/-- Run a command in the folder. Without its snapshot there is no answer. -/
def run (f : Folder) (settingsFile : Option String) (i : Invocation) : Except Failure Outcome := do
  let o ← i.run { file? := f.file?, settingsFile }
  (o.told (o.snapshot.all fun (path, _) => f.accepts path)).map fun _ => o

end Folder

end TagCatalog
