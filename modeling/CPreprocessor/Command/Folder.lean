/-!
Paths, and the folders that they lead into.
-/

namespace CPreprocessor

/-! ## Paths

Paths, and what they lead to. Empty parts and `.` in a path name nothing, so `./a//b` is `a/b`.
-/

/-- What a path leads to. -/
inductive Target
  | directory
  | file (content : ByteArray)
  /-- a name in a directory that nothing has yet -/
  | free
  /-- nothing, and nothing can be written there -/
  | nowhere
  /-- the path cannot even be looked up -/
  | invalid
deriving Inhabited

/-- Whether a file can be written there. -/
def Target.isWritable : Target → Bool
  | file _ | free => true
  | directory | nowhere | invalid => false

namespace Path

/-- The parts of a path. -/
def parts (path : String) : List String := path.splitOn "/"

def isAbsolute (path : String) : Bool := path.toList.head? = some '/'

/-- Whether a part of a path names something. -/
def isNaming (part : String) : Bool := part ≠ "" && part ≠ "."

/-- A path without the parts that name nothing. -/
def normalise (path : String) : String :=
  let joined := "/".intercalate ((parts path).filter isNaming)
  if isAbsolute path then "/" ++ joined
  else if joined.isEmpty then "." else joined

/-- Whether a path can be looked up: it holds no NUL. -/
def isValid (path : String) : Bool := !path.toList.contains '\x00'

/-- The device that is always there, holds nothing and takes any text. -/
def nullDevice : String := "/dev/null"

end Path

/-! ## Folders

Folders: directories whose files are known, as the command finds and leaves them. A path is followed
part by part, and every part but the last must lead to a directory, so `a/..` leads nowhere unless
there is a directory `a`.
-/

/-- A directory: the files in it and below it, by their paths from it. A directory below it is there
as long as a file is. -/
structure Folder where
  files : List (String × ByteArray)

/-- Where a path leads in a folder. -/
inductive Spot
  | directory
  /-- the name of a file, or one that a file could be given -/
  | entry (name : String)
  | nowhere
  /-- a name in a directory above the folder -/
  | outside
deriving DecidableEq, Inhabited

namespace Folder

/-- How many bytes a part of a path may have. -/
def partLimit : Nat := 255

/-- How many bytes are too many for a path. -/
def pathLimit : Nat := 4096

/-- Whether parts are those of a directory. -/
def hasDirectory (f : Folder) (parts : List String) : Bool :=
  parts.isEmpty || f.files.any fun (name, _) =>
    parts.isPrefixOf (Path.parts name) && parts.length < (Path.parts name).length

/-- Where parts lead from a directory of which only those above it are known. -/
def followAbove (parts : List String) : Spot :=
  match parts.filter fun part => Path.isNaming part && part ≠ ".." with
  | [] => .directory
  | [_] => .outside
  | _ => .nowhere

/-- Follows the parts of a path from the directory with the parts `here`. -/
def follow (f : Folder) (here : List String) : List String → Spot
  | [] => .directory
  | part :: rest =>
    if !Path.isNaming part then f.follow here rest
    else if part = ".." then
      if here.isEmpty then followAbove rest else f.follow here.dropLast rest
    else if partLimit < part.utf8ByteSize then .nowhere
    else if f.hasDirectory (here ++ [part]) then f.follow (here ++ [part]) rest
    else if rest.isEmpty then .entry ("/".intercalate (here ++ [part]))
    else .nowhere

/-- Where a path leads. -/
def spot (f : Folder) (path : String) : Spot :=
  if path.isEmpty || pathLimit ≤ path.utf8ByteSize then .nowhere
  else if Path.isAbsolute path then followAbove (Path.parts path)
  else f.follow [] (Path.parts path)

/-- What a path leads to. No name outside of the folder is in use. -/
def look (f : Folder) (path : String) : Target :=
  if !Path.isValid path then .invalid
  else if Path.normalise path = Path.nullDevice then .file ByteArray.empty
  else
    match f.spot path with
    | .directory => .directory
    | .nowhere => .nowhere
    | .outside => .free
    | .entry name =>
      match f.files.lookup name with
      | some content => .file content
      | none => .free

/-- The folder after a text was written to a file. -/
def write (f : Folder) (path text : String) : Folder :=
  match f.spot path with
  | .entry name => ⟨(name, text.toUTF8) :: f.files.filter fun (other, _) => other ≠ name⟩
  | _ => f

end Folder

end CPreprocessor
