/-!
# Files

Files by the parts of their paths below the working directory or below the root. A written path is
followed part by part, through directories that exist: those above the working directory, the root,
and those that hold a file. Two written paths can lead to one place.
-/

namespace DrakeSyntax

/-- Why a file cannot be read or written. -/
inductive FileError where
  | notFound
  | notText
  /-- A directory is where a file should be. -/
  | isDirectory
  /-- A file is where a directory should be. -/
  | notDirectory
  /-- The system gives another reason. -/
  | other (reason : String)
  deriving DecidableEq

/-- The wording of a file error. -/
def FileError.message : FileError → String
  | notFound => "No such file or directory (os error 2)"
  | notText => "stream did not contain valid UTF-8"
  | isDirectory => "Is a directory (os error 21)"
  | notDirectory => "Not a directory (os error 20)"
  | other reason => reason

/-- A path below the working directory, by its parts. A path from the root begins with an empty
part, and one from a directory above with two dots for each step up. -/
abbrev Path := List (List Char)

namespace Path

/-- Splits characters at slashes. -/
def split : List Char → List (List Char)
  | [] => [[]]
  | c :: cs =>
    match c, split cs with
    | '/', parts => [] :: parts
    | c, part :: parts => (c :: part) :: parts
    | c, [] => [[c]]

/-- Whether a part of a path leads to another directory or file. -/
def leads (part : List Char) : Bool := !part.isEmpty && part != ['.']

/-- The directory that a written path begins in, and its parts. -/
def beginning (path : String) : Path × List (List Char) :=
  match split path.toList with
  | [] :: rest@(_ :: _) => ([[]], rest)
  | parts => ([], parts)

/-- The parts of a written path that does not lead back. -/
def ofString (path : String) : Path := (beginning path).1 ++ (beginning path).2.filter leads

/-- The directory above. There is none above the root. -/
def parent (directory : Path) : Path :=
  match directory.getLast? with
  | none | some ['.', '.'] => directory ++ [['.', '.']]
  | some [] => directory
  | some _ => directory.dropLast

/-- Where a part of a path leads to from a directory. -/
def enter (directory : Path) (part : List Char) : Path :=
  if part = ['.', '.'] then directory.parent
  else if leads part then directory ++ [part]
  else directory

/-- Whether the path is that of the working directory, of one above it or of the root. -/
def isAbove (path : Path) : Bool := path.all fun part => part.isEmpty || part == ['.', '.']

end Path

/-- Files by their paths. -/
structure FileSet where
  files : List (Path × ByteArray)

namespace FileSet

/-- Whether a directory exists. -/
def hasDirectory (fs : FileSet) (directory : Path) : Bool :=
  directory.isAbove || fs.files.any fun f => directory.isPrefixOf f.1 && directory != f.1

/-- Whether a file exists. -/
def hasFile (fs : FileSet) (place : Path) : Bool := (fs.files.lookup place).isSome

/-- The place that parts of a path lead to. All of them but the last one lead to a directory. -/
def follow (fs : FileSet) : (place : Path) → List (List Char) → Except FileError Path
  | place, [] => return place
  | place, part :: parts =>
    if fs.hasDirectory place then fs.follow (place.enter part) parts
    else if fs.hasFile place then throw .notDirectory
    else throw .notFound

/-- The place that a written path leads to. -/
def locate (fs : FileSet) (path : String) : Except FileError Path :=
  if path.isEmpty then throw .notFound
  else fs.follow (Path.beginning path).1 (Path.beginning path).2

/-- The content of a file. -/
def content? (fs : FileSet) (path : String) : Option ByteArray := do
  fs.files.lookup (← (fs.locate path).toOption)

/-- Reads a file as text. -/
def read (fs : FileSet) (path : String) : Except FileError String := do
  let place ← fs.locate path
  if fs.hasDirectory place then throw .isDirectory
  else
    match fs.files.lookup place with
    | none => throw .notFound
    | some bytes =>
      match String.fromUTF8? bytes with
      | some text => return text
      | none => throw .notText

/-- Replaces or adds a file. -/
def put (fs : FileSet) (place : Path) (bytes : ByteArray) : FileSet :=
  ⟨(place, bytes) :: fs.files.filter (·.1 != place)⟩

/-- Writes a text to a file. -/
def write (fs : FileSet) (path text : String) : Except FileError FileSet := do
  let place ← fs.locate path
  if fs.hasDirectory place then throw .isDirectory
  else return fs.put place text.toUTF8

end FileSet

end DrakeSyntax
