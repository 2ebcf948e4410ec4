import LoxLex.Text.Utf8

/-! # Files

The files that scripts are read from, in a working directory with directories below it, and what can
be wrong with a path. A path is followed name by name: the first name that cannot be followed
decides what is wrong. -/

namespace LoxLex

/-! ### What can be wrong -/

/-- Why a source could not be read. -/
inductive SourceError where
  /-- Nothing is at the path. -/
  | missing (path : Text)
  /-- A directory is at the path. -/
  | isDirectory
  /-- The path goes on behind a file. -/
  | notDirectory
  /-- A name of the path, or the path, is too long. -/
  | nameTooLong
  /-- The path holds the null character. -/
  | nullInName
  deriving DecidableEq, Repr

/-- What a source error says. -/
def SourceError.message : SourceError → Text
  | missing path => "file does not seem to exist ".toList ++ path
  | isDirectory => "Is a directory (os error 21)".toList
  | notDirectory => "Not a directory (os error 20)".toList
  | nameTooLong => "File name too long (os error 36)".toList
  | nullInName => "file name contained an unexpected NUL byte".toList

/-! ### Places -/

/-- A name within a path. -/
abbrev FileName := Text

/-- The names that a path consists of: what stands between its slashes. -/
def names (path : Text) : List FileName := path.splitOn '/'

/-- A place in the tree of directories: so many directories up from the working directory, and from
there down by names. -/
structure Place where
  above : Nat := 0
  way : List FileName := []
  deriving DecidableEq, Repr

namespace Place

/-- The directory that a place is in. -/
def parent (p : Place) : Place :=
  if p.way = [] then ⟨p.above + 1, []⟩ else ⟨p.above, p.way.dropLast⟩

/-- The place that a name leads to: an empty name and one dot stay, two dots go up. -/
def enter (p : Place) (name : FileName) : Place :=
  if name = [] ∨ name = ['.'] then p
  else if name = ['.', '.'] then p.parent
  else ⟨p.above, p.way ++ [name]⟩

/-- The places that names lead to, one after the other. -/
def along (p : Place) : List FileName → List Place
  | [] => []
  | name :: more => p.enter name :: (p.enter name).along more

end Place

/-! ### Files -/

/-- The directories and files around a working directory. -/
structure Files where
  directories : List Place := []
  contents : List (Place × Bytes) := []

namespace Files

/-- Makes a directory, with all that its path leads through. -/
def addDirectory (fs : Files) (path : Text) : Files :=
  { fs with directories := fs.directories ++ Place.along {} (names path) }

/-- Writes a file, in place of one that was there. All that its path leads through is a
directory. -/
def addFile (fs : Files) (path : Text) (content : Bytes) : Files where
  directories := fs.directories ++ Place.along {} (names path).dropLast
  contents := ((names path).foldl Place.enter {}, content) :: fs.contents

/-- Whether a directory is at a place. The working directory and those above it always are. -/
def isDirectory (fs : Files) (p : Place) : Bool := p.way.isEmpty || fs.directories.contains p

/-- The content of the file at a place, if there is one. -/
def content? (fs : Files) (p : Place) : Option Bytes := fs.contents.lookup p

/-- Follows the names of `path` from a directory to the content of a file. -/
def follow (fs : Files) (path : Text) (p : Place) : List FileName → Except SourceError Bytes
  | [] => .error .isDirectory
  | name :: more =>
    if 255 < utf8Length name then .error .nameTooLong
    else if fs.isDirectory (p.enter name) then fs.follow path (p.enter name) more
    else
      match fs.content? (p.enter name) with
      | none => .error (.missing path)
      | some content => if more = [] then .ok content else .error .notDirectory

/-- The content of the file at a path. -/
def read (fs : Files) (path : Text) : Except SourceError Bytes :=
  if '\x00' ∈ path then .error .nullInName
  else if path = [] then .error (.missing path)
  else if 4096 ≤ utf8Length path then .error .nameTooLong
  else fs.follow path {} (names path)

/-- The source at a path; damaged UTF-8 does not keep it from being read. -/
def source (fs : Files) (path : Text) : Except SourceError Text :=
  (fs.read path).map Utf8.decodeReplacing

end Files

end LoxLex
