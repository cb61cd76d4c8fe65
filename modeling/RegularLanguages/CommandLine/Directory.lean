/-!
# Directories

Files in a directory and what stands at a path. A path is followed name by name: an empty name and
`.` stay where they are, `..` goes back, any other name has to be found. A file has nothing below
it, not even at the empty name behind a slash at the end. Nothing is known outside of the
directory.
-/

namespace RegularLanguages.CommandLine

/-- Why a file cannot be read. -/
inductive ReadingError
  | missing
  | forbidden
  | notDirectory
  | isDirectory
  | nameTooLong
  | notText
  | other (reason : String)

/-- The wording of a reading error, with the number of the system's errors. -/
def ReadingError.message : ReadingError → String
  | missing => "No such file or directory (os error 2)"
  | forbidden => "Permission denied (os error 13)"
  | notDirectory => "Not a directory (os error 20)"
  | isDirectory => "Is a directory (os error 21)"
  | nameTooLong => "File name too long (os error 36)"
  | notText => "stream did not contain valid UTF-8"
  | other reason => reason

/-- A directory: the text of every file in it and below it, by the names on the way to it. -/
structure Directory where
  files : List (List String × String)

namespace Directory

/-- Where a path leads to. -/
inductive Place
  | directory (names : List String)
  | file (text : String)
  | outside

/-- The greatest number of bytes in a name. -/
def maxNameSize : Nat := 255

/-- The least number of bytes that is too much for a path. -/
def pathLimit : Nat := 4096

/-- The names of a path, between its slashes. -/
def names (path : String) : List String := path.splitOn "/"

/-- The directory with the given files, each under its path. -/
def ofFiles (files : List (String × String)) : Directory :=
  ⟨files.map fun (path, text) => ((names path).filter fun name => name ≠ "" ∧ name ≠ ".", text)⟩

/-- What stands under a name that has to be found in a directory. -/
def find (D : Directory) (path : List String) (name : String) : Except ReadingError Place :=
  if maxNameSize < name.utf8ByteSize then .error .nameTooLong
  else
    match D.files.lookup (path ++ [name]) with
    | some text => .ok (.file text)
    | none =>
      if D.files.any fun (names, _) => (path ++ [name]).isPrefixOf names then
        .ok (.directory (path ++ [name]))
      else .error .missing

/-- Follows one name of a path. -/
def follow (D : Directory) (place : Place) (name : String) : Except ReadingError Place :=
  match place with
  | .file _ => .error .notDirectory
  | .directory names =>
    if name = "" ∨ name = "." then .ok place
    else if name = ".." then .ok (if names = [] then .outside else .directory names.dropLast)
    else D.find names name
  | .outside =>
    if name = "" ∨ name = "." ∨ name = ".." then .ok place
    else if maxNameSize < name.utf8ByteSize then .error .nameTooLong
    else .error .missing

/-- The text of the file at a path. -/
def read (D : Directory) (path : String) : Except ReadingError String := do
  if path = "" then
    throw .missing
  if pathLimit ≤ path.utf8ByteSize then
    throw .nameTooLong
  let start := if path.startsWith "/" then .outside else .directory []
  match ← (names path).foldlM D.follow start with
  | .file text => return text
  | _ => throw .isDirectory

end Directory

end RegularLanguages.CommandLine
