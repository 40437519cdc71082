import Lox.Text.Bytes

/-!
# A directory of files

Files are found by paths, whose parts are separated by slashes and looked up from a current
directory. A path can lead to a file, to a directory, or nowhere.
-/

namespace Lox

/-- Files by their paths from the current directory, each given by its parts. -/
abbrev Files := List (List Bytes × Bytes)

/-- Why a file cannot be read or made. -/
inductive FileError where
  | notFound
  | notDirectory
  | isDirectory
  | nameTooLong
  | invalidName
  deriving DecidableEq, Repr

/-- The words for an error with files. -/
def FileError.message : FileError → String
  | .notFound => "no such file or directory"
  | .notDirectory => "not a directory"
  | .isDirectory => "is a directory"
  | .nameTooLong => "file name too long"
  | .invalidName => "invalid argument"

/-- An error with a file, with what was attempted and the path. -/
structure FileFailure where
  operation : String
  path : Bytes
  error : FileError
  deriving DecidableEq, Repr

/-- The message of an error with a file. -/
def FileFailure.message (f : FileFailure) : Bytes :=
  Bytes.ofString (f.operation ++ " ") ++ f.path ++ Bytes.ofString (": " ++ f.error.message)

namespace Files

/-- The parts of a path. -/
def parts (path : Bytes) : List Bytes := path.split (Bytes.ascii '/')

/-- Whether there is a directory at these parts of a path: the current one, or one with files in
it. -/
def isDirectory (files : Files) (at_ : List Bytes) : Bool :=
  at_.isEmpty || files.any fun f ↦ at_.isPrefixOf f.1 && at_.length < f.1.length

/-- What a path leads to. -/
inductive Place where
  /-- A file, or what could be one, of a directory there is. -/
  | entry (at_ : List Bytes)
  | directory
  deriving DecidableEq, Repr

/-- Follows the parts of a path from a directory. An empty part and a dot stay where they are. Two
dots lead to the directory above; above the current one nothing else is known. -/
def follow (files : Files) : List Bytes → List Bytes → Except FileError Place
  | _, [] => .ok .directory
  | here, part :: rest =>
    if part.isEmpty || part == [Bytes.ascii '.'] then follow files here rest
    else if part == Bytes.ofString ".." then
      if here.isEmpty then
        if rest.all (fun p ↦ p.isEmpty || p == [Bytes.ascii '.'] || p == Bytes.ofString "..") then
          .ok .directory
        else .error .notFound
      else follow files here.dropLast rest
    else if 255 < part.length then .error .nameTooLong
    else
      let there := here ++ [part]
      if files.isDirectory there then follow files there rest
      else if rest.isEmpty then .ok (.entry there)
      else if (files.lookup there).isSome then .error .notDirectory
      else .error .notFound

/-- What a path leads to from the current directory. A path that begins with a slash begins above
it. -/
def locate (files : Files) (path : Bytes) : Except FileError Place :=
  if path.isEmpty then .error .notFound
  else if path.contains 0 then .error .invalidName
  else if 4096 ≤ path.length then .error .nameTooLong
  else if path.head? = some (Bytes.ascii '/') then
    if (parts path).all fun p ↦ p.isEmpty || p == [Bytes.ascii '.'] || p == Bytes.ofString ".." then
      .ok .directory
    else .error .notFound
  else follow files [] (parts path)

/-- The content of a file. -/
def read (files : Files) (path : Bytes) : Except FileFailure Bytes :=
  match files.locate path with
  | .error e => .error ⟨"open", path, e⟩
  | .ok .directory => .error ⟨"read", path, .isDirectory⟩
  | .ok (.entry there) =>
    match files.lookup there with
    | some data => .ok data
    | none => .error ⟨"open", path, .notFound⟩

/-- The files after one was made empty, or emptied. -/
def create (files : Files) (path : Bytes) : Except FileFailure Files :=
  match files.locate path with
  | .error e => .error ⟨"open", path, e⟩
  | .ok .directory => .error ⟨"open", path, .isDirectory⟩
  | .ok (.entry there) => .ok ((there, []) :: files.filter (·.1 ≠ there))

end Files
end Lox
