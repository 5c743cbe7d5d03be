import StackCalculator.Sink

/-!
Files and directories, and the reading of a file by its path. The command is run with any contents
of files; those of a tree of files are contents that can be written down and tried out without a
disk.
-/

namespace StackCalculator.CommandLine

/-- A file with its bytes, or a directory with its entries by name. -/
inductive FileTree where
  | file (bytes : List UInt8)
  | directory (entries : List (String × FileTree))

namespace FileTree

/-- A directory that is known to exist, but not by its entries. Nothing is found in it. -/
def outside : FileTree :=
  .directory []

/-- Goes along the parts of a path, from a place with the directories above it, the nearest
first. Only a directory can be gone on from, even to itself. -/
def walk (place : FileTree) (above : List FileTree) : List String → Except IoError FileTree
  | [] => .ok place
  | part :: rest =>
      match place with
      | .file _ => .error .notADirectory
      | .directory entries =>
          if part = "" || part = "." then
            walk place above rest
          else if part = ".." then
            walk (above.headD outside) above.tail rest
          else
            match entries.lookup part with
            | none => .error .notFound
            | some entry => walk entry (place :: above) rest

/-- What stands at a path. A path that does not start with a slash starts in the working
directory. -/
def find (workingDirectory : FileTree) (path : String) : Except IoError FileTree :=
  match path.splitOn "/" with
  | "" :: parts => walk outside [] parts
  | parts => walk workingDirectory [] parts

/-- The bytes of the file at a path. -/
def read (workingDirectory : FileTree) (path : String) : Except IoError (List UInt8) :=
  match workingDirectory.find path with
  | .error e => .error e
  | .ok (.file bytes) => .ok bytes
  | .ok (.directory _) => .error .isADirectory

end FileTree

end StackCalculator.CommandLine
