/-! Reading files, from a directory that is held in memory. -/

namespace Demand.CommandLine

/-- Why a file cannot be read. -/
inductive ReadError where
  | notFound | notDirectory | isDirectory | notText
  | other (cause : String)
deriving DecidableEq, Repr

def ReadError.cause : ReadError → String
  | notFound => "No such file or directory (os error 2)"
  | notDirectory => "Not a directory (os error 20)"
  | isDirectory => "Is a directory (os error 21)"
  | notText => "stream did not contain valid UTF-8"
  | other cause => cause

/-- What is said about a file that cannot be read. -/
def ReadError.message (path : String) (e : ReadError) : String :=
  s!"couldn't read {path}: {e.cause}"

/-- The text in bytes. -/
def decodeText (bytes : ByteArray) : Except ReadError String :=
  match String.fromUTF8? bytes with
  | some s => .ok s
  | none => .error .notText

/-- The names on a path, without those that stay where they are. -/
def pathNames (path : String) : List String :=
  (path.splitOn "/").filter fun n => n != "" && n != "."

/-- Files by the names on the path that leads to them. -/
structure Directory where
  files : List (List String × ByteArray)

namespace Directory

/-- The files with these paths. Of two with one path the later counts. -/
def ofList (files : List (String × ByteArray)) : Directory :=
  ⟨files.reverse.map fun f => (pathNames f.1, f.2)⟩

def hasDirectory (d : Directory) (path : List String) : Bool :=
  path.isEmpty || d.files.any fun f => path.length < f.1.length && path.isPrefixOf f.1

/-- Where a path leads. -/
inductive Place where
  | file (bytes : ByteArray)
  | directory (path : List String)
  /-- Above the directory that is held. -/
  | outside

/-- Follows the names of a path from a place on. -/
def walk (d : Directory) : Place → List String → Except ReadError Place
  | place, [] => .ok place
  | .file _, _ :: _ => .error .notDirectory
  | .outside, name :: names =>
    if name = ".." then d.walk .outside names else .error .notFound
  | .directory path, name :: names =>
    if name = ".." then
      d.walk (if path.isEmpty then .outside else .directory path.dropLast) names
    else
      let path := path ++ [name]
      match d.files.lookup path with
      | some bytes => d.walk (.file bytes) names
      | none => if d.hasDirectory path then d.walk (.directory path) names else .error .notFound

/-- The text of the file at a path. A path that ends in a slash leads to a directory. -/
def read (d : Directory) (path : String) : Except ReadError String := do
  if path.isEmpty then throw .notFound
  let start := if path.toList.head? = some '/' then .outside else .directory []
  let last := (path.splitOn "/").getLast?.getD ""
  match ← d.walk start (pathNames path) with
  | .file bytes => if last = "" || last = "." then throw .notDirectory else decodeText bytes
  | _ => throw .isDirectory

end Directory

end Demand.CommandLine
