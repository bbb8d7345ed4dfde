import RegisterCompiler.CommandLine.Path

/-!
# Files

The files that a run of the compiler finds and leaves: a tree of directories and files below the working
directory.
-/

namespace RegisterCompiler.CommandLine

/-- Why there is no access to a path. -/
inductive FileError where
  | notFound
  | notDirectory
  | isDirectory
  | alreadyExists
  deriving DecidableEq, Repr, Inhabited

def FileError.message : FileError → String
  | notFound => "no such file or directory"
  | notDirectory => "not a directory"
  | isDirectory => "is a directory"
  | alreadyExists => "file exists"

/-- A failed operation on a path. -/
structure FileFailure where
  operation : String
  path : String
  error : FileError
  deriving DecidableEq, Repr, Inhabited

def FileFailure.message (f : FileFailure) : String := f.operation ++ " " ++ f.path ++ ": " ++ f.error.message

/-- A place below the working directory, by the names on the way. -/
abbrev Location := List String

/-- A tree of files. -/
structure FileTree where
  files : List (Location × String)
  /-- Directories, besides those that hold a file. -/
  directories : List Location := []
  deriving DecidableEq, Repr, Inhabited

/-- What is found at a location. -/
inductive Entry where
  | file (content : String)
  | directory
  deriving DecidableEq, Repr, Inhabited

namespace FileTree

variable (t : FileTree)

def isDirectory (l : Location) : Bool :=
  l.isEmpty || t.directories.contains l || t.files.any fun (k, _) => l.length < k.length && k.take l.length == l

def entry? (l : Location) : Option Entry :=
  match t.files.lookup l with
  | some content => some (.file content)
  | none => if t.isDirectory l then some .directory else none

/-- Follows the components of a path from a location, which has to be a directory for each of them. -/
def walk : (l : Location) → List String → Except FileError Location
  | l, [] => .ok l
  | l, c :: rest =>
    match t.entry? l with
    | none => .error .notFound
    | some (.file _) => .error .notDirectory
    | some .directory => walk (if c = "." then l else if c = ".." then l.dropLast else l ++ [c]) rest

/-- The components of a path. A slash at the end asks for a directory. -/
def components (s : String) : List String :=
  (pathPieces s).filter (· ≠ "") ++ (if s.endsWith "/" then ["."] else [])

def stat (s : String) : Except FileError Entry := do
  if s = "" then throw .notFound
  match t.entry? (← t.walk [] (components s)) with
  | some e => pure e
  | none => throw .notFound

def read (s : String) : Except FileFailure String :=
  match t.stat s with
  | .error e => .error ⟨"open", s, e⟩
  | .ok .directory => .error ⟨"read", s, .isDirectory⟩
  | .ok (.file content) => .ok content

def write (s content : String) : Except FileFailure FileTree :=
  if s.endsWith "/" then .error ⟨"open", s, .isDirectory⟩
  else match t.walk [] (components s) with
    | .error e => .error ⟨"open", s, e⟩
    | .ok l =>
      match t.entry? l with
      | some .directory => .error ⟨"open", s, .isDirectory⟩
      | _ => .ok { t with files := (l, content) :: t.files.filter (·.1 ≠ l) }

/-- Makes the directory at a path, unless there is one. -/
def makeDirectory (s : String) : Except FileFailure FileTree :=
  match t.walk [] (components s) with
  | .error e => .error ⟨"mkdir", s, if e = .notDirectory then .alreadyExists else e⟩
  | .ok l =>
    match t.entry? l with
    | some .directory => .ok t
    | some (.file _) => .error ⟨"mkdir", s, .alreadyExists⟩
    | none => .ok { t with directories := l :: t.directories }

/-- Makes the directory at a path, with the directories on the way. -/
def makeDirectories (s : String) : Except FileFailure FileTree :=
  match t.stat s with
  | .ok .directory => .ok t
  | .ok (.file _) => .error ⟨"mkdir", s, .notDirectory⟩
  | .error _ => do
    let pieces := (pathPieces s).filter (· ≠ "")
    let onTheWay := (List.range (pieces.length - 1)).map fun n => "/".intercalate (pieces.take (n + 1)) ++ "/"
    let t ← onTheWay.foldlM (fun (t : FileTree) path =>
      match t.stat path with
      | .ok _ => pure t
      | .error .notFound => t.makeDirectory (String.ofList path.toList.dropLast)
      | .error _ => throw ⟨"mkdir", path, .alreadyExists⟩) t
    t.makeDirectory s

def changes (before : FileTree) : List (String × String) :=
  (t.files.filter fun (l, content) => before.files.lookup l ≠ some content).map fun (l, content) =>
    ("/".intercalate l, content)

def ofFiles (files : List (String × String)) : FileTree :=
  ⟨files.map fun (path, content) => ((pathPieces path).filter (· ≠ ""), content), []⟩

end FileTree

end RegisterCompiler.CommandLine
