/-!
# Paths

Paths of files as texts, with a slash between their components.
-/

namespace RegisterCompiler.CommandLine

/-- The pieces of a path between slashes. -/
def pathPieces (s : String) : List String := s.splitOn "/"

/-- The last dot in the last component of a path and all that follows it; empty if there is no dot. -/
def extension (s : String) : String :=
  let last := s.toList.reverse.takeWhile (· ≠ '/')
  let tail := last.takeWhile (· ≠ '.')
  if tail.length < last.length then String.ofList ('.' :: tail.reverse) else ""

/-- The path of a file beside another one: the extension is replaced. -/
def sibling (s ext : String) : String :=
  String.ofList (s.toList.take (s.length - (extension s).length)) ++ ext

/-- One more component of a path in its shortest form, the last component first. -/
def addComponent (rooted : Bool) (done : List String) (c : String) : List String :=
  if c = "" ∨ c = "." then done
  else if c = ".." then
    match done with
    | [] => if rooted then [] else [c]
    | d :: rest => if d = ".." then c :: done else rest
  else c :: done

/-- A path in its shortest form: no empty component, no dot, and no way up after a way down. -/
def clean (s : String) : String :=
  let rooted := s.startsWith "/"
  let body := "/".intercalate ((pathPieces s).foldl (addComponent rooted) []).reverse
  if rooted then "/" ++ body else if body = "" then "." else body

/-- The directory that a path leads to a file of. -/
def directory (s : String) : String :=
  clean (String.ofList (s.toList.reverse.dropWhile (· ≠ '/')).reverse)

end RegisterCompiler.CommandLine
