import RegisterCompiler.CommandLine.Run

/-!
# The program

The command at work on the real files: it looks at the files that the command line mentions, does what the
command says, and writes and prints the outcome.
-/

namespace RegisterCompiler

open CommandLine

/-- The paths that a command line may make the command look at, with the directories on the way. -/
def mentionedPaths (o : Options) : List String :=
  let files := o.args ++ [o.target, o.llOut, o.asmOut]
  let made := o.args.flatMap fun file => [sibling file ".ll", sibling file ".asm"]
  let paths := (files ++ made).filter (· ≠ "")
  (paths ++ paths.map directory).eraseDups

/-- Adds what is found at a path to a tree of files. -/
def addFound (t : FileTree) (path : String) : IO FileTree := do
  let location := (pathPieces path).filter fun c => c ≠ "" ∧ c ≠ "."
  try
    let content ← IO.FS.readFile path
    pure { t with files := (location, content) :: t.files }
  catch
    | .inappropriateType .. => pure { t with directories := location :: t.directories }
    | _ => pure t

def command (args : List String) : IO UInt32 := do
  let paths := ((parse args).map mentionedPaths).getD []
  let before ← paths.foldlM addFound { files := [] }
  let (succeeded, after) := run .bare args before
  for (path, content) in after.files.changes before do
    IO.FS.createDirAll (directory path)
    IO.FS.writeFile path content
  IO.print after.out
  IO.eprint after.err
  pure (if succeeded then 0 else 1)

end RegisterCompiler

def main (args : List String) : IO UInt32 := RegisterCompiler.command args
