import RegisterCompiler.CommandLine.Clang
import RegisterCompiler.CommandLine.Files
import RegisterCompiler.CommandLine.Flags
import RegisterCompiler.Compilation
import RegisterCompiler.Llvm.Lowering
import RegisterCompiler.Machine.Run
import RegisterCompiler.Target.Document

/-!
# The command

What the command does: from a command line and the files that it finds to what it prints, the files that it
leaves, and whether it succeeds.

* `run` is the command.
-/

namespace RegisterCompiler.CommandLine

/-- What a command changes. -/
structure World where
  files : FileTree
  out : String := ""
  err : String := ""
  deriving DecidableEq, Repr, Inhabited

/-- A command at work, which may fail. What it printed and wrote before it fails stays. -/
abbrev Session := ExceptT Unit (StateM World)

namespace Session

def print (s : String) : Session Unit := modify fun w => { w with out := w.out ++ s }

def log (s : String) : Session Unit := modify fun w => { w with err := w.err ++ s }

/-- Prints a complaint and fails. -/
def fail {α : Type} (message : String) : Session α := do
  log ("llvm-to-shasm: " ++ message ++ "\n")
  throw ()

/-- Prints a complaint for each line of a message and fails. -/
def failLines {α : Type} (message : String) : Session α := do
  for line in message.splitOn "\n" do
    unless line = "" do log ("llvm-to-shasm: " ++ line ++ "\n")
  throw ()

/-- The result of an operation, whose failure is complained about. -/
def orFail {ε α : Type} (message : ε → String) : Except ε α → Session α
  | .ok a => pure a
  | .error e => fail (message e)

end Session

open Session

def usage : String :=
  "llvm-to-shasm lowers the integer subset of LLVM IR that clang emits\n" ++
  "for small C programs to assembly for the shasm register machine.\n" ++
  "C sources are first compiled to a sibling .ll file with clang.\n" ++
  "\n" ++
  "Usage:\n" ++
  "  llvm-to-shasm [file] [flags]\n" ++
  "\n" ++
  "Flags:\n" ++
  "  -o, --asm-out string     shasm output path (default: sibling .asm file)\n" ++
  "      --clang-bin string   clang executable (default: found on PATH)\n" ++
  "      --dalloc             Dump register allocation\n" ++
  "      --dasm               Dump assembly\n" ++
  "      --dframe             Dump frame layouts\n" ++
  "      --dir                Dump the IR after parsing\n" ++
  "      --emit-asm           Emit the shasm file (default true)\n" ++
  "      --emit-ll            Run clang to emit the LLVM IR file for C input (--no-emit-ll reuses an existing one) " ++
    "(default true)\n" ++
  "      --entry string       Function called by the _start stub (default: main when defined)\n" ++
  "  -h, --help               help for llvm-to-shasm\n" ++
  "  -j, --jobs int           Functions compiled in parallel (default: number of CPUs)\n" ++
  "      --ll-out string      LLVM output path for C input (default: sibling .ll file)\n" ++
  "  -O, --opt-level string   clang optimization level: O0 O1 O2 O3 Os Oz (default \"O0\")\n" ++
  "      --run                Run the program in the simulator and print r0\n" ++
  "      --target string      Target descriptor YAML (default: built-in shasm)\n" ++
  "  -v, --verbose            Print per-function progress\n" ++
  "      --version            version for llvm-to-shasm\n"

def compileC (tools : Toolbox) (o : Options) (source output : String) : Session Unit := do
  let level ← match optLevel? o.optLevel with
    | some level => pure level
    | none => fail (optLevelMessage o.optLevel)
  let clang ← if o.clang ≠ "" then pure o.clang else match tools.clang? with
    | some clang => pure clang
    | none => fail noClangMessage
  let files ← orFail FileFailure.message ((← get).files.makeDirectories (directory output))
  modify fun w => { w with files }
  orFail (fun (status, complaints) => "clang failed on " ++ source ++ ": " ++ status ++ "\n" ++ Text.trim complaints)
    (tools.run clang (clangArgs source output level []))
  print ("LLVM IR: " ++ output ++ "\n")

/-- The LLVM file of the file to compile: the file itself, or what clang makes of a C source. -/
def llvmFile (tools : Toolbox) (o : Options) (file : String) : Session String := do
  if isCSource file then
    let output := if o.llOut = "" then sibling file ".ll" else o.llOut
    if o.emitLl then compileC tools o file output
    pure output
  else pure file

def readModuleFile (file : String) : Session IR.Module := do
  let files := (← get).files
  if files.stat file matches .error .notFound then fail ("LLVM IR file not found: " ++ file)
  let content ← orFail (fun e => "error reading " ++ file ++ ": " ++ e.message) (files.read file)
  match Llvm.readModule file content with
  | .ok m => pure m
  | .error errors => failLines ("\n".intercalate (errors.map Llvm.SourceError.message))

def readTarget (path : String) : Session Descriptor := do
  let about (e : ConfigError) : String := path ++ ": " ++ e.message
  if path = "" then orFail ConfigError.message Descriptor.default
  else match (← get).files.read path with
    | .ok document => orFail about (Config.ofDocument document)
    | .error e =>
      if e.operation = "read" then fail (path ++ ": target: invalid descriptor: yaml: input error: " ++ e.message)
      else fail e.message

/-- Compiles the functions and prints the dumps that are asked for. -/
def compileModule (o : Options) (m : IR.Module) (d : Descriptor) : Session Asm.Program := do
  let entry := if o.entry = "" ∧ (m.function? "main").isSome then "main" else o.entry
  let complain {α : Type} (e : ModuleError) : Session α := failLines (e.message?.getD "")
  match m.compileFunctions d { entry } with
  | .error e => complain e
  | .ok functions =>
    if o.verbose then log (String.join (functions.map Compiled.report))
    match IR.Module.link entry functions with
    | .error e => complain e
    | .ok output =>
      for c in output.functions do
        if o.dumpAlloc then print c.allocation.listing
        if o.dumpFrame then print c.layout.listing
      pure output.program

def writeAsm (path : String) (text : String) : Session Unit := do
  let wrong (e : FileFailure) : String := "error writing " ++ path ++ ": " ++ e.message
  let files ← orFail wrong ((← get).files.makeDirectories (directory path))
  let files ← orFail wrong (files.write path text)
  modify fun w => { w with files }

def runProgram (p : Asm.Program) : Session Unit := do
  if p.entry = "" then fail "no entry function to run"
  let img ← orFail Machine.Image.repeatedLabelMessage (Machine.Image.load p.flatten)
  match (img.start 0 Asm.startLabel { memory := { size := Memory.defaultSize } }).1 with
  | .ok v => print ("r0 = " ++ Text.decimal v ++ "\n")
  | .error f => fail ("run: " ++ f.message?.getD "")

def compileFile (tools : Toolbox) (o : Options) (file : String) : Session Unit := do
  let source ← llvmFile tools o file
  if o.emitAsm then
    let m ← readModuleFile source
    if o.dumpIr then print m.listing
    let d ← readTarget o.target
    let program ← compileModule o m d
    let path := if o.asmOut = "" then sibling file ".asm" else o.asmOut
    writeAsm path program.text
    print (if o.dumpAsm then program.text else "shasm: " ++ path ++ "\n")
    if o.run then runProgram program

/-- What the command does with a command line. -/
def session (tools : Toolbox) (args : List String) : Session Unit :=
  match parse args with
  | none => throw ()
  | some o =>
    if o.help then print usage
    else if o.version then print "llvm-to-shasm version 0.1.0\n"
    else match o.args with
      | [] => print usage
      | [file] => compileFile tools o file
      | _ => throw ()

/-- The command: whether it succeeds, and what it leaves. -/
def run (tools : Toolbox) (args : List String) (files : FileTree) : Bool × World :=
  match (session tools args).run { files } with
  | (.ok (), w) => (true, w)
  | (.error (), w) => (false, w)

end RegisterCompiler.CommandLine
