import RegisterCompiler.Asm.Validity
import RegisterCompiler.Emission.Function
import RegisterCompiler.IR.Validity

/-!
# Compilation

A module is compiled function by function: a function is verified, its variables get registers, its frame is
laid out, and its code is written for them. The functions of a module are independent tasks, which may run in
any order and at the same time; a task that finds the compilation cancelled does nothing.

* `IR.Function.compile` compiles a function.
* `IR.Module.collect` puts the outcomes of the tasks together: all functions are compiled, or nothing is.
* `IR.Module.compile` compiles a module.
-/

namespace RegisterCompiler

/-- A function with the results of all stages of its compilation. -/
structure Compiled where
  function : IR.Function
  allocation : Allocation
  layout : Layout
  code : Asm.Function
  deriving DecidableEq, Repr, Inhabited

/-- Why a function cannot be compiled. -/
inductive FunctionError where
  | verify (e : IR.VerifyError)
  | capacity (e : CapacityError)
  | frame (e : FrameOverflow)
  | emit (function : String) (e : EmitError)
  deriving DecidableEq, Repr, Inhabited

/-- A compiled module: the program, and its functions in the order of the module. -/
structure Output where
  program : Asm.Program
  functions : List Compiled
  deriving DecidableEq, Repr, Inhabited

/-- A name that a module does not use as it should. -/
inductive SymbolError where
  | repeated (function : String)
  | undefinedEntry (entry : String)
  | undefinedCallee (function block callee : String)
  deriving DecidableEq, Repr, Inhabited

def SymbolError.message : SymbolError → String
  | repeated function => function ++ ": duplicate function"
  | undefinedEntry entry => "entry " ++ entry ++ ": undefined function"
  | undefinedCallee function block callee =>
    function ++ ": block " ++ block ++ ": call to " ++ callee ++ ": undefined function"

/-- Why a module cannot be compiled. -/
inductive ModuleError where
  | symbols (errors : List SymbolError)
  | cancelled
  | functions (errors : List FunctionError)
  /-- The program that was made is not valid. -/
  | invalid (e : Asm.ValidationError)
  deriving DecidableEq, Repr, Inhabited

def FunctionError.message? : FunctionError → Option String
  | verify e => some e.message
  | capacity e => some e.message
  | frame e => some e.message
  | emit function e =>
    match e with
    | .unsupported .. => e.message?
    | e => e.message?.map fun m => function ++ ": internal error: " ++ m

/-- Messages, one in a line; there is none if one of them is missing. -/
def joinedMessages (messages : List (Option String)) : Option String :=
  (messages.mapM id).map fun ms => "\n".intercalate ms

def ModuleError.message? : ModuleError → Option String
  | symbols errors => joinedMessages (errors.map (some ·.message))
  | cancelled => some "context canceled"
  | functions errors => joinedMessages (errors.map FunctionError.message?)
  | invalid e => some ("internal error: " ++ e.message)

/-- How a module is to be compiled. -/
structure CompileOptions where
  /-- The function with which the program starts, if the name is not empty. -/
  entry : String := ""
  /-- Whether the compilation is cancelled before it begins. -/
  cancelled : Bool := false
  deriving DecidableEq, Repr, Inhabited

namespace IR

def Function.compile (d : Descriptor) (f : Function) : Except FunctionError Compiled := do
  f.verify.mapError .verify
  let a ← (Allocation.ofFunction d f).mapError .capacity
  let l ← (Layout.ofFunction d f a.spilled a.saved).mapError .frame
  let code ← (Emission.code ⟨f, a, l, d⟩).mapError (.emit f.name)
  pure ⟨f, a, l, code⟩

namespace Module

/-- The names that stand in the list once more than before. -/
def repeatedNames : (seen names : List String) → List String
  | _, [] => []
  | seen, n :: rest => (if seen.contains n then [n] else []) ++ repeatedNames (n :: seen) rest

/-- The calls of a function to names that `m` does not define. -/
def undefinedCallees (m : Module) (f : Function) : List SymbolError :=
  f.blocks.flatMap fun b => b.code.filterMap fun
    | .call _ callee _ =>
      if (m.function? callee).isNone then some (.undefinedCallee f.name b.label callee) else none
    | _ => none

/-- The names that a module does not use as it should: functions defined twice, an entry that is not defined,
    and calls of functions that are not defined. -/
def symbolErrors (m : Module) (entry : String) : List SymbolError :=
  (repeatedNames [] (m.functions.map Function.name)).map .repeated ++
    (if entry ≠ "" ∧ (m.function? entry).isNone then [.undefinedEntry entry] else []) ++
    m.functions.flatMap m.undefinedCallees

/-- The outcomes of the tasks, put together in the order of the functions. A task that found the compilation
    cancelled has no outcome, and then there is none for the module. -/
def collect (tasks : List (Option (Except FunctionError Compiled))) : Except ModuleError (List Compiled) :=
  match tasks.mapM id with
  | none => .error .cancelled
  | some results =>
    let errors := results.filterMap fun
      | .error e => some e
      | .ok _ => none
    if errors.isEmpty then .ok (results.filterMap Except.toOption) else .error (.functions errors)

/-- The program of compiled functions, which is checked. -/
def link (entry : String) (functions : List Compiled) : Except ModuleError Output :=
  let program : Asm.Program := ⟨entry, functions.map Compiled.code⟩
  match program.validate with
  | .ok () => .ok ⟨program, functions⟩
  | .error e => .error (.invalid e)

/-- Compiles the functions of a module, whose names must be in order. -/
def compileFunctions (d : Descriptor) (options : CompileOptions) (m : Module) : Except ModuleError (List Compiled) := do
  let errors := m.symbolErrors options.entry
  unless errors.isEmpty do throw (.symbols errors)
  let task (f : Function) := if options.cancelled then none else some (f.compile d)
  collect (m.functions.map task)

def compile (d : Descriptor) (options : CompileOptions) (m : Module) : Except ModuleError Output := do
  let functions ← m.compileFunctions d options
  link options.entry functions

end Module

end IR

def Compiled.report (c : Compiled) : String :=
  c.function.name ++ ": " ++ toString c.function.blocks.length ++ " blocks, " ++
    toString c.allocation.intervals.length ++ " values, " ++ toString c.allocation.spilled.length ++
    " spilled, frame " ++ Text.decimal c.layout.size ++ " bytes\n"

end RegisterCompiler
