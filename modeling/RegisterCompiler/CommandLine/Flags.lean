import RegisterCompiler.Text.Numeral

/-!
# Flags

The command line: flags with a long name after two dashes, some of them also with a letter after one dash, and
the file to compile. A flag and its value may be joined by an equals sign; letters may be joined to each other
and to a value. Two dashes alone end the flags.

* `normalize` brings a few spellings that are not of this form into it.
* `parse` reads a command line.
-/

namespace RegisterCompiler.CommandLine

/-- What a command line asks for. -/
structure Options where
  dumpIr : Bool := false
  dumpAlloc : Bool := false
  dumpFrame : Bool := false
  dumpAsm : Bool := false
  asmOut : String := ""
  llOut : String := ""
  target : String := ""
  entry : String := ""
  clang : String := ""
  optLevel : String := "O0"
  emitLl : Bool := true
  emitAsm : Bool := true
  run : Bool := false
  verbose : Bool := false
  help : Bool := false
  version : Bool := false
  /-- The arguments that are no flags. -/
  args : List String := []
  deriving DecidableEq, Repr, Inhabited

/-- The flags that also take a single dash. -/
def dumpFlags : List String := ["dir", "dalloc", "dframe", "dasm"]

/-- The flags that say what not to do, and what is meant by them. -/
def negatedFlags : List (String × String) :=
  [("--no-emit-ll", "--emit-ll=false"), ("--no-emit-asm", "--emit-asm=false")]

/-- An argument in the form that `parse` reads. -/
def normalize (arg : String) : String :=
  match negatedFlags.lookup arg with
  | some meant => meant
  | none => if dumpFlags.any (arg = "-" ++ ·) then "-" ++ arg else arg

/-! ## Values -/

def readBool (s : String) : Option Bool :=
  if ["1", "t", "T", "TRUE", "true", "True"].contains s then some true
  else if ["0", "f", "F", "FALSE", "false", "False"].contains s then some false
  else none

/-- Whether a text is a whole number that fits a word. It may have a sign, a base, and underscores between its
    digits. -/
def isInteger (s : String) : Bool :=
  let (negative, digits) := Text.splitSign s.toList
  match Text.magnitude? (digits.filter (· ≠ '_')) with
  | none => false
  | some n => Text.wellSeparated digits && decide (n < Text.signedLimit + if negative then 1 else 0)

/-! ## Flags -/

/-- A flag: its name, its letter, and whether it takes a value in any case. -/
structure Flag where
  name : String
  letter : Option Char := none
  takesValue : Bool := false
  deriving DecidableEq, Repr, Inhabited

def flags : List Flag :=
  [{ name := "dir" }, { name := "dalloc" }, { name := "dframe" }, { name := "dasm" },
    { name := "asm-out", letter := some 'o', takesValue := true }, { name := "ll-out", takesValue := true },
    { name := "target", takesValue := true }, { name := "entry", takesValue := true },
    { name := "clang-bin", takesValue := true }, { name := "opt-level", letter := some 'O', takesValue := true },
    { name := "emit-ll" }, { name := "emit-asm" }, { name := "jobs", letter := some 'j', takesValue := true },
    { name := "run" }, { name := "verbose", letter := some 'v' }, { name := "help", letter := some 'h' },
    { name := "version" }]

/-- Sets a flag; there is no result if its value is not one that the flag takes. How many functions are compiled
    at the same time is not seen in the outcome. -/
def Options.set (o : Options) (f : Flag) (value : String) : Option Options :=
  match f.name with
  | "asm-out" => some { o with asmOut := value }
  | "ll-out" => some { o with llOut := value }
  | "target" => some { o with target := value }
  | "entry" => some { o with entry := value }
  | "clang-bin" => some { o with clang := value }
  | "opt-level" => some { o with optLevel := value }
  | "jobs" => if isInteger value then some o else none
  | name => do
    let b ← readBool value
    match name with
    | "dir" => some { o with dumpIr := b }
    | "dalloc" => some { o with dumpAlloc := b }
    | "dframe" => some { o with dumpFrame := b }
    | "dasm" => some { o with dumpAsm := b }
    | "emit-ll" => some { o with emitLl := b }
    | "emit-asm" => some { o with emitAsm := b }
    | "run" => some { o with run := b }
    | "verbose" => some { o with verbose := b }
    | "help" => some { o with help := b }
    | "version" => some { o with version := b }
    | _ => none

/-- A command line that has been read in part. -/
structure Parsing where
  options : Options := {}
  /-- A flag that waits for its value. -/
  pending : Option Flag := none
  /-- Whether the flags have ended. -/
  ended : Bool := false
  deriving DecidableEq, Repr, Inhabited

namespace Parsing

def set (p : Parsing) (f : Flag) (value : String) : Option Parsing :=
  (p.options.set f value).map fun options => { p with options, pending := none }

def argument (p : Parsing) (arg : String) : Parsing :=
  { p with options := { p.options with args := p.options.args ++ [arg] } }

/-- A flag with a long name, without its dashes. -/
def long (p : Parsing) (cs : List Char) : Option Parsing := do
  if cs.head? = some '-' ∨ cs.head? = some '=' then none
  let name := cs.takeWhile (· ≠ '=')
  let f ← flags.find? (·.name = String.ofList name)
  match cs.drop name.length with
  | _ :: value => p.set f (String.ofList value)
  | [] => if f.takesValue then some { p with pending := some f } else p.set f "true"

/-- Flags by their letters, the last of which may have a value. A flag for a test run is passed over. -/
def letters : Parsing → List Char → Option Parsing
  | p, [] => some p
  | p, c :: cs =>
    if ("test.".toList).isPrefixOf (c :: cs) then some p
    else do
      let f ← flags.find? (·.letter = some c)
      match cs with
      | '=' :: v :: value => p.set f (String.ofList (v :: value))
      | _ =>
        if f.takesValue then
          if cs.isEmpty then some { p with pending := some f } else p.set f (String.ofList cs)
        else letters (← p.set f "true") cs

/-- Reads one more argument. -/
def next (p : Parsing) (arg : String) : Option Parsing :=
  if p.ended then some (p.argument arg)
  else match p.pending with
    | some f => p.set f arg
    | none =>
      match arg.toList with
      | '-' :: '-' :: cs => if cs.isEmpty then some { p with ended := true } else p.long cs
      | '-' :: c :: cs => p.letters (c :: cs)
      | _ => some (p.argument arg)

end Parsing

/-- Reads a command line; there is no result if a flag does not exist, lacks its value or does not take it. -/
def parse (args : List String) : Option Options := do
  let p ← (args.map normalize).foldlM Parsing.next {}
  if p.pending.isSome then none else some p.options

end RegisterCompiler.CommandLine
