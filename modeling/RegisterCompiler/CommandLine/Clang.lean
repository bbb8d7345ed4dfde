import RegisterCompiler.CommandLine.Path
import RegisterCompiler.Text.Blank
import RegisterCompiler.Text.Quoted

/-!
# The C compiler

C sources are handed to clang, which writes LLVM code. The compiler asks for an optimisation level and passes
the arguments; what clang does is up to the machine that it runs on (`Toolbox`).
-/

namespace RegisterCompiler.CommandLine

/-- Whether a file is a C source, by its extension. The extension is compared without regard to case, and the
    capital letters of `i` include the dotted one. -/
def isCSource (file : String) : Bool :=
  [".c", ".C", ".i", ".I", ".İ"].contains (extension file)

/-- The capital letter of a letter, as far as optimisation levels have letters. -/
def capital (c : Char) : Char :=
  if c = Char.ofNat 0x17f then 'S' else c.toUpper

/-- The optimisation levels, in capitals and as clang spells them. -/
def optLevels : List (String × String) :=
  [("O0", "O0"), ("O1", "O1"), ("O2", "O2"), ("O3", "O3"), ("OS", "Os"), ("OZ", "Oz")]

def optLevelMessage (level : String) : String := "unsupported optimization level: " ++ Text.quoted level

/-- An optimisation level as clang spells it. The dash and the letter before it may be left out, and no level
    is the lowest. -/
def optLevel? (level : String) : Option String :=
  let cs := (Text.trim level).toList.map capital
  let cs := if cs.head? = some '-' then cs.tail else cs
  if cs.isEmpty then some "O0"
  else optLevels.lookup (String.ofList (if cs.head? = some 'O' then cs else 'O' :: cs))

/-- The arguments with which clang compiles a C source at a level of its spelling. At the lowest level functions
    are kept open for later optimisation. -/
def clangArgs (source output level : String) (extra : List String) : List String :=
  ["-S", "-emit-llvm", "-" ++ level] ++
    (if level = "O0" then ["-Xclang", "-disable-O0-optnone"] else []) ++
    extra ++ [source, "-o", output]

def noClangMessage : String := "no clang found (tried: clang, clang-19, clang-18, clang-17)"

/-- The programs of the machine: which clang is found, and how a program with some arguments ends. A program
    that fails says how, and what it complained about. -/
structure Toolbox where
  clang? : Option String
  run : String → List String → Except (String × String) Unit

/-- A machine without clang, on which two programs do nothing: one well and one badly. -/
def Toolbox.bare : Toolbox where
  clang? := none
  run program _ :=
    if program = "/bin/true" then .ok ()
    else if program = "/bin/false" then .error ("exit status 1", "")
    else .error ("fork/exec " ++ program ++ ": no such file or directory", "")

end RegisterCompiler.CommandLine
