import RegisterCompiler.Scalar
import RegisterCompiler.Target.Register

/-!
# Assembly programs

The instructions of the machine, and programs made of them. A register holds its value sign-extended: an
instruction of a width takes the low bits of what it reads and leaves a canonical result. Labels and comments
stand among the instructions and do nothing.

* `Program.flatten` is a program as one listing, in the order in which it is laid out in the machine.
-/

namespace RegisterCompiler.Asm

/-- The name of a place in a program. -/
abbrev Label := String

/-- A register times a constant. -/
structure Scaled where
  reg : Reg
  scale : Int64
  deriving DecidableEq, Repr, Inhabited

/-- A memory operand: the sum of a base register, a scaled register if there is one, and an offset. -/
structure Addr where
  base : Reg
  index : Option Scaled := none
  offset : Int64 := 0
  deriving DecidableEq, Repr, Inhabited

/-- An instruction, or something that stands among the instructions. -/
inductive Instr where
  | mov (w : Width) (dest source : Reg)
  | movImm (w : Width) (dest : Reg) (value : Int64)
  | sext (w : Width) (dest source : Reg)
  | zext (w : Width) (dest source : Reg)
  | alu (op : BinOp) (w : Width) (dest x y : Reg)
  | aluImm (op : BinOp) (w : Width) (dest x : Reg) (y : Int64)
  | cmp (cond : Cond) (w : Width) (dest x y : Reg)
  | cmpImm (cond : Cond) (w : Width) (dest x : Reg) (y : Int64)
  | load (w : Width) (dest : Reg) (address : Addr)
  | store (w : Width) (source : Reg) (address : Addr)
  | lea (dest : Reg) (address : Addr)
  | push (source : Reg)
  | pop (dest : Reg)
  | jump (target : Label)
  | jumpZero (source : Reg) (target : Label)
  | jumpNonzero (source : Reg) (target : Label)
  | call (target : Label)
  /-- Pop an address and jump to it. -/
  | ret
  | halt
  | label (name : Label)
  | comment (text : String)
  deriving DecidableEq, Repr, Inhabited

namespace Instr

def target? : Instr → Option Label
  | jump l | jumpZero _ l | jumpNonzero _ l | call l => some l
  | _ => none

def width? : Instr → Option Width
  | mov w _ _ | movImm w _ _ | sext w _ _ | zext w _ _ => some w
  | alu _ w _ _ _ | aluImm _ w _ _ _ | cmp _ w _ _ _ | cmpImm _ w _ _ _ => some w
  | load w _ _ | store w _ _ => some w
  | _ => none

def label? : Instr → Option Label
  | label l => some l
  | _ => none

/-- Labels and comments take no time. -/
def isSilent : Instr → Bool
  | label _ | comment _ => true
  | _ => false

end Instr

/-- The code of a function. -/
structure Function where
  name : String
  frameSize : Int64 := 0
  code : List Instr
  deriving DecidableEq, Repr, Inhabited

/-- A program. Unless it is empty, `entry` names the function with which the program starts. -/
structure Program where
  entry : String := ""
  functions : List Function
  deriving DecidableEq, Repr, Inhabited

/-- The label with which a program starts. -/
def startLabel : Label := "_start"

namespace Program

/-- The code with which a program starts. -/
def start (p : Program) : List Instr :=
  if p.entry = "" then [] else [.label startLabel, .call p.entry, .halt]

/-- A program as one listing: its start and then its functions, each after its name. -/
def flatten (p : Program) : List Instr :=
  p.start ++ p.functions.flatMap fun f => .label f.name :: f.code

end Program

end RegisterCompiler.Asm
