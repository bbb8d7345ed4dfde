import RegisterCompiler.Scalar

/-!
# Intermediate code

The code that the compiler works on: functions whose basic blocks compute with *variables*, virtual registers
of a fixed width. Blocks, variables and frame slots are referred to by number; the number of a block or a slot
is its index in the function.

Code under construction may be malformed in every way that its parts can be: an operand may be missing, a
number may refer to nothing, a width may be no machine width. `RegisterCompiler.IR.Validity` says which code is
well formed.
-/

namespace RegisterCompiler.IR

abbrev VarId := Int

abbrev BlockId := Int

abbrev SlotId := Int

structure Var where
  id : VarId
  width : Width
  deriving DecidableEq, Repr, Inhabited

/-- A value to read: a variable, or a constant of a width. -/
inductive Operand where
  | var (v : Var)
  | imm (value : Int64) (width : Width)
  deriving DecidableEq, Repr, Inhabited

def Operand.width : Operand → Width
  | var v => v.width
  | imm _ w => w

/-- The constant `value`, brought to the form in which values of the width `w` are held. -/
def Operand.const (value : Int64) (w : Width) : Operand := imm (w.canonical value) w

/-- The address of an element of a frame slot: its base, plus `offset`, plus `index` times `scale` if there is
    an index. -/
structure SlotRef where
  slot : SlotId
  index : Option Operand
  scale : Int64
  offset : Int64
  deriving DecidableEq, Repr, Inhabited

/-- The address of a memory access. -/
inductive MemRef where
  | slot (ref : SlotRef)
  /-- The address that an operand holds, plus `offset`. -/
  | pointer (base : Option Operand) (offset : Int64)
  deriving DecidableEq, Repr, Inhabited

/-- The value that a phi takes when control comes from the block `pred`. -/
structure PhiEdge where
  pred : BlockId
  value : Option Operand
  deriving DecidableEq, Repr, Inhabited

inductive Instr where
  /-- Computes at the width of `dest`. -/
  | binop (op : BinOp) (dest : Var) (x y : Option Operand)
  | cmp (cond : Cond) (dest : Var) (x y : Option Operand)
  | cast (op : CastOp) (dest : Var) (source : Option Operand)
  | load (dest : Var) (address : Option MemRef)
  | store (source : Option Operand) (address : Option MemRef)
  /-- Sets `dest` to an address in the frame. -/
  | slotAddr (dest : Var) (ref : SlotRef)
  /-- Chooses a value by the block that control came from. Phis stand first in a block. -/
  | phi (dest : Var) (edges : List PhiEdge)
  | call (dest : Option Var) (callee : String) (args : List (Option Operand))
  | jump (target : BlockId)
  /-- Goes on with the first block if the condition is not zero, else with the second. -/
  | branch (condition : Option Operand) (thenTarget elseTarget : BlockId)
  | ret (value : Option Operand)
  deriving DecidableEq, Repr, Inhabited

namespace MemRef

def uses : MemRef → List (Option Operand)
  | slot ref => if ref.index.isSome then [ref.index] else []
  | pointer base _ => [base]

end MemRef

namespace Instr

def isTerminator : Instr → Bool
  | jump _ | branch .. | ret _ => true
  | _ => false

def isPhi : Instr → Bool
  | phi .. => true
  | _ => false

/-- The blocks that control may go on with, each once. -/
def successors : Instr → List BlockId
  | jump target => [target]
  | branch _ t e => if t = e then [t] else [t, e]
  | _ => []

def dest? : Instr → Option Var
  | binop _ dest _ _ | cmp _ dest _ _ | cast _ dest _ | load dest _ | slotAddr dest _ | phi dest _ => some dest
  | call dest _ _ => dest
  | store .. | jump _ | branch .. | ret _ => none

/-- The operands that an instruction reads. Those of a phi are read on the way into the block, not here. -/
def uses : Instr → List (Option Operand)
  | binop _ _ x y | cmp _ _ x y => [x, y]
  | cast _ _ source => [source]
  | load _ address => (address.map MemRef.uses).getD []
  | store source address => source :: (address.map MemRef.uses).getD []
  | slotAddr _ ref => (MemRef.slot ref).uses
  | call _ _ args => args
  | branch condition _ _ => [condition]
  | ret value => if value.isSome then [value] else []
  | phi .. | jump _ => []

/-- The variables among the operands that an instruction reads. -/
def usedVars (i : Instr) : List Var :=
  i.uses.filterMap fun
    | some (.var v) => some v
    | _ => none

end Instr

/-- The assignment that a phi amounts to on one way into its block. -/
structure PhiMove where
  dest : Var
  source : Option Operand
  deriving DecidableEq, Repr, Inhabited

structure Block where
  id : BlockId
  label : String
  code : List Instr
  deriving DecidableEq, Repr, Inhabited

namespace Block

/-- The last instruction of a block, if it ends it. -/
def terminator? (b : Block) : Option Instr := b.code.getLast?.filter Instr.isTerminator

def successors (b : Block) : List BlockId := (b.terminator?.map Instr.successors).getD []

def phis (b : Block) : List (Var × List PhiEdge) :=
  (b.code.takeWhile Instr.isPhi).filterMap fun
    | .phi dest edges => some (dest, edges)
    | _ => none

/-- The assignments to make, all at once, when control enters a block from `pred`. -/
def phiMoves (b : Block) (pred : BlockId) : List PhiMove :=
  b.phis.flatMap fun (dest, edges) =>
    (edges.filter (·.pred = pred)).map fun e => ⟨dest, e.value⟩

end Block

/-- A frame variable: `count` elements of a width. -/
structure Slot where
  id : SlotId
  name : String
  count : Int64
  element : Width
  deriving DecidableEq, Repr, Inhabited

def Slot.size (s : Slot) : Int64 := s.count * s.element.bytes

/-- A function. The order of the blocks is the order in which they are laid out. -/
structure Function where
  name : String
  params : List Var
  result : Width
  blocks : List Block
  entry : BlockId
  slots : List Slot
  deriving DecidableEq, Repr, Inhabited

namespace Function

def block? (f : Function) (id : BlockId) : Option Block :=
  if id < 0 then none else f.blocks[id.toNat]?

def predecessors (f : Function) (id : BlockId) : List BlockId :=
  (f.blocks.filter (·.successors.contains id)).map Block.id

/-- The variables that a function defines: the parameters, then the results of the instructions in layout
    order. -/
def vars (f : Function) : List Var :=
  f.params ++ f.blocks.flatMap fun b => b.code.filterMap Instr.dest?

end Function

/-- A unit of compilation. -/
structure Module where
  functions : List Function
  deriving DecidableEq, Repr, Inhabited

def Module.function? (m : Module) (name : String) : Option Function :=
  m.functions.find? (·.name == name)

end RegisterCompiler.IR
