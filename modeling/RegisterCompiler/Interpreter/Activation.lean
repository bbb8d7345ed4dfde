import Std.Data.ExtTreeMap
import RegisterCompiler.IR.Basic
import RegisterCompiler.Memory

/-!
# Activations of functions

The interpreter defines what intermediate code computes, without registers or frames. A function that is being
executed has an *activation*: the values of its variables, the addresses of its frame variables, and the place
in its code. Frame variables are taken from the stack, which grows downwards from the end of the memory.

Code that is not well formed can get an activation stuck; the causes of that are failures too.
-/

namespace RegisterCompiler.IR

/-- Why the execution of a function fails. -/
inductive EvalCause where
  | noFunction (name : String)
  | argCount (name : String) (params args : Nat)
  | stackOverflow (name : String)
  | stepLimit
  | badAddress (address : Int64)
  | scalar (e : ScalarError)
  | noTerminator
  | noOperand
  | noAddress
  /-- Code refers to a block or a frame variable that does not exist, asks for the width of a missing operand,
      or reaches beyond the end of the address space. -/
  | stuck
  deriving DecidableEq, Repr, Inhabited

namespace EvalCause

def message? : EvalCause → Option String
  | noFunction name => some ("undefined function: " ++ name)
  | argCount name params args =>
    some ("wrong number of arguments: " ++ name ++ " takes " ++ toString params ++ ", got " ++ toString args)
  | stackOverflow name => some (name ++ ": stack overflow")
  | stepLimit => some "step limit exceeded"
  | badAddress a => some (AccessError.outOfBoundsMessage a)
  | scalar e => some e.message
  | noTerminator => some "fell off the end of the block"
  | noOperand => some "ireval: unknown operand <nil>"
  | noAddress => some "ireval: unknown memory reference <nil>"
  | stuck => none

/-- Whether a cause is a defect of the code rather than an outcome of its execution. -/
def isDefect : EvalCause → Bool
  | noOperand | noAddress | stuck => true
  | _ => false

/-- An access fails where the memory does. -/
def ofAccess : AccessError → EvalCause
  | .outOfBounds a => badAddress a
  | .wild => stuck

end EvalCause

/-- The values of variables. A variable without a value reads as zero. -/
abbrev Env := Std.ExtTreeMap VarId Int64

/-- A function that is being executed. -/
structure Activation where
  function : Function
  env : Env
  slots : List Int64
  /-- The end of the stack. -/
  sp : Int64
  /-- The number by which the present block was reached, and the block. -/
  blockId : BlockId
  block : Block
  /-- The instructions of the block that are still to be executed. -/
  rest : List Instr

namespace Activation

variable (a : Activation)

def value : Option Operand → Except EvalCause Int64
  | some (.imm v w) => .ok (w.canonical v)
  | some (.var v) => .ok (a.env.getD v.id 0)
  | none => .error .noOperand

def widthOf : Option Operand → Except EvalCause Width
  | some o => .ok o.width
  | none => .error .stuck

def assign (v : Var) (x : Int64) : Activation := { a with env := a.env.insert v.id x }

def slotBase (id : SlotId) : Except EvalCause Int64 :=
  match if id < 0 then none else a.slots[id.toNat]? with
  | some base => .ok base
  | none => .error .stuck

def slotAddress (ref : SlotRef) : Except EvalCause Int64 := do
  let base ← a.slotBase ref.slot
  if ref.index.isSome then pure (base + ref.offset + (← a.value ref.index) * ref.scale)
  else pure (base + ref.offset)

def address : Option MemRef → Except EvalCause Int64
  | some (.slot ref) => a.slotAddress ref
  | some (.pointer base offset) => do pure ((← a.value base) + offset)
  | none => .error .noAddress

/-- Goes to a block, coming from `pred`: the phis of the block take their values all at once. -/
def goTo (pred id : BlockId) : Except EvalCause Activation :=
  match a.function.block? id with
  | none => .error .stuck
  | some b => do
    let moves := b.phiMoves pred
    let values ← moves.mapM fun m => a.value m.source
    let env := (moves.zip values).foldl (fun env (m, v) => env.insert m.dest.id v) a.env
    pure { a with env, blockId := id, block := b, rest := b.code }

end Activation

/-- Takes room for frame variables from the stack, each on a multiple of eight. Gives their addresses and the
    end of the stack. -/
def reserve (name : String) : (sp : Int64) → List Slot → Except EvalCause (List Int64 × Int64)
  | sp, [] => .ok ([], sp)
  | sp, s :: rest => do
    let base := (sp - s.size) &&& ~~~7
    if base < 0 then throw (.stackOverflow name)
    let (others, last) ← reserve name base rest
    pure (base :: others, last)

/-- The values of the parameters of a function. -/
def bindParams (params : List Var) (args : List Int64) : Env :=
  (params.zip args).foldl (fun env (p, v) => env.insert p.id (p.width.canonical v)) ∅

/-- The activation of a function at its beginning, when `depth` activations exist already and the stack ends
    at `sp`. -/
def Module.enter (m : Module) (maxDepth : Int) (depth : Nat) (sp : Int64) (name : String) (args : List Int64) :
    Except EvalCause Activation :=
  match m.function? name with
  | none => .error (.noFunction name)
  | some f =>
    if args.length ≠ f.params.length then .error (.argCount name f.params.length args.length)
    else if maxDepth ≤ depth then .error (.stackOverflow name)
    else do
      let (slots, sp) ← reserve name (sp - 8) f.slots
      Activation.goTo ⟨f, bindParams f.params args, slots, sp, -1, default, []⟩ (-1) f.entry

end RegisterCompiler.IR
