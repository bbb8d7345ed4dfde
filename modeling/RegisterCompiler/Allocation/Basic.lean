import RegisterCompiler.Allocation.Interference
import RegisterCompiler.Allocation.Scan
import RegisterCompiler.IR.Printer
import RegisterCompiler.Text.Blank

/-!
# Register allocation

Every variable of a function gets a register or a place in the frame. The instructions that read or write
variables in the frame need *scratch registers* on the way; a function whose instructions need more of them
than the machine has cannot be compiled for it.

* `Allocation.ofFunction` allocates registers, or fails with the instruction that needs too many.
* `Allocation.check` checks an allocation against the interference of its intervals.
-/

namespace RegisterCompiler

open IR (Block BlockId Function Instr Interval MemRef Operand Var VarId)

/-- The places of the variables of a function. -/
structure Allocation where
  function : String
  locs : List (VarId × Loc)
  /-- The intervals, in order. -/
  intervals : List Interval
  /-- The variables in the frame, by number. -/
  spilled : List Var
  /-- The registers in use, by number. -/
  used : List Reg
  /-- The registers in use that the function must give back as it found them. -/
  saved : List Reg
  deriving DecidableEq, Repr, Inhabited

/-- An instruction that needs more scratch registers than there are. -/
structure CapacityError where
  function : String
  block : String
  instr : String
  need : Nat
  available : Nat
  deriving DecidableEq, Repr, Inhabited

def CapacityError.message (e : CapacityError) : String :=
  e.function ++ ": block " ++ e.block ++ ": " ++ e.instr ++ " needs " ++ toString e.need ++
    " scratch registers, target has " ++ toString e.available

namespace Allocation

def loc? (a : Allocation) (id : VarId) : Option Loc := a.locs.lookup id

def noLocationMessage (function : String) (v : Var) : String :=
  "regalloc: " ++ function ++ " has no location for " ++ v.shown

def isSpilled (a : Allocation) (v : Var) : Bool := a.loc? v.id == some .spilled

/-! ## Scratch registers -/

/-- The scratch registers that it takes to get an operand into a register. -/
def operandCost (a : Allocation) : Option Operand → Nat
  | some (.imm ..) => 1
  | some (.var v) => if a.isSpilled v then 1 else 0
  | none => 0

/-- The scratch registers for a second operand, which may be a constant in the instruction. -/
def secondCost (a : Allocation) : Option Operand → Nat
  | some (.imm ..) => 0
  | o => a.operandCost o

/-- The scratch registers for an address. -/
def addressCost (a : Allocation) : Option MemRef → Nat
  | some (.slot ref) =>
    match ref.index with
    | some (.var _) => 1
    | _ => 0
  | some (.pointer base _) => a.operandCost base
  | none => 0

/-- The scratch registers for a result, when its instruction needs `n` before. -/
def destCost (a : Allocation) (n : Nat) (dest : Var) : Nat := if a.isSpilled dest then max n 1 else n

/-- The scratch registers for moving values all at once: one for cycles and one for copies in the frame. -/
def moveCost (moves : Bool) : Nat := if moves then 2 else 0

/-- Whether an operand is in the register `r` already. -/
def isIn (a : Allocation) (o : Option Operand) (r : Loc) : Bool :=
  match o with
  | some (.var v) => a.loc? v.id == some r && r != .spilled
  | _ => false

/-- Whether control moves values on its way from a block to another. -/
def movesOnEdge (a : Allocation) (f : Function) (pred succ : BlockId) : Bool :=
  match f.block? succ with
  | none => false
  | some b => (b.phiMoves pred).any fun m =>
    match m.source with
    | some (.var v) => v.id != m.dest.id && !a.isIn m.source ((a.loc? m.dest.id).getD .spilled)
    | _ => true

/-- The blocks that control really can go on with: a branch on a constant has one. -/
def takenSuccessors : Instr → List BlockId
  | .branch (some (.imm value _)) t e => [if value ≠ 0 then t else e]
  | i => i.successors

/-- The scratch registers that an instruction of the block `b` needs. -/
def demand (a : Allocation) (d : Descriptor) (f : Function) (b : Block) (i : Instr) : Nat :=
  match i with
  | .binop _ dest x y | .cmp _ dest x y => a.destCost (a.operandCost x + a.secondCost y) dest
  | .cast _ dest source => a.destCost (a.operandCost source) dest
  | .load dest address => a.destCost (a.addressCost address) dest
  | .store source address => a.operandCost source + a.addressCost address
  | .slotAddr dest ref =>
    let index := match ref.index with
      | some (.var v) => if a.isSpilled v then 1 else 0
      | _ => 0
    a.destCost index dest
  | .call _ _ args =>
    let inRegs := args.zip d.args
    let onStack := args.drop d.args.length
    max ((onStack.map a.operandCost).foldl max 0)
      (moveCost (inRegs.any fun (o, r) => !a.isIn o (.reg r)))
  | .jump target => moveCost (a.movesOnEdge f b.id target)
  | .branch condition _ _ =>
    let cost := match condition with
      | some (.var v) => if a.isSpilled v then 1 else 0
      | _ => 0
    (takenSuccessors i).foldl (fun n s => max n (moveCost (a.movesOnEdge f b.id s))) cost
  | .phi .. | .ret _ => 0

/-- The scratch registers that it takes to move the parameters to their places. -/
def entryDemand (a : Allocation) (d : Descriptor) (f : Function) : Nat :=
  moveCost (d.args.length < f.params.length ||
    (f.params.zip d.args).any fun (p, r) => a.loc? p.id != some (.reg r))

/-! ## Allocation -/

/-- The places of the variables of a function, without a look at scratch registers. -/
def assignment (d : Descriptor) (f : Function) : Allocation :=
  let intervals := f.intervals
  let locs := Scan.run d intervals
  let regs := (intervals.filterMap fun iv =>
    match locs.lookup iv.var.id with
    | some (.reg r) => some r
    | _ => none).eraseDups
  let used := regs.mergeSort fun r s => r.num ≤ s.num
  { function := f.name
    locs
    intervals
    spilled := ((intervals.map Interval.var).filter fun v => locs.lookup v.id == some .spilled).mergeSort
      fun v w => v.id ≤ w.id
    used
    saved := used.filter d.isCalleeSaved }

/-- The first part of a function that needs more scratch registers than there are. -/
def excess? (a : Allocation) (d : Descriptor) (f : Function) : Option CapacityError :=
  let available := d.scratch.length
  let entry := a.entryDemand d f
  if available < entry then
    some ⟨f.name, ((f.block? f.entry).map Block.label).getD "", "parameter moves", entry, available⟩
  else f.blocks.findSome? fun b => b.code.findSome? fun i =>
    let need := a.demand d f b i
    if available < need then some ⟨f.name, b.label, i.shown f, need, available⟩ else none

def ofFunction (d : Descriptor) (f : Function) : Except CapacityError Allocation :=
  let a := assignment d f
  match a.excess? d f with
  | some e => .error e
  | none => .ok a

/-! ## Checks and listings -/

/-- What is wrong with an allocation. -/
inductive Conflict where
  | noLocation (v : VarId)
  | notAllocatable (v : VarId) (r : Reg)
  | callerSaved (v : VarId) (r : Reg)
  | shared (v w : VarId) (r : Reg)
  deriving DecidableEq, Repr, Inhabited

def Conflict.message (function : String) : Conflict → String
  | noLocation v => function ++ ": %" ++ toString v ++ " has no location"
  | notAllocatable v r =>
    function ++ ": %" ++ toString v ++ " assigned non-allocatable register " ++ r.name
  | callerSaved v r =>
    function ++ ": %" ++ toString v ++ " is live across a call in caller-saved " ++ r.name
  | shared v w r =>
    function ++ ": %" ++ toString v ++ " and %" ++ toString w ++ " interfere but share " ++ r.name

/-- What is wrong with the place of a variable. -/
def conflictAt? (a : Allocation) (d : Descriptor) (g : Interference) (v : VarId) : Option Conflict :=
  match a.loc? v with
  | none => some (.noLocation v)
  | some .spilled => none
  | some (.reg r) =>
    if r ∉ d.allocatable then some (.notAllocatable v r)
    else if g.acrossCalls.contains v ∧ !d.isCalleeSaved r then some (.callerSaved v r)
    else ((g.neighbours v).toList.find? fun w => (a.loc? w).getD (.reg ⟨0⟩) = .reg r).map (.shared v · r)

def check (a : Allocation) (d : Descriptor) : Option Conflict :=
  let g := Interference.ofIntervals a.intervals
  g.edges.keys.findSome? (a.conflictAt? d g)

def line (a : Allocation) (iv : Interval) : String :=
  "  " ++ Text.padded 5 iv.var.shown ++ " [" ++ toString iv.start ++ "," ++ toString iv.stop ++ "]" ++
    (if iv.spansCall then " call" else "") ++ " -> " ++ ((a.loc? iv.var.id).getD (.reg ⟨0⟩)).shown ++ "\n"

def listing (a : Allocation) : String :=
  "allocation " ++ a.function ++ ": " ++ toString a.intervals.length ++ " values, " ++
    toString a.spilled.length ++ " spilled\n" ++ String.join (a.intervals.map a.line)

end Allocation

end RegisterCompiler
