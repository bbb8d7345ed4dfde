import RegisterCompiler.IR.Validity

/-!
# Building functions

A function can be put together step by step: parameters, frame variables and blocks are declared, and
instructions are added at the end of the *insertion block*. The steps that add an instruction with a result
number a fresh variable for it.

A step that has nowhere to go fails; what it did before it failed stays done.
-/

namespace RegisterCompiler.IR

/-- Why a step of building a function fails. -/
inductive BuildError where
  | noInsertionBlock
  | unknownBlock (id : BlockId)
  /-- A width is asked of an operand that is missing. -/
  | missingOperand
  | noPhi (v : Var)
  deriving DecidableEq, Repr, Inhabited

def BuildError.message? : BuildError → Option String
  | noInsertionBlock => some "ir: Emit with no insertion block"
  | noPhi v => some ("ir: no phi defines " ++ v.shown)
  | unknownBlock _ | missingOperand => none

/-- A function under construction. -/
structure Builder where
  function : Function
  insertion : BlockId
  nextVar : VarId
  deriving DecidableEq, Repr, Inhabited

/-- A step of building a function. -/
abbrev Building := ExceptT BuildError (StateM Builder)

namespace Builder

def new (name : String) (result : Width) : Builder :=
  ⟨⟨name, [], result, [], 0, []⟩, -1, 1⟩

/-- The last block declared with a label. -/
def lookup? (b : Builder) (label : String) : Option BlockId :=
  (b.function.blocks.reverse.find? (·.label == label)).map Block.id

def newVar (w : Width) : Building Var := do
  let b ← get
  set { b with nextVar := b.nextVar + 1 }
  return ⟨b.nextVar, w⟩

def param (w : Width) : Building Var := do
  let v ← newVar w
  modify fun b => { b with function.params := b.function.params ++ [v] }
  return v

def slot (name : String) (count : Int64) (element : Width) : Building SlotId := do
  let id : SlotId := (← get).function.slots.length
  modify fun b => { b with function.slots := b.function.slots ++ [⟨id, name, count, element⟩] }
  return id

def block (label : String) : Building BlockId := do
  let id : BlockId := (← get).function.blocks.length
  modify fun b => { b with function.blocks := b.function.blocks ++ [⟨id, label, []⟩] }
  return id

def setBlock (id : BlockId) : Building Unit := modify fun b => { b with insertion := id }

def emit (i : Instr) : Building Unit := do
  let b ← get
  if b.insertion < 0 then throw .noInsertionBlock
  if b.function.blocks.length ≤ b.insertion.toNat then throw (.unknownBlock b.insertion)
  set { b with function.blocks :=
    b.function.blocks.modify b.insertion.toNat fun k => { k with code := k.code ++ [i] } }

def binop (op : BinOp) (x y : Option Operand) : Building Var := do
  match x with
  | none => throw .missingOperand
  | some o =>
    let dest ← newVar o.width
    emit (.binop op dest x y)
    return dest

def cmp (cond : Cond) (x y : Option Operand) : Building Var := do
  let dest ← newVar Width.w8
  emit (.cmp cond dest x y)
  return dest

def cast (op : CastOp) (source : Option Operand) (target : Width) : Building Var := do
  let dest ← newVar target
  emit (.cast op dest source)
  return dest

def load (w : Width) (address : Option MemRef) : Building Var := do
  let dest ← newVar w
  emit (.load dest address)
  return dest

def slotAddr (ref : SlotRef) : Building Var := do
  let dest ← newVar Width.w64
  emit (.slotAddr dest ref)
  return dest

/-- Adds a phi without edges. -/
def phi (w : Width) : Building Var := do
  let dest ← newVar w
  emit (.phi dest [])
  return dest

def call (callee : String) (result : Width) (args : List (Option Operand)) : Building (Option Var) := do
  if result = Width.none then
    emit (.call none callee args)
    return none
  let dest ← newVar result
  emit (.call (some dest) callee args)
  return some dest

/-- The code with an edge added to the first phi of a variable, if there is one. -/
def addEdge? (id : VarId) (e : PhiEdge) : List Instr → Option (List Instr)
  | [] => none
  | .phi dest edges :: rest =>
    if dest.id = id then some (.phi dest (edges ++ [e]) :: rest)
    else (addEdge? id e rest).map (.phi dest edges :: ·)
  | i :: rest => (addEdge? id e rest).map (i :: ·)

/-- The blocks with an edge added to the first phi of a variable, if there is one. -/
def addEdgeTo? (id : VarId) (e : PhiEdge) : List Block → Option (List Block)
  | [] => none
  | b :: rest =>
    match addEdge? id e b.code with
    | some code => some ({ b with code := code } :: rest)
    | none => (addEdgeTo? id e rest).map (b :: ·)

/-- Adds an edge to the phi that defines a variable. -/
def addIncoming (dest : Var) (pred : BlockId) (value : Option Operand) : Building Unit := do
  let b ← get
  match addEdgeTo? dest.id ⟨pred, value⟩ b.function.blocks with
  | some blocks => set { b with function.blocks := blocks }
  | none => throw (.noPhi dest)

end Builder

end RegisterCompiler.IR
