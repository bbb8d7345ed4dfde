import RegisterCompiler.IR.Printer

/-!
# Well-formed code

The back end relies on the shape of the code it is given: every block is a run of phis, then other
instructions, then one instruction that ends it; every variable is defined once and used at its width; every
reference leads somewhere; and the edges of a phi are the ways into its block.

* `Function.verify` checks a function and reports the first defect, in the order of the listing.
-/

namespace RegisterCompiler.IR

inductive Defect where
  | noBlocks
  | noEntry (id : BlockId)
  | resultWidth (w : Width)
  | slotId (s : Slot) (index : Nat)
  | slotShape (s : Slot)
  | varWidth (v : Var)
  | redefined (v : Var)
  | blockId (id : BlockId) (index : Nat)
  | duplicateLabel
  | emptyBlock
  | latePhi
  | afterTerminator
  | noTerminator
  | unknownTarget (id : BlockId)
  | noPredecessors
  | entryPredecessors
  | undefinedVar (v : Var)
  | usedWidth (v : Var) (defined : Width)
  | immWidth (value : Int64) (w : Width)
  | missingOperand
  | unknownSlot (id : SlotId)
  | pointerWidth
  | missingAddress
  | binopWidth (op : BinOp) (w : Width)
  | cmpWidths (cond : Cond)
  | cmpResult
  | castWidths (op : CastOp) (source target : Width)
  | addressWidth
  | phiEdgeCount (dest : Var) (edges preds : Nat)
  | phiRepeated (dest : Var) (pred : BlockId)
  | phiWidth (dest : Var) (w : Width)
  | phiMissing (dest : Var) (label : String)
  | missingReturnValue
  | returnWidth (value result : Width)
  deriving DecidableEq, Repr, Inhabited

def Defect.message : Defect → String
  | noBlocks => "no blocks"
  | noEntry id => "entry block " ++ toString id ++ " does not exist"
  | resultWidth w => "invalid result width " ++ toString w.bits.toNat
  | slotId s index =>
    "slot " ++ Text.quoted s.name ++ " has id " ++ toString s.id ++ " at index " ++ toString index
  | slotShape s =>
    "slot " ++ Text.quoted s.name ++ " has invalid shape " ++ Text.decimal s.count ++ " x " ++ s.element.name
  | varWidth v => v.shown ++ " has invalid width " ++ toString v.width.bits.toNat
  | redefined v => v.shown ++ " defined more than once"
  | blockId id index => "id " ++ toString id ++ " at index " ++ toString index
  | duplicateLabel => "duplicate label"
  | emptyBlock => "empty block"
  | latePhi => "phi after non-phi instruction"
  | afterTerminator => "instruction after terminator"
  | noTerminator => "missing terminator"
  | unknownTarget id => "branch to unknown block " ++ toString id
  | noPredecessors => "no predecessors"
  | entryPredecessors => "entry block has predecessors"
  | undefinedVar v => "use of undefined " ++ v.shown
  | usedWidth v defined => v.shown ++ " used as " ++ v.width.name ++ ", defined as " ++ defined.name
  | immWidth value w =>
    "immediate " ++ Text.decimal value ++ " has invalid width " ++ toString w.bits.toNat
  | missingOperand => "missing operand"
  | unknownSlot id => "unknown slot " ++ toString id
  | pointerWidth => "pointer operand must be " ++ Width.w64.name
  | missingAddress => "missing memory reference"
  | binopWidth op w => op.name ++ " operands must be " ++ w.name
  | cmpWidths cond => "icmp " ++ cond.name ++ " operand widths differ"
  | cmpResult => "comparison result must be " ++ Width.w8.name
  | castWidths op source target => op.name ++ " from " ++ source.name ++ " to " ++ target.name
  | addressWidth => "slot address must be " ++ Width.w64.name
  | phiEdgeCount dest edges preds =>
    "phi " ++ dest.shown ++ " has " ++ toString edges ++ " edges for " ++ toString preds ++ " predecessors"
  | phiRepeated dest pred => "phi " ++ dest.shown ++ " lists predecessor " ++ toString pred ++ " twice"
  | phiWidth dest w => "phi " ++ dest.shown ++ " incoming value width " ++ w.name
  | phiMissing dest label => "phi " ++ dest.shown ++ " missing edge from " ++ label
  | missingReturnValue => "missing return value"
  | returnWidth value result => "return value is " ++ value.name ++ ", function returns " ++ result.name

/-- A defect and where it is: in a block, or in the function as a whole. -/
structure VerifyError where
  function : String
  block : Option String
  defect : Defect
  deriving DecidableEq, Repr, Inhabited

def VerifyError.message (e : VerifyError) : String :=
  match e.block with
  | none | some "" => e.function ++ ": " ++ e.defect.message
  | some label => e.function ++ ": block " ++ label ++ ": " ++ e.defect.message

/-- Fails with a defect if a condition does not hold. -/
def require (condition : Prop) [Decidable condition] (d : Defect) : Except Defect Unit :=
  if condition then .ok () else .error d

def definedWidth? (defined : List Var) (id : VarId) : Option Width :=
  (defined.find? (·.id == id)).map Var.width

def define (defined : List Var) (v : Var) : Except Defect (List Var) := do
  require v.width.isValid (.varWidth v)
  require ((definedWidth? defined v.id).isNone) (.redefined v)
  return defined ++ [v]

def checkSlots : (index : Nat) → List Slot → Except Defect Unit
  | _, [] => .ok ()
  | index, s :: rest => do
    require (s.id = index) (.slotId s index)
    require (0 < s.count ∧ s.element.isValid) (.slotShape s)
    checkSlots (index + 1) rest

/-- Checks that phis stand first and that nothing follows the instruction that ends a block; `phis` says
    whether only phis have come so far. -/
def checkOrder : (phis : Bool) → List Instr → Except Defect Unit
  | _, [] => .ok ()
  | phis, i :: rest => do
    if i.isPhi then
      require phis .latePhi
      checkOrder phis rest
    else
      require (i.isTerminator → rest.isEmpty) .afterTerminator
      checkOrder false rest

def checkShape (f : Function) (b : Block) : Except Defect Unit := do
  require (b.code ≠ []) .emptyBlock
  checkOrder true b.code
  match b.terminator? with
  | none => .error .noTerminator
  | some t => t.successors.forM fun s => require (f.block? s).isSome (.unknownTarget s)

def checkOperand (defined : List Var) : Option Operand → Except Defect Unit
  | none => .error .missingOperand
  | some (.imm value w) => require w.isValid (.immWidth value w)
  | some (.var v) =>
    match definedWidth? defined v.id with
    | none => .error (.undefinedVar v)
    | some w => require (w = v.width) (.usedWidth v w)

def checkAddress (f : Function) : Option MemRef → Except Defect Unit
  | some (.slot ref) => require (0 ≤ ref.slot ∧ ref.slot < f.slots.length) (.unknownSlot ref.slot)
  | some (.pointer base _) => require (base.map Operand.width = some Width.w64) .pointerWidth
  | none => .error .missingAddress

/-- Checks the edges of a phi, `seen` being the predecessors already listed. -/
def checkEdges (defined : List Var) (dest : Var) :
    (seen : List BlockId) → List PhiEdge → Except Defect Unit
  | _, [] => .ok ()
  | seen, e :: rest => do
    require (e.pred ∉ seen) (.phiRepeated dest e.pred)
    checkOperand defined e.value
    match e.value with
    | none => .error .missingOperand
    | some o => require (o.width = dest.width) (.phiWidth dest o.width)
    checkEdges defined dest (e.pred :: seen) rest

def checkPhi (f : Function) (defined : List Var) (b : Block) (dest : Var) (edges : List PhiEdge) :
    Except Defect Unit := do
  let preds := f.predecessors b.id
  require (edges.length = preds.length) (.phiEdgeCount dest edges.length preds.length)
  checkEdges defined dest [] edges
  preds.forM fun p =>
    require (p ∈ edges.map PhiEdge.pred) (.phiMissing dest (((f.block? p).map Block.label).getD ""))

def checkInstr (f : Function) (defined : List Var) (b : Block) (i : Instr) : Except Defect Unit := do
  i.uses.forM (checkOperand defined)
  match i with
  | .binop op dest x y =>
    require (x.map Operand.width = some dest.width ∧ y.map Operand.width = some dest.width)
      (.binopWidth op dest.width)
  | .cmp cond dest x y =>
    require (x.map Operand.width = y.map Operand.width) (.cmpWidths cond)
    require (dest.width = Width.w8) .cmpResult
  | .cast op dest source =>
    match source with
    | none => .error .missingOperand
    | some o =>
      require (if op = .trunc then dest.width.bits < o.width.bits else o.width.bits < dest.width.bits)
        (.castWidths op o.width dest.width)
  | .load _ address => checkAddress f address
  | .store _ address => checkAddress f address
  | .slotAddr dest ref =>
    require (dest.width = Width.w64) .addressWidth
    checkAddress f (some (.slot ref))
  | .phi dest edges => checkPhi f defined b dest edges
  | .ret none => require (f.result = Width.none) .missingReturnValue
  | .ret (some o) => require (o.width = f.result) (.returnWidth o.width f.result)
  | .call .. | .jump _ | .branch .. => return ()

/-- Checks how control gets to the block `b`. -/
def checkEntered (f : Function) (b : Block) : Except Defect Unit := do
  if b.id = f.entry then require (f.predecessors b.id = []) .entryPredecessors
  else require (f.predecessors b.id ≠ []) .noPredecessors

/-- Places a defect. -/
def located {α : Type} (f : Function) (block : Option String) : Except Defect α → Except VerifyError α
  | .ok a => .ok a
  | .error d => .error ⟨f.name, block, d⟩

/-- Checks the blocks one by one, the first of which has the index `index`, and collects the variables that
    they define. -/
def checkBlocks (f : Function) :
    (index : Nat) → (labels : List String) → (defined : List Var) → List Block →
      Except VerifyError (List Var)
  | _, _, defined, [] => .ok defined
  | index, labels, defined, b :: rest => do
    let defined ← located f (some b.label) do
      require (b.id = index) (.blockId b.id index)
      require (b.label ∉ labels) .duplicateLabel
      checkShape f b
      (b.code.filterMap Instr.dest?).foldlM define defined
    checkBlocks f (index + 1) (b.label :: labels) defined rest

def Function.verify (f : Function) : Except VerifyError Unit := do
  let params ← located f none do
    require (f.blocks ≠ []) .noBlocks
    require (f.block? f.entry).isSome (.noEntry f.entry)
    require (f.result = Width.none ∨ f.result.isValid) (.resultWidth f.result)
    checkSlots 0 f.slots
    f.params.foldlM define []
  let defined ← checkBlocks f 0 [] params f.blocks
  f.blocks.forM fun b => located f (some b.label) do
    checkEntered f b
    b.code.forM (checkInstr f defined b)

end RegisterCompiler.IR
