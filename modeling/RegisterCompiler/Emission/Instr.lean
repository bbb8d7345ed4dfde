import RegisterCompiler.Emission.Operands

/-!
# Machine code for instructions

The code for one instruction of a block. The values of phis are moved into place on the way into their block:
by the block that control comes from if it goes nowhere else, and otherwise in a block of their own on the edge
(`EdgeBlock`), which is placed behind the code of the function.
-/

namespace RegisterCompiler

open IR (Block BlockId Operand Var)

/-- Code on the way between two blocks. -/
structure EdgeBlock where
  label : Asm.Label
  code : List Asm.Instr
  deriving DecidableEq, Repr, Inhabited

/-- The code of a part of a function, and the code on the edges that leave it. -/
structure Emitted where
  code : List Asm.Instr
  edges : List EdgeBlock := []
  deriving DecidableEq, Repr, Inhabited

namespace Emitted

def append (a b : Emitted) : Emitted := ⟨a.code ++ b.code, a.edges ++ b.edges⟩

instance : Append Emitted := ⟨append⟩

end Emitted

/-- A block in its place: the block itself and the one that is laid out after it. -/
structure BlockSite where
  block : Block
  next : Option BlockId
  deriving DecidableEq, Repr, Inhabited

namespace Emission

variable (e : Emission)

def require (b : Block) (i : IR.Instr) (w : Width) (form : Form) : Except EmitError Unit :=
  if e.target.supports w form then .ok ()
  else .error (.unsupported e.function.name b.label (i.shown e.function) e.target.name form w)

/-- The code of an instruction with two operands, the second of which may be a constant. -/
def binary (dest : Var) (x y : Operand) (ofReg : Reg → Reg → Reg → Asm.Instr)
    (ofImm : Reg → Reg → Int64 → Asm.Instr) : Except EmitError (List Asm.Instr) := do
  let x ← e.fetch 0 x
  match y with
  | .imm value _ =>
    let last ← e.produce dest fun r => [ofImm r x.reg value]
    pure (x.code ++ last)
  | .var _ =>
    let y ← e.fetch x.used y
    let last ← e.produce dest fun r => [ofReg r x.reg y.reg]
    pure (x.code ++ y.code ++ last)

/-- The instruction for a conversion. A conversion that does not exist has none. -/
def castCode (op : CastOp) (source target : Width) (dest r : Reg) : List Asm.Instr :=
  match op with
  | .sext => [.sext source dest r]
  | .zext => [.zext source dest r]
  | .trunc => [.mov target dest r]
  | .other _ => []

def slotAddr (dest : Var) (ref : IR.SlotRef) : Except EmitError (List Asm.Instr) := do
  let offset := (← e.slotOffset ref.slot) + ref.offset
  match ref.index with
  | none => e.produce dest fun r => [.lea r { base := .fp, offset }]
  | some (.imm value _) => e.produce dest fun r => [.lea r { base := .fp, offset := offset + value * ref.scale }]
  | some (.var v) =>
    let index ← e.fetch 0 (.var v)
    let last ← e.produce dest fun r => [.lea r { base := .fp, index := some ⟨index.reg, ref.scale⟩, offset }]
    pure (index.code ++ last)

/-! ## Calls -/

def pushArg (o : Operand) : Except EmitError (List Asm.Instr) := do
  match ← e.source o with
  | .place (.reg r) => pure [.push r]
  | source =>
    let r ← e.firstScratch
    pure [source.load o.width r, .push r]

/-- The moves of the first arguments into their registers. -/
def argMoves (args : List Operand) : Except EmitError (List Move) :=
  (args.zip e.target.args).mapM fun (o, r) => return ⟨.reg r, ← e.source o, o.width⟩

/-- The code of a call: the last arguments are pushed, the last one first, the others are moved into their
    registers, and after the call the stack is cleared and the result moved to its place. -/
def callCode (dest : Option Var) (callee : String) (args : List Operand) : Except EmitError (List Asm.Instr) := do
  let onStack := args.drop e.target.args.length
  let pushes ← onStack.reverse.mapM e.pushArg
  let moves := e.moves (← e.argMoves args)
  let pushed := Int64.ofNat onStack.length * e.target.stackArgSize
  let clear := if 0 < pushed then [.aluImm .add .w64 .sp .sp pushed] else []
  let result ← match dest with
    | none => pure []
    | some d => pure (e.moves [⟨← e.home d, .place (.reg e.target.result), d.width⟩])
  pure (pushes.flatten ++ moves ++ [.call callee] ++ clear ++ result)

/-! ## Jumps -/

def blockLabel (id : BlockId) : Except EmitError Asm.Label :=
  match e.function.block? id with
  | some b => .ok (".L" ++ e.function.name ++ "." ++ b.label)
  | none => .error .malformed

def edgeLabel (n : Nat) : Asm.Label := ".L" ++ e.function.name ++ ".edge" ++ toString n

/-- The code that moves the values of the phis of a block when control comes from `pred`. -/
def phiCode (pred succ : BlockId) : Except EmitError (List Asm.Instr) :=
  match e.function.block? succ with
  | none => .error .malformed
  | some b => do
    let ms ← (b.phiMoves pred).mapM fun m =>
      return (⟨← e.home m.dest, ← e.source (← present m.source), m.dest.width⟩ : Move)
    pure (e.moves ms)

/-- The code that goes on with the block `succ`. -/
def jumpTo (site : BlockSite) (succ : BlockId) : Except EmitError (List Asm.Instr) := do
  let moves ← e.phiCode site.block.id succ
  if site.next = some succ then pure moves
  else pure (moves ++ [.jump (← e.blockLabel succ)])

/-- Where to jump in order to go on with the block `succ`: to the block itself, or to an edge block if there
    are values to move. -/
def branchTo (site : BlockSite) (n : Nat) (succ : BlockId) : Except EmitError (Asm.Label × List EdgeBlock) := do
  let moves ← e.phiCode site.block.id succ
  let label ← e.blockLabel succ
  if moves.isEmpty then pure (label, [])
  else pure (e.edgeLabel n, [⟨e.edgeLabel n, moves ++ [.jump label]⟩])

/-- The code of a branch on a variable between two blocks. The block that is laid out next is reached without a
    jump. -/
def branchCode (site : BlockSite) (n : Nat) (condition : Operand) (t f : BlockId) : Except EmitError Emitted := do
  let c ← e.fetch 0 condition
  if site.next ≠ some f ∧ site.next = some t then
    let (label, edges) ← e.branchTo site n f
    let rest ← e.phiCode site.block.id t
    pure ⟨c.code ++ [.jumpZero c.reg label] ++ rest, edges⟩
  else
    let (label, edges) ← e.branchTo site n t
    let rest ← e.jumpTo site f
    pure ⟨c.code ++ [.jumpNonzero c.reg label] ++ rest, edges⟩

/-! ## Instructions -/

/-- The code of an instruction, where `n` edge blocks exist already. -/
def instr (site : BlockSite) (n : Nat) (i : IR.Instr) : Except EmitError Emitted := do
  match i with
  | .binop op dest x y =>
    e.require site.block i dest.width (Form.ofOp op)
    return ⟨← e.binary dest (← present x) (← present y) (.alu op dest.width) (.aluImm op dest.width), []⟩
  | .cmp cond dest x y =>
    let x ← present x
    e.require site.block i x.width .cmp
    return ⟨← e.binary dest x (← present y) (.cmp cond x.width) (.cmpImm cond x.width), []⟩
  | .cast op dest source =>
    let source ← present source
    e.require site.block i dest.width .move
    let s ← e.fetch 0 source
    return ⟨s.code ++ (← e.produce dest fun r => castCode op source.width dest.width r s.reg), []⟩
  | .load dest address =>
    e.require site.block i dest.width .load
    let a ← e.address 0 (← present address)
    return ⟨a.code ++ (← e.produce dest fun r => [.load dest.width r a.addr]), []⟩
  | .store source address =>
    let source ← present source
    e.require site.block i source.width .store
    let s ← e.fetch 0 source
    let a ← e.address s.used (← present address)
    return ⟨s.code ++ a.code ++ [.store source.width s.reg a.addr], []⟩
  | .slotAddr dest ref => return ⟨← e.slotAddr dest ref, []⟩
  | .phi .. => return ⟨[], []⟩
  | .call dest callee args => return ⟨← e.callCode dest callee (← args.mapM present), []⟩
  | .jump target => return ⟨← e.jumpTo site target, []⟩
  | .branch condition t f =>
    match ← present condition with
    | .imm value _ => return ⟨← e.jumpTo site (if value ≠ 0 then t else f), []⟩
    | c => if t = f then return ⟨← e.jumpTo site t, []⟩ else e.branchCode site n c t f
  | .ret none => return ⟨e.layout.epilogue, []⟩
  | .ret (some o) =>
    let source ← e.source o
    return ⟨source.load o.width e.target.result :: e.layout.epilogue, []⟩

end Emission

end RegisterCompiler
