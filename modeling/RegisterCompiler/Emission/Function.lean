import RegisterCompiler.Emission.Instr

/-!
# Machine code for functions

The code of a function builds the frame, moves the parameters to their places, and goes on with the code of the
blocks in the order in which they are laid out. The edge blocks stand at the end.
-/

namespace RegisterCompiler

namespace Emission

variable (e : Emission)

/-- The moves of the parameters from where the caller left them. -/
def paramMoves : Except EmitError (List Move) :=
  e.function.params.zipIdx.mapM fun (p, k) => do
    let source := match e.target.args[k]? with
      | some r => Place.reg r
      | none => .frame (e.layout.argOffset (Int64.ofNat (k - e.target.args.length)))
    return ⟨← e.home p, .place source, p.width⟩

/-- The code of some instructions of a block, where `n` edge blocks exist already. -/
def instrs (e : Emission) (site : BlockSite) : (n : Nat) → List IR.Instr → Except EmitError Emitted
  | _, [] => .ok ⟨[], []⟩
  | n, i :: rest => do
    let here ← e.instr site n i
    let after ← e.instrs site (n + here.edges.length) rest
    pure (here ++ after)

def blockCode (site : BlockSite) (n : Nat) : Except EmitError Emitted := do
  let label ← e.blockLabel site.block.id
  let body ← e.instrs site n site.block.code
  pure (⟨[.label label], []⟩ ++ body)

/-- The code of blocks that are laid out one after the other. -/
def blocksCode (e : Emission) : (n : Nat) → List IR.Block → Except EmitError Emitted
  | _, [] => .ok ⟨[], []⟩
  | n, b :: rest => do
    let here ← e.blockCode ⟨b, rest.head?.map IR.Block.id⟩ n
    let after ← e.blocksCode (n + here.edges.length) rest
    pure (here ++ after)

/-- What happens before the first block: the frame is built, the parameters are moved to their places, and
    control goes to the entry block, wherever it is laid out. -/
def entryCode : Except EmitError (List Asm.Instr) := do
  let moves ← e.paramMoves
  let start ← if e.function.blocks.head?.map IR.Block.id = some e.function.entry then pure []
    else pure [.jump (← e.blockLabel e.function.entry)]
  pure (e.layout.prologue ++ e.moves moves ++ start)

def code : Except EmitError Asm.Function := do
  let entry ← e.entryCode
  let body ← e.blocksCode 0 e.function.blocks
  let edges := body.edges.flatMap fun edge => .label edge.label :: edge.code
  pure ⟨e.function.name, e.layout.size, entry ++ body.code ++ edges⟩

end Emission

end RegisterCompiler
