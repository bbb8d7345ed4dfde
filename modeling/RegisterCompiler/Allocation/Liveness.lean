import Std.Data.ExtTreeSet
import RegisterCompiler.IR.Basic

/-!
# Liveness

A variable is *live* at a place if control can get from there to a use of it without passing a definition of
it. The results of phis count as defined at the beginning of their block, and their operands as used at the end
of the block that control comes from; parameters count as defined at the beginning of the entry.

* `Block.exposed` and `Block.defs` say what a block uses from before and what it defines.
* `Function.sweep` computes the sets of all blocks anew, in place and from the last block to the first.
* `Function.liveness` repeats this until nothing changes; `Function.liveIn` and `Function.liveOut` are its sets.
-/

namespace RegisterCompiler.IR

abbrev VarSet := Std.ExtTreeSet VarId

def VarSet.ofVars (vs : List Var) : VarSet := Std.ExtTreeSet.ofList (vs.map Var.id)

/-- The variables that code uses before it defines them, `defined` being defined already. -/
def exposedUses : (defined : VarSet) → List Instr → VarSet
  | _, [] => ∅
  | defined, i :: rest =>
    (VarSet.ofVars i.usedVars \ defined) ∪ exposedUses (defined ∪ VarSet.ofVars i.dest?.toList) rest

/-- The variables that are defined when control enters a block: the parameters, in the entry. -/
def Function.entered (f : Function) (b : Block) : VarSet :=
  if b.id = f.entry then VarSet.ofVars f.params else ∅

/-- The variables that a block uses from before. -/
def Function.exposed (f : Function) (b : Block) : VarSet := exposedUses (f.entered b) b.code

/-- The variables that a block defines. -/
def Function.defs (f : Function) (b : Block) : VarSet :=
  f.entered b ∪ VarSet.ofVars (b.code.filterMap Instr.dest?)

/-- The variables that the phis of a block read when control comes from `pred`. -/
def Block.phiUses (b : Block) (pred : BlockId) : VarSet :=
  VarSet.ofVars ((b.phiMoves pred).filterMap fun m =>
    match m.source with
    | some (.var v) => some v
    | _ => none)

/-- The set of a block in an assignment of sets to blocks. -/
def setAt (sets : List VarSet) (id : BlockId) : VarSet := if id < 0 then ∅ else sets.getD id.toNat ∅

/-- What is live after a block, from what is live at the beginning of the blocks. -/
def Function.liveAfter (f : Function) (ins : List VarSet) (b : Block) : VarSet :=
  b.successors.foldl (fun out s =>
    out ∪ (setAt ins s ∪ (((f.block? s).map fun succ => succ.phiUses b.id).getD ∅))) ∅

/-- What is live at the beginning of a block, from what is live after it. -/
def Function.liveBefore (f : Function) (out : VarSet) (b : Block) : VarSet := f.exposed b ∪ (out \ f.defs b)

/-- The sets of variables that are live at the beginning and at the end of the blocks, as far as they are known. -/
@[ext]
structure Liveness where
  ins : List VarSet
  outs : List VarSet

/-- Computes the sets of a block anew. -/
def Function.renew (f : Function) (b : Block) (live : Liveness) : Liveness :=
  let out := f.liveAfter live.ins b
  ⟨live.ins.set b.id.toNat (f.liveBefore out b), live.outs.set b.id.toNat out⟩

/-- Computes the sets of all blocks anew, from the last block to the first; each block sees the new sets of those
    after it. -/
def Function.sweep (f : Function) (live : Liveness) : Liveness := f.blocks.foldr f.renew live

/-- Repeats a step until it changes no set, at most `fuel` times. -/
def stabilize (step : Liveness → Liveness) : (fuel : Nat) → Liveness → Liveness
  | 0, live => live
  | fuel + 1, live =>
    let next := step live
    if next.ins = live.ins ∧ next.outs = live.outs then live else stabilize step fuel next

/-- Nothing is known to be live. -/
def Function.unswept (f : Function) : Liveness := ⟨f.blocks.map fun _ => ∅, f.blocks.map fun _ => ∅⟩

/-- What is live at the beginning and at the end of every block. Every sweep but the last adds a variable to one of the
    sets. -/
def Function.liveness (f : Function) : Liveness :=
  stabilize f.sweep (2 * (f.blocks.length * f.vars.length) + 1) f.unswept

def Function.liveIn (f : Function) : List VarSet := f.liveness.ins

def Function.liveOut (f : Function) : List VarSet := f.liveness.outs

end RegisterCompiler.IR
