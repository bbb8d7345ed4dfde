import RegisterCompiler.Allocation.Liveness

/-!
# Live intervals

The instructions of a function are numbered in layout order. A block has a position where its phis, and in the
entry the parameters, are defined; then comes a position for every other instruction, the last of which is the
end of the block. Positions are two apart.

The *interval* of a variable runs from the first to the last position where it is live, defined or used. The
result of a phi is also written at the end of the blocks that control comes from.
-/

namespace RegisterCompiler.IR

/-- The positions in a block. -/
structure BlockPositions where
  start : Int
  /-- The position of every instruction. -/
  code : List Int
  stop : Int
  deriving DecidableEq, Repr, Inhabited

/-- The positions of code that begins after `pos`, and the last of them. -/
def codePositions : (pos : Int) → List Instr → List Int × Int
  | pos, [] => ([], pos)
  | pos, i :: rest =>
    let here := if i.isPhi then pos else pos + 2
    let (others, last) := codePositions here rest
    (here :: others, last)

/-- The positions of blocks, the first of which begins at `start`. -/
def blockPositions : (start : Int) → List Block → List BlockPositions
  | _, [] => []
  | start, b :: rest =>
    let (code, stop) := codePositions start b.code
    ⟨start, code, stop⟩ :: blockPositions (stop + 2) rest

def Function.positions (f : Function) : List BlockPositions := blockPositions 0 f.blocks

def Function.placed (f : Function) : List (Block × BlockPositions) := f.blocks.zip f.positions

def Instr.isCall : Instr → Bool
  | call .. => true
  | _ => false

def Function.callPositions (f : Function) : List Int :=
  f.placed.flatMap fun (b, p) =>
    ((b.code.zip p.code).filter fun (i, _) => i.isCall).map Prod.snd

/-- The interval of a variable, its two ends included. -/
structure Interval where
  var : Var
  start : Int
  stop : Int
  /-- Whether a call stands strictly inside. -/
  spansCall : Bool
  deriving DecidableEq, Repr, Inhabited

def Interval.overlaps (a b : Interval) : Bool := a.start ≤ b.stop && b.start ≤ a.stop

/-- The position of the end of a block. -/
def stopAt (positions : List BlockPositions) (id : BlockId) : Int :=
  if id < 0 then 0 else (positions.getD id.toNat ⟨0, [], 0⟩).stop

/-- The places where an instruction at `pos`, in the block `b`, defines or uses variables. -/
def Function.occurrencesAt (f : Function) (positions : List BlockPositions) (b : Block) (start : Int)
    (i : Instr) (pos : Int) : List (VarId × Int) :=
  match i with
  | .phi dest _ => (dest.id, start) :: (f.predecessors b.id).map fun p => (dest.id, stopAt positions p)
  | i => (i.dest?.toList ++ i.usedVars).map fun v => (v.id, pos)

def Function.occurrences (f : Function) (ins outs : List VarSet) : List (VarId × Int) :=
  let positions := f.positions
  let entryStart := ((f.placed.find? fun (b, _) => b.id == f.entry).map fun (_, p) => p.start).getD 0
  f.params.map (fun v => (v.id, entryStart)) ++
    f.placed.flatMap fun (b, p) =>
      (setAt outs b.id).toList.map (·, p.stop) ++ (setAt ins b.id).toList.map (·, p.start) ++
        (b.code.zip p.code).flatMap fun (i, pos) => f.occurrencesAt positions b p.start i pos

/-- The interval of a variable, from the places where it occurs. -/
def intervalOf (occurrences : List (VarId × Int)) (calls : List Int) (v : Var) : Option Interval :=
  match (occurrences.filter (·.1 = v.id)).map Prod.snd with
  | [] => none
  | p :: rest =>
    let start := rest.foldl min p
    let stop := rest.foldl max p
    some ⟨v, start, stop, calls.any fun c => start < c && c < stop⟩

/-- The order of intervals: by their beginning, then by variable. -/
def Interval.before (a b : Interval) : Bool :=
  a.start < b.start || (a.start == b.start && a.var.id ≤ b.var.id)

/-- The intervals of the variables of a function, in order. -/
def Function.intervals (f : Function) : List Interval :=
  let live := f.liveness
  let occurrences := f.occurrences live.ins live.outs
  let calls := f.callPositions
  (f.vars.filterMap (intervalOf occurrences calls)).mergeSort Interval.before

end RegisterCompiler.IR
