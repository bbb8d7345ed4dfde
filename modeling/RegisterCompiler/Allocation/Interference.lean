import Std.Data.ExtTreeMap
import RegisterCompiler.Allocation.Interval

/-!
# Interference

Two variables interfere if their intervals overlap: they cannot share a register. A variable whose interval
has a call inside cannot be in a register that the callee may change.
-/

namespace RegisterCompiler

open IR (Interval VarId VarSet)

/-- A graph of variables. -/
structure Interference where
  /-- The neighbours of every variable. -/
  edges : Std.ExtTreeMap VarId VarSet
  /-- The variables that live across a call. -/
  acrossCalls : VarSet

namespace Interference

def empty : Interference := ⟨∅, ∅⟩

def neighbours (g : Interference) (v : VarId) : VarSet := g.edges.getD v ∅

def addNode (g : Interference) (v : VarId) : Interference :=
  { g with edges := g.edges.insert v (g.neighbours v) }

/-- Adds an edge; no variable is its own neighbour. -/
def addEdge (g : Interference) (a b : VarId) : Interference :=
  if a = b then g
  else
    let g := (g.addNode a).addNode b
    let g := { g with edges := g.edges.insert a ((g.neighbours a).insert b) }
    { g with edges := g.edges.insert b ((g.neighbours b).insert a) }

def hasEdge (g : Interference) (a b : VarId) : Bool := (g.neighbours a).contains b

def degree (g : Interference) (v : VarId) : Nat := (g.neighbours v).size

/-- Adds an interval and its edges to the intervals after it, up to the first that begins after its end. -/
def addInterval (g : Interference) (a : Interval) (rest : List Interval) : Interference :=
  let g := g.addNode a.var.id
  let g := if a.spansCall then { g with acrossCalls := g.acrossCalls.insert a.var.id } else g
  (rest.takeWhile (·.start ≤ a.stop)).foldl (fun g b => g.addEdge a.var.id b.var.id) g

def addIntervals (g : Interference) : List Interval → Interference
  | [] => g
  | a :: rest => (g.addInterval a rest).addIntervals rest

/-- The graph of intervals that stand in order. -/
def ofIntervals (intervals : List Interval) : Interference := empty.addIntervals intervals

end Interference

end RegisterCompiler
