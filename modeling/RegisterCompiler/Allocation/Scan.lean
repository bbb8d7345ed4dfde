import RegisterCompiler.Allocation.Interval
import RegisterCompiler.Target.Descriptor

/-!
# Linear scan

Intervals are taken in the order of their beginning. Each gets the first free register that it may have; an
interval with a call inside may only have a register that the callee gives back. If all of them are taken, the
one that ends last, of the intervals that hold them and the new one, is *spilled*: it lives in the frame.
-/

namespace RegisterCompiler

open IR (Interval VarId)

/-- Where a variable lives. -/
inductive Loc where
  | reg (r : Reg)
  | spilled
  deriving DecidableEq, Repr, Inhabited

def Loc.shown : Loc → String
  | reg r => r.name
  | spilled => "spilled"

/-- A scan in progress: the intervals that hold a register, and the places given out. A later place of a
    variable stands first and counts. -/
structure Scan where
  active : List (Interval × Reg)
  locs : List (VarId × Loc)
  deriving DecidableEq, Repr, Inhabited

namespace Scan

/-- The registers that an interval may have, in the order of preference. -/
def candidates (d : Descriptor) (cur : Interval) : List Reg :=
  if cur.spansCall then d.allocatable.filter d.isCalleeSaved else d.allocatable

/-- The interval that holds a register. -/
def holder? (s : Scan) (r : Reg) : Option Interval := (s.active.find? (·.2 = r)).map Prod.fst

/-- Frees the registers of the intervals that ended before a position. -/
def expire (s : Scan) (pos : Int) : Scan := { s with active := s.active.filter (pos ≤ ·.1.stop) }

def assign (s : Scan) (cur : Interval) (r : Reg) : Scan :=
  ⟨s.active ++ [(cur, r)], (cur.var.id, .reg r) :: s.locs⟩

/-- Leaves an interval without a register. -/
def spill (s : Scan) (iv : Interval) : Scan := { s with locs := (iv.var.id, .spilled) :: s.locs }

/-- Whether `a` is to be spilled rather than `b`. -/
def isFarther (a b : Interval) : Bool :=
  if a.stop = b.stop then b.var.id < a.var.id else b.stop < a.stop

/-- Of the intervals that hold the registers, the one to spill rather than `cur`, with its register. -/
def victim? (s : Scan) (cur : Interval) (regs : List Reg) : Option (Interval × Reg) :=
  regs.foldl (fun best r =>
    match s.holder? r with
    | some iv => if isFarther iv ((best.map Prod.fst).getD cur) then some (iv, r) else best
    | none => best) none

def place (d : Descriptor) (s : Scan) (cur : Interval) : Scan :=
  let s := s.expire cur.start
  let regs := candidates d cur
  match regs.find? (fun r => (s.holder? r).isNone) with
  | some r => s.assign cur r
  | none =>
    match s.victim? cur regs with
    | none => s.spill cur
    | some (iv, r) =>
      let s := s.spill iv
      { s with active := s.active.filter (·.2 ≠ r) }.assign cur r

/-- The places of intervals that stand in order. -/
def run (d : Descriptor) (intervals : List Interval) : List (VarId × Loc) :=
  (intervals.foldl (place d) ⟨[], []⟩).locs

end Scan

end RegisterCompiler
