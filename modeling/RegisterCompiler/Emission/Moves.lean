import RegisterCompiler.Asm.Basic

/-!
# Simultaneous moves

Phis, parameters and arguments are assigned all at once: every source is read before any destination is
written. The machine moves one value at a time, so the moves are put in an order.

A move may be made once no other move still has to read its destination (`Move.sweep`). When every destination
is still to be read, the moves left form cycles; then one source is put aside in a spare register, from which
all its readers take it, and the move that overwrites it becomes possible.

* `simultaneous` is the code for a list of moves.
-/

namespace RegisterCompiler

/-- Where a value can be kept: in a register, or in the frame at an offset from the frame pointer. -/
inductive Place where
  | reg (r : Reg)
  | frame (offset : Int64)
  deriving DecidableEq, Repr, Inhabited

/-- Where a value can come from. -/
inductive Source where
  | place (p : Place)
  | imm (value : Int64)
  deriving DecidableEq, Repr, Inhabited

/-- The instruction that puts a value into a register. -/
def Source.load (w : Width) (dest : Reg) : Source → Asm.Instr
  | place (.reg r) => .mov w dest r
  | place (.frame offset) => .load w dest { base := .fp, offset }
  | imm value => .movImm w dest value

/-- A value to be moved. -/
structure Move where
  dest : Place
  source : Source
  width : Width
  deriving DecidableEq, Repr, Inhabited

namespace Move

def isIdentity (m : Move) : Bool := m.source = .place m.dest

/-- The code for one move. What is moved into the frame goes through a register. -/
def code (carry : Reg) (m : Move) : List Asm.Instr :=
  match m.dest with
  | .reg r => [m.source.load m.width r]
  | .frame offset =>
    match m.source with
    | .place (.reg r) => [.store m.width r { base := .fp, offset }]
    | source => [source.load m.width carry, .store m.width carry { base := .fp, offset }]

def reads (moves : List Move) (p : Place) : Bool := moves.any (·.source = .place p)

def writes (moves : List Move) (p : Place) : Bool := moves.any (·.dest = p)

/-- Goes once through the pending moves `kept ++ moves`, of which `kept` have had their turn, and makes those
    that no pending move stands against. Gives their code and the moves that are still pending. -/
def sweep (carry : Reg) : (kept moves : List Move) → List Asm.Instr × List Move
  | kept, [] => ([], kept)
  | kept, m :: moves =>
    if reads (kept ++ m :: moves) m.dest then sweep carry (kept ++ [m]) moves
    else
      let (code, left) := sweep carry kept moves
      (m.code carry ++ code, left)

/-- A source that a pending move overwrites, with the width at which it is read. -/
def blocked? (moves : List Move) : Option (Place × Width) :=
  moves.findSome? fun m =>
    match m.source with
    | .place p => if writes moves p then some (p, m.width) else none
    | .imm _ => none

/-- The moves, with what they read from `p` taken from the register `temp`. -/
def redirect (p : Place) (temp : Reg) (moves : List Move) : List Move :=
  moves.map fun m => if m.source = .place p then { m with source := .place (.reg temp) } else m

/-- The code for the pending moves. Each round makes one of them at least, so that the bound `n` on their number
    bounds the rounds. -/
def sequence (temp carry : Reg) : (n : Nat) → List Move → List Asm.Instr
  | 0, _ => []
  | n + 1, moves =>
    let (code, left) := sweep carry [] moves
    if left.length < moves.length then code ++ sequence temp carry n left
    else match blocked? moves with
      | none => []
      | some (p, w) =>
        let (code, left) := sweep carry [] (redirect p temp moves)
        Move.code carry ⟨.reg temp, .place p, w⟩ ++ code ++ sequence temp carry n left

end Move

/-- The code that makes all moves at once. Cycles are broken with the help of the register `temp`, and moves
    within the frame go through the register `carry`; neither may take part in the moves. -/
def simultaneous (temp carry : Reg) (moves : List Move) : List Asm.Instr :=
  let pending := moves.filter (!·.isIdentity)
  Move.sequence temp carry pending.length pending

end RegisterCompiler
