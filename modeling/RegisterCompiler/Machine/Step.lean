import RegisterCompiler.Machine.Basic

/-!
# Execution of one instruction

An instruction that fails leaves the changes that it made before.
-/

namespace RegisterCompiler.Machine

open Asm (Addr Instr Label)

/-- A part of the work of an instruction. -/
abbrev Exec := ExceptT Cause (StateM State)

/-- The return address with which a run ends. -/
def finalReturn : Int64 := -1

/-- The bytes that an access at a width touches: four bytes at most for the narrow machine widths, and a whole
    word for any other. -/
def touched (w : Width) : Nat :=
  if w = .w8 then 1 else if w = .w16 then 2 else if w = .w32 then 4 else 8

namespace State

/-- The value at an address, sign-extended. -/
def read (s : State) (w : Width) (address : Int64) : Except Cause Int64 := do
  let a ← (s.memory.locate address w.bytes (touched w)).mapError Cause.ofAccess
  let v := (s.memory.load a (touched w)).toInt64
  pure (if w.isValid then w.canonical v else v)

/-- Writes the low bytes of a value. -/
def write (s : State) (w : Width) (address v : Int64) : Except Cause State := do
  let a ← (s.memory.locate address w.bytes (touched w)).mapError Cause.ofAccess
  pure { s with memory := s.memory.store a v.toUInt64 (touched w) }

def sp (s : State) : Int64 := s.regs.get ⟨17, by decide⟩

def setSp (s : State) (v : Int64) : State := { s with regs := s.regs.set 17 v (by decide) }

/-- Remembers how deep the stack is. -/
def noteDepth (s : State) : State :=
  let depth := Int64.ofNat s.memory.size - s.sp
  if s.maxDepth < depth then { s with maxDepth := depth } else s

end State

namespace Exec

def reg (r : Reg) : Exec Int64 := do
  match (← get).regs[r.num.toNat]? with
  | some v => pure v
  | none => throw .crash

def setReg (r : Reg) (v : Int64) : Exec Unit := do
  if h : r.num.toNat < Reg.count then
    modify fun s => { s with regs := s.regs.set r.num.toNat v h }
  else throw .crash

def read (w : Width) (address : Int64) : Exec Int64 := do
  match (← get).read w address with
  | .ok v => pure v
  | .error c => throw c

def write (w : Width) (address v : Int64) : Exec Unit := do
  match (← get).write w address v with
  | .ok s => set s
  | .error c => throw c

def push (v : Int64) : Exec Unit := do
  let sp := (← get).sp - 8
  if sp < 0 then throw .stackOverflow
  write .w64 sp v
  modify fun s => (s.setSp sp).noteDepth

def pop : Exec Int64 := do
  let sp := (← get).sp
  let v ← read .w64 sp
  modify (·.setSp (sp + 8))
  pure v

def effective (a : Addr) : Exec Int64 := do
  let base ← reg a.base
  match a.index with
  | none => pure (base + a.offset)
  | some i => pure (base + a.offset + (← reg i.reg) * i.scale)

/-- Goes on at a label. -/
def jump (img : Image) (l : Label) : Exec Unit := do
  match img.labels.lookup l with
  | some n => modify fun s => { s with pc := n }
  | none => throw (.unknownLabel l)

/-- The result of an operator. -/
def compute (op : BinOp) (w : Width) (x y : Int64) : Exec Int64 :=
  match op.eval w x y with
  | .ok v => pure v
  | .error e => throw (.scalar e)

/-- Refuses a stack pointer below the memory. -/
def checkStack : Exec Unit := do
  if (← get).sp < 0 then throw .stackOverflow
  modify State.noteDepth

/-- One for true and zero for false. -/
def truth (b : Bool) : Int64 := if b then 1 else 0

/-- Executes an instruction; the next index is that of the instruction after it already. -/
def instr (img : Image) : Instr → Exec Unit
  | .mov w d s => do setReg d (w.canonical (← reg s))
  | .movImm w d v => setReg d (w.canonical v)
  | .sext w d s => do setReg d (w.canonical (← reg s))
  | .zext w d s => do setReg d (w.low (← reg s)).toInt64
  | .alu op w d x y => do setReg d (← compute op w (← reg x) (← reg y))
  | .aluImm op w d x v => do
    setReg d (← compute op w (← reg x) v)
    if d = .sp then checkStack
  | .cmp c w d x y => do setReg d (truth (c.eval w (← reg x) (← reg y)))
  | .cmpImm c w d x v => do setReg d (truth (c.eval w (← reg x) v))
  | .load w d a => do setReg d (← read w (← effective a))
  | .store w r a => do write w (← effective a) (← reg r)
  | .lea d a => do setReg d (← effective a)
  | .push r => do push (← reg r)
  | .pop d => do setReg d (← pop)
  | .jump l => jump img l
  | .jumpZero r l => do if (← reg r) = 0 then jump img l
  | .jumpNonzero r l => do if (← reg r) ≠ 0 then jump img l
  | .call l => do
    push (Int64.ofInt (← get).pc)
    jump img l
  | .ret => do
    let address ← pop
    modify fun s => if address = finalReturn then { s with halted := true } else { s with pc := address.toInt }
  | .halt => modify fun s => { s with halted := true }
  | .label _ | .comment _ => pure ()

end Exec

/-- Executes an instruction and counts it, unless it is a label or a comment. -/
def step (img : Image) (i : Instr) (s : State) : Except Cause Unit × State :=
  (Exec.instr img i).run (if i.isSilent then s else { s with steps := s.steps + 1 })

end RegisterCompiler.Machine
