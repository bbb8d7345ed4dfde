import RegisterCompiler.Allocation.Basic
import RegisterCompiler.Emission.Moves
import RegisterCompiler.Frame.Linkage

/-!
# Operands in machine code

Where the operands of an instruction are to be found, and the code that brings them into registers. A constant,
or a variable that lives in the frame, is brought into a scratch register; each instruction takes the scratch
registers one after the other.
-/

namespace RegisterCompiler

open IR (Function MemRef Operand Var)

/-- Why there is no machine code for a function. -/
inductive EmitError where
  | unsupported (function block instr target : String) (form : Form) (width : Width)
  | outOfScratch (function : String)
  /-- A result needs a scratch register and there is none at all. -/
  | noScratch
  /-- A variable has no place. -/
  | noLocation (function : String) (v : Var)
  | frame (function : String) (lack : FrameLack)
  /-- The code is not well formed. -/
  | malformed
  deriving DecidableEq, Repr, Inhabited

namespace EmitError

def message? : EmitError → Option String
  | unsupported function block instr target form width =>
    some (function ++ ": block " ++ block ++ ": " ++ instr ++ ": target " ++ target ++ " has no " ++
      form.name ++ " form at " ++ width.name)
  | outOfScratch function => some ("asmgen: " ++ function ++ ": out of scratch registers")
  | noLocation function v => some (Allocation.noLocationMessage function v)
  | frame function lack => some (lack.message function)
  | noScratch | malformed => none

end EmitError

/-- What the code of a function is made from. -/
structure Emission where
  function : Function
  allocation : Allocation
  layout : Layout
  target : Descriptor
  deriving DecidableEq, Repr, Inhabited

/-- An operand brought into a register: by which code, and how many scratch registers are taken then. -/
structure Fetched where
  code : List Asm.Instr
  reg : Reg
  used : Nat
  deriving DecidableEq, Repr, Inhabited

/-- A memory operand: the code that prepares it, and how many scratch registers are taken then. -/
structure FetchedAddr where
  code : List Asm.Instr
  addr : Asm.Addr
  used : Nat
  deriving DecidableEq, Repr, Inhabited

namespace Emission

variable (e : Emission)

def spillOffset (v : Var) : Except EmitError Int64 :=
  match e.layout.spillOffset? v.id with
  | some offset => .ok offset
  | none => .error (.frame e.layout.function (.spill v))

def slotOffset (id : IR.SlotId) : Except EmitError Int64 :=
  match e.layout.slotOffset? id with
  | some offset => .ok offset
  | none => .error (.frame e.layout.function (.slot id))

def home (v : Var) : Except EmitError Place :=
  match e.allocation.loc? v.id with
  | none => .error (.noLocation e.allocation.function v)
  | some (.reg r) => .ok (.reg r)
  | some .spilled => .frame <$> e.spillOffset v

def source : Operand → Except EmitError Source
  | .imm value _ => .ok (.imm value)
  | .var v => .place <$> e.home v

/-- The operand that well-formed code has in this position. -/
def present {α : Type} : Option α → Except EmitError α
  | some o => .ok o
  | none => .error .malformed

/-- The scratch register to take when `used` are taken. -/
def scratch (used : Nat) : Except EmitError Reg :=
  match e.target.scratch[used]? with
  | some r => .ok r
  | none => .error (.outOfScratch e.function.name)

def fetch (used : Nat) (o : Operand) : Except EmitError Fetched := do
  match ← e.source o with
  | .place (.reg r) => pure ⟨[], r, used⟩
  | source =>
    let r ← e.scratch used
    pure ⟨[source.load o.width r], r, used + 1⟩

/-- The first scratch register, for a value on its way into the frame. -/
def firstScratch : Except EmitError Reg :=
  match e.target.scratch with
  | r :: _ => .ok r
  | [] => .error .noScratch

/-- The register in which an instruction leaves its result. -/
def resultReg (dest : Var) : Except EmitError Reg :=
  match e.allocation.loc? dest.id with
  | none => .error (.noLocation e.allocation.function dest)
  | some (.reg r) => .ok r
  | some .spilled => e.firstScratch

/-- The code after an instruction that puts its result into the frame, if it belongs there. -/
def writeBack (dest : Var) (r : Reg) : Except EmitError (List Asm.Instr) :=
  if e.allocation.isSpilled dest then do
    let offset ← e.spillOffset dest
    pure [.store dest.width r { base := .fp, offset }]
  else .ok []

/-- The code of an instruction with a result, which `make` builds for the register of the result. -/
def produce (dest : Var) (make : Reg → List Asm.Instr) : Except EmitError (List Asm.Instr) := do
  let r ← e.resultReg dest
  pure (make r ++ (← e.writeBack dest r))

/-- A memory operand for an address. The address of an element with a variable index is computed into a scratch
    register. -/
def address (used : Nat) : MemRef → Except EmitError FetchedAddr
  | .slot ref => do
    let offset := (← e.slotOffset ref.slot) + ref.offset
    match ref.index with
    | none => pure ⟨[], { base := .fp, offset }, used⟩
    | some (.imm value _) => pure ⟨[], { base := .fp, offset := offset + value * ref.scale }, used⟩
    | some (.var v) =>
      let r ← e.scratch used
      let (reload, index) ← match ← e.home v with
        | .reg index => pure ([], index)
        | place => pure ([(Source.place place).load v.width r], r)
      pure ⟨reload ++ [.lea r { base := .fp, index := some ⟨index, ref.scale⟩, offset }], { base := r }, used + 1⟩
  | .pointer base offset => do
    let p ← e.fetch used (← present base)
    pure ⟨p.code, { base := p.reg, offset }, p.used⟩

/-- The code for moves that happen all at once. -/
def moves (ms : List Move) : List Asm.Instr :=
  simultaneous (e.target.scratch.getD 0 ⟨0⟩) (e.target.scratch.getD 1 ⟨0⟩) ms

end Emission

end RegisterCompiler
