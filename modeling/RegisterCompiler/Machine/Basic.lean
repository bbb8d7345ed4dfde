import RegisterCompiler.Asm.Printer
import RegisterCompiler.Memory

/-!
# The machine

The machine that executes assembly: a register file, a memory with the stack at its top, and the code with the
places of its labels. An address of code is an index into the listing.

* `Image.load` loads a listing, in which no label may stand twice.
* `Fault` says what stopped the machine, and where.
-/

namespace RegisterCompiler.Machine

open Asm (Instr Label)

/-- Code in the machine: the listing, and the index of each label in it. -/
structure Image where
  code : Array Instr
  labels : List (Label × Nat)
  deriving DecidableEq, Repr, Inhabited

/-- What changes while the machine runs. -/
structure State where
  regs : Vector Int64 Reg.count := Vector.replicate Reg.count 0
  memory : Memory
  steps : Nat := 0
  /-- The bytes that the stack had at its deepest. -/
  maxDepth : Int64 := 0
  /-- The index of the next instruction. -/
  pc : Int := 0
  halted : Bool := false

instance : Inhabited State := ⟨{ memory := default }⟩

/-- Why an instruction fails. -/
inductive Cause where
  | scalar (e : ScalarError)
  | stackOverflow
  | badAddress (address : Int64)
  /-- There is no instruction at the next index. -/
  | noCode
  | unknownLabel (l : Label)
  | stepLimit
  /-- An instruction names a register that does not exist, or reaches beyond the end of the address space. -/
  | crash
  deriving DecidableEq, Repr, Inhabited

def Cause.message? : Cause → Option String
  | scalar e => some e.message
  | stackOverflow => some "stack overflow"
  | badAddress a => some (AccessError.outOfBoundsMessage a)
  | noCode => some "memory access out of bounds"
  | unknownLabel l => some ("unknown label: " ++ l)
  | stepLimit => some "step limit exceeded"
  | crash => none

/-- An access fails where the machine does. -/
def Cause.ofAccess : AccessError → Cause
  | .outOfBounds a => badAddress a
  | .wild => crash

/-- Why a run has no result. -/
inductive Fault where
  /-- It fails before the first instruction. -/
  | early (cause : Cause)
  /-- It fails at an instruction, or where there is none. -/
  | at (pc : Int) (instr : Option Instr) (cause : Cause)
  deriving DecidableEq, Repr, Inhabited

def Fault.cause : Fault → Cause
  | early c => c
  | .at _ _ c => c

/-- The message for a fault, if there is one. An instruction that cannot be written down has none. -/
def Fault.message? : Fault → Option String
  | early c => c.message?
  | .at pc instr c => do
    let text ← c.message?
    if instr.all Instr.isNamed then
      some ("pc " ++ toString pc ++ " (" ++ (instr.map Instr.shown).getD "?" ++ "): " ++ text)
    else none

namespace Image

/-- The labels of a listing that starts at the index `n`. A label that stands there twice is an error. -/
def collectLabels : (n : Nat) → List Instr → List (Label × Nat) → Except Label (List (Label × Nat))
  | _, [], labels => .ok labels
  | n, .label l :: rest, labels =>
    if (labels.lookup l).isSome then .error l else collectLabels (n + 1) rest ((l, n) :: labels)
  | n, _ :: rest, labels => collectLabels (n + 1) rest labels

def repeatedLabelMessage (l : Label) : String := "duplicate label: " ++ l

/-- Loads a listing, or fails with a label that stands in it twice. -/
def load (code : List Instr) : Except Label Image := do
  pure ⟨code.toArray, ← collectLabels 0 code []⟩

def instr? (img : Image) (pc : Int) : Option Instr :=
  if pc < 0 then none else img.code[pc.toNat]?

end Image

/-- The steps that a run may take for which no other limit is set. -/
def defaultMaxSteps : Nat := 50000000

end RegisterCompiler.Machine
