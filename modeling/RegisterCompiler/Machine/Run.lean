import RegisterCompiler.Machine.Step
import RegisterCompiler.Target.Descriptor

/-!
# Runs of the machine

A run starts with an empty stack and zero registers, in the memory that earlier runs left, and ends when the
machine halts or fails. It may take a limited number of steps, which bounds the loop; labels and comments are
passed without a step.

* `Image.start` runs a program from a label.
* `Image.call` calls a function under the calling convention of a target.
-/

namespace RegisterCompiler.Machine

open Asm (Instr Label)

/-- The state in which a run starts: only the memory and the next index are kept. -/
def State.reset (s : State) : State :=
  ({ memory := s.memory, pc := s.pc } : State).setSp (Int64.ofNat s.memory.size)

namespace Image

/-- The first index from `pc` on that holds no label or comment, looked for at most `n` times. -/
def skip (img : Image) : (n pc : Nat) → Nat
  | 0, pc => pc
  | n + 1, pc =>
    match img.code[pc]? with
    | some i => if i.isSilent then img.skip n (pc + 1) else pc
    | none => pc

/-- Goes on to the first instruction that is no label or comment. -/
def passSilent (img : Image) (s : State) : State :=
  if s.pc < 0 then s
  else { s with pc := img.skip (img.code.size - s.pc.toNat) s.pc.toNat }

/-- Runs until the machine halts or fails, for at most `n` steps. -/
def loop (img : Image) : (n : Nat) → State → Except Fault Unit × State
  | 0, s =>
    match img.instr? s.pc with
    | none => (.error (.at s.pc none .noCode), s)
    | some i => (.error (.at s.pc (some i) .stepLimit), s)
  | n + 1, s =>
    let s := img.passSilent s
    match img.instr? s.pc with
    | none => (.error (.at s.pc none .noCode), s)
    | some i =>
      match step img i { s with pc := s.pc + 1 } with
      | (.error c, t) => (.error (.at s.pc (some i) c), t)
      | (.ok (), t) => if t.halted then (.ok (), t) else img.loop n t

/-- The steps that a run may take under a limit, where zero stands for the usual one. -/
def budget (maxSteps : Int) : Nat := if maxSteps = 0 then defaultMaxSteps else maxSteps.toNat

def runFrom (img : Image) (maxSteps : Int) (l : Label) (s : State) : Except Fault Unit × State :=
  match (Exec.jump img l).run s with
  | (.error c, s) => (.error (.early c), s)
  | (.ok (), s) => img.loop (budget maxSteps) s

/-- The value of a register after a run. -/
def resultIn (r : Reg) : Except Fault Unit × State → Except Fault Int64 × State
  | (.error f, s) => (.error f, s)
  | (.ok (), s) =>
    match (Exec.reg r).run s with
    | (.ok v, s) => (.ok v, s)
    | (.error c, s) => (.error (.early c), s)

/-- Runs a program from a label and gives the first register. -/
def start (img : Image) (maxSteps : Int) (entry : Label) (s : State) : Except Fault Int64 × State :=
  resultIn ⟨0⟩ (img.runFrom maxSteps entry s.reset)

/-- Leaves arguments where the callee expects them: the last ones on the stack, the others in registers, and the
    return address that ends the run on top of the stack. -/
def passArgs (d : Descriptor) (args : List Int64) : Exec Unit := do
  (args.drop d.args.length).reverse.forM Exec.push
  (args.zip d.args).forM fun (v, r) => Exec.setReg r v
  Exec.push finalReturn

/-- Calls a function under the calling convention of a target and gives its result. -/
def call (img : Image) (maxSteps : Int) (d : Descriptor) (function : Label) (args : List Int64) (s : State) :
    Except Fault Int64 × State :=
  match (passArgs d args).run s.reset with
  | (.error c, s) => (.error (.early c), s)
  | (.ok (), s) => resultIn d.result (img.runFrom maxSteps function s)

end Image

end RegisterCompiler.Machine
