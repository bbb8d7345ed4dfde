import RegisterCompiler.Interpreter.Activation

/-!
# Execution of intermediate code

The interpreter executes one instruction after the other. Its state is the stack of the activations, of which
the topmost is active and the others wait for the result of a call, together with the memory.

* `Config.step` executes an instruction.
* `Module.eval` calls a function. The number of instructions is limited, which bounds the run.
-/

namespace RegisterCompiler.IR

/-- An activation that waits for the result of a call. -/
structure Caller where
  activation : Activation
  dest : Option Var

structure Config where
  active : Activation
  /-- The waiting activations, the innermost first. -/
  callers : List Caller
  memory : Memory
  steps : Nat

/-- What an instruction leads to. -/
inductive Progress where
  | next (c : Config)
  /-- The outermost function returns. -/
  | finished (result : Int64) (c : Config)

/-- Where a failure happened in an activation. -/
structure Site where
  function : String
  block : String
  deriving DecidableEq, Repr, Inhabited

/-- A failure, with the sites of all activations, the outermost first. -/
structure EvalError where
  trace : List Site
  cause : EvalCause
  deriving DecidableEq, Repr, Inhabited

def EvalError.message? (e : EvalError) : Option String :=
  if e.cause.isDefect then e.cause.message?
  else e.cause.message?.map fun text =>
    String.join (e.trace.map fun s => s.function ++ ": block " ++ s.block ++ ": ") ++ text

/-- How a call ended. -/
structure Outcome where
  result : Except EvalError Int64
  steps : Nat
  memory : Memory

/-- The limits of a call: on the instructions, and on the activations at the same time. -/
structure Limits where
  maxSteps : Int := 50000000
  maxDepth : Int := 10000
  deriving DecidableEq, Repr, Inhabited

/-- The value at an address, sign-extended. -/
def readValue (m : Memory) (w : Width) (address : Int64) : Except EvalCause Int64 := do
  let a ← (m.locate address w.bytes w.size).mapError EvalCause.ofAccess
  pure (w.canonical (m.load a (min w.size 8)).toInt64)

/-- Writes the low bytes of a value, which has eight. -/
def writeValue (m : Memory) (w : Width) (address v : Int64) : Except EvalCause Memory := do
  let a ← (m.locate address w.bytes w.size).mapError EvalCause.ofAccess
  if 8 < w.size then throw .stuck
  pure (m.store a v.toUInt64 w.size)

def Activation.site (a : Activation) : Site := ⟨a.function.name, a.block.label⟩

namespace Config

variable (c : Config)

def trace : List Site := (c.callers.map (·.activation.site)).reverse ++ [c.active.site]

def fail (cause : EvalCause) : Outcome := ⟨.error ⟨c.trace, cause⟩, c.steps, c.memory⟩

/-- The state in which the active variable `v` has the value `x`. -/
def assign (v : Var) (x : Int64) : Config := { c with active := c.active.assign v x }

/-- Gives the result of the active function to its caller. -/
def leave (result : Int64) : Progress :=
  match c.callers with
  | [] => .finished result c
  | ⟨a, dest⟩ :: callers =>
    let a := match dest with
      | some d => a.assign d (d.width.canonical result)
      | none => a
    .next { c with active := a, callers }

/-- Executes the instruction `i`; `c` is past it already. -/
def step (m : Module) (maxDepth : Int) (i : Instr) : Except EvalCause Progress := do
  let a := c.active
  match i with
  | .phi .. => pure (.next c)
  | .binop op dest x y =>
    let x ← a.value x
    let y ← a.value y
    let v ← (op.eval dest.width x y).mapError .scalar
    pure (.next (c.assign dest v))
  | .cmp cond dest x y =>
    let w ← Activation.widthOf x
    let x ← a.value x
    let y ← a.value y
    pure (.next (c.assign dest (if cond.eval w x y then 1 else 0)))
  | .cast op dest source =>
    let w ← Activation.widthOf source
    let v ← a.value source
    pure (.next (c.assign dest (op.eval w dest.width v)))
  | .load dest address =>
    let v ← readValue c.memory dest.width (← a.address address)
    pure (.next (c.assign dest v))
  | .store source address =>
    let w ← Activation.widthOf source
    let address ← a.address address
    let memory ← writeValue c.memory w address (← a.value source)
    pure (.next { c with memory })
  | .slotAddr dest ref => pure (.next (c.assign dest (← a.slotAddress ref)))
  | .call dest callee args =>
    let args ← args.mapM a.value
    let active ← m.enter maxDepth (c.callers.length + 1) a.sp callee args
    pure (.next { c with active, callers := ⟨a, dest⟩ :: c.callers })
  | .jump target => pure (.next { c with active := ← a.goTo a.blockId target })
  | .branch condition t f =>
    let v ← a.value condition
    pure (.next { c with active := ← a.goTo a.blockId (if v ≠ 0 then t else f) })
  | .ret none => pure (c.leave 0)
  | .ret (some o) => pure (c.leave (← a.value o))

/-- The state past the next instruction, which is counted. -/
def advance (rest : List Instr) : Config :=
  { c with active := { c.active with rest }, steps := c.steps + 1 }

/-- Executes at most `n` instructions. -/
def run (m : Module) (maxDepth : Int) : (n : Nat) → Config → Outcome
  | n, c =>
    match c.active.rest with
    | [] => c.fail .noTerminator
    | i :: rest =>
      let c := c.advance rest
      match n with
      | 0 => c.fail .stepLimit
      | n + 1 =>
        match c.step m maxDepth i with
        | .error cause => c.fail cause
        | .ok (.finished result c) => ⟨.ok result, c.steps, c.memory⟩
        | .ok (.next c) => run m maxDepth n c

end Config

/-- Calls a function of a module, in a memory that earlier calls may have left. -/
def Module.eval (m : Module) (limits : Limits) (memory : Memory) (name : String) (args : List Int64) : Outcome :=
  match m.enter limits.maxDepth 0 (Int64.ofNat memory.size) name args with
  | .error cause => ⟨.error ⟨[], cause⟩, 0, memory⟩
  | .ok active => Config.run m limits.maxDepth limits.maxSteps.toNat ⟨active, [], memory, 0⟩

end RegisterCompiler.IR
