import RegisterCompiler.Scalar
import RegisterCompiler.Target.Register

/-!
# Target descriptors

What the compiler knows about the machine: which registers it may use and for what, which instructions exist
at which width, and how the stack is laid out.

* `Config` is a description as it is written down, by names.
* `Config.descriptor` checks it: the registers of the different classes keep out of each other's way.
-/

namespace RegisterCompiler

/-- A class of instructions that the machine may have at a width. -/
inductive Form where
  | add | sub | mul | div | logic | shift | cmp | load | store | move
  deriving DecidableEq, Repr, Inhabited

namespace Form

def all : List Form := [add, sub, mul, div, logic, shift, cmp, load, store, move]

def name : Form → String
  | add => "add" | sub => "sub" | mul => "mul" | div => "div" | logic => "logic" | shift => "shift"
  | cmp => "cmp" | load => "load" | store => "store" | move => "move"

def ofName? (s : String) : Option Form := all.find? (·.name == s)

def unknownMessage (s : String) : String := "unknown instruction form " ++ Text.quoted s

def nameOfCode (n : Nat) : String := ((all[n]?).map name).getD "?"

/-- The class that an operator belongs to. -/
def ofOp : BinOp → Form
  | .add => add
  | .sub => sub
  | .mul => mul
  | .sdiv | .udiv | .srem | .urem => div
  | .and | .or | .xor => logic
  | .shl | .lshr | .ashr | .other _ => shift

end Form

/-- A description of the machine. -/
structure Descriptor where
  name : String
  /-- The registers for variables, in the order of preference. -/
  allocatable : List Reg
  result : Reg
  /-- The registers for reloads, spills and cyclic moves. -/
  scratch : List Reg
  /-- The registers of the first arguments of a function. -/
  args : List Reg
  /-- The allocatable registers that a function gives back as it found them. -/
  calleeSaved : List Reg
  /-- The instructions at each width. -/
  forms : List (Width × List Form)
  /-- The size of a frame is a multiple of this. -/
  stackAlign : Int64
  /-- The size of a frame variable is a multiple of this. -/
  slotAlign : Int64
  maxFrame : Int64
  /-- The bytes of an argument on the stack. -/
  stackArgSize : Int64
  growsDown : Bool
  deriving DecidableEq, Repr, Inhabited

namespace Descriptor

def supports (d : Descriptor) (w : Width) (f : Form) : Bool := ((d.forms.lookup w).getD []).contains f

def isCalleeSaved (d : Descriptor) (r : Reg) : Bool := d.calleeSaved.contains r

end Descriptor

/-- A description of the machine as it is written down. -/
structure Config where
  name : String := "shasm"
  allocatable : List String := ["r1", "r2", "r3", "r4", "r5", "r6", "r7", "r8", "r9", "r10", "r11", "r12"]
  result : String := "r0"
  scratch : List String := ["r13", "r14", "r15"]
  calleeSaved : List String := []
  args : List String := ["r1", "r2", "r3", "r4"]
  stackArgSize : Int64 := 8
  stackAlign : Int64 := 16
  slotAlign : Int64 := 8
  maxFrame : Int64 := 65536
  grows : String := "down"
  /-- The instructions at the widths that do not have all of them. -/
  widths : List (String × List String) := []
  deriving DecidableEq, Repr, Inhabited

/-- What is wrong with a description. -/
inductive ConfigError where
  /-- There is no register for variables. -/
  | noRegisters
  | unknownRegister (field name : String)
  | repeatedRegister (field : String) (r : Reg)
  | reservedResult (r : Reg)
  | reservedAllocatable (r : Reg)
  | scratchAllocatable (r : Reg)
  | reservedScratch (r : Reg)
  | reservedArgument (r : Reg)
  | unallocatableSaved (r : Reg)
  | savedArgument (r : Reg)
  | growth (direction : String)
  | stackAlign (n : Int64)
  | slotAlign (n : Int64)
  | maxFrame (n : Int64)
  | stackArgSize (n : Int64)
  | unknownWidth (name : String)
  | unknownForm (width name : String)
  /-- The document is no description. -/
  | document
  deriving DecidableEq, Repr, Inhabited

def ConfigError.message : ConfigError → String
  | noRegisters => "target: no allocatable registers"
  | unknownRegister field name => invalid (field ++ ": " ++ Reg.unknownMessage name)
  | repeatedRegister field r => invalid (field ++ ": register " ++ r.name ++ " listed twice")
  | reservedResult r => invalid ("return register cannot be " ++ r.name)
  | reservedAllocatable r => invalid ("reserved register " ++ r.name ++ " is allocatable")
  | scratchAllocatable r => invalid ("register " ++ r.name ++ " is both scratch and allocatable")
  | reservedScratch r => invalid ("reserved register " ++ r.name ++ " used as scratch")
  | reservedArgument r => invalid ("argument register " ++ r.name ++ " is reserved or scratch")
  | unallocatableSaved r => invalid ("callee-saved register " ++ r.name ++ " is not allocatable")
  | savedArgument r => invalid ("argument register " ++ r.name ++ " cannot be callee-saved")
  | growth direction => invalid ("unsupported stack growth direction " ++ Text.quoted direction)
  | stackAlign n => invalid ("stack alignment " ++ Text.decimal n)
  | slotAlign n => invalid ("slot alignment " ++ Text.decimal n)
  | maxFrame n => invalid ("max frame size " ++ Text.decimal n)
  | stackArgSize n => invalid ("stack argument size " ++ Text.decimal n ++ " (only 8 is supported)")
  | unknownWidth name => invalid ("unknown width " ++ Text.quoted name)
  | unknownForm width name => invalid (width ++ ": " ++ Form.unknownMessage name)
  | document => invalid "yaml: ..."
where
  /-- The message for a description that is not valid. -/
  invalid (s : String) : String := "target: invalid descriptor: " ++ s

namespace Config

/-- The registers of a class, by their names; `seen` are those before. -/
def registers (field : String) : (seen : List Reg) → List String → Except ConfigError (List Reg)
  | _, [] => .ok []
  | seen, name :: rest =>
    match Reg.ofName? name with
    | none => .error (.unknownRegister field name)
    | some r =>
      if r ∈ seen then .error (.repeatedRegister field r)
      else do return r :: (← registers field (r :: seen) rest)

/-- Fails at the first element that a test refuses. -/
def refuse {α : Type} (test : α → Option ConfigError) (items : List α) : Except ConfigError Unit :=
  match items.findSome? test with
  | some e => .error e
  | none => .ok ()

def isPowerOfTwo (n : Int64) : Bool := 0 < n && n &&& (n - 1) == 0

/-- The instructions at the width of a name. -/
def formsOf (entry : String × List String) : Except ConfigError (Width × List Form) := do
  match Width.all.find? (·.name == entry.1) with
  | none => .error (.unknownWidth entry.1)
  | some w =>
    let listed ← entry.2.mapM fun s =>
      match Form.ofName? s with
      | some f => .ok f
      | none => .error (.unknownForm entry.1 s)
    return (w, Form.all.filter (· ∈ listed))

/-- The machine that a description describes. -/
def descriptor (c : Config) : Except ConfigError Descriptor := do
  let allocatable ← registers "allocatable" [] c.allocatable
  if allocatable.isEmpty then throw .noRegisters
  let result ← match Reg.ofName? c.result with
    | some r => pure r
    | none => throw (.unknownRegister "return" c.result)
  let scratch ← registers "scratch" [] c.scratch
  let args ← registers "args" [] c.args
  let calleeSaved ← registers "callee_saved" [] c.calleeSaved
  let reserved := [Reg.fp, Reg.sp, result]
  if result = Reg.fp ∨ result = Reg.sp then throw (.reservedResult result)
  refuse (fun r =>
    if r ∈ reserved then some (.reservedAllocatable r)
    else if r ∈ scratch then some (.scratchAllocatable r)
    else none) allocatable
  refuse (fun r => if r ∈ reserved then some (.reservedScratch r) else none) scratch
  refuse (fun r => if r ∈ reserved ∨ r ∈ scratch then some (.reservedArgument r) else none) args
  refuse (fun r =>
    if r ∉ allocatable then some (.unallocatableSaved r)
    else if r ∈ args then some (.savedArgument r)
    else none) calleeSaved
  if c.grows ≠ "down" ∧ c.grows ≠ "" then throw (.growth c.grows)
  if !isPowerOfTwo c.stackAlign ∨ c.stackAlign < 8 then throw (.stackAlign c.stackAlign)
  if !isPowerOfTwo c.slotAlign then throw (.slotAlign c.slotAlign)
  if c.maxFrame ≤ 0 then throw (.maxFrame c.maxFrame)
  if c.stackArgSize ≠ 8 then throw (.stackArgSize c.stackArgSize)
  let listed ← (c.widths.mergeSort fun a b => a.1 ≤ b.1).mapM formsOf
  return {
    name := c.name
    allocatable, result, scratch, args, calleeSaved
    forms := Width.all.map fun w => (w, (listed.lookup w).getD Form.all)
    stackAlign := c.stackAlign
    slotAlign := c.slotAlign
    maxFrame := c.maxFrame
    stackArgSize := c.stackArgSize
    growsDown := true }

end Config

/-- The machine that the compiler compiles for if it is told of no other. -/
def Descriptor.default : Except ConfigError Descriptor := Config.descriptor {}

end RegisterCompiler
