import RegisterCompiler.IR.Basic
import RegisterCompiler.Text.Decimal

/-!
# Listings of intermediate code

The textual form of functions, close to that of LLVM. What is missing from malformed code is shown by a
question mark.
-/

namespace RegisterCompiler.IR

def Var.shown (v : Var) : String := "%" ++ toString v.id

/-- An operand without its width. -/
def Operand.bare : Option Operand → String
  | some (.var v) => v.shown
  | some (.imm value _) => Text.decimal value
  | none => "?"

/-- An operand after its width. -/
def Operand.typed : Option Operand → String
  | some o => o.width.name ++ " " ++ bare o
  | none => "?"

def SlotRef.shown (r : SlotRef) : String :=
  let index := if r.index.isSome then " + " ++ Operand.bare r.index ++ "*" ++ Text.decimal r.scale else ""
  let offset := if r.offset ≠ 0 then " + " ++ Text.decimal r.offset else ""
  "[$" ++ toString r.slot ++ index ++ offset ++ "]"

def MemRef.shown : Option MemRef → String
  | some (.slot ref) => ref.shown
  | some (.pointer base offset) =>
    "[" ++ Operand.bare base ++ (if offset ≠ 0 then " + " ++ Text.decimal offset else "") ++ "]"
  | none => "[?]"

/-- The label of a block, as a name. -/
def Function.labelOf (f : Function) (id : BlockId) : String :=
  match f.block? id with
  | some b => "%" ++ b.label
  | none => "%<" ++ toString id ++ ">"

def Instr.shown (f : Function) : Instr → String
  | binop op dest x y =>
    dest.shown ++ " = " ++ op.name ++ " " ++ Operand.typed x ++ ", " ++ Operand.bare y
  | cmp cond dest x y =>
    dest.shown ++ " = icmp " ++ cond.name ++ " " ++ Operand.typed x ++ ", " ++ Operand.bare y
  | cast op dest source =>
    dest.shown ++ " = " ++ op.name ++ " " ++ Operand.typed source ++ " to " ++ dest.width.name
  | load dest address => dest.shown ++ " = load " ++ dest.width.name ++ " " ++ MemRef.shown address
  | store source address => "store " ++ Operand.typed source ++ ", " ++ MemRef.shown address
  | slotAddr dest ref => dest.shown ++ " = addr " ++ ref.shown
  | phi dest edges =>
    let shown := edges.map fun e => "[ " ++ Operand.bare e.value ++ ", " ++ f.labelOf e.pred ++ " ]"
    dest.shown ++ " = phi " ++ dest.width.name ++ " " ++ ", ".intercalate shown
  | call dest callee args =>
    let tail := "@" ++ callee ++ "(" ++ ", ".intercalate (args.map Operand.typed) ++ ")"
    match dest with
    | some v => v.shown ++ " = call " ++ v.width.name ++ " " ++ tail
    | none => "call void " ++ tail
  | jump target => "br label " ++ f.labelOf target
  | branch condition t e =>
    "br " ++ Operand.typed condition ++ ", label " ++ f.labelOf t ++ ", label " ++ f.labelOf e
  | ret none => "ret void"
  | ret value => "ret " ++ Operand.typed value

def Slot.shown (s : Slot) : String :=
  "slot $" ++ toString s.id ++ " " ++ Text.quoted s.name ++ ": [" ++ Text.decimal s.count ++ " x " ++
    s.element.name ++ "]"

def Block.lines (f : Function) (b : Block) : List String :=
  (b.label ++ (if b.id = f.entry then ": ; entry" else ":")) :: b.code.map fun i => "  " ++ i.shown f

def Function.lines (f : Function) : List String :=
  let result := if f.result = Width.none then "void" else f.result.name
  let params := f.params.map fun v => v.width.name ++ " " ++ v.shown
  ("define " ++ result ++ " @" ++ f.name ++ "(" ++ ", ".intercalate params ++ ") \x7b") ::
    f.slots.map (fun s => "  " ++ s.shown) ++ f.blocks.flatMap (·.lines f) ++ ["\x7d"]

def Function.listing (f : Function) : String := String.join (f.lines.map (· ++ "\n"))

def Module.listing (m : Module) : String := "\n".intercalate (m.functions.map Function.listing)

end RegisterCompiler.IR
