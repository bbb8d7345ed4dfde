import RegisterCompiler.Asm.Validity

/-!
# Assembly text

The written form of instructions and programs: a mnemonic with the width as its suffix, a tab, and the operands
between commas.

* `Instr.shown` is an instruction in one line.
* `Program.print` is the text of a valid program.
-/

namespace RegisterCompiler.Asm

def shownImm (v : Int64) : String := "#" ++ Text.decimal v

def Scaled.shown (s : Scaled) : String := s.reg.name ++ "*" ++ Text.decimal s.scale

/-- A memory operand, such as `[fp, r2*4, #-80]`. -/
def Addr.shown (a : Addr) : String :=
  let parts := a.base.name :: ((a.index.map Scaled.shown).toList ++
    if a.offset = 0 then [] else [shownImm a.offset])
  "[" ++ ", ".intercalate parts ++ "]"

/-- A name with a width as its suffix. -/
def suffixed (name : String) (w : Width) : String := name ++ "." ++ toString w.bits.toNat

namespace Instr

def mnemonic : Instr → String
  | mov w _ _ => suffixed "mov" w
  | movImm w _ _ => suffixed "movi" w
  | sext w _ _ => suffixed "sext" w
  | zext w _ _ => suffixed "zext" w
  | alu op w _ _ _ | aluImm op w _ _ _ => suffixed op.name w
  | cmp cond w _ _ _ | cmpImm cond w _ _ _ => suffixed ("cmp." ++ cond.name) w
  | load w _ _ => suffixed "ld" w
  | store w _ _ => suffixed "st" w
  | lea _ _ => "lea"
  | push _ => "push"
  | pop _ => "pop"
  | jump _ => "jmp"
  | jumpZero _ _ => "jmp0"
  | jumpNonzero _ _ => "jnz"
  | call _ => "call"
  | ret => "ret"
  | halt => "halt"
  | label _ | comment _ => ""

def operands : Instr → List String
  | mov _ d s | sext _ d s | zext _ d s => [d.name, s.name]
  | movImm _ d v => [d.name, shownImm v]
  | alu _ _ d x y | cmp _ _ d x y => [d.name, x.name, y.name]
  | aluImm _ _ d x y | cmpImm _ _ d x y => [d.name, x.name, shownImm y]
  | load _ d a | lea d a => [d.name, a.shown]
  | store _ s a => [s.name, a.shown]
  | push r | pop r => [r.name]
  | jump l | call l => [l]
  | jumpZero r l | jumpNonzero r l => [r.name, l]
  | ret | halt | label _ | comment _ => []

def shown : Instr → String
  | label l => l ++ ":"
  | comment text => "; " ++ text
  | i => if i.operands.isEmpty then i.mnemonic else i.mnemonic ++ "\t" ++ ", ".intercalate i.operands

/-- An instruction as a line of a program: labels stand at the margin. -/
def line : Instr → String
  | label l => l ++ ":\n"
  | i => "\t" ++ i.shown ++ "\n"

/-- Whether an instruction can be written down: an operator or a comparison must have a name. -/
def isNamed : Instr → Bool
  | alu op .. | aluImm op .. => op.name?.isSome
  | cmp c .. | cmpImm c .. => c.name?.isSome
  | _ => true

end Instr

def Function.text (f : Function) : String :=
  "\t.global\t" ++ f.name ++ "\n" ++ f.name ++ ":\n" ++ "\t; frame size " ++ Text.decimal f.frameSize ++ "\n" ++
    String.join (f.code.map Instr.line)

namespace Program

def isNamed (p : Program) : Bool := p.functions.all fun f => f.code.all Instr.isNamed

def startText (p : Program) : String :=
  if p.entry = "" then ""
  else "\t.global\t" ++ startLabel ++ "\n" ++ String.join (p.start.map Instr.line) ++ "\n"

def text (p : Program) : String :=
  p.startText ++ "\n".intercalate (p.functions.map Function.text)

end Program

inductive PrintError where
  | invalid (e : ValidationError)
  /-- An operator has no name. -/
  | unnamed
  deriving DecidableEq, Repr, Inhabited

def PrintError.message? : PrintError → Option String
  | invalid e => some ("asm: printing invalid program: " ++ e.message)
  | unnamed => none

/-- The text of a program, which has to be valid. -/
def Program.print (p : Program) : Except PrintError String := do
  p.validate.mapError PrintError.invalid
  unless p.isNamed do throw .unnamed
  pure p.text

end RegisterCompiler.Asm
