import Std.Data.ExtTreeMap
import RegisterCompiler.Asm.Basic

/-!
# Valid programs

A program is valid if no label stands in it twice, if every label that it mentions stands in it, and if its
instructions work at machine widths.
-/

namespace RegisterCompiler.Asm

/-- What makes a program invalid. -/
inductive Flaw where
  /-- The label stands in the function `earlier` already. -/
  | repeatedLabel (label : Label) (earlier : String)
  | missingEntry (entry : String)
  | unresolvedLabel (label : Label)
  | width (w : Width) (instr : Instr)
  deriving DecidableEq, Repr, Inhabited

def Instr.kind : Instr → String
  | mov .. => "asm.Mov"
  | movImm .. => "asm.Movi"
  | sext .. => "asm.Sext"
  | zext .. => "asm.Zext"
  | alu .. => "asm.Alu"
  | aluImm .. => "asm.AluImm"
  | cmp .. => "asm.Cmp"
  | cmpImm .. => "asm.CmpImm"
  | load .. => "asm.Ld"
  | store .. => "asm.St"
  | lea .. => "asm.Lea"
  | push _ => "asm.Push"
  | pop _ => "asm.Pop"
  | jump _ => "asm.Jmp"
  | jumpZero .. => "asm.Jz"
  | jumpNonzero .. => "asm.Jnz"
  | call _ => "asm.Call"
  | ret => "asm.Ret"
  | halt => "asm.Halt"
  | label _ => "asm.LabelDef"
  | comment _ => "asm.Comment"

def Flaw.message : Flaw → String
  | repeatedLabel l earlier => "label " ++ l ++ " already defined in " ++ earlier
  | missingEntry e => "entry function " ++ e ++ " not defined"
  | unresolvedLabel l => "unresolved label " ++ l
  | width w i => "invalid width " ++ toString w.bits.toNat ++ " in " ++ i.kind

/-- A flaw, with the function it is in; the name is empty for a flaw outside of the functions. -/
structure ValidationError where
  function : String := ""
  flaw : Flaw
  deriving DecidableEq, Repr, Inhabited

def ValidationError.message (e : ValidationError) : String :=
  if e.function = "" then e.flaw.message else e.function ++ ": " ++ e.flaw.message

/-- The labels of a program, each with the function it stands in. -/
abbrev LabelTable := Std.ExtTreeMap Label String

namespace Program

/-- The places where labels stand, in the order of the program, each with the function it is in. -/
def definitions (p : Program) : List (String × Label) :=
  (if p.entry = "" then [] else [("", startLabel)]) ++
    p.functions.flatMap fun f => (f.name, f.name) :: (f.code.filterMap Instr.label?).map (f.name, ·)

end Program

namespace LabelTable

def define (table : LabelTable) (d : String × Label) : Except ValidationError LabelTable :=
  match table.get? d.2 with
  | some earlier => .error ⟨d.1, .repeatedLabel d.2 earlier⟩
  | none => .ok (table.insert d.2 d.1)

end LabelTable

/-- Checks one instruction: first its label, then its width. -/
def Instr.check (labels : LabelTable) (i : Instr) : Except Flaw Unit := do
  if let some l := i.target? then
    unless labels.contains l do throw (.unresolvedLabel l)
  if let some w := i.width? then
    unless w.isValid do throw (.width w i)

def Function.check (labels : LabelTable) (f : Function) : Except ValidationError Unit :=
  f.code.forM fun i => (i.check labels).mapError (⟨f.name, ·⟩)

def Program.validate (p : Program) : Except ValidationError Unit := do
  let labels ← p.definitions.foldlM LabelTable.define ∅
  unless p.entry = "" || labels.contains p.entry do
    throw { flaw := .missingEntry p.entry }
  p.functions.forM (·.check labels)

end RegisterCompiler.Asm
