import RegisterCompiler.Text.Decimal

/-!
# Registers

The register file of the machine: sixteen general registers, the frame pointer and the stack pointer. Code may
name a register by any number below 256; the numbers beyond the file name no register.
-/

namespace RegisterCompiler

structure Reg where
  num : UInt8
  deriving DecidableEq, Repr, Inhabited

namespace Reg

def fp : Reg := ⟨16⟩

def sp : Reg := ⟨17⟩

/-- The number of registers in the file. -/
def count : Nat := 18

def name (r : Reg) : String :=
  if r = fp then "fp"
  else if r = sp then "sp"
  else if r.num < fp.num then "r" ++ toString r.num.toNat
  else "reg?" ++ toString r.num.toNat

def unknownMessage (s : String) : String := "unknown register " ++ Text.quoted s

/-- The register of a name. The number of a general register may be written with a sign and leading zeros. -/
def ofName? (s : String) : Option Reg :=
  if s = "fp" then some fp
  else if s = "sp" then some sp
  else match s.toList with
    | 'r' :: digits =>
      match Text.readSigned (String.ofList digits) with
      | .ok n => if 0 ≤ n ∧ n < 16 then some ⟨n.toUInt64.toUInt8⟩ else none
      | .error _ => none
    | _ => none

end Reg

end RegisterCompiler
