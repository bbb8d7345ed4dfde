import RegisterCompiler.Asm.Basic
import RegisterCompiler.Frame.Layout

/-!
# Entering and leaving a function

The code that builds the frame of a function on its entry, and the code that removes it and returns.
-/

namespace RegisterCompiler.Layout

/-- The saved registers, each with the address where the frame keeps it. -/
def saves (l : Layout) : List (Reg × Asm.Addr) :=
  l.saved.filterMap fun r => (l.saveOffset? r).map fun offset => (r, { base := .fp, offset })

/-- Keeps the caller's frame pointer, makes room for the frame, and saves registers. -/
def prologue (l : Layout) : List Asm.Instr :=
  [.push .fp, .mov .w64 .fp .sp] ++
    (if 0 < l.size then [.aluImm .add .w64 .sp .sp (-l.size)] else []) ++
    l.saves.map fun (r, address) => .store .w64 r address

/-- Restores registers, drops the frame, and returns to the caller. -/
def epilogue (l : Layout) : List Asm.Instr :=
  (l.saves.map fun (r, address) => .load .w64 r address) ++ [.mov .w64 .sp .fp, .pop .fp, .ret]

end RegisterCompiler.Layout
