import RegisterCompiler.IR.Printer
import RegisterCompiler.Target.Descriptor
import RegisterCompiler.Text.Blank

/-!
# Frame layouts

The frame of a function holds the registers that it saves, its frame variables and the variables that got no
register. Each of them is an *area* of the frame, at a fixed negative offset from the frame pointer; an area
lies below all areas before it. Above the frame pointer are the caller's frame pointer, the return address and
the arguments that came on the stack.

* `Layout.ofFunction` lays out a frame, or fails if the machine does not allow one of its size.
-/

namespace RegisterCompiler

open IR (Function Slot SlotId Var VarId)

/-- What an area of the frame holds. -/
inductive AreaUse where
  | save (r : Reg)
  | slot (s : Slot)
  | spill (v : Var)
  deriving DecidableEq, Repr, Inhabited

namespace AreaUse

def kind : AreaUse → String
  | save _ => "save"
  | slot _ => "local"
  | spill _ => "spill"

def name : AreaUse → String
  | save r => r.name
  | slot s => s.name
  | spill v => v.shown

def kindOfCode (n : Int) : String :=
  if n = 0 then "save" else if n = 1 then "local" else if n = 2 then "spill" else "?"

end AreaUse

/-- An area of the frame: the bytes from `offset` on, counted from the frame pointer. -/
structure Area where
  use : AreaUse
  offset : Int64
  size : Int64
  align : Int64
  deriving DecidableEq, Repr, Inhabited

/-- The frame of a function. -/
structure Layout where
  function : String
  /-- The areas, from the frame pointer downwards. -/
  areas : List Area
  size : Int64
  /-- The bytes of an argument on the stack. -/
  argSize : Int64
  deriving DecidableEq, Repr, Inhabited

/-- A frame larger than the machine allows. -/
structure FrameOverflow where
  function : String
  size : Int64
  limit : Int64
  deriving DecidableEq, Repr, Inhabited

def FrameOverflow.message (e : FrameOverflow) : String :=
  e.function ++ ": stack frame of " ++ Text.decimal e.size ++ " bytes exceeds the " ++
    Text.decimal e.limit ++ " byte limit"

/-- The multiple of `align` that `n` is rounded up to. -/
def alignUp (n align : Int64) : Int64 :=
  if align = 0 then n else ((n + align - 1) / align) * align

/-- An area before it has its place: what it holds, its size and its alignment. -/
structure AreaRequest where
  use : AreaUse
  size : Int64
  align : Int64
  deriving DecidableEq, Repr, Inhabited

namespace AreaRequest

def save (r : Reg) : AreaRequest := ⟨.save r, 8, 8⟩

def slot (d : Descriptor) (s : Slot) : AreaRequest :=
  ⟨.slot s, alignUp s.size d.slotAlign, if s.element.bytes < d.slotAlign then d.slotAlign else s.element.bytes⟩

def spill (v : Var) : AreaRequest := ⟨.spill v, v.width.bytes, v.width.bytes⟩

end AreaRequest

namespace Layout

/-- Places areas one below the other, the first below `depth` bytes. Gives the areas and the depth of the
    last. -/
def place : (depth : Int64) → List AreaRequest → List Area × Int64
  | depth, [] => ([], depth)
  | depth, r :: rest =>
    let bottom := alignUp (depth + r.size) r.align
    let (areas, final) := place bottom rest
    (⟨r.use, -bottom, r.size, r.align⟩ :: areas, final)

/-- The areas that a frame is made of, in their order. -/
def requests (d : Descriptor) (slots : List Slot) (spilled : List Var) (saved : List Reg) : List AreaRequest :=
  saved.map .save ++ slots.map (.slot d) ++ spilled.map .spill

/-- The frame of a function whose allocation leaves `spilled` without a register and saves `saved`. -/
def ofFunction (d : Descriptor) (f : Function) (spilled : List Var) (saved : List Reg) :
    Except FrameOverflow Layout :=
  let (areas, depth) := place 0 (requests d f.slots spilled saved)
  let size := alignUp depth d.stackAlign
  if d.maxFrame < size then .error ⟨f.name, size, d.maxFrame⟩
  else .ok ⟨f.name, areas, size, d.stackArgSize⟩

/-- The offset of the last area whose use passes a test. -/
def offset? (l : Layout) (p : AreaUse → Bool) : Option Int64 :=
  (l.areas.reverse.find? (p ·.use)).map Area.offset

def slotOffset? (l : Layout) (id : SlotId) : Option Int64 :=
  l.offset? fun
    | .slot s => s.id = id
    | _ => false

def spillOffset? (l : Layout) (id : VarId) : Option Int64 :=
  l.offset? fun
    | .spill v => v.id = id
    | _ => false

def saveOffset? (l : Layout) (r : Reg) : Option Int64 := l.offset? (· = .save r)

/-- The offset of the `k`-th argument on the stack. -/
def argOffset (l : Layout) (k : Int64) : Int64 := 16 + k * l.argSize

def saved (l : Layout) : List Reg :=
  l.areas.filterMap fun a =>
    match a.use with
    | .save r => some r
    | _ => none

def listing (l : Layout) : String :=
  let lines := l.areas.map fun a =>
    "  [fp" ++ Text.signedDecimal a.offset ++ "] " ++ Text.padded 5 a.use.kind ++ " " ++ a.use.name ++ " (" ++
      Text.decimal a.size ++ " bytes)\n"
  "frame " ++ l.function ++ ": " ++ Text.decimal l.size ++ " bytes\n" ++ String.join lines

end Layout

/-- Something that a frame was asked for and does not have. -/
inductive FrameLack where
  | slot (id : SlotId)
  | spill (v : Var)
  | save (r : Reg)
  deriving DecidableEq, Repr, Inhabited

def FrameLack.message (function : String) : FrameLack → String
  | slot id => "stacking: " ++ function ++ " has no slot " ++ toString id
  | spill v => "stacking: " ++ function ++ " has no spill slot for " ++ v.shown
  | save r => "stacking: " ++ function ++ " does not save " ++ r.name

end RegisterCompiler
