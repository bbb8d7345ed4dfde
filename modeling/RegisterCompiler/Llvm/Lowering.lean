import RegisterCompiler.IR.Validity
import RegisterCompiler.Llvm.Reader

/-!
# From LLVM functions to intermediate code

A value of type `iN` or `ptr` is carried in a variable of its width; a truth value (`i1`) is carried in eight
bits, as 0 or 1. Frame variables, and addresses computed from them, are kept as *slot references*, so that
loads and stores address the frame directly; they take an instruction only where they are used as values.

A function is lowered in four passes:

* blocks that control cannot reach are dropped (`reachable`);
* every result gets its variable (`declare`), so that code can refer to values that are defined further down;
* the instructions are lowered one by one (`lowerInstr`);
* the edges of the phis, which may come from anywhere, are filled in (`resolvePhi`).

The result is checked by `IR.Function.verify`.
-/

namespace RegisterCompiler.Llvm

/-- Why a function has no intermediate code. -/
inductive Obstacle where
  | noBody
  | unsupportedType (type : Ty)
  | duplicateLabel (label : String)
  | redefined (name : String)
  | globalOperand (name : String)
  | usedType (name : String) (width : Width) (type : Ty)
  | undefinedValue (name : String)
  | constantAddress (value : Value)
  | loadWidth
  | unknownPredicate (predicate : String)
  | signedBool
  | unknownLabel (label : String)
  | emptyAlloca
  | boolOperator (op : BinOp)
  | castToBool (op : CastOp)
  | castWidths (op : CastOp) (source target : Ty)
  | gepNonArray (type : Ty)
  | gepUnsized (type : Ty)
  | unsupportedIntrinsic (callee : String)
  | phiOperand (value : Value)
  | redefinedFunction (first : Pos)
  deriving DecidableEq, Repr, Inhabited

def Obstacle.message : Obstacle → String
  | noBody => "function has no body"
  | unsupportedType type => "unsupported type " ++ type.shown
  | duplicateLabel label => "duplicate label %" ++ label
  | redefined name => "%" ++ name ++ " defined more than once"
  | globalOperand name => "global @" ++ name ++ " is not supported"
  | usedType name width type => "%" ++ name ++ " is " ++ width.name ++ ", used as " ++ type.shown
  | undefinedValue name => "use of undefined value %" ++ name
  | constantAddress value => "access through constant address " ++ value.shown
  | loadWidth => "load width mismatch"
  | unknownPredicate predicate => "unknown icmp predicate " ++ predicate
  | signedBool => "signed comparison of i1 is not supported"
  | unknownLabel label => "branch to unknown label %" ++ label
  | emptyAlloca => "empty alloca"
  | boolOperator op => op.name ++ " on i1 is not supported"
  | castToBool op => op.name ++ " to i1"
  | castWidths op source target => op.name ++ " from " ++ source.shown ++ " to " ++ target.shown
  | gepNonArray type => "getelementptr into non-array type " ++ type.shown
  | gepUnsized type => "getelementptr over unsized type " ++ type.shown
  | unsupportedIntrinsic callee => "unsupported intrinsic @" ++ callee
  | phiOperand value => "unsupported phi operand " ++ value.shown
  | redefinedFunction first => "redefinition of function first defined at " ++ first.shown

/-- An obstacle in a function. -/
structure FunctionObstacle where
  function : String
  obstacle : Obstacle
  deriving DecidableEq, Repr, Inhabited

def FunctionObstacle.message (o : FunctionObstacle) : String :=
  "@" ++ o.function ++ ": " ++ o.obstacle.message

/-- Why a text has no intermediate code. -/
inductive SourceError where
  /-- It cannot be read. -/
  | mistake (e : ReadError)
  /-- A function cannot be lowered. -/
  | obstacle (e : Diagnostic FunctionObstacle)
  /-- The code of a function is malformed. -/
  | malformed (e : Diagnostic IR.VerifyError)
  deriving DecidableEq, Repr, Inhabited

def SourceError.message : SourceError → String
  | mistake e => e.message Mistake.message
  | obstacle e => e.message FunctionObstacle.message
  | malformed e => e.message IR.VerifyError.message

/-! ## Names in scope -/

/-- A phi whose edges are not filled in yet. -/
structure PendingPhi where
  pos : Pos
  dest : IR.Var
  incoming : List Incoming
  deriving DecidableEq, Repr, Inhabited

/-- A function being lowered. Later entries of a table stand first and hide earlier ones. -/
structure Scope where
  file : String
  function : String
  /-- The variables of the values. -/
  values : List (String × IR.Var)
  /-- The values known to be addresses in the frame. -/
  addresses : List (String × IR.SlotRef)
  /-- The labels of the blocks, each with its number. -/
  labels : List (String × IR.BlockId)
  slots : List IR.Slot
  nextVar : IR.VarId
  /-- The code of the current block so far. -/
  code : List IR.Instr
  phis : List PendingPhi
  deriving DecidableEq, Repr, Inhabited

/-- A step of lowering a function. -/
abbrev Lowering := StateT Scope (Except SourceError)

def obstruct {α : Type} (pos : Pos) (o : Obstacle) : Lowering α := do
  let s ← get
  throw (.obstacle ⟨s.file, pos, ⟨s.function, o⟩⟩)

def fresh (w : Width) : Lowering IR.Var := do
  let s ← get
  set { s with nextVar := s.nextVar + 1 }
  return ⟨s.nextVar, w⟩

def emit (i : IR.Instr) : Lowering Unit := modify fun s => { s with code := s.code ++ [i] }

/-- The width that carries a type. -/
def Ty.width? : Ty → Option Width
  | .ptr => some Width.w64
  | .int bits =>
    if bits = 1 ∨ bits = 8 then some Width.w8
    else if bits = 16 then some Width.w16
    else if bits = 32 then some Width.w32
    else if bits = 64 then some Width.w64
    else none
  | _ => none

def widthOf (pos : Pos) (type : Ty) : Lowering Width :=
  match type.width? with
  | some w => return w
  | none => obstruct pos (.unsupportedType type)

def resultVar (name : String) : Lowering IR.Var := do
  return ((← get).values.lookup name).getD ⟨0, Width.none⟩

def blockOf (pos : Pos) (label : String) : Lowering IR.BlockId := do
  match (← get).labels.lookup label with
  | some id => return id
  | none => obstruct pos (.unknownLabel label)

/-- An operand of a type. An address in the frame takes an instruction to become a value. -/
def operand (pos : Pos) (v : Value) (type : Ty) : Lowering IR.Operand := do
  let w ← widthOf pos type
  match v with
  | .const c => return .const c w
  | .globalName name => obstruct pos (.globalOperand name)
  | .localName name =>
    if let some ref := (← get).addresses.lookup name then
      let dest ← fresh Width.w64
      emit (.slotAddr dest ref)
      return .var dest
    match (← get).values.lookup name with
    | none => obstruct pos (.undefinedValue name)
    | some x =>
      if x.width ≠ w then obstruct pos (.usedType name x.width type)
      return .var x

/-- The address of a value. -/
def frameAddress? (v : Value) : Lowering (Option IR.SlotRef) := do
  match v with
  | .localName name => return (← get).addresses.lookup name
  | _ => return none

def address (pos : Pos) (v : Value) : Lowering IR.MemRef := do
  if let some ref ← frameAddress? v then return .slot ref
  match ← operand pos v .ptr with
  | .imm .. => obstruct pos (.constantAddress v)
  | .var x => return .pointer (some (.var x)) 0

/-! ## Declarations -/

/-- The name and the type of the value that an instruction defines. Frame variables, and addresses computed
    from them, define no value; `frame` lists their names. -/
def declared? (frame : List String) : Action → Option (String × Ty)
  | .load result type _ => some (result, type)
  | .binop result _ type _ _ => some (result, type)
  | .icmp result _ _ _ _ => some (result, .bool)
  | .cast result _ _ _ target => some (result, target)
  | .phi result type _ => some (result, type)
  | .call result type _ _ => if result = "" ∨ type = .void then none else some (result, type)
  | .gep result _ (.localName base) _ => if base ∈ frame then none else some (result, .ptr)
  | .gep result _ _ _ => some (result, .ptr)
  | .alloca .. | .store .. | .br _ | .condBr .. | .ret _ => none

/-- The name of the frame address that an instruction defines. -/
def framed? (frame : List String) : Action → Option String
  | .alloca result _ _ => some result
  | .gep result _ (.localName base) _ => if base ∈ frame then some result else none
  | _ => none

/-- Gives every result its variable. -/
def declare : (frame : List String) → List Instr → Lowering Unit
  | _, [] => return ()
  | frame, i :: rest => do
    if let some (name, type) := declared? frame i.action then
      let w ← widthOf i.pos type
      if ((← get).values.lookup name).isSome then obstruct i.pos (.redefined name)
      let v ← fresh w
      modify fun s => { s with values := (name, v) :: s.values }
    declare ((framed? frame i.action).toList ++ frame) rest

/-! ## Instructions -/

/-- The element type at the bottom of nested arrays, and the number of elements. -/
def flattened (count : Int64) : Ty → Int64 × Ty
  | .array length element => flattened (count * length) element
  | type => (count, type)

/-- Lowers a frame variable: an array is as many of its elements. -/
def lowerAlloca (pos : Pos) (result : String) (type : Ty) (count : Int64) : Lowering Unit := do
  let (count, element) := flattened count type
  let w ← widthOf pos element
  if count ≤ 0 then obstruct pos .emptyAlloca
  modify fun s =>
    let id : IR.SlotId := s.slots.length
    { s with
      slots := s.slots ++ [⟨id, result, count, w⟩]
      addresses := (result, ⟨id, none, 0, 0⟩) :: s.addresses }

/-- Lowers an operator. Of the operators on truth values, only the bitwise ones give a truth value. -/
def lowerBinop (pos : Pos) (result : String) (op : BinOp) (type : Ty) (x y : Value) : Lowering Unit := do
  if type = .bool ∧ op ∉ [BinOp.and, .or, .xor] then obstruct pos (.boolOperator op)
  let x ← operand pos x type
  let y ← operand pos y type
  emit (.binop op (← resultVar result) (some x) (some y))

def lowerIcmp (pos : Pos) (result predicate : String) (type : Ty) (x y : Value) : Lowering Unit := do
  match Cond.ofName? predicate with
  | none => obstruct pos (.unknownPredicate predicate)
  | some cond =>
    if type = .bool ∧ cond ≠ .eq ∧ cond ≠ .ne ∧ !cond.isUnsigned then obstruct pos .signedBool
    let x ← operand pos x type
    let y ← operand pos y type
    emit (.cmp cond (← resultVar result) (some x) (some y))

/-- Lowers a conversion. As a truth value is carried as 0 or 1, conversions from and to truth values are
    computed by other operators. -/
def lowerCast (pos : Pos) (result : String) (op : CastOp) (source : Ty) (value : Value) (target : Ty) :
    Lowering Unit := do
  let x ← operand pos value source
  let dest ← resultVar result
  let w := x.width
  if target = .bool then
    if op ≠ .trunc then obstruct pos (.castToBool op)
    if w = Width.w8 then
      emit (.binop .and dest (some x) (some (.const 1 Width.w8)))
    else
      let narrow ← fresh Width.w8
      emit (.cast .trunc narrow (some x))
      emit (.binop .and dest (some (.var narrow)) (some (.const 1 Width.w8)))
  else if source = .bool ∧ op = .sext then
    -- minus 0 or minus 1
    if dest.width = Width.w8 then
      emit (.binop .sub dest (some (.const 0 dest.width)) (some x))
    else
      let wide ← fresh dest.width
      emit (.cast .zext wide (some x))
      emit (.binop .sub dest (some (.const 0 dest.width)) (some (.var wide)))
  else if source = .bool ∧ dest.width = Width.w8 then
    emit (.binop .or dest (some x) (some (.const 0 Width.w8)))
  else
    if (if op = .trunc then w.bits ≤ dest.width.bits else dest.width.bits ≤ w.bits) then
      obstruct pos (.castWidths op source target)
    emit (.cast op dest (some x))

/-- A variable part of an address: an index and the bytes it counts in. -/
structure Term where
  index : IR.Operand
  scale : Int64
  deriving DecidableEq, Repr, Inhabited

/-- Adds a 64-bit operator. -/
def emitWide (op : BinOp) (x y : IR.Operand) : Lowering IR.Operand := do
  let dest ← fresh x.width
  emit (.binop op dest (some x) (some y))
  return .var dest

def termValue (t : Term) : Lowering IR.Operand := do
  let mut v := t.index
  if v.width ≠ Width.w64 then
    let wide ← fresh Width.w64
    emit (.cast .sext wide (some v))
    v := .var wide
  if t.scale ≠ 1 then v ← emitWide .mul v (.const t.scale Width.w64)
  return v

/-- The sum of variable parts of an address, after `sum`. -/
def addTerms (sum : IR.Operand) : List Term → Lowering IR.Operand
  | [] => return sum
  | t :: rest => do
    let v ← termValue t
    addTerms (← emitWide .add sum v) rest

/-- The indices of an address computation, split into the constant bytes and the variable parts; `type` is
    the type that the first index counts in, and every further one counts in the elements of the type
    before. -/
def addressParts (pos : Pos) : (type : Ty) → List TypedValue → Lowering (Int64 × List Term)
  | _, [] => return (0, [])
  | type, index :: rest => do
    let size := type.size
    if size = 0 then obstruct pos (.gepUnsized type)
    let part : Int64 × List Term ← match index.value with
      | .const c => pure (c * size, [])
      | v => do
        let x ← operand pos v index.type
        pure (0, [⟨x, size⟩])
    match rest with
    | [] => return part
    | _ :: _ =>
      match type with
      | .array _ element =>
        let (offset, terms) ← addressParts pos element rest
        return (part.1 + offset, part.2 ++ terms)
      | _ => obstruct pos (.gepNonArray type)

/-- Lowers an address computation. From an address in the frame it gives another, with at most one index. -/
def lowerGep (pos : Pos) (result : String) (element : Ty) (base : Value) (indices : List TypedValue) :
    Lowering Unit := do
  let (offset, terms) ← addressParts pos element indices
  if let some ref ← frameAddress? base then
    let moved := { ref with offset := ref.offset + offset }
    let all := (ref.index.map fun x => (⟨x, ref.scale⟩ : Term)).toList ++ terms
    let folded : IR.SlotRef ← match all with
      | [] => pure moved
      | [t] => pure { moved with index := some t.index, scale := t.scale }
      | t :: others => do
        let sum ← addTerms (← termValue t) others
        pure { moved with index := some sum, scale := 1 }
    modify fun s => { s with addresses := (result, folded) :: s.addresses }
  else
    let x ← operand pos base .ptr
    let dest ← resultVar result
    match terms with
    | [] => emit (.binop .add dest (some x) (some (.const offset Width.w64)))
    | t :: others =>
      let delta ← addTerms (← termValue t) others
      let x ← if offset ≠ 0 then emitWide .add x (.const offset Width.w64) else pure x
      emit (.binop .add dest (some x) (some delta))

/-- The beginnings of the names of calls that have no effect on the code. -/
def ignoredIntrinsics : List String :=
  ["llvm.lifetime.", "llvm.dbg.", "llvm.assume", "llvm.experimental.noalias.scope.decl"]

def lowerCall (pos : Pos) (result callee : String) (args : List TypedValue) : Lowering Unit := do
  if callee.startsWith "llvm." then
    if ignoredIntrinsics.any (callee.startsWith ·) then return ()
    obstruct pos (.unsupportedIntrinsic callee)
  let args ← args.mapM fun a => operand pos a.value a.type
  let known := (← get).values.lookup result
  emit (.call (if result = "" then none else known) callee (args.map some))

def lowerInstr (i : Instr) : Lowering Unit := do
  match i.action with
  | .alloca result type count => lowerAlloca i.pos result type count
  | .load result type pointer =>
    let w ← widthOf i.pos type
    let ref ← address i.pos pointer
    let dest ← resultVar result
    if dest.width ≠ w then obstruct i.pos .loadWidth
    emit (.load dest (some ref))
  | .store type value pointer =>
    let x ← operand i.pos value type
    let ref ← address i.pos pointer
    emit (.store (some x) (some ref))
  | .binop result op type x y => lowerBinop i.pos result op type x y
  | .icmp result predicate type x y => lowerIcmp i.pos result predicate type x y
  | .cast result op source value target => lowerCast i.pos result op source value target
  | .gep result element base indices => lowerGep i.pos result element base indices
  | .call result _ callee args => lowerCall i.pos result callee args
  | .phi result _ incoming =>
    let dest ← resultVar result
    emit (.phi dest [])
    modify fun s => { s with phis := s.phis ++ [⟨i.pos, dest, incoming⟩] }
  | .br target => emit (.jump (← blockOf i.pos target))
  | .condBr condition t e =>
    let x ← operand i.pos condition .bool
    let t ← blockOf i.pos t
    let e ← blockOf i.pos e
    emit (.branch (some x) t e)
  | .ret none => emit (.ret none)
  | .ret (some v) =>
    let x ← operand i.pos v.value v.type
    emit (.ret (some x))

def lowerBlock (b : Block) : Lowering (List IR.Instr) := do
  modify fun s => { s with code := [] }
  b.instrs.forM lowerInstr
  return (← get).code

/-! ## Control flow -/

/-- The labels that a block ends with a branch to. -/
def Block.targets (b : Block) : List String :=
  match b.instrs.getLast?.map Instr.action with
  | some (.br target) => [target]
  | some (.condBr _ t e) => [t, e]
  | _ => []

/-- The labels that a label leads to: of the blocks of one label, the last with a branch counts. -/
def Function.targets (f : Function) (label : String) : List String :=
  ((f.blocks.reverse.find? fun b => b.label == label && !b.targets.isEmpty).map Block.targets).getD []

/-- The labels that `work` leads to, `seen` being known; every label is taken up once for each branch to it,
    so `fuel` need not exceed the number of targets. -/
def reachableFrom (f : Function) : (fuel : Nat) → (seen work : List String) → List String
  | 0, seen, _ => seen
  | _, seen, [] => seen
  | fuel + 1, seen, label :: work =>
    if label ∈ seen then reachableFrom f fuel seen work
    else reachableFrom f fuel (label :: seen) (f.targets label ++ work)

/-- The labels that control can reach from the first block. -/
def Function.reachable (f : Function) : List String :=
  reachableFrom f (2 * f.blocks.length + 2) [] ((f.blocks.head?.map Block.label).toList)

def numberBlocks : (id : IR.BlockId) → List Block → Lowering Unit
  | _, [] => return ()
  | id, b :: rest => do
    if ((← get).labels.lookup b.label).isSome then obstruct b.pos (.duplicateLabel b.label)
    modify fun s => { s with labels := s.labels ++ [(b.label, id)] }
    numberBlocks (id + 1) rest

/-- The edge of a phi for an incoming value, none if it comes from a block that was dropped. -/
def resolveEdge (dropped : List String) (p : PendingPhi) (i : Incoming) :
    Lowering (Option IR.PhiEdge) := do
  if i.pred ∈ dropped then return none
  let pred ← blockOf p.pos i.pred
  match i.value with
  | .const c => return some ⟨pred, some (.const c p.dest.width)⟩
  | .localName name =>
    match (← get).values.lookup name with
    | some v => return some ⟨pred, some (.var v)⟩
    | none => obstruct p.pos (.phiOperand i.value)
  | .globalName _ => obstruct p.pos (.phiOperand i.value)

def resolvePhi (dropped : List String) (p : PendingPhi) : Lowering (IR.VarId × List IR.PhiEdge) := do
  let edges ← p.incoming.mapM (resolveEdge dropped p)
  return (p.dest.id, edges.filterMap id)

def fillPhi (edges : List (IR.VarId × List IR.PhiEdge)) : IR.Instr → IR.Instr
  | .phi dest _ => .phi dest ((edges.lookup dest.id).getD [])
  | i => i

/-! ## Functions -/

def declareParams (pos : Pos) (params : List Param) : Lowering (List IR.Var) :=
  params.mapM fun p => do
    let w ← widthOf pos p.type
    let v ← fresh w
    modify fun s => { s with values := (p.name, v) :: s.values }
    return v

/-- Lowers a function that has a body, and does not check the result. -/
def lowerBody (f : Function) : Lowering IR.Function := do
  if f.blocks.isEmpty then obstruct f.pos .noBody
  let result ← if f.result = .void then pure Width.none else widthOf f.pos f.result
  let params ← declareParams f.pos f.params
  let reachable := f.reachable
  let kept := f.blocks.filter (·.label ∈ reachable)
  let dropped := (f.blocks.filter (·.label ∉ reachable)).map Block.label
  numberBlocks 0 kept
  declare [] (kept.flatMap Block.instrs)
  let codes ← kept.mapM lowerBlock
  let edges ← (← get).phis.mapM (resolvePhi dropped)
  let blocks := (kept.zip codes).mapIdx fun k (b, code) =>
    (⟨k, b.label, code.map (fillPhi edges)⟩ : IR.Block)
  return ⟨f.name, params, result, blocks, 0, (← get).slots⟩

def Function.lower (file : String) (f : Function) : Except SourceError IR.Function := do
  let code ← (lowerBody f).run' ⟨file, f.name, [], [], [], [], 1, [], []⟩
  match code.verify with
  | .ok () => return code
  | .error e => .error (.malformed ⟨file, f.pos, e⟩)

/-- Lowers functions one by one; `defined` lists the names of the functions before, each with the place of
    its first definition. -/
def lowerAll (file : String) :
    (defined : List (String × Pos)) → List Function → List (Except SourceError IR.Function)
  | _, [] => []
  | defined, f :: rest =>
    match defined.lookup f.name with
    | some first =>
      .error (.obstacle ⟨file, f.pos, ⟨f.name, .redefinedFunction first⟩⟩) :: lowerAll file defined rest
    | none => f.lower file :: lowerAll file ((f.name, f.pos) :: defined) rest

/-- All the values of a list, or all the errors if there is one. -/
def allOk {ε α : Type} (results : List (Except ε α)) : Except (List ε) (List α) :=
  match results.filterMap fun
      | .ok _ => none
      | .error e => some e with
  | [] => .ok (results.filterMap Except.toOption)
  | errors => .error errors

/-- The intermediate code of a text, or all that keeps it from having any. -/
def readModule (file source : String) : Except (List SourceError) IR.Module :=
  match readFunctions file source with
  | (functions, []) => (allOk (lowerAll file [] functions)).map IR.Module.mk
  | (_, errors) => .error (errors.map .mistake)

end RegisterCompiler.Llvm
