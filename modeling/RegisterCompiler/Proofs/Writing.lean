import RegisterCompiler.Proofs.Scanning

/-!
# Functions that are written

A function is written as LLVM writes it: its head and the brace at its end have a line each, and so have labels and
instructions. `Function.lines` takes the text apart into the tokens and spaces of its lines.
-/

namespace RegisterCompiler.Llvm

open List

variable {α : Type}

/-- How the number of values in a frame variable is written: the width of its type, and whether it is written even if it
    is one. -/
structure CountStyle where
  bits : Int64
  always : Bool

def TypedValue.written (v : TypedValue) : String := v.type.shown ++ " " ++ v.value.shown

def Incoming.written (i : Incoming) : String := "[ " ++ i.value.shown ++ ", %" ++ i.pred ++ " ]"

def Param.written (p : Param) : String := p.type.shown ++ " %" ++ p.name

def Action.written (style : CountStyle) : Action → String
  | .alloca result type count => "%" ++ result ++ " = alloca " ++ type.shown ++
      if count = 1 ∧ !style.always then "" else ", i" ++ Text.decimal style.bits ++ " " ++ Text.decimal count
  | .load result type pointer => "%" ++ result ++ " = load " ++ type.shown ++ ", ptr " ++ pointer.shown
  | .store type value pointer => "store " ++ type.shown ++ " " ++ value.shown ++ ", ptr " ++ pointer.shown
  | .binop result op type x y =>
    "%" ++ result ++ " = " ++ op.name ++ " " ++ type.shown ++ " " ++ x.shown ++ ", " ++ y.shown
  | .icmp result predicate type x y =>
    "%" ++ result ++ " = icmp " ++ predicate ++ " " ++ type.shown ++ " " ++ x.shown ++ ", " ++ y.shown
  | .cast result op source value target =>
    "%" ++ result ++ " = " ++ op.name ++ " " ++ source.shown ++ " " ++ value.shown ++ " to " ++ target.shown
  | .gep result element base indices => "%" ++ result ++ " = getelementptr " ++ element.shown ++ ", ptr " ++ base.shown ++
      String.join (indices.map (", " ++ ·.written))
  | .call result type callee args => (if result = "" then "" else "%" ++ result ++ " = ") ++ "call " ++ type.shown ++
      " @" ++ callee ++ "(" ++ ", ".intercalate (args.map TypedValue.written) ++ ")"
  | .phi result type incoming =>
    "%" ++ result ++ " = phi " ++ type.shown ++ " " ++ ", ".intercalate (incoming.map Incoming.written)
  | .br target => "br label %" ++ target
  | .condBr condition thenTarget elseTarget =>
    "br i1 " ++ condition.shown ++ ", label %" ++ thenTarget ++ ", label %" ++ elseTarget
  | .ret none => "ret void"
  | .ret (some value) => "ret " ++ value.written

def Block.written (style : CountStyle) (b : Block) : String :=
  b.label ++ ":\n" ++ String.join (b.instrs.map fun i => "  " ++ i.action.written style ++ "\n")

def Function.written (style : CountStyle) (f : Function) : String :=
  "define " ++ f.result.shown ++ " @" ++ f.name ++ "(" ++ ", ".intercalate (f.params.map Param.written) ++ ") \x7b\n" ++
    String.join (f.blocks.map (Block.written style)) ++ "\x7d\n"

/-! ## Plain functions -/

/-- Types with a name, and arrays of them. -/
def Ty.isPlain : Ty → Bool
  | void | ptr => true
  | int bits => 0 < bits
  | array _ element => element.isPlain
  | label => false

def Value.isPlain : Value → Bool
  | localName name | globalName name => isIdent name
  | const _ => true

def TypedValue.isPlain (v : TypedValue) : Bool := v.type.isPlain && v.value.isPlain

def Incoming.isPlain (i : Incoming) : Bool := i.value.isPlain && isIdent i.pred

def Param.isPlain (p : Param) : Bool := p.type.isPlain && isIdent p.name

/-- Instructions whose operators have a name. A call may have no result, a phi has a value at least, and nothing of type
    `void` is returned. -/
def Action.isPlain : Action → Bool
  | .alloca result type _ => isIdent result && type.isPlain
  | .load result type pointer => isIdent result && type.isPlain && pointer.isPlain
  | .store type value pointer => type.isPlain && value.isPlain && pointer.isPlain
  | .binop result op type x y => isIdent result && BinOp.all.contains op && type.isPlain && x.isPlain && y.isPlain
  | .icmp result predicate type x y =>
    isIdent result && Cond.all.any (·.name == predicate) && type.isPlain && x.isPlain && y.isPlain
  | .cast result op source value target =>
    isIdent result && CastOp.all.contains op && source.isPlain && value.isPlain && target.isPlain
  | .gep result element base indices =>
    isIdent result && element.isPlain && base.isPlain && indices.all TypedValue.isPlain
  | .call result type callee args =>
    (result == "" || isIdent result) && type.isPlain && isIdent callee && args.all TypedValue.isPlain
  | .phi result type incoming => isIdent result && type.isPlain && !incoming.isEmpty && incoming.all Incoming.isPlain
  | .br target => isIdent target
  | .condBr condition thenTarget elseTarget => condition.isPlain && isIdent thenTarget && isIdent elseTarget
  | .ret none => true
  | .ret (some value) => value.type != .void && value.isPlain

def Block.isPlain (b : Block) : Bool := isIdent b.label && b.instrs.all (·.action.isPlain)

/-- Functions that can be written. -/
def Function.isPlain (f : Function) : Bool :=
  isIdent f.name && f.result.isPlain && f.params.all Param.isPlain && f.blocks.all Block.isPlain

/-! ## Lines -/

namespace Glyph

abbrev mark (kind : TokenKind) : Glyph := token ⟨kind, kind.name⟩

abbrev word (w : String) : Glyph := token ⟨.word, w⟩

abbrev number (v : Int64) : Glyph := token ⟨.int, Text.decimal v⟩

abbrev localName (name : String) : Glyph := token ⟨.localName, name⟩

abbrev globalName (name : String) : Glyph := token ⟨.globalName, name⟩

abbrev comma : List Glyph := [mark .comma, space]

end Glyph

open Glyph

def commas : List (List Glyph) → List Glyph
  | [] => []
  | gs :: rest => gs ++ rest.flatMap (comma ++ ·)

def Ty.glyphs : Ty → List Glyph
  | array length element =>
    [mark .leftBracket, number length, .space, word "x", .space] ++ element.glyphs ++ [mark .rightBracket]
  | t => [word t.shown]

def Value.glyphs : Value → List Glyph
  | localName name => [Glyph.localName name]
  | globalName name => [Glyph.globalName name]
  | const v => [number v]

def TypedValue.glyphs (v : TypedValue) : List Glyph := v.type.glyphs ++ .space :: v.value.glyphs

def Incoming.glyphs (i : Incoming) : List Glyph :=
  [mark .leftBracket, space] ++ i.value.glyphs ++ comma ++ [localName i.pred, space, mark .rightBracket]

def Param.glyphs (p : Param) : List Glyph := p.type.glyphs ++ [space, localName p.name]

namespace Action

def opening (result op : String) : List Glyph := [localName result, space, mark .assign, space, word op, space]

/-- A pointer operand with the comma before it. -/
def pointer (v : Value) : List Glyph := comma ++ [word "ptr", space] ++ v.glyphs

/-- A type and two operands. -/
def pair (type : Ty) (x y : Value) : List Glyph := type.glyphs ++ .space :: x.glyphs ++ comma ++ y.glyphs

def target (label : String) : List Glyph := [word "label", space, localName label]

def glyphs (style : CountStyle) : Action → List Glyph
  | .alloca result type count => opening result "alloca" ++ type.glyphs ++
      if count = 1 ∧ !style.always then [] else comma ++ (Ty.int style.bits).glyphs ++ [space, number count]
  | .load result type p => opening result "load" ++ type.glyphs ++ pointer p
  | .store type value p => [word "store", space] ++ TypedValue.glyphs ⟨type, value⟩ ++ pointer p
  | .binop result op type x y => opening result op.name ++ pair type x y
  | .icmp result predicate type x y => opening result "icmp" ++ [word predicate, space] ++ pair type x y
  | .cast result op source value target =>
    opening result op.name ++ TypedValue.glyphs ⟨source, value⟩ ++ [space, word "to", space] ++ target.glyphs
  | .gep result element base indices =>
    opening result "getelementptr" ++ element.glyphs ++ pointer base ++ indices.flatMap (comma ++ ·.glyphs)
  | .call result type callee args =>
    (if result = "" then [word "call", space] else opening result "call") ++ type.glyphs ++
      [space, globalName callee, mark .leftParen] ++ commas (args.map TypedValue.glyphs) ++ [mark .rightParen]
  | .phi result type incoming =>
    opening result "phi" ++ type.glyphs ++ [space] ++ commas (incoming.map Incoming.glyphs)
  | .br label => [word "br", space] ++ target label
  | .condBr condition thenTarget elseTarget =>
    [word "br", space, word "i1", space] ++ condition.glyphs ++ comma ++ target thenTarget ++ comma ++ target elseTarget
  | .ret none => [word "ret", space, word "void"]
  | .ret (some value) => [word "ret", space] ++ value.glyphs

end Action

def Block.lines (style : CountStyle) (b : Block) : List (List Glyph) :=
  [token ⟨.label, b.label⟩] :: b.instrs.map fun i => space :: space :: i.action.glyphs style

def Function.head (f : Function) : List Glyph :=
  [word "define", space] ++ f.result.glyphs ++ [space, globalName f.name, mark .leftParen] ++
    commas (f.params.map Param.glyphs) ++ [mark .rightParen, space, mark .leftBrace]

/-- The tokens and spaces of a function, line by line. -/
def Function.lines (style : CountStyle) (f : Function) : List (List Glyph) :=
  f.head :: f.blocks.flatMap (Block.lines style) ++ [[mark .rightBrace]]

/-! ## The text of the lines -/

@[simp]
theorem spelled_nil : spelled [] = [] := rfl

@[simp]
theorem spelled_space (gs : List Glyph) : spelled (.space :: gs) = ' ' :: spelled gs := rfl

@[simp]
theorem spelled_token (s : Shape) (gs : List Glyph) : spelled (.token s :: gs) = s.spelled ++ spelled gs := rfl

@[simp]
theorem spelled_append (gs gs' : List Glyph) : spelled (gs ++ gs') = spelled gs ++ spelled gs' := flatMap_append

theorem spelled_flatMap (f : α → List Glyph) (l : List α) :
    spelled (l.flatMap f) = l.flatMap fun a => spelled (f a) := flatMap_assoc

@[simp]
theorem Ty.spelled_glyphs (t : Ty) : spelled t.glyphs = t.shown.toList := by
  induction t with
  | array length element ih => simp [glyphs, shown, ih, Shape.spelled, TokenKind.name]
  | _ => simp [glyphs, shown, Shape.spelled]

@[simp]
theorem Value.spelled_glyphs (v : Value) : spelled v.glyphs = v.shown.toList := by
  cases v <;> simp [glyphs, shown, Shape.spelled]

@[simp]
theorem TypedValue.spelled_glyphs (v : TypedValue) : spelled v.glyphs = v.written.toList := by
  simp [glyphs, written]

@[simp]
theorem Incoming.spelled_glyphs (i : Incoming) : spelled i.glyphs = i.written.toList := by
  simp [glyphs, written, Shape.spelled, TokenKind.name]

@[simp]
theorem Param.spelled_glyphs (p : Param) : spelled p.glyphs = p.written.toList := by
  simp [glyphs, written, Shape.spelled]

theorem spelled_commas {f : α → List Glyph} {g : α → String} (h : ∀ a, spelled (f a) = (g a).toList) (l : List α) :
    spelled (commas (l.map f)) = (", ".intercalate (l.map g)).toList := by
  rw [String.toList_intercalate, map_map]
  cases l with
  | nil => rfl
  | cons a l =>
    change spelled (f a ++ (l.map f).flatMap (comma ++ ·)) =
      [',', ' '].intercalate ((g a).toList :: l.map (String.toList ∘ g))
    rw [Asm.intercalate_cons_flatMap, spelled_append, h, spelled_flatMap, flatMap_map, flatMap_map]
    simp [h, Shape.spelled, TokenKind.name]

theorem Action.spelled_glyphs (style : CountStyle) (a : Action) : spelled (a.glyphs style) = (a.written style).toList := by
  have hargs := spelled_commas TypedValue.spelled_glyphs
  have hincoming := spelled_commas Incoming.spelled_glyphs
  cases a with
  | alloca result type count =>
    rw [glyphs, written]
    split <;> simp [opening, Shape.spelled, TokenKind.name, Ty.shown]
  | gep result element base indices =>
    simp [glyphs, written, opening, pointer, Shape.spelled, TokenKind.name, spelled_flatMap, String.toList_join, flatMap_map]
  | call result type callee args =>
    rw [glyphs, written]
    split <;> simp [opening, Shape.spelled, TokenKind.name, hargs]
  | ret value =>
    cases value <;> simp [glyphs, written, Shape.spelled]
  | _ => simp [glyphs, written, opening, pointer, pair, target, Shape.spelled, TokenKind.name, hincoming, TypedValue.written]

theorem Block.spelled_lines (style : CountStyle) (b : Block) :
    ((b.lines style).flatMap fun gs => spelled gs ++ ['\n']) = (b.written style).toList := by
  simp [lines, written, Shape.spelled, flatMap_map, String.toList_join, Action.spelled_glyphs]

theorem Function.toList_written (style : CountStyle) (f : Function) :
    (f.written style).toList = (f.lines style).flatMap fun gs => spelled gs ++ ['\n'] := by
  have hhead : spelled f.head = ("define " ++ f.result.shown ++ " @" ++ f.name ++ "(" ++
      ", ".intercalate (f.params.map Param.written) ++ ") \x7b").toList := by
    simp [head, Shape.spelled, TokenKind.name, spelled_commas Param.spelled_glyphs]
  have hblocks : ((f.blocks.flatMap (Block.lines style)).flatMap fun gs => spelled gs ++ ['\n']) =
      (String.join (f.blocks.map (Block.written style))).toList := by
    rw [flatMap_assoc, String.toList_join, flatMap_map]
    exact flatMap_congr fun b _ => b.spelled_lines style
  simp [lines, written, hhead, hblocks, Shape.spelled, TokenKind.name]

/-! ## Tokens stay apart -/

variable {gs : List Glyph}

theorem legible_mark {kind : TokenKind} (hproper : Shape.Proper ⟨kind, kind.name⟩)
    (hclosed : Shape.isOpen ⟨kind, kind.name⟩ = false) (h : Legible gs) : Legible (mark kind :: gs) :=
  ⟨hproper, fun hopen => absurd (hclosed.symm.trans hopen) Bool.false_ne_true, h⟩

theorem Ty.legible {t : Ty} (ht : t.isPlain) (h : Legible gs) (hapart : Apart gs) : Legible (t.glyphs ++ gs) := by
  induction t generalizing gs with
  | array length element ih =>
    rw [glyphs, append_assoc, append_assoc]
    refine legible_mark rfl rfl ⟨⟨length, rfl⟩, fun _ => trivial, (by decide : isIdent "x"), fun _ => trivial, ?_⟩
    exact ih ht (legible_mark rfl rfl h) rfl
  | int bits =>
    have hname : isIdent ("i" ++ Text.decimal bits) := by
      rw [isIdent, String.toList_append]
      exact all_eq_true.2 (Asm.isName_decimal bits).all
    exact ⟨hname, fun _ => hapart, h⟩
  | void => exact ⟨(by decide : isIdent "void"), fun _ => hapart, h⟩
  | ptr => exact ⟨(by decide : isIdent "ptr"), fun _ => hapart, h⟩
  | label => cases ht

theorem Value.legible {v : Value} (hv : v.isPlain) (h : Legible gs) (hapart : Apart gs) : Legible (v.glyphs ++ gs) := by
  cases v with
  | localName | globalName => exact ⟨hv, fun _ => hapart, h⟩
  | const v => exact ⟨⟨v, rfl⟩, fun _ => hapart, h⟩

theorem TypedValue.legible {v : TypedValue} (hv : v.isPlain) (h : Legible gs) (hapart : Apart gs) :
    Legible (v.glyphs ++ gs) := by
  obtain ⟨htype, hvalue⟩ := Bool.and_eq_true_iff.1 hv
  rw [glyphs, append_assoc]
  exact Ty.legible htype (Value.legible hvalue h hapart) trivial

theorem Incoming.legible {i : Incoming} (hi : i.isPlain) (h : Legible gs) : Legible (i.glyphs ++ gs) := by
  obtain ⟨hvalue, hpred⟩ := Bool.and_eq_true_iff.1 hi
  simp only [glyphs, append_assoc]
  refine legible_mark rfl rfl (Value.legible hvalue ?_ rfl)
  exact legible_mark rfl rfl ⟨hpred, fun _ => trivial, legible_mark rfl rfl h⟩

theorem Param.legible {p : Param} (hp : p.isPlain) (h : Legible gs) (hapart : Apart gs) : Legible (p.glyphs ++ gs) := by
  obtain ⟨htype, hname⟩ := Bool.and_eq_true_iff.1 hp
  rw [glyphs, append_assoc]
  exact Ty.legible htype ⟨hname, fun _ => hapart, h⟩ trivial

theorem legible_flatMap_comma {f : α → List Glyph} {l : List α}
    (hf : ∀ a ∈ l, ∀ {gs}, Legible gs → Apart gs → Legible (f a ++ gs)) (h : Legible gs) (hapart : Apart gs) :
    Legible (l.flatMap (comma ++ f ·) ++ gs) ∧ Apart (l.flatMap (comma ++ f ·) ++ gs) := by
  induction l with
  | nil => exact ⟨h, hapart⟩
  | cons a l ih =>
    obtain ⟨ha, hl⟩ := forall_mem_cons.1 hf
    obtain ⟨hlegible, hapart⟩ := ih hl
    rw [flatMap_cons, append_assoc, append_assoc]
    exact ⟨legible_mark rfl rfl (ha hlegible hapart), rfl⟩

theorem legible_commas {f : α → List Glyph} {l : List α}
    (hf : ∀ a ∈ l, ∀ {gs}, Legible gs → Apart gs → Legible (f a ++ gs)) (h : Legible gs) (hapart : Apart gs) :
    Legible (commas (l.map f) ++ gs) := by
  cases l with
  | nil => exact h
  | cons a l =>
    obtain ⟨ha, hl⟩ := forall_mem_cons.1 hf
    obtain ⟨hlegible, hapart⟩ := legible_flatMap_comma hl h hapart
    rw [map_cons, commas, flatMap_map, append_assoc]
    exact ha hlegible hapart

namespace Action

theorem legible_opening {result op : String} (hresult : isIdent result) (hop : isIdent op) (h : Legible gs) :
    Legible (opening result op ++ gs) :=
  ⟨hresult, fun _ => trivial, legible_mark rfl rfl ⟨hop, fun _ => trivial, h⟩⟩

theorem legible_pointer {v : Value} (hv : v.isPlain) (h : Legible gs) (hapart : Apart gs) :
    Legible (pointer v ++ gs) := by
  simp only [pointer, append_assoc]
  exact legible_mark rfl rfl ⟨(by decide : isIdent "ptr"), fun _ => trivial, Value.legible hv h hapart⟩

theorem legible_pair {type : Ty} {x y : Value} (htype : type.isPlain) (hx : x.isPlain) (hy : y.isPlain) (h : Legible gs)
    (hapart : Apart gs) : Legible (pair type x y ++ gs) := by
  simp only [pair, append_assoc, cons_append]
  exact Ty.legible htype (Value.legible hx (legible_mark rfl rfl (Value.legible hy h hapart)) rfl) trivial

theorem legible_target {label : String} (hlabel : isIdent label) (h : Legible gs) (hapart : Apart gs) :
    Legible (target label ++ gs) :=
  ⟨(by decide : isIdent "label"), fun _ => trivial, hlabel, fun _ => hapart, h⟩

theorem isIdent_name : (∀ op ∈ BinOp.all, isIdent op.name) ∧ (∀ op ∈ CastOp.all, isIdent op.name) ∧
    ∀ c ∈ Cond.all, isIdent c.name := by decide

theorem legible_glyphs {style : CountStyle} (hbits : 0 < style.bits) {a : Action} (ha : a.isPlain) (h : Legible gs)
    (hapart : Apart gs) : Legible (a.glyphs style ++ gs) := by
  obtain ⟨hbinop, hcast, hcond⟩ := isIdent_name
  have hvalue : ∀ {v : TypedValue}, v.isPlain → ∀ {gs}, Legible gs → Apart gs → Legible (v.glyphs ++ gs) :=
    fun hv _ => TypedValue.legible hv
  cases a with
  | alloca result type count =>
    simp only [isPlain, Bool.and_eq_true] at ha
    simp only [glyphs, append_assoc]
    refine legible_opening ha.1 (by decide) ?_
    split
    · exact Ty.legible ha.2 h hapart
    · have hcount : (Ty.int style.bits).isPlain := decide_eq_true hbits
      simp only [append_assoc]
      refine Ty.legible ha.2 (legible_mark rfl rfl (Ty.legible hcount ?_ trivial)) rfl
      exact ⟨⟨count, rfl⟩, fun _ => hapart, h⟩
  | load result type p =>
    simp only [isPlain, Bool.and_eq_true] at ha
    simp only [glyphs, append_assoc]
    exact legible_opening ha.1.1 (by decide) (Ty.legible ha.1.2 (legible_pointer ha.2 h hapart) rfl)
  | store type value p =>
    simp only [isPlain, Bool.and_eq_true] at ha
    simp only [glyphs, append_assoc]
    refine ⟨(by decide : isIdent "store"), fun _ => trivial, ?_⟩
    exact hvalue (v := ⟨type, value⟩) (Bool.and_eq_true_iff.2 ha.1) (legible_pointer ha.2 h hapart) rfl
  | binop result op type x y =>
    simp only [isPlain, Bool.and_eq_true, contains_iff_mem] at ha
    simp only [glyphs, append_assoc]
    exact legible_opening ha.1.1.1.1 (hbinop op ha.1.1.1.2) (legible_pair ha.1.1.2 ha.1.2 ha.2 h hapart)
  | icmp result predicate type x y =>
    simp only [isPlain, Bool.and_eq_true, any_eq_true, beq_iff_eq] at ha
    obtain ⟨c, hc, rfl⟩ := ha.1.1.1.2
    simp only [glyphs, append_assoc]
    refine legible_opening ha.1.1.1.1 (by decide) ⟨hcond c hc, fun _ => trivial, ?_⟩
    exact legible_pair ha.1.1.2 ha.1.2 ha.2 h hapart
  | cast result op source value target =>
    simp only [isPlain, Bool.and_eq_true, contains_iff_mem] at ha
    simp only [glyphs, append_assoc]
    refine legible_opening ha.1.1.1.1 (hcast op ha.1.1.1.2) ?_
    refine hvalue (v := ⟨source, value⟩) (Bool.and_eq_true_iff.2 ⟨ha.1.1.2, ha.1.2⟩) ?_ trivial
    exact ⟨(by decide : isIdent "to"), fun _ => trivial, Ty.legible ha.2 h hapart⟩
  | gep result element base indices =>
    simp only [isPlain, Bool.and_eq_true, all_eq_true] at ha
    -- what follows the base is a comma, or what follows the instruction if there are no indices
    obtain ⟨hlegible, hapart⟩ := legible_flatMap_comma (fun v hv => hvalue (ha.2 v hv)) h hapart
    simp only [glyphs, append_assoc]
    refine legible_opening ha.1.1.1 (by decide) (Ty.legible ha.1.1.2 ?_ rfl)
    exact legible_pointer ha.1.2 hlegible hapart
  | call result type callee args =>
    simp only [isPlain, Bool.and_eq_true, all_eq_true, Bool.or_eq_true, beq_iff_eq] at ha
    have hrest : Legible (type.glyphs ++ ([space, globalName callee, mark .leftParen] ++
        (commas (args.map TypedValue.glyphs) ++ ([mark .rightParen] ++ gs)))) := by
      refine Ty.legible ha.1.1.2 ⟨ha.1.2, fun _ => rfl, legible_mark rfl rfl ?_⟩ trivial
      exact legible_commas (fun v hv => hvalue (ha.2 v hv)) (legible_mark rfl rfl h) rfl
    simp only [glyphs, append_assoc]
    split
    · exact ⟨(by decide : isIdent "call"), fun _ => trivial, hrest⟩
    · next hne => exact legible_opening (ha.1.1.1.resolve_left hne) (by decide) hrest
  | phi result type incoming =>
    simp only [isPlain, Bool.and_eq_true, all_eq_true] at ha
    simp only [glyphs, append_assoc]
    refine legible_opening ha.1.1.1 (by decide) (Ty.legible ha.1.1.2 ?_ trivial)
    exact legible_commas (fun i hi _ hgs _ => Incoming.legible (ha.2 i hi) hgs) h hapart
  | br label =>
    exact ⟨(by decide : isIdent "br"), fun _ => trivial, legible_target ha h hapart⟩
  | condBr condition thenTarget elseTarget =>
    simp only [isPlain, Bool.and_eq_true] at ha
    simp only [glyphs, append_assoc]
    refine ⟨(by decide : isIdent "br"), fun _ => trivial, (by decide : isIdent "i1"), fun _ => trivial, ?_⟩
    refine Value.legible ha.1.1 (legible_mark rfl rfl (legible_target ha.1.2 (legible_mark rfl rfl ?_) rfl)) rfl
    exact legible_target ha.2 h hapart
  | ret value =>
    have hret : isIdent "ret" := by decide
    cases value with
    | none => exact ⟨hret, fun _ => trivial, (by decide : isIdent "void"), fun _ => hapart, h⟩
    | some value => exact ⟨hret, fun _ => trivial, hvalue (Bool.and_eq_true_iff.1 ha).2 h hapart⟩

end Action

theorem Function.legible_of_mem_lines {style : CountStyle} (hbits : 0 < style.bits) {f : Function} (hf : f.isPlain) :
    ∀ gs ∈ f.lines style, Legible gs := by
  simp only [isPlain, Block.isPlain, Bool.and_eq_true, all_eq_true] at hf
  obtain ⟨⟨⟨hname, hresult⟩, hparams⟩, hblocks⟩ := hf
  have hhead : Legible f.head := by
    simp only [head, append_assoc]
    refine ⟨(by decide : isIdent "define"), fun _ => trivial, Ty.legible hresult ?_ trivial⟩
    refine ⟨hname, fun _ => rfl, legible_mark rfl rfl ?_⟩
    refine legible_commas (fun p hp _ => Param.legible (hparams p hp)) ?_ rfl
    exact legible_mark rfl rfl (legible_mark rfl rfl trivial)
  refine forall_mem_cons.2 ⟨hhead, forall_mem_append.2 ⟨fun gs hgs => ?_, ?_⟩⟩
  · obtain ⟨b, hb, hgs⟩ := mem_flatMap.1 hgs
    obtain ⟨hlabel, hinstrs⟩ := hblocks b hb
    rcases mem_cons.1 hgs with rfl | hgs
    · exact ⟨hlabel, fun hopen => absurd hopen Bool.false_ne_true, trivial⟩
    · obtain ⟨i, hi, rfl⟩ := mem_map.1 hgs
      have hlegible : Legible (i.action.glyphs style ++ []) := Action.legible_glyphs hbits (hinstrs i hi) trivial trivial
      rwa [append_nil] at hlegible
  · exact forall_mem_singleton.2 (legible_mark rfl rfl trivial)

end RegisterCompiler.Llvm
