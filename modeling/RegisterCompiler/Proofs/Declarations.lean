import RegisterCompiler.Proofs.Stages

/-!
# Declarations

Before the instructions of a function are lowered, its blocks are numbered and its values get their variables: first the
parameters, then the results of the instructions in the order of the listing. Frame variables, and addresses that are
computed from them, get no variable, so that their names are in a table of their own.
-/

namespace RegisterCompiler.Llvm

open Success List

/-! ## Definitions of names -/

/-- The name and the type of the value that an instruction produces. -/
def Action.definition? : Action → Option (String × Ty)
  | .alloca result _ _ => some (result, .ptr)
  | .load result type _ => some (result, type)
  | .binop result _ type _ _ => some (result, type)
  | .icmp result _ _ _ _ => some (result, .bool)
  | .cast result _ _ _ target => some (result, target)
  | .gep result _ _ _ => some (result, .ptr)
  | .call result type _ _ => if result = "" ∨ type = .void then none else some (result, type)
  | .phi result type _ => some (result, type)
  | .store .. | .br _ | .condBr .. | .ret _ => none

/-- The values that instructions declare, `frame` being the names of the addresses in the frame known before. -/
def declaredValues : (frame : List String) → List Instr → List (String × Ty)
  | _, [] => []
  | frame, i :: rest =>
    (declared? frame i.action).toList ++ declaredValues ((framed? frame i.action).toList ++ frame) rest

/-- The variables of values that are declared one after the other, numbered from `id` on. -/
def variablesFrom : (id : IR.VarId) → List (String × Ty) → List (String × IR.Var)
  | _, [] => []
  | id, d :: rest => (d.1, ⟨id, d.2.width?.getD .none⟩) :: variablesFrom (id + 1) rest

/-- The labels of blocks, numbered from `id` on. -/
def numbersFrom : (id : IR.BlockId) → List Block → List (String × IR.BlockId)
  | _, [] => []
  | id, b :: rest => (b.label, id) :: numbersFrom (id + 1) rest

namespace Function

variable (f : Function)

def instrs : List Instr := f.kept.flatMap Block.instrs

def parameters : List (String × Ty) := f.params.map fun p => (p.name, p.type)

/-- All values of a function, with their types: the parameters and the results of the instructions. -/
def definitions : List (String × Ty) := f.parameters ++ f.instrs.filterMap (·.action.definition?)

/-- The values of a function that get a variable, with their types. -/
def declarations : List (String × Ty) := f.parameters ++ declaredValues [] f.instrs

def valueVars : List (String × IR.Var) := variablesFrom 1 f.declarations

/-- All names of a function. -/
def names : List String := f.definitions.map Prod.fst

def paramNames : List String := f.parameters.map Prod.fst

def resultNames : List String := (declaredValues [] f.instrs).map Prod.fst

/-- The names of the frame variables, and of the addresses computed from them. -/
def frameNames : List String := frameAfter [] f.instrs

end Function

variable {file : String} {f : Function} {g : IR.Function} {s s' : Scope} {frame : List String} {i : Instr} {instrs : List Instr}

theorem frameAfter_append (frame : List String) (l l' : List Instr) :
    frameAfter frame (l ++ l') = frameAfter (frameAfter frame l) l' := foldl_append

theorem declaredValues_append (frame : List String) (l l' : List Instr) :
    declaredValues frame (l ++ l') = declaredValues frame l ++ declaredValues (frameAfter frame l) l' := by
  induction l generalizing frame with
  | nil => rfl
  | cons i l ih =>
    rw [cons_append, declaredValues, ih, declaredValues, append_assoc]
    rfl

theorem definition?_cases (frame : List String) (a : Action) :
    (framed? frame a = none ∧ declared? frame a = a.definition?) ∨
      ∃ name, framed? frame a = some name ∧ declared? frame a = none ∧ a.definition? = some (name, .ptr) := by
  cases a with
  | alloca result type count => exact .inr ⟨result, rfl, rfl, rfl⟩
  | gep result element base indices =>
    cases base with
    | localName name =>
      by_cases hname : name ∈ frame
      · exact .inr ⟨result, if_pos hname, if_pos hname, rfl⟩
      · exact .inl ⟨if_neg hname, if_neg hname⟩
    | const c | globalName name => exact .inl ⟨rfl, rfl⟩
  | _ => exact .inl ⟨rfl, rfl⟩

/-- The names that instructions give are those of the values that they declare and those of addresses in the frame. -/
theorem perm_definitions (frame : List String) (instrs : List Instr) :
    ((instrs.filterMap (·.action.definition?)).map Prod.fst ++ frame).Perm
      ((declaredValues frame instrs).map Prod.fst ++ frameAfter frame instrs) := by
  induction instrs generalizing frame with
  | nil => exact .refl _
  | cons i rest ih =>
    rw [declaredValues]
    show ((i :: rest).filterMap _ |>.map Prod.fst |>.append frame).Perm
      (_ ++ frameAfter ((framed? frame i.action).toList ++ frame) rest)
    obtain ⟨hframed, hdeclared⟩ | ⟨name, hframed, hdeclared, hdefinition⟩ := definition?_cases frame i.action
    · rw [hframed, hdeclared]
      cases hdefinition : i.action.definition? with
      | none =>
        rw [filterMap_cons, hdefinition]
        exact ih frame
      | some d =>
        rw [filterMap_cons, hdefinition]
        exact (ih frame).cons d.1
    · rw [hframed, hdeclared, filterMap_cons, hdefinition]
      exact perm_middle.symm.trans (ih (name :: frame))

/-! ## Declarations -/

theorem lookup_cons_eq_none {β : Type} {name key : String} {b : β} {l : List (String × β)} :
    ((key, b) :: l).lookup name = none ↔ name ≠ key ∧ l.lookup name = none := by
  simp [lookup_eq_none_iff]

theorem eq_of_declareParams {pos : Pos} {params : List Param} {vars : List IR.Var}
    (h : (declareParams pos params).run s = .ok (vars, s')) :
    vars = (variablesFrom s.nextVar (params.map fun p => (p.name, p.type))).map Prod.snd ∧
      (∀ p ∈ params, p.type.width?.isSome) ∧
      s' = { s with
        values := (variablesFrom s.nextVar (params.map fun p => (p.name, p.type))).reverse ++ s.values
        nextVar := s.nextVar + params.length } := by
  unfold declareParams at h
  induction params generalizing s vars with
  | nil =>
    cases h
    exact ⟨rfl, forall_mem_nil _, by simp [variablesFrom]⟩
  | cons p rest ih =>
    rw [mapM_cons] at h
    obtain ⟨v, s₁, hp, h⟩ := run_bind_eq_ok.1 h
    obtain ⟨others, s₂, hrest, ⟨⟩⟩ := run_bind_eq_ok.1 h
    obtain ⟨w, _, hw, hfresh⟩ := run_bind_eq_ok.1 hp
    obtain ⟨hwidth, rfl⟩ := run_widthOf_eq_ok.1 hw
    cases hfresh
    obtain ⟨rfl, hwidths, rfl⟩ := ih hrest
    have hw : p.type.width?.getD .none = w := by rw [hwidth, Option.getD_some]
    refine ⟨?_, forall_mem_cons.2 ⟨hwidth ▸ rfl, hwidths⟩, ?_⟩
    · simp [variablesFrom, hw]
    · simp [variablesFrom, hw, Int.add_right_comm, Int.add_assoc]

theorem eq_of_numberBlocks {id : IR.BlockId} {blocks : List Block} (h : (numberBlocks id blocks).run s = .ok ((), s')) :
    s' = { s with labels := s.labels ++ numbersFrom id blocks } ∧ (blocks.map Block.label).Nodup ∧
      ∀ b ∈ blocks, s.labels.lookup b.label = none := by
  induction blocks generalizing s id with
  | nil =>
    cases h
    exact ⟨by simp [numbersFrom], nodup_nil, forall_mem_nil _⟩
  | cons b rest ih =>
    obtain ⟨_, _, ⟨⟩, h⟩ := run_bind_eq_ok.1 h
    obtain ⟨hnew, h⟩ := run_ite_obstruct_eq_ok.1 h
    obtain ⟨_, _, ⟨⟩, h⟩ := run_bind_eq_ok.1 h
    obtain ⟨rfl, hnodup, hothers⟩ := ih h
    have hothers : ∀ c ∈ rest, s.labels.lookup c.label = none ∧ c.label ≠ b.label := fun c hc => by
      have hnone := hothers c hc
      rw [lookup_append, Option.or_eq_none_iff, lookup_cons_eq_none] at hnone
      exact ⟨hnone.1, hnone.2.1⟩
    refine ⟨by simp [numbersFrom], nodup_cons.2 ⟨fun hmem => ?_, hnodup⟩, ?_⟩
    · obtain ⟨c, hc, hlabel⟩ := mem_map.1 hmem
      exact (hothers c hc).2 hlabel
    · exact forall_mem_cons.2 ⟨Option.not_isSome_iff_eq_none.1 hnew, fun c hc => (hothers c hc).1⟩

/-- The values that instructions declare get variables one after the other, and have different names, which are new. -/
theorem eq_of_declare (h : (declare frame instrs).run s = .ok ((), s')) :
    s' = { s with
        values := (variablesFrom s.nextVar (declaredValues frame instrs)).reverse ++ s.values
        nextVar := s.nextVar + (declaredValues frame instrs).length } ∧
      ((declaredValues frame instrs).map Prod.fst).Nodup ∧
      ∀ d ∈ declaredValues frame instrs, s.values.lookup d.1 = none ∧ d.2.width?.isSome := by
  induction instrs generalizing s frame with
  | nil =>
    cases h
    exact ⟨by simp [declaredValues, variablesFrom], nodup_nil, forall_mem_nil _⟩
  | cons i rest ih =>
    unfold declare at h
    dsimp only at h
    split at h
    · next name type hdeclared =>
      obtain ⟨w, _, hw, h⟩ := run_bind_eq_ok.1 h
      obtain ⟨hwidth, rfl⟩ := run_widthOf_eq_ok.1 hw
      obtain ⟨_, _, ⟨⟩, h⟩ := run_bind_eq_ok.1 h
      obtain ⟨hnew, h⟩ := run_ite_obstruct_eq_ok.1 h
      obtain ⟨_, _, ⟨⟩, h⟩ := run_bind_eq_ok.1 h
      obtain ⟨_, _, ⟨⟩, h⟩ := run_bind_eq_ok.1 h
      obtain ⟨rfl, hnodup, hothers⟩ := ih h
      have hw : type.width?.getD .none = w := by rw [hwidth, Option.getD_some]
      -- The other names differ from this one, which stands in the table already.
      have hothers : ∀ d ∈ declaredValues ((framed? frame i.action).toList ++ frame) rest,
          d.1 ≠ name ∧ s.values.lookup d.1 = none ∧ d.2.width?.isSome := fun d hd => by
        obtain ⟨hlookup, hsome⟩ := hothers d hd
        obtain ⟨hne, hlookup⟩ := lookup_cons_eq_none.1 hlookup
        exact ⟨hne, hlookup, hsome⟩
      rw [declaredValues, hdeclared]
      have hnew := Option.not_isSome_iff_eq_none.1 hnew
      refine ⟨?_, nodup_cons.2 ⟨fun hmem => ?_, hnodup⟩, forall_mem_cons.2 ⟨⟨hnew, hwidth ▸ rfl⟩, ?_⟩⟩
      · simp [variablesFrom, hw, Int.add_assoc, Int.add_comm 1]
      · obtain ⟨d, hd, hname⟩ := mem_map.1 hmem
        exact (hothers d hd).1 hname
      · exact fun d hd => (hothers d hd).2
    · next hdeclared =>
      have hdeclared : declared? frame i.action = none :=
        Option.eq_none_iff_forall_ne_some.2 fun d hd => hdeclared d.1 d.2 hd
      rw [declaredValues, hdeclared]
      exact ih h

/-! ## Functions -/

/-- The scope in which the instructions of a function are lowered. -/
def Function.prepared (f : Function) (file : String) : Scope where
  file := file
  function := f.name
  values := f.valueVars.reverse
  addresses := []
  labels := numbersFrom 0 f.kept
  slots := []
  nextVar := 1 + f.declarations.length
  code := []
  phis := []

/-- What is known of a function when it has been declared. -/
structure Function.Declared (f : Function) : Prop where
  labels : (f.kept.map Block.label).Nodup
  nodup : f.resultNames.Nodup
  disjoint : f.paramNames.Disjoint f.resultNames
  width : ∀ d ∈ f.declarations, d.2.width?.isSome

theorem variablesFrom_append (id : IR.VarId) (l l' : List (String × Ty)) :
    variablesFrom id (l ++ l') = variablesFrom id l ++ variablesFrom (id + l.length) l' := by
  induction l generalizing id with
  | nil => simp [variablesFrom]
  | cons d l ih => simp [variablesFrom, ih, Int.add_assoc, Int.add_comm 1]

theorem map_fst_variablesFrom (id : IR.VarId) (l : List (String × Ty)) :
    (variablesFrom id l).map Prod.fst = l.map Prod.fst := by
  induction l generalizing id with
  | nil => rfl
  | cons d l ih => simp [variablesFrom, ih]

theorem getElem?_variablesFrom (id : IR.VarId) (l : List (String × Ty)) (k : Nat) :
    (variablesFrom id l)[k]? = l[k]?.map fun d => (d.1, ⟨id + k, d.2.width?.getD .none⟩) := by
  induction l generalizing id k with
  | nil => rfl
  | cons d l ih =>
    cases k with
    | zero => simp [variablesFrom]
    | succ k => simp [variablesFrom, ih, Int.add_assoc, Int.add_comm 1]

theorem exists_of_mem_variablesFrom {id : IR.VarId} {l : List (String × Ty)} {p : String × IR.Var}
    (h : p ∈ variablesFrom id l) :
    ∃ (k : Nat) (type : Ty), l[k]? = some (p.1, type) ∧ p.2 = ⟨id + k, type.width?.getD .none⟩ := by
  obtain ⟨k, hk⟩ := mem_iff_getElem?.1 h
  rw [getElem?_variablesFrom] at hk
  obtain ⟨d, hd, rfl⟩ := Option.map_eq_some_iff.1 hk
  exact ⟨k, d.2, hd, rfl⟩

namespace Function

variable {p q : String × IR.Var}

theorem eq_of_mem_valueVars (hp : p ∈ f.valueVars) (hq : q ∈ f.valueVars) (hid : p.2.id = q.2.id) : p = q := by
  obtain ⟨k, type, hk, hv⟩ := exists_of_mem_variablesFrom hp
  obtain ⟨k', type', hk', hv'⟩ := exists_of_mem_variablesFrom hq
  rw [hv, hv'] at hid
  obtain rfl : k = k' := Int.ofNat.inj (Int.add_left_cancel hid)
  obtain ⟨hname, rfl⟩ := Prod.mk.inj (Option.some.inj (hk.symm.trans hk'))
  exact Prod.ext hname (hv.trans hv'.symm)

theorem id_lt_of_mem_valueVars (hp : p ∈ f.valueVars) : p.2.id < 1 + f.declarations.length := by
  obtain ⟨k, type, hk, hv⟩ := exists_of_mem_variablesFrom hp
  rw [hv]
  exact Int.add_lt_add_left (Int.ofNat_lt.2 (List.getElem?_eq_some_iff.1 hk).1) 1

end Function

theorem eq_of_prepare {params : List IR.Var} (h : f.prepare.run (.start file f) = .ok (params, s')) :
    s' = f.prepared file ∧ params = (variablesFrom 1 f.parameters).map Prod.snd ∧ f.Declared := by
  obtain ⟨_, s₁, hparams, h⟩ := run_bind_eq_ok.1 h
  obtain ⟨_, s₂, hnumber, h⟩ := run_bind_eq_ok.1 h
  obtain ⟨_, s₃, hdeclare, ⟨⟩⟩ := run_bind_eq_ok.1 h
  obtain ⟨rfl, hwidths, rfl⟩ := eq_of_declareParams hparams
  obtain ⟨rfl, hlabels, -⟩ := eq_of_numberBlocks hnumber
  obtain ⟨rfl, hnodup, hnew⟩ := eq_of_declare hdeclare
  refine ⟨?_, rfl, hlabels, hnodup, fun name hparam hresult => ?_, forall_mem_append.2 ⟨?_, fun d hd => (hnew d hd).2⟩⟩
  · simp [Function.prepared, Function.valueVars, Function.declarations, Function.parameters, Function.instrs, Scope.start,
      variablesFrom_append, Int.add_assoc]
  · obtain ⟨d, hd, rfl⟩ := mem_map.1 hresult
    have hnone := lookup_eq_none_iff.1 (hnew d hd).1
    rw [Function.paramNames, ← map_fst_variablesFrom 1] at hparam
    obtain ⟨p, hp, heq⟩ := mem_map.1 hparam
    exact bne_iff_ne.1 (hnone p (mem_append_left _ (mem_reverse.2 hp))) heq.symm
  · rintro d hd
    obtain ⟨p, hp, rfl⟩ := mem_map.1 hd
    exact hwidths p hp

/-- A variable of the lowered function with the number of a value is that of the value: fresh ones have larger numbers. -/
theorem Stages.eq_of_id_eq {s₀ s₁ : Scope} {codes : List (List IR.Instr)} {edges : List (IR.VarId × List IR.PhiEdge)}
    (h : Stages file f g s₀ s₁ codes edges) {u : IR.Var} (hu : u ∈ g.vars) {p : String × IR.Var} (hp : p ∈ f.valueVars)
    (hid : u.id = p.2.id) : u = p.2 := by
  obtain ⟨rfl, hparams, -⟩ := eq_of_prepare h.prepared
  rcases mem_append.1 hu with hparam | hdest
  · rw [hparams] at hparam
    obtain ⟨q, hq, rfl⟩ := mem_map.1 hparam
    refine congrArg Prod.snd (Function.eq_of_mem_valueVars ?_ hp hid)
    rw [Function.valueVars, Function.declarations, variablesFrom_append]
    exact mem_append_left _ hq
  · obtain ⟨target, htarget, hu'⟩ := mem_flatMap.1 hdest
    obtain ⟨j, hj, hdest⟩ := mem_filterMap.1 hu'
    obtain ⟨b, -, i, -, n, frame, code, k, hn, hyields, hk, rfl⟩ := h.exists_yields htarget hj
    rw [dest?_fillPhi] at hdest
    rcases hyields.dest hk hdest with hfresh | ⟨name, rfl⟩
    · exact absurd (Function.id_lt_of_mem_valueVars hp) (Int.not_lt.2 (hid ▸ Int.le_trans hn hfresh))
    · cases hlookup : f.valueVars.reverse.lookup name with
      | some v =>
        have hresult : (f.prepared file).dictionary.result name = v := congrArg (Option.getD · _) hlookup
        rw [hresult] at hid ⊢
        obtain ⟨l, l', hall, -⟩ := lookup_eq_some_iff.1 hlookup
        have hmem : (name, v) ∈ f.valueVars := mem_reverse.1 (hall ▸ mem_append_right _ mem_cons_self)
        exact congrArg Prod.snd (Function.eq_of_mem_valueVars hmem hp hid)
      | none =>
        -- A name that is not declared has no variable.
        have hresult : (f.prepared file).dictionary.result name = ⟨0, .none⟩ := congrArg (Option.getD · _) hlookup
        have hwidth := h.wellFormed.width _ hu
        rw [hresult] at hwidth
        exact absurd hwidth (by decide)

theorem Function.perm_names (f : Function) : f.names.Perm (f.paramNames ++ (f.resultNames ++ f.frameNames)) := by
  have hresults := perm_definitions [] f.instrs
  rw [append_nil] at hresults
  rw [names, definitions, map_append]
  exact hresults.append_left f.paramNames

/-- In a function that can be lowered the results that get a variable have names of their own, other than those of the
    parameters. So the names are all different if those of the parameters are, and those of the addresses in the frame,
    and no address in the frame has the name of a parameter or of such a result; but it is not checked that they are. -/
theorem nodup_names_iff (h : f.lower file = .ok g) :
    f.resultNames.Nodup ∧ (∀ name ∈ f.resultNames, name ∉ f.paramNames) ∧
      (f.names.Nodup ↔ f.paramNames.Nodup ∧ f.frameNames.Nodup ∧
        ∀ name ∈ f.frameNames, name ∉ f.paramNames ∧ name ∉ f.resultNames) := by
  obtain ⟨s₀, s₁, codes, edges, hstages⟩ := exists_stages h
  obtain ⟨-, -, hdeclared⟩ := eq_of_prepare hstages.prepared
  refine ⟨hdeclared.nodup, fun name hresult hparam => hdeclared.disjoint hparam hresult, ?_⟩
  rw [f.perm_names.nodup_iff, nodup_append', nodup_append', disjoint_append_right]
  constructor
  · rintro ⟨hparams, ⟨-, hframe, hresults⟩, -, hparam⟩
    exact ⟨hparams, hframe, fun name hname => ⟨fun hmem => hparam hmem hname, fun hmem => hresults hmem hname⟩⟩
  · rintro ⟨hparams, hframe, hnew⟩
    refine ⟨hparams, ⟨hdeclared.nodup, hframe, fun name hmem hname => ?_⟩, hdeclared.disjoint, fun name hmem hname => ?_⟩
    · exact (hnew name hname).2 hmem
    · exact (hnew name hname).1 hmem

/-! ## A loop over an array, and names that are given twice -/

namespace Declarations

def fillingEntry : Block := ⟨default, "entry", [
  ⟨default, .alloca "a" (.array 4 (.int 64)) 1⟩,
  ⟨default, .call "" .void "llvm.lifetime.start" []⟩,
  ⟨default, .br "loop"⟩]⟩

def fillingDead : Block := ⟨default, "dead", [⟨default, .br "loop"⟩]⟩

def fillingLoop : Block := ⟨default, "loop", [
  ⟨default, .phi "i" (.int 64) [⟨.const 0, "entry"⟩, ⟨.const 7, "dead"⟩, ⟨.localName "j", "loop"⟩]⟩,
  ⟨default, .gep "p" (.int 64) (.localName "a") [⟨.int 64, .localName "i"⟩]⟩,
  ⟨default, .store (.int 64) (.localName "i") (.localName "p")⟩,
  ⟨default, .binop "j" .add (.int 64) (.localName "i") (.const 1)⟩,
  ⟨default, .icmp "c" "ult" (.int 64) (.localName "j") (.localName "n")⟩,
  ⟨default, .binop "d" .and .bool (.localName "c") (.localName "more")⟩,
  ⟨default, .condBr (.localName "d") "loop" "exit"⟩]⟩

def fillingExit : Block := ⟨default, "exit", [
  ⟨default, .load "v" (.int 64) (.localName "p")⟩,
  ⟨default, .ret (some ⟨.int 64, .localName "v"⟩)⟩]⟩

/-- Fills an array with numbers up to `n`, or only its first element. One of the blocks is never reached. -/
def filling : Function where
  pos := default
  name := "fill"
  result := .int 64
  params := [⟨.int 64, "n"⟩, ⟨.bool, "more"⟩]
  blocks := [fillingEntry, fillingDead, fillingLoop, fillingExit]

/-- The address of the element is the same all over the function, so it takes no instruction. -/
def fillingCode : IR.Function where
  name := "fill"
  params := [⟨1, .w64⟩, ⟨2, .w8⟩]
  result := .w64
  blocks := [
    ⟨0, "entry", [.jump 1]⟩,
    ⟨1, "loop", [
      .phi ⟨3, .w64⟩ [⟨0, some (.imm 0 .w64)⟩, ⟨1, some (.var ⟨4, .w64⟩)⟩],
      .store (some (.var ⟨3, .w64⟩)) (some (.slot ⟨0, some (.var ⟨3, .w64⟩), 8, 0⟩)),
      .binop .add ⟨4, .w64⟩ (some (.var ⟨3, .w64⟩)) (some (.imm 1 .w64)),
      .cmp .ult ⟨5, .w8⟩ (some (.var ⟨4, .w64⟩)) (some (.var ⟨1, .w64⟩)),
      .binop .and ⟨6, .w8⟩ (some (.var ⟨5, .w8⟩)) (some (.var ⟨2, .w8⟩)),
      .branch (some (.var ⟨6, .w8⟩)) 1 2]⟩,
    ⟨2, "exit", [
      .load ⟨7, .w64⟩ (some (.slot ⟨0, some (.var ⟨3, .w64⟩), 8, 0⟩)),
      .ret (some (.var ⟨7, .w64⟩))]⟩]
  entry := 0
  slots := [⟨0, "a", 4, .w64⟩]

theorem lower_filling : filling.lower "" = .ok fillingCode := by decide +kernel

theorem nodup_names_filling : filling.lower "" = .ok fillingCode ∧ filling.names.Nodup ∧ filling.frameNames = ["p", "a"] := by
  refine ⟨lower_filling, (nodup_names_iff lower_filling).2.2.2 ?_, by decide +kernel⟩
  decide +kernel

def returning (params : List Param) (before : List Instr) : Function where
  pos := default
  name := "f"
  result := .int 64
  params := params
  blocks := [⟨default, "entry", before ++ [⟨default, .ret (some ⟨.int 64, .localName "x"⟩)⟩]⟩]

/-- Two parameters, two frame variables, a frame variable and a parameter, and a frame variable and a result of the same
    name are let pass. -/
theorem lower_repeated :
    Forall (fun f : Function => (f.lower "").toOption.isSome ∧ ¬f.names.Nodup) [
      returning [⟨.int 64, "x"⟩, ⟨.int 64, "x"⟩] [],
      returning [] [⟨default, .alloca "x" (.int 64) 1⟩, ⟨default, .alloca "x" (.int 64) 1⟩],
      returning [⟨.int 64, "x"⟩] [⟨default, .alloca "x" (.int 64) 1⟩],
      returning [] [⟨default, .binop "x" .add (.int 64) (.const 1) (.const 2)⟩, ⟨default, .alloca "x" (.int 64) 1⟩]] := by
  decide +kernel

end Declarations

end RegisterCompiler.Llvm
