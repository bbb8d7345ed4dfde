import RegisterCompiler.Proofs.Lowering
import RegisterCompiler.Proofs.Reachability
import RegisterCompiler.Proofs.TwosComplement
import RegisterCompiler.Proofs.Values

/-!
# Truth values

A value of type `i1` is carried in a byte, as 0 or 1. Nothing cuts it to one bit, so that this holds only as long as what
is used as a truth value is one: a constant that is 0 or 1, or a name of type `i1`.
-/

namespace RegisterCompiler.Llvm

open Success List

/-! ## Sources -/

/-- The values that an instruction hands on to its result, to parameters or to the caller, with their types. -/
def Action.handed : Action → List TypedValue
  | .binop _ _ type x y => [⟨type, x⟩, ⟨type, y⟩]
  | .phi _ type incoming => incoming.map fun i => ⟨type, i.value⟩
  | .call _ _ _ args => args
  | .ret (some v) => [v]
  | _ => []

namespace Function

variable (f : Function)

/-- The variable with a number is that of a value of type `i1`. -/
def HasTruth (id : IR.VarId) : Prop := ∃ (k : Nat) (name : String), f.declarations[k]? = some (name, .bool) ∧ id = 1 + k

/-- An operand that is 0 or 1, or a name that stands for values of type `i1` only. -/
def IsTruth : Value → Prop
  | .const c => c = 0 ∨ c = 1
  | .localName name => name ∉ f.frameNames ∧ ∀ type, (name, type) ∈ f.declarations → type = .bool
  | .globalName _ => False

/-- The function makes truth values of truth values only. Its calls agree with the definitions in `fs`, and it loads no
    truth values. -/
structure Truthful (fs : List Function) : Prop where
  handed : ∀ i ∈ f.instrs, ∀ v ∈ i.action.handed, v.type = .bool → f.IsTruth v.value
  load : ∀ i ∈ f.instrs, ∀ result pointer, i.action ≠ .load result .bool pointer
  call : ∀ i ∈ f.instrs, ∀ result type callee args, i.action = .call result type callee args → ∀ f' ∈ fs, f'.name = callee →
    type = f'.result ∧ args.map TypedValue.type = f'.params.map Param.type
  ret : f.result = .bool → ∀ i ∈ f.instrs, ∀ v, i.action = .ret (some v) → v.type = .bool

end Function

variable {file : String} {f : Function} {g : IR.Function} {s₀ s₁ : Scope} {codes : List (List IR.Instr)}
  {edges : List (IR.VarId × List IR.PhiEdge)} {D : Dictionary} {n : IR.VarId} {frame : List String} {instrs : List Instr}
  {code aux : List IR.Instr} {j : IR.Instr} {fs : List Function} {a : IR.Activation} {value : Value} {o : IR.Operand}
  {x y z : Int64} {name : String} {type : Ty} {v : IR.Var} {id : IR.VarId}

/-- The two words that carry truth values. -/
def IsBit (x : Int64) : Prop := x = 0 ∨ x = 1

theorem IsBit.canonical (h : IsBit x) : IsBit (Width.w8.canonical x) := by
  rcases h with rfl | rfl
  · exact .inl (by decide)
  · exact .inr (by decide)

theorem IsBit.eval {op : BinOp} (hx : IsBit x) (hy : IsBit y) (hop : op ∈ [BinOp.and, .or, .xor])
    (h : op.eval .w8 x y = .ok z) : IsBit z := by
  simp only [mem_cons, not_mem_nil, or_false] at hop
  rcases hop with rfl | rfl | rfl <;> rcases hx with rfl | rfl <;> rcases hy with rfl | rfl <;>
    (rw [← Except.ok.inj h]; unfold IsBit; decide)

theorem isBit_and_one (h : BinOp.and.eval .w8 x 1 = .ok z) : IsBit z := by
  rw [BinOp.eval_eq_word (by decide) (by decide) x (by decide)] at h
  have hall : ∀ b : BitVec 8, Width.w8.word (b &&& 1#8) = 0 ∨ Width.w8.word (b &&& 1#8) = 1 := by decide +kernel
  exact Except.ok.inj h ▸ hall (Width.w8.pattern x)

/-! ## Code -/

/-- Code is made of counterparts of instructions, and of code that helps. -/
theorem Dictionary.Renders.exists_of_mem (h : D.Renders n frame instrs code) (hj : j ∈ code) :
    j.Helps n ∨ ∃ l i l' aux, instrs = l ++ i :: l' ∧ D.Counterpart (frameAfter frame l) aux i.action j := by
  induction h with
  | nil => cases hj
  | @silent frame i rest aux code _ haux _ ih =>
    rcases mem_append.1 hj with hj | hj
    · exact .inl (haux j hj)
    · exact (ih hj).imp_right fun ⟨l, i', l', aux, hinstrs, h⟩ => ⟨i :: l, i', l', aux, congrArg (i :: ·) hinstrs, h⟩
  | @counterpart frame i rest aux code main hmain haux _ ih =>
    rcases mem_append.1 hj with hj | hj
    · exact .inl (haux j hj)
    · rcases mem_cons.1 hj with rfl | hj
      · exact .inr ⟨[], i, rest, aux, rfl, hmain⟩
      · exact (ih hj).imp_right fun ⟨l, i', l', aux, hinstrs, h⟩ => ⟨i :: l, i', l', aux, congrArg (i :: ·) hinstrs, h⟩

theorem subset_frameAfter (frame : List String) (instrs : List Instr) : frame ⊆ frameAfter frame instrs := by
  induction instrs generalizing frame with
  | nil => exact Subset.refl _
  | cons i instrs ih => exact fun name hname => ih _ (mem_append_right _ hname)

/-- The instruction `j` is what becomes of `i`, an instruction that control can reach, where `frame` is known before. -/
structure Function.Makes (f : Function) (frame : List String) (aux : List IR.Instr) (i : Instr) (j : IR.Instr) : Prop where
  mem : i ∈ f.instrs
  known : frame ⊆ f.frameNames
  declared : ∀ d ∈ declared? frame i.action, d ∈ declaredValues [] f.instrs
  counterpart : f.dictionary.Counterpart frame aux i.action j

theorem Stages.exists_makes (h : Stages file f g s₀ s₁ codes edges) {b : IR.Block} (hb : b ∈ g.blocks) (hj : j ∈ b.code) :
    j.Helps (1 + f.declarations.length) ∨ ∃ frame aux i, f.Makes frame aux i j := by
  obtain ⟨earlier, b', later, _, _, hkept, -, -, hblock, -⟩ := h.exists_of_mem_blocks hb
  obtain ⟨code, hcode, hrenders⟩ := h.renders hkept
  obtain rfl := Option.some.inj (hblock.symm.trans hcode)
  refine (hrenders.exists_of_mem hj).imp_right ?_
  rintro ⟨l, i, l', aux, hinstrs, hmain⟩
  have hsplit : f.instrs = (earlier.flatMap Block.instrs ++ l) ++ i :: (l' ++ later.flatMap Block.instrs) := by
    rw [Function.instrs, hkept, flatMap_append, flatMap_cons, hinstrs]
    simp
  rw [← frameAfter_append] at hmain
  refine ⟨_, aux, i, hsplit ▸ mem_append_right _ mem_cons_self, ?_, fun d hd => ?_, hmain⟩
  · rw [Function.frameNames, hsplit, frameAfter_append _ (_ ++ l)]
    exact subset_frameAfter _ _
  · rw [hsplit, declaredValues_append, declaredValues, Option.mem_def.1 hd]
    exact mem_append_right _ mem_cons_self

section

variable {result : String}

theorem exists_of_lookup (h : f.dictionary.values.lookup name = some v) :
    ∃ (k : Nat) (type : Ty), f.declarations[k]? = some (name, type) ∧ v = ⟨1 + k, type.width?.getD .none⟩ := by
  obtain ⟨l, l', hall, -⟩ := lookup_eq_some_iff.1 h
  exact exists_of_mem_variablesFrom (mem_reverse.1 (hall ▸ mem_append_right l mem_cons_self))

theorem Function.HasTruth.of_lookup (h : f.HasTruth v.id) (hv : f.dictionary.values.lookup name = some v) :
    v.width = .w8 ∧ (name, .bool) ∈ f.declarations := by
  obtain ⟨k, type, hk, rfl⟩ := exists_of_lookup hv
  obtain ⟨k', name', hk', hid⟩ := h
  obtain rfl : k = k' := Int.ofNat.inj (Int.add_left_cancel hid)
  cases hk.symm.trans hk'
  exact ⟨rfl, mem_of_getElem? hk⟩

theorem Function.Declared.type_eq_bool (hf : f.Declared) (hmem : (result, type) ∈ declaredValues [] f.instrs)
    (h : f.HasTruth (f.dictionary.result result).id) : type = .bool ∧ (f.dictionary.result result).width = .w8 := by
  cases hlookup : f.dictionary.values.lookup result with
  | none =>
    obtain ⟨k, _, -, hid⟩ := h
    rw [Dictionary.result, hlookup] at hid
    -- A name without a variable stands for number 0, and variables are numbered from 1 on.
    have : (0 : Int) = 1 + k := hid
    omega
  | some v =>
    have hresult : f.dictionary.result result = v := congrArg (Option.getD · _) hlookup
    rw [hresult] at h ⊢
    obtain ⟨hwidth, hbool⟩ := h.of_lookup hlookup
    refine ⟨?_, hwidth⟩
    rcases mem_append.1 hbool with hparam | hbool
    · exact (hf.disjoint (mem_map.2 ⟨_, hparam, rfl⟩) (mem_map.2 ⟨_, hmem, rfl⟩)).elim
    · exact congrArg Prod.snd (inj_on_of_nodup_map hf.nodup hmem hbool rfl)

end

/-! ## Operands -/

/-- The property of values that is handed on: the variables of values of type `i1` hold truth values. -/
def Truth (file : String) (fs : List Function) (g : IR.Function) (id : IR.VarId) (x : Int64) : Prop :=
  ∀ f ∈ fs, f.lower file = .ok g → f.HasTruth id → IsBit x

/-- The values that functions return: none, or a truth value where their type is `i1`. -/
def Returned (file : String) (fs : List Function) (g : IR.Function) (x : Int64) : Prop :=
  ∀ f ∈ fs, f.lower file = .ok g → f.result = .void ∨ f.result = .bool → IsBit x

section

variable (ha : a.Meets (Truth file fs)) (hf : f ∈ fs) (hlower : f.lower file = .ok a.function)

include ha hf hlower

theorem isBit_getD (h : f.HasTruth id) : IsBit (a.env.getD id 0) := by
  rw [Std.ExtTreeMap.getD_eq_getD_getElem?]
  cases hx : a.env[id]? with
  | none => exact .inl rfl
  | some x => exact ha id x hx f hf hlower h

theorem isBit_of_lookup (hv : f.dictionary.values.lookup name = some v) (hname : f.IsTruth (.localName name)) :
    IsBit (a.env.getD v.id 0) := by
  obtain ⟨k, type, hk, rfl⟩ := exists_of_lookup hv
  obtain rfl := hname.2 type (mem_of_getElem? hk)
  exact isBit_getD ha hf hlower ⟨k, name, hk, rfl⟩

theorem isBit_of_means (h : f.dictionary.Means frame aux value .bool o) (hframe : frame ⊆ f.frameNames)
    (hvalue : f.IsTruth value) (hx : a.value (some o) = .ok x) : IsBit x := by
  cases h with
  | const hw =>
    cases hw
    exact Except.ok.inj hx ▸ IsBit.canonical (IsBit.canonical hvalue)
  | value _ hv =>
    cases hx
    exact isBit_of_lookup ha hf hlower hv hvalue
  | address hname => exact absurd (hframe hname) hvalue.1

/-! ## Instructions -/

variable (ht : f.Truthful fs) {i : Instr} (h : f.Makes frame aux i j)
include ht h

/-- An operand of an instruction that hands it on as a truth value is worth 0 or 1. -/
theorem isBit_of_handed {v : TypedValue} (hmem : v ∈ i.action.handed) (htype : v.type = .bool)
    (hmeans : f.dictionary.Means frame aux v.value v.type o) (hx : a.value (some o) = .ok x) : IsBit x := by
  have hvalue := ht.handed i h.mem v hmem htype
  rw [htype] at hmeans
  exact isBit_of_means ha hf hlower hmeans h.known hvalue hx

/-- What an instruction computes for a value of type `i1` is 0 or 1. -/
theorem isBit_of_computes (hdeclared : f.Declared) {memory : Memory} {d : IR.Var} (hcomputes : a.Computes memory j d x)
    (htruth : f.HasTruth d.id) : IsBit x := by
  have hbool : ∀ {result type}, declared? frame i.action = some (result, type) → f.dictionary.result result = d →
      type = .bool ∧ d.width = .w8 := by
    rintro result type hresult rfl
    exact hdeclared.type_eq_bool (h.declared _ hresult) htruth
  obtain ⟨pos, action⟩ := i
  cases h.counterpart with
  | load =>
    cases hcomputes
    obtain ⟨rfl, -⟩ := hbool rfl rfl
    exact absurd rfl (ht.load _ h.mem _ _)
  | binop hop hx hy =>
    cases hcomputes with
    | binop hvx hvy hv =>
      obtain ⟨rfl, hwidth⟩ := hbool rfl rfl
      rw [hwidth] at hv
      have hfirst := isBit_of_handed ha hf hlower ht h mem_cons_self rfl hx hvx
      have hsecond := isBit_of_handed ha hf hlower ht h (mem_cons_of_mem _ mem_cons_self) rfl hy hvy
      exact hfirst.eval hsecond (hop rfl) hv
  | icmp =>
    cases hcomputes with
    | @cmp _ _ _ _ b =>
      cases b
      · exact .inl rfl
      · exact .inr rfl
  | toBool =>
    cases hcomputes with
    | binop hvx hvy hv =>
      cases hvy
      rw [(hbool rfl rfl).2] at hv
      exact isBit_and_one hv
  | cast htarget | ofSignedBool htarget | ofBool htarget =>
    cases hcomputes
    exact absurd (hbool rfl rfl).1 htarget
  | @gep result element base indices _ _ hbase =>
    cases hcomputes
    have hresult : declared? frame (.gep result element base indices) = some (result, .ptr) := by
      cases base with
      | localName name => exact if_neg (hbase name rfl)
      | const c | globalName name => rfl
    cases (hbool hresult rfl).1
  | store | call | phi | br | condBr | retNone | ret => cases hcomputes

theorem isBit_of_phi (hdeclared : f.Declared) {d : IR.Var} {edges : List IR.PhiEdge} {e : IR.PhiEdge}
    (hj : j = .phi d edges) (he : e ∈ edges) (hx : a.value e.value = .ok x) (htruth : f.HasTruth d.id) : IsBit x := by
  obtain ⟨pos, action⟩ := i
  cases h.counterpart with
  | phi hfeeds =>
    cases hj
    obtain ⟨rfl, hwidth⟩ := hdeclared.type_eq_bool (h.declared _ rfl) htruth
    obtain ⟨incoming, hmem, hsupplies⟩ := exists_of_mem_right hfeeds he
    have hvalue := ht.handed _ h.mem _ (mem_map.2 ⟨incoming, (mem_filter.1 hmem).1, rfl⟩) rfl
    cases hsupplies with
    | const =>
      rw [← Except.ok.inj hx, hwidth]
      exact IsBit.canonical (IsBit.canonical hvalue)
    | value _ hv =>
      cases hx
      exact isBit_of_lookup ha hf hlower hv hvalue
  | _ => cases hj

theorem isBit_of_ret {o : Option IR.Operand} (hj : j = .ret o) (hsome : ∀ y, o = some y → a.value o = .ok x)
    (hnone : o = none → x = 0) (hresult : f.result = .bool) : IsBit x := by
  obtain ⟨pos, action⟩ := i
  cases h.counterpart with
  | retNone =>
    cases hj
    exact .inl (hnone rfl)
  | @ret v y hmeans =>
    cases hj
    exact isBit_of_handed ha hf hlower ht h mem_cons_self (ht.ret hresult _ h.mem v rfl) hmeans (hsome y rfl)
  | _ => cases hj

theorem isBit_of_call {dest : Option IR.Var} {callee : String} {args : List (Option IR.Operand)} {xs : List Int64}
    {f' : Function} {k : Nat} {p : Param} (hj : j = .call dest callee args) (hxs : args.mapM a.value = .ok xs)
    (hf' : f' ∈ fs) (hname : f'.name = callee) (hp : f'.params[k]? = some p) (htype : p.type = .bool) (hx : xs[k]? = some x) :
    IsBit x := by
  obtain ⟨pos, action⟩ := i
  cases h.counterpart with
  | @call result callee type args args' _ hmeans =>
    cases hj
    -- The argument for the parameter has the type of the parameter, and so is handed on as a truth value.
    obtain ⟨-, htypes⟩ := ht.call _ h.mem _ _ _ _ rfl f' hf' hname
    obtain ⟨v, hv, hvtype⟩ : ∃ v, args[k]? = some v ∧ v.type = p.type := by
      have hk : (args.map TypedValue.type)[k]? = some p.type := by rw [htypes, getElem?_map, hp, Option.map_some]
      rwa [getElem?_map, Option.map_eq_some_iff] at hk
    obtain ⟨o, ho⟩ : ∃ o, args'[k]? = some o :=
      ⟨_, getElem?_eq_getElem (hmeans.length_eq ▸ (List.getElem?_eq_some_iff.1 hv).1)⟩
    have hvalue : a.value (some o) = .ok x :=
      forall₂_zip (mapM_eq_ok.1 hxs) (mem_of_getElem? (getElem?_zip_eq_some.2 ⟨by rw [getElem?_map, ho, Option.map_some], hx⟩))
    exact isBit_of_handed ha hf hlower ht h (mem_of_getElem? hv) (hvtype.trans htype)
      (forall₂_zip hmeans (mem_of_getElem? (getElem?_zip_eq_some.2 ⟨hv, ho⟩))) hvalue
  | _ => cases hj

omit ha hf hlower in
/-- The variable that waits for a result of type `i1` is a byte, and the function returns a truth value or nothing. -/
theorem returns_of_call (hdeclared : f.Declared) {d : IR.Var} {callee : String} {args : List (Option IR.Operand)}
    {f' : Function} (hj : j = .call (some d) callee args) (hf' : f' ∈ fs) (hname : f'.name = callee)
    (htruth : f.HasTruth d.id) : d.width = .w8 ∧ (f'.result = .void ∨ f'.result = .bool) := by
  obtain ⟨pos, action⟩ := i
  cases h.counterpart with
  | @call result callee type args args' =>
    obtain ⟨hdest, rfl, -⟩ := IR.Instr.call.inj hj
    obtain ⟨htype, -⟩ := ht.call _ h.mem _ _ _ _ rfl f' hf' hname
    split at hdest
    · cases hdest
    · next hresult =>
      refine ⟨(htruth.of_lookup hdest).1, htype ▸ ?_⟩
      by_cases hvoid : type = .void
      · exact .inl hvoid
      · refine .inr (hdeclared.type_eq_bool (h.declared _ (if_neg (not_or.2 ⟨hresult, hvoid⟩))) ?_).1
        rwa [Dictionary.result, hdest]
  | _ => cases hj

end

/-! ## Runs -/

/-- A parameter whose variable is of type `i1` has this type. -/
theorem Stages.exists_param (h : Stages file f g s₀ s₁ codes edges) {xs : List Int64} {y : IR.Var × Int64}
    (hy : y ∈ g.params.zip xs) (htruth : f.HasTruth y.1.id) :
    y.1.width = .w8 ∧ ∃ (k : Nat) (p : Param), f.params[k]? = some p ∧ p.type = .bool ∧ xs[k]? = some y.2 := by
  obtain ⟨-, hparams, -⟩ := eq_of_prepare h.prepared
  obtain ⟨k, hk⟩ := mem_iff_getElem?.1 hy
  obtain ⟨hk, hx⟩ := getElem?_zip_eq_some.1 hk
  rw [hparams, getElem?_map, getElem?_variablesFrom, Option.map_map] at hk
  obtain ⟨d, hd, hy⟩ := Option.map_eq_some_iff.1 hk
  obtain ⟨k', name, hk', hid⟩ := htruth
  rw [← hy] at hid
  obtain rfl : k = k' := Int.ofNat.inj (Int.add_left_cancel hid)
  have hlength := (List.getElem?_eq_some_iff.1 hd).1
  rw [Function.declarations, getElem?_append_left hlength, hd] at hk'
  obtain rfl := Option.some.inj hk'
  rw [Function.parameters, getElem?_map] at hd
  obtain ⟨p, hp, hd⟩ := Option.map_eq_some_iff.1 hd
  exact ⟨by rw [← hy]; rfl, k, p, hp, congrArg Prod.snd hd, hx⟩

section

variable {m : IR.Module} (hm : ∀ g ∈ m.functions, ∃ f ∈ fs, f.lower file = .ok g) (ht : ∀ f ∈ fs, f.Truthful fs)

theorem exists_of_has (hlower : f.lower file = .ok a.function) (h : a.Has m j) : f.Declared ∧
    (j.Helps (1 + f.declarations.length) ∨ ∃ frame aux i, f.Makes frame aux i j) := by
  obtain ⟨-, b, hb, hj⟩ := h
  obtain ⟨_, _, _, _, hstages⟩ := exists_stages hlower
  exact ⟨(eq_of_prepare hstages.prepared).2.2, hstages.exists_makes hb hj⟩

theorem name_of_lower (h : f.lower file = .ok g) (hg : m.function? name = some g) : f.name = name := by
  obtain ⟨_, _, _, _, hstages⟩ := exists_stages h
  exact hstages.name.symm.trans (by simpa using find?_some hg)

include hm ht

/-- Whatever a run does, it makes truth values of truth values. -/
theorem preserves_truth : m.Preserves (Truth file fs) (Returned file fs) where
  computes := by
    intro a memory j d x hj ha hcomputes f hf hlower htruth
    obtain ⟨hdeclared, hhelps | ⟨_, _, _, hmakes⟩⟩ := exists_of_has hlower hj
    · -- Variables that only help come behind those of the values.
      obtain ⟨k, _, hk, hid⟩ := htruth
      have hle := hhelps.le_id hcomputes.dest?_eq
      have hlt := (List.getElem?_eq_some_iff.1 hk).1
      rw [hid] at hle
      exact absurd hlt (Nat.not_lt.2 (Int.ofNat_le.1 (Int.le_of_add_le_add_left hle)))
    · exact isBit_of_computes ha hf hlower (ht f hf) hmakes hdeclared hcomputes htruth
  phi := by
    intro a d edges e x hj ha he hx f hf hlower htruth
    obtain ⟨hdeclared, hcode⟩ := exists_of_has hlower hj
    obtain ⟨_, _, _, hmakes⟩ := hcode.resolve_left nofun
    exact isBit_of_phi ha hf hlower (ht f hf) hmakes hdeclared rfl he hx htruth
  params := by
    intro a dest callee args xs g hj ha hxs hg y hy f' hf' hlower' htruth
    obtain ⟨f, hf, hlower⟩ := hm _ hj.1
    obtain ⟨_, _, _, _, hstages'⟩ := exists_stages hlower'
    obtain ⟨hwidth, k, p, hp, htype, hx⟩ := hstages'.exists_param hy htruth
    obtain ⟨_, _, _, hmakes⟩ := (exists_of_has hlower hj).2.resolve_left nofun
    rw [hwidth]
    exact (isBit_of_call ha hf hlower (ht f hf) hmakes rfl hxs hf' (name_of_lower hlower' hg) hp htype hx).canonical
  result := by
    intro a d callee args g x hj hg hx f hf hlower htruth
    obtain ⟨f', hf', hlower'⟩ := hm _ (mem_of_find?_eq_some hg)
    obtain ⟨hdeclared, hcode⟩ := exists_of_has hlower hj
    obtain ⟨_, _, _, hmakes⟩ := hcode.resolve_left nofun
    obtain ⟨hwidth, hreturns⟩ := returns_of_call (ht f hf) hmakes hdeclared rfl hf' (name_of_lower hlower' hg) htruth
    rw [hwidth]
    exact (hx f' hf' hlower' hreturns).canonical
  ret := by
    intro a o x hj ha hsome hnone f hf hlower hresult
    obtain ⟨_, _, _, hmakes⟩ := (exists_of_has hlower hj).2.resolve_left nofun
    rcases hresult with hvoid | hbool
    · -- A function without a result returns no operand.
      obtain ⟨_, _, _, _, hstages⟩ := exists_stages hlower
      obtain ⟨-, b, hb, hj⟩ := hj
      cases o with
      | none => exact .inl (hnone rfl)
      | some o =>
        have hvalid := hstages.wellFormed.width_readable (hstages.wellFormed.readable b hb _ hj _ mem_cons_self)
        have hwidth : o.width = a.function.result := hstages.wellFormed.fits b hb _ hj
        rcases hstages.result with ⟨-, hnone⟩ | hsome
        · rw [hwidth, hnone] at hvalid
          cases hvalid
        · rw [hvoid] at hsome
          cases hsome
    · exact isBit_of_ret ha hf hlower (ht f hf) hmakes rfl hsome hnone hbool

end

/-- In every state of a run of a program that is read from a text, in all activations, the variables of values of type `i1`
    hold 0 or 1, if its functions make truth values of truth values only and the arguments of type `i1` are truth values. -/
theorem truth_of_visits {source : String} {m : IR.Module} (hread : readModule file source = .ok m)
    (ht : ∀ f ∈ (readFunctions file source).1, f.Truthful (readFunctions file source).1) {memory : Memory}
    (hmemory : memory.size < 2 ^ 63) {args : List Int64} (hargs : ∀ f ∈ (readFunctions file source).1, f.name = name →
      ∀ p ∈ f.params.zip args, p.1.type = .bool → p.2 = 0 ∨ p.2 = 1)
    {maxDepth : Int} {c : IR.Config} (hvisits : m.Visits maxDepth memory name args c) :
    ∀ a ∈ c.active :: c.callers.map IR.Caller.activation,
      (∃ f ∈ (readFunctions file source).1, f.lower file = .ok a.function) ∧
        ∀ f ∈ (readFunctions file source).1, f.lower file = .ok a.function → ∀ id, f.HasTruth id →
          a.env.getD id 0 = 0 ∨ a.env.getD id 0 = 1 := by
  have hlower := exists_of_readModule hread
  have hm : m.Verified := by
    refine ⟨fun g hg => ?_, fun g hg b hb op dest x y hi => (named_of_readModule hread g hg).code b hb _ hi⟩
    obtain ⟨f, -, hf⟩ := hlower g hg
    obtain ⟨_, _, _, _, hstages⟩ := exists_stages hf
    exact hstages.wellFormed
  have hplace := hvisits.inPlace hm hmemory
  have hmeets := hvisits.meets hm hmemory (preserves_truth hlower ht) fun g hg y hy f hf hfg htruth => by
    obtain ⟨_, _, _, _, hstages⟩ := exists_stages hfg
    obtain ⟨hwidth, k, p, hp, htype, hx⟩ := hstages.exists_param hy htruth
    have hbit : IsBit y.2 := hargs f hf (name_of_lower hfg hg) (p, y.2)
      (mem_of_getElem? (getElem?_zip_eq_some.2 ⟨hp, hx⟩)) htype
    exact hwidth ▸ hbit.canonical
  rw [forall_mem_cons, forall_mem_map]
  refine ⟨⟨hlower _ hplace.active.mem, fun f hf hfg id => isBit_getD hmeets.active hf hfg⟩, fun k hk => ?_⟩
  exact ⟨hlower _ (hplace.callers k hk).mem, fun f hf hfg id => isBit_getD (hmeets.callers k hk) hf hfg⟩

namespace TruthValues

def flipping (c : String) : String :=
  "define i1 @f(i1 %x) \x7b\nentry:\n  %y = xor i1 %x, " ++ c ++ "\n  ret i1 %y\n\x7d\n"

def flip : Function where
  pos := ⟨1, 1⟩
  name := "f"
  result := .bool
  params := [⟨.bool, "x"⟩]
  blocks := [⟨⟨2, 1⟩, "entry", [
    ⟨⟨3, 3⟩, .binop "y" .xor .bool (.localName "x") (.const 1)⟩, ⟨⟨4, 3⟩, .ret (some ⟨.bool, .localName "y"⟩)⟩]⟩]

def flipCode : IR.Function where
  name := "f"
  params := [⟨1, .w8⟩]
  result := .w8
  blocks := [⟨0, "entry", [
    .binop .xor ⟨2, .w8⟩ (some (.var ⟨1, .w8⟩)) (some (.imm 1 .w8)), .ret (some (.var ⟨2, .w8⟩))]⟩]
  entry := 0
  slots := []

theorem readFunctions_flipping : readFunctions "t.ll" (flipping "1") = ([flip], []) := by decide +kernel

theorem truthful_flip : flip.Truthful [flip] := by
  have hinstrs : flip.instrs = [⟨⟨3, 3⟩, .binop "y" .xor .bool (.localName "x") (.const 1)⟩,
      ⟨⟨4, 3⟩, .ret (some ⟨.bool, .localName "y"⟩)⟩] := by decide +kernel
  have hframe : flip.frameNames = [] := by decide +kernel
  have hdeclarations : flip.declarations = [("x", .bool), ("y", .bool)] := by decide +kernel
  refine ⟨?_, ?_, ?_, ?_⟩ <;> rw [hinstrs]
  · simp [Action.handed, Function.IsTruth, hframe, hdeclarations]
  all_goals simp

theorem truth_of_visits_flip : readModule "t.ll" (flipping "1") = .ok ⟨[flipCode]⟩ ∧ flip.HasTruth 2 ∧
    ∃ c, (⟨[flipCode]⟩ : IR.Module).Visits 9 ⟨64, ∅⟩ "f" [1] c ∧ flip.lower "t.ll" = .ok c.active.function ∧
      (c.active.env.getD 2 0 = 0 ∨ c.active.env.getD 2 0 = 1) := by
  have hread : readModule "t.ll" (flipping "1") = .ok ⟨[flipCode]⟩ := by decide +kernel
  have htruth : flip.HasTruth 2 := ⟨1, "y", by decide +kernel, rfl⟩
  obtain ⟨c, hvisits, hfunction⟩ : ∃ c, (⟨[flipCode]⟩ : IR.Module).Visits 9 ⟨64, ∅⟩ "f" [1] c ∧
      c.active.function = flipCode := ⟨_, .step (.start rfl) rfl rfl, rfl⟩
  have hlower : flip.lower "t.ll" = .ok c.active.function := hfunction ▸ (by decide +kernel)
  refine ⟨hread, htruth, c, hvisits, hlower, ?_⟩
  have hfunctions : (readFunctions "t.ll" (flipping "1")).1 = [flip] := congrArg Prod.fst readFunctions_flipping
  have htruthful : ∀ f ∈ (readFunctions "t.ll" (flipping "1")).1, f.Truthful (readFunctions "t.ll" (flipping "1")).1 := by
    rw [hfunctions]
    exact forall_mem_singleton.2 truthful_flip
  exact (truth_of_visits hread htruthful (by decide) (by rw [hfunctions]; simp [flip]) hvisits _ mem_cons_self).2 flip
    (hfunctions ▸ mem_cons_self) hlower 2 htruth

/-- The constant -1 is true as well, but it is not cut to one bit. -/
theorem eval_flipping : (readModule "t.ll" (flipping "-1")).toOption.bind (fun m =>
    (m.eval { maxSteps := 9 } ⟨64, ∅⟩ "f" [0]).result.toOption) = some (-1) := by
  decide +kernel

end TruthValues

end RegisterCompiler.Llvm
