import RegisterCompiler.Proofs.Progress
import RegisterCompiler.Proofs.Transition

/-!
# The values of variables

Variables get values from instructions, from phis, and as the parameters and results of calls. A property of values that
is handed on in each of these ways holds in all activations and at all times. That values are held sign-extended from
their widths is such a property, for verified functions: every instruction brings its result to the width of its variable,
a phi takes a value of its own width, and arguments and results of calls are cut to the widths of the variables that
receive them.
-/

namespace RegisterCompiler

open Success List

theorem Width.isCanonical_zero (w : Width) : w.IsCanonical 0 := by
  unfold IsCanonical canonical
  split
  · rfl
  · simp

namespace IR

/-! ## Properties of values -/

section

variable (P : Function → VarId → Int64 → Prop) (R : Function → Int64 → Prop)

/-- The values of the variables have the property `P`. -/
def Activation.Meets (a : Activation) : Prop := ∀ id x, a.env[id]? = some x → P a.function id x

/-- The instruction is one of the function that is active. -/
def Activation.Has (a : Activation) (m : Module) (i : Instr) : Prop :=
  a.function ∈ m.functions ∧ ∃ b ∈ a.function.blocks, i ∈ b.code

/-- Wherever a variable gets a value, the value has the property `P` if those that it depends on have it. The values that
    functions return have the property `R`. -/
structure Module.Preserves (m : Module) : Prop where
  computes : ∀ (a : Activation) (memory : Memory) (i : Instr) (d : Var) (x : Int64), a.Has m i → a.Meets P →
    a.Computes memory i d x → P a.function d.id x
  phi : ∀ (a : Activation) (d : Var) (edges : List PhiEdge) (e : PhiEdge) (x : Int64), a.Has m (.phi d edges) → a.Meets P →
    e ∈ edges → a.value e.value = .ok x → P a.function d.id x
  params : ∀ (a : Activation) (dest : Option Var) (callee : String) (args : List (Option Operand)) (xs : List Int64)
    (f : Function), a.Has m (.call dest callee args) → a.Meets P → args.mapM a.value = .ok xs → m.function? callee = some f →
    ∀ y ∈ f.params.zip xs, P f y.1.id (y.1.width.canonical y.2)
  result : ∀ (a : Activation) (d : Var) (callee : String) (args : List (Option Operand)) (f : Function) (x : Int64),
    a.Has m (.call (some d) callee args) → m.function? callee = some f → R f x → P a.function d.id (d.width.canonical x)
  ret : ∀ (a : Activation) (o : Option Operand) (x : Int64), a.Has m (.ret o) → a.Meets P →
    (∀ y, o = some y → a.value o = .ok x) → (o = none → x = 0) → R a.function x

/-- What `f` returns has the property `P` in the variables that wait for it, and so on for the callers. -/
def Awaits : Function → List Caller → Prop
  | _, [] => True
  | f, k :: callers =>
    (∀ d, k.dest = some d → ∀ x, R f x → P k.activation.function d.id (d.width.canonical x)) ∧
      Awaits k.activation.function callers

/-- The values of all activations have the property `P`, and so will have the results that are waited for. -/
structure Config.Meets (c : Config) : Prop where
  active : c.active.Meets P
  callers : ∀ k ∈ c.callers, k.activation.Meets P
  awaits : Awaits P R c.active.function c.callers

end

variable {m : Module} {a a' : Activation} {c c' : Config} {i : Instr} {rest : List Instr} {maxDepth : Int}
  {args : List Int64} {name : String} {P : Function → VarId → Int64 → Prop} {R : Function → Int64 → Prop}

theorem Module.exists_of_enter (hm : ∀ f ∈ m.functions, f.WellFormed) {depth : Nat} {sp : Int64}
    (h : m.enter maxDepth depth sp name args = .ok a) : ∃ f b slots last, m.function? name = some f ∧ f ∈ m.functions ∧
      reserve name (sp - 8) f.slots = .ok (slots, last) ∧ a = ⟨f, bindParams f.params args, slots, last, f.entry, b, b.code⟩ := by
  cases hname : m.function? name with
  | none =>
    rw [Module.enter, hname] at h
    cases h
  | some f =>
    have hf := mem_of_find?_eq_some hname
    obtain ⟨b, slots, last, -, hreserve, ha⟩ := Module.enter_eq_ok hname (hm f hf) h
    exact ⟨f, b, slots, last, rfl, hf, hreserve, ha⟩

namespace Activation.Meets

variable {f : Function} {env : Env}

theorem insert {id : VarId} {x : Int64} (h : ∀ id x, env[id]? = some x → P f id x) (hx : P f id x) :
    ∀ id' x', (env.insert id x)[id']? = some x' → P f id' x' := by
  intro id' x' hx'
  rw [Std.ExtTreeMap.getElem?_insert] at hx'
  split at hx'
  · next hid =>
    cases hx'
    exact Std.LawfulEqCmp.eq_of_compare hid ▸ hx
  · exact h id' x' hx'

theorem foldl {α : Type} {l : List α} (key : α → VarId) (value : α → Int64) (hl : ∀ y ∈ l, P f (key y) (value y))
    (h : ∀ id x, env[id]? = some x → P f id x) :
    ∀ id x, (l.foldl (fun env y => env.insert (key y) (value y)) env)[id]? = some x → P f id x := by
  induction l generalizing env with
  | nil => exact h
  | cons y l ih =>
    obtain ⟨hy, hl⟩ := forall_mem_cons.1 hl
    exact ih hl (insert h hy)

theorem goTo (h : a.Meets P) (hm : m.Preserves P R) (hf : a.function.WellFormed) (hmem : a.function ∈ m.functions)
    {pred id : BlockId} (hgo : a.goTo pred id = .ok a') : a'.function = a.function ∧ a'.Meets P := by
  unfold Activation.goTo at hgo
  split at hgo
  · cases hgo
  · next b hb =>
    obtain ⟨values, hvalues, hgo⟩ := bind_eq_ok.1 hgo
    cases hgo
    refine ⟨rfl, foldl (fun y : PhiMove × Int64 => y.1.dest.id) Prod.snd (fun y hy => ?_) h⟩
    obtain ⟨edges, hphi, hedge⟩ := Block.mem_phiMoves.1 (of_mem_zip hy).1
    exact hm.phi a _ edges _ _ ⟨hmem, b, (hf.block?_eq_some_iff.1 hb).1, takeWhile_subset _ hphi⟩ h hedge
      (forall₂_zip (mapM_eq_ok.1 hvalues) hy)

theorem enter (hm : ∀ f ∈ m.functions, f.WellFormed) {depth : Nat} {sp : Int64}
    (hargs : ∀ f, m.function? name = some f → ∀ y ∈ f.params.zip args, P f y.1.id (y.1.width.canonical y.2))
    (h : m.enter maxDepth depth sp name args = .ok a) : a.Meets P := by
  obtain ⟨f, b, slots, last, hname, -, -, rfl⟩ := Module.exists_of_enter hm h
  refine foldl (fun y : Var × Int64 => y.1.id) (fun y => y.1.width.canonical y.2) (hargs f hname) fun id x hx => ?_
  rw [Std.ExtTreeMap.getElem?_empty] at hx
  cases hx

end Activation.Meets

theorem Config.Meets.step (h : c.Meets P R) (hplace : c.InPlace m) (hm : m.Verified) (hp : m.Preserves P R)
    (hrest : c.active.rest = i :: rest) (hstep : (c.advance rest).step m maxDepth i = .ok (.next c')) : c'.Meets P R := by
  have hhas : (c.advance rest).active.Has m i :=
    ⟨hplace.active.mem, _, hplace.active.mem_blocks hm, hplace.active.mem_code hrest⟩
  have hactive : (c.advance rest).active.Meets P := h.active
  cases Config.moves_of_step hstep with
  | phi | store => exact ⟨h.active, h.callers, h.awaits⟩
  | assign hcomputes =>
    exact ⟨.insert h.active (hp.computes (c.advance rest).active _ i _ _ hhas hactive hcomputes), h.callers, h.awaits⟩
  | call hvalues henter =>
    refine ⟨.enter hm.wellFormed (fun f hf => hp.params _ _ _ _ _ f hhas hactive hvalues hf) henter,
      forall_mem_cons.2 ⟨h.active, h.callers⟩, ?_, h.awaits⟩
    rintro d rfl x hx
    obtain ⟨f, _, _, _, hname, -, -, rfl⟩ := Module.exists_of_enter hm.wellFormed henter
    exact hp.result _ d _ _ f x hhas hname hx
  | goTo _ hgo =>
    obtain ⟨hfunction, ha⟩ := hactive.goTo hp (hm.wellFormed _ hplace.active.mem) hplace.active.mem hgo
    exact ⟨ha, h.callers, hfunction ▸ h.awaits⟩
  | @leave o v a dest callers hsome hnone hcallers =>
    have hcallers : c.callers = ⟨a, dest⟩ :: callers := hcallers
    have hreturned := hp.ret _ o v hhas hactive hsome hnone
    obtain ⟨ha, hothers⟩ := forall_mem_cons.1 (hcallers ▸ h.callers)
    obtain ⟨hresult, hawaits⟩ : Awaits P R c.active.function (⟨a, dest⟩ :: callers) := hcallers ▸ h.awaits
    cases dest with
    | none => exact ⟨ha, hothers, hawaits⟩
    | some d => exact ⟨.insert ha (hresult d rfl v hreturned), hothers, hawaits⟩

theorem Module.Visits.meets {memory : Memory} (hm : m.Verified) (hmemory : memory.size < 2 ^ 63) (hp : m.Preserves P R)
    (hargs : ∀ f, m.function? name = some f → ∀ y ∈ f.params.zip args, P f y.1.id (y.1.width.canonical y.2))
    (h : m.Visits maxDepth memory name args c) : c.Meets P R := by
  induction h with
  | start henter => exact ⟨.enter hm.wellFormed hargs henter, forall_mem_nil _, trivial⟩
  | step hvisits hrest hstep ih => exact ih.step (hvisits.inPlace hm hmemory) hm hp hrest hstep

/-! ## Widths -/

/-- Only variables of the function have values, and these have the form of their widths. -/
def Function.Admits (f : Function) (env : Env) : Prop :=
  ∀ id x, env[id]? = some x → ∃ u ∈ f.vars, u.id = id ∧ u.width.IsCanonical x

namespace Function.Admits

variable {f : Function} {env : Env} {v : Var} {x : Int64}

/-- A variable that shares its number only with variables of its width reads as a value of this width. -/
theorem isCanonical_getD (h : f.Admits env) (hv : ∀ u ∈ f.vars, u.id = v.id → u.width = v.width) :
    v.width.IsCanonical (env.getD v.id 0) := by
  rw [Std.ExtTreeMap.getD_eq_getD_getElem?]
  cases hx : env[v.id]? with
  | none => exact v.width.isCanonical_zero
  | some x =>
    obtain ⟨u, hu, hid, hcanonical⟩ := h v.id x hx
    exact hv u hu hid ▸ hcanonical

theorem value {a : Activation} (h : a.function.Admits a.env) (hf : a.function.WellFormed) {o : Operand}
    (ho : a.function.Readable (some o)) (hx : a.value (some o) = .ok x) : o.width.IsCanonical x := by
  cases o with
  | imm c w =>
    cases hx
    exact Width.canonical_canonical w c
  | var u =>
    cases hx
    exact h.isCanonical_getD fun u' hu' hid => congrArg Var.width (inj_on_of_nodup_map hf.nodup hu' ho hid)

end Function.Admits

theorem Activation.Computes.isCanonical {memory : Memory} {d : Var} {x : Int64} (h : a.Computes memory i d x)
    (hd : d.width.isValid) (haddr : ∀ ref, i = .slotAddr d ref → d.width = .w64) : d.width.IsCanonical x := by
  cases h with
  | binop _ _ hv => exact BinOp.eval_isCanonical hv
  | cmp => exact isCanonical_ite_one_zero hd _
  | cast => exact CastOp.eval_isCanonical _
  | load hv =>
    obtain ⟨place, -, ⟨⟩⟩ := bind_eq_ok.1 hv
    exact Width.canonical_canonical _ _
  | slotAddr =>
    rw [haddr _ rfl]
    exact Width.canonical_w64 x

theorem Module.Verified.preserves_admits (hm : m.Verified) :
    m.Preserves (fun f id x => ∃ u ∈ f.vars, u.id = id ∧ u.width.IsCanonical x) fun _ _ => True where
  computes := by
    rintro a memory i d x ⟨hf, b, hb, hi⟩ - hcomputes
    have hd := Function.WellFormed.mem_vars_of_dest hb hi hcomputes.dest?_eq
    refine ⟨d, hd, rfl, hcomputes.isCanonical ((hm.wellFormed _ hf).width _ hd) ?_⟩
    rintro ref rfl
    exact ((hm.wellFormed _ hf).fits _ hb _ hi).1
  phi := by
    rintro a d edges e x ⟨hf, b, hb, hphi⟩ ha he hx
    have hfits : a.function.PhiFits b d edges := (hm.wellFormed _ hf).fits b hb _ hphi
    obtain ⟨o, hsource, hwidth⟩ := Option.map_eq_some_iff.1 (hfits.width _ he)
    have hread := hfits.readable _ he
    rw [hsource] at hx hread
    exact ⟨d, Function.WellFormed.mem_vars_of_dest hb hphi rfl, rfl,
      hwidth ▸ Function.Admits.value ha (hm.wellFormed _ hf) hread hx⟩
  params := by
    intro _ _ _ _ _ f _ _ _ _ y hy
    exact ⟨y.1, mem_append_left _ (of_mem_zip hy).1, rfl, Width.canonical_canonical _ _⟩
  result := by
    rintro a d callee args f x ⟨-, b, hb, hi⟩ - -
    exact ⟨d, Function.WellFormed.mem_vars_of_dest hb hi rfl, rfl, Width.canonical_canonical _ _⟩
  ret _ _ _ _ _ _ _ := trivial

/-- In every state of a run all values have the form of their widths. -/
theorem Module.Visits.admits {memory : Memory} (hm : m.Verified) (hmemory : memory.size < 2 ^ 63)
    (h : m.Visits maxDepth memory name args c) : c.active.function.Admits c.active.env := by
  refine (h.meets hm hmemory hm.preserves_admits fun f _ y hy => ?_).active
  exact ⟨y.1, mem_append_left _ (of_mem_zip hy).1, rfl, Width.canonical_canonical _ _⟩

end IR

end RegisterCompiler
