import RegisterCompiler.Proofs.Compilation

/-!
# Compilation preserves meaning

A function of a compiled module does in the machine what it does in the interpreter, unless the machine runs out of
stack or of steps.
-/

namespace RegisterCompiler

open List
open IR (Function Module)
open Machine (Cause Exec Fault Image State View finalReturn)
open Machine.View (Changes Does)

/-! ## Calls from outside -/

namespace Machine.View

variable {α : Type} {d : Descriptor} {args xs ys : List Int64} {v w : View}

theorem does_pure : Does (pure ()) .ok := fun s => ⟨s, rfl, rfl, rfl, rfl⟩

theorem does_forM {l : List α} {f : α → Exec Unit} {g : View → α → Except Cause View} (h : ∀ a, Does (f a) (g · a)) :
    Does (l.forM f) fun v => l.foldlM g v := by
  induction l with
  | nil => exact does_pure
  | cons a l ih =>
    simp only [foldlM_cons]
    exact (h a).bind ih

theorem Stacked.pushes (h : v.Stacked ys) (xs : List Int64) :
    xs.foldlM View.push v = .error .stackOverflow ∧ (v.regs .sp).toInt < 8 * xs.length ∨
      ∃ w, xs.foldlM View.push v = .ok w ∧ w.Stacked (xs.reverse ++ ys) ∧
        (w.regs .sp).toInt = (v.regs .sp).toInt - 8 * xs.length ∧ w.memory.size = v.memory.size := by
  induction xs generalizing v ys with
  | nil => exact .inr ⟨v, rfl, h, by simp, rfl⟩
  | cons x xs ih =>
    rw [foldlM_cons, length_cons]
    rcases h.push x with ⟨hoverflow, hless⟩ | ⟨w, hw, hstacked, hsp, hc⟩
    · exact .inl ⟨by rw [hoverflow]; rfl, by omega⟩
    · rw [hw, reverse_cons, append_assoc]
      rcases ih hstacked with ⟨hoverflow, hless⟩ | ⟨u, hu, hstacked, husp, hsize⟩
      · exact .inl ⟨hoverflow, by omega⟩
      · exact .inr ⟨u, hu, hstacked, by omega, hsize.trans hc.size⟩

theorem foldlM_put {l : List (Int64 × Reg)} (hgeneral : ∀ x ∈ l, x.2.num < 16) (hnodup : (l.map Prod.snd).Nodup) (v : View) :
    ∃ w, l.foldlM (fun v x => v.put x.2 x.1) v = .ok w ∧ Changes (· ∈ l.map Prod.snd) (fun _ => False) v w ∧
      ∀ x ∈ l, w.regs x.2 = x.1 := by
  induction l generalizing v with
  | nil => exact ⟨v, rfl, .refl v, nofun⟩
  | cons x l ih =>
    obtain ⟨hx, hl⟩ := forall_mem_cons.1 hgeneral
    obtain ⟨hnew, hnodup⟩ := nodup_cons.1 hnodup
    obtain ⟨w, hw, hc, hvalues⟩ := ih hl hnodup (v.set x.2 x.1)
    refine ⟨w, ?_, ?_, forall_mem_cons.2 ⟨?_, hvalues⟩⟩
    · rw [foldlM_cons, put_general hx]
      exact hw
    · exact ((changes_set _ v x.2 x.1).mono (fun r hr => hr ▸ mem_cons_self) fun _ => id).trans
        (hc.mono (fun r hr => mem_cons_of_mem _ hr) fun _ => id)
    · rw [hc.regs _ hnew, regs_set_self]

theorem view_reset (s : State) :
    s.reset.view = (State.view { memory := s.memory, pc := s.pc }).set .sp (Int64.ofNat s.memory.size) :=
  view_setSp _ _

theorem memory_reset (s : State) : s.reset.view.memory = s.memory := by
  rw [view_reset]
  rfl

theorem sp_reset (s : State) (hbound : s.memory.size < 2 ^ 63) : (s.reset.view.regs .sp).toInt = s.memory.size := by
  rw [view_reset, regs_set_self, toInt_ofNat_of_bounds hbound]

theorem stacked_reset (s : State) (hbound : s.memory.size < 2 ^ 63) : s.reset.view.Stacked [] := by
  refine ⟨nofun, ?_, ?_, ?_⟩
  · rw [sp_reset s hbound]
    exact Int.natCast_nonneg _
  · rw [sp_reset s hbound, memory_reset, length_nil]
    omega
  · rwa [memory_reset]

/-- A call from outside leaves its arguments where the callee expects them, unless there is no room for them. -/
theorem run_passArgs (hd : d.WellFormed) (args : List Int64) (s : State) (hbound : s.memory.size < 2 ^ 63) :
    (∃ t, (Image.passArgs d args).run s.reset = (.error .stackOverflow, t) ∧
        (s.memory.size : Int) < 8 * (args.length - d.args.length : Nat) + 8) ∨
      ∃ t, (Image.passArgs d args).run s.reset = (.ok (), t) ∧ Passed d args finalReturn t.view ∧ t.halted = false ∧
        (t.view.regs .sp).toInt = s.memory.size - 8 * (args.length - d.args.length : Nat) - 8 ∧
        t.view.memory.size = s.memory.size := by
  have hdoes : Does (Image.passArgs d args) (fun v => do
      let v ← (args.drop d.args.length).reverse.foldlM View.push v
      let v ← (args.zip d.args).foldlM (fun v x => v.put x.2 x.1) v
      v.push finalReturn) :=
    (does_forM does_push).bind ((does_forM fun x : Int64 × Reg => does_setReg x.2 x.1).bind (does_push finalReturn))
  have hlength : (args.drop d.args.length).reverse.length = args.length - d.args.length := by simp
  have hpushes := (stacked_reset s hbound).pushes (args.drop d.args.length).reverse
  rw [hlength, sp_reset s hbound, memory_reset] at hpushes
  rcases hpushes with ⟨hoverflow, hless⟩ | ⟨u, hu, hstacked, husp, husize⟩
  · obtain ⟨t, ht⟩ := hdoes.of_error (s := s.reset) (by rw [hoverflow]; rfl)
    exact .inl ⟨t, ht, by omega⟩
  rw [reverse_reverse, append_nil] at hstacked
  have hgeneral : ∀ x ∈ args.zip d.args, x.2.num < 16 := fun x hx => hd.args_general _ (of_mem_zip hx).2
  have hnodup : ((args.zip d.args).map Prod.snd).Nodup := by
    rw [zip_eq_zip_take_min, map_snd_zip (by simp)]
    exact hd.args_nodup.sublist (take_sublist _ _)
  obtain ⟨w, hw, hc, hvalues⟩ := foldlM_put hgeneral hnodup u
  have hsp : Reg.sp ∉ (args.zip d.args).map Prod.snd := fun hmem => by
    obtain ⟨x, hx, hsp⟩ := mem_map.1 hmem
    exact Reg.ne_sp (hgeneral x hx) hsp
  have hwsp := congrArg Int64.toInt (hc.regs _ hsp)
  rcases (hstacked.of_changes hc hsp).push finalReturn with ⟨hoverflow, hless⟩ | ⟨r, hr, hstacked', hrsp, hc'⟩
  · obtain ⟨t, ht⟩ := hdoes.of_error (s := s.reset) (by rw [hu]; simp only [bind, Except.bind, hw]; exact hoverflow)
    exact .inl ⟨t, ht, by omega⟩
  obtain ⟨t, hrun, rfl, -, hhalted⟩ := hdoes.of_ok (s := s.reset) (by rw [hu]; simp only [bind, Except.bind, hw]; exact hr)
  refine .inr ⟨t, hrun, ⟨fun k r x hkr hkx => ?_, hstacked'⟩, hhalted, by omega, (hc'.size.trans hc.size).trans husize⟩
  have hmem : (x, r) ∈ args.zip d.args := mem_of_getElem? (getElem?_zip_eq_some.2 ⟨hkx, hkr⟩)
  rw [hc'.regs r (Reg.ne_sp (hgeneral _ hmem))]
  exact hvalues _ hmem

end Machine.View

/-! ## Runs of the machine -/

namespace Machine.Image

variable {img : Image} {p q : Nat} {v w : View} {c : Cause} {s : State}

theorem Fails.loop (h : img.Fails p v c) (hpc : s.pc = p) (hview : s.view = v) (hrun : s.halted = false) (n : Nat) :
    ∃ f, (img.loop n s).1 = .error f ∧ (f.cause = c ∨ f.cause = .stepLimit) := by
  obtain ⟨t, i, t', hadvances, hinstr, hloud, hfails⟩ := h s hpc hview hrun
  rcases loop_of_advances hadvances n with ⟨f, hf, hlimit⟩ | ⟨k, hk⟩
  · exact ⟨f, hf, .inr hlimit⟩
  rw [hk]
  cases k with
  | zero => exact ⟨_, congrArg Prod.fst (loop_zero hinstr), .inr rfl⟩
  | succ k =>
    rw [loop_of_loud hinstr hloud, hfails]
    exact ⟨_, rfl, .inl rfl⟩

/-- A run that gets to the return from the outermost function halts there, unless it is short of steps. -/
theorem Goes.loop_ret (h : img.Goes p v q w) (hret : img.code[q]? = some .ret)
    (hread : w.read .w64 (w.regs .sp) = .ok finalReturn) (hpc : s.pc = p) (hview : s.view = v) (hrun : s.halted = false)
    (n : Nat) : ShortOfSteps (img.loop n s) ∨ ∃ t, img.loop n s = (.ok (), t) ∧ t.view = w.set .sp (w.regs .sp + 8) := by
  obtain ⟨t, hadvances, hpc, rfl, -⟩ := h s hpc hview hrun
  have hinstr : img.instr? t.pc = some .ret := instr?_of_code hpc hret
  rcases loop_of_advances hadvances n with hshort | ⟨k, hk⟩
  · exact .inl hshort
  rw [hk]
  cases k with
  | zero => exact .inl ⟨_, congrArg Prod.fst (loop_zero hinstr), rfl⟩
  | succ k =>
    have hstep : step img .ret { t with pc := t.pc + 1 } =
        (.ok (), { State.setSp { t with pc := t.pc + 1, steps := t.steps + 1 } (t.sp + 8) with halted := true }) :=
      run_ret (s := { t with pc := t.pc + 1, steps := t.steps + 1 }) hread
    rw [loop_of_loud hinstr rfl, hstep]
    exact .inr ⟨_, rfl, View.view_setSp _ _⟩

theorem resultIn_error {r : Reg} {f : Fault} {t : Except Fault Unit × State} (h : t.1 = .error f) :
    (resultIn r t).1 = .error f := by
  obtain ⟨_, s⟩ := t
  cases h
  rfl

theorem resultIn_ok {r : Reg} (hr : r.num < 16) (t : State) : (resultIn r (.ok (), t)).1 = .ok (t.view.regs r) := by
  have hreg := View.gives_reg r t
  dsimp only at hreg
  rw [View.get_general hr] at hreg
  rw [resultIn, hreg]

end Machine.Image

/-! ## The interpreter and the machine -/

/-- A call in the machine fails since its stack or its steps are used up. -/
def Machine.Exhausted (r : Except Fault Int64) : Prop :=
  ∃ fault, r = .error fault ∧ (fault.cause = .stackOverflow ∨ fault.cause = .stepLimit)

/-- What a call of the function `f` does in the machine, by what it does in the interpreter: it returns the same value if
    the function has a result, and fails by a division by zero where the interpreter does, unless it is exhausted. -/
structure Refines (f : Function) (r : Except IR.EvalError Int64) (r' : Except Fault Int64) : Prop where
  value : ∀ x, r = .ok x → Machine.Exhausted r' ∨ ∃ y, r' = .ok y ∧ (f.result ≠ .none → y = x)
  divideByZero : ∀ err, r = .error err → err.cause = .scalar .divideByZero → Machine.Exhausted r' ∨
    ∃ fault, r' = .error fault ∧ fault.cause = .scalar .divideByZero

namespace Refines

variable {f : Function} {r : Except IR.EvalError Int64} {r' : Except Fault Int64}

theorem of_exhausted (h : Machine.Exhausted r') : Refines f r r' := ⟨fun _ _ => .inl h, fun _ _ _ => .inl h⟩

theorem of_error {err : IR.EvalError} (hr : r = .error err)
    (h : err.cause = .scalar .divideByZero → Machine.Exhausted r' ∨
      ∃ fault, r' = .error fault ∧ fault.cause = .scalar .divideByZero) : Refines f r r' := by
  subst hr
  refine ⟨nofun, ?_⟩
  rintro _ ⟨⟩ hcause
  exact h hcause

theorem of_ok {x y : Int64} (hr : r = .ok x) (h : Machine.Exhausted r' ∨ r' = .ok y) (hxy : f.result ≠ .none → y = x) :
    Refines f r r' := by
  subst hr
  refine ⟨?_, nofun⟩
  rintro _ ⟨⟩
  exact h.imp_right fun hy => ⟨y, hy, hxy⟩

end Refines

theorem Machine.Image.Carries.refines {img : Image} {d : Descriptor} {m : Module} (himg : img.Carries d m)
    (hd : d.WellFormed) {f : Function} {name : String} (hname : m.function? name = some f) {args : List Int64}
    (hargs : List.Forall₂ (fun p x => p.width.IsCanonical x) f.params args) {limits : IR.Limits} {memory : Memory}
    (hmemory : memory.size < 2 ^ 63) (hcareful : m.Careful limits memory name args) (maxSteps : Int) {s : State}
    (hs : s.memory.size < 2 ^ 63) :
    Refines f (m.eval limits memory name args).result (img.call maxSteps d name args s).1 := by
  obtain ⟨e, rfl, he⟩ := himg.carried f (mem_of_find?_eq_some hname)
  unfold IR.Module.eval IR.Module.Careful at *
  cases henter : m.enter limits.maxDepth 0 (Int64.ofNat memory.size) name args with
  | error cause => exact .of_error rfl fun hcause => absurd hcause (he.sound.enter_ne_scalar hname henter _)
  | ok a =>
  rw [henter] at hcareful
  dsimp only at hcareful ⊢
  unfold call
  rcases View.run_passArgs hd args s hs with ⟨t, hrun, -⟩ | ⟨t, hrun, hpassed, hhalted, -⟩
  · rw [hrun]
    exact .of_exhausted ⟨_, rfl, .inl rfl⟩
  rw [hrun]
  obtain ⟨r, hr⟩ := he.exists_label himg hname
  have hjump : img.runFrom maxSteps name t = img.loop (budget maxSteps) { t with pc := r } := by
    rw [runFrom, run_jump hr]
  dsimp only
  rw [hjump]
  have hfails : ∀ c, img.Fails r t.view c → ∃ fault,
      (resultIn d.result (img.loop (budget maxSteps) { t with pc := r })).1 = .error fault ∧
        (fault.cause = c ∨ fault.cause = .stepLimit) := by
    intro c hc
    obtain ⟨fault, hfault, hcause⟩ := hc.loop (s := { t with pc := r }) rfl rfl hhalted (budget maxSteps)
    exact ⟨fault, resultIn_error hfault, hcause⟩
  have hdepth : 8 ≤ 2 * (Int64.ofNat memory.size).toInt + (t.view.memory.size - (t.view.regs .sp).toInt) := by
    have := hpassed.high
    rw [toInt_ofNat_of_bounds hmemory]
    omega
  rcases he.enters himg hname henter hargs (he.target ▸ hpassed) hdepth [] memory 0 hr with hoverflow | ⟨q, w, hgoes, hruns⟩
  · exact .of_exhausted (hfails _ hoverflow)
  rcases hruns.ends himg he rfl hcareful with
    hoverflow | ⟨err, herr, hzero⟩ | ⟨n, c, x, q', w', -, hend, -, hcallers, -, hgoes', hreturns⟩
  · exact .of_exhausted (hfails _ (hgoes.fails hoverflow))
  · refine .of_error herr fun hcause => ?_
    obtain ⟨fault, hfault, hcause⟩ := hfails _ (hgoes.fails (hzero hcause))
    exact hcause.elim (fun hzero => .inr ⟨fault, hfault, hzero⟩) fun hlimit => .inl ⟨fault, hfault, .inr hlimit⟩
  · have hleave : c.leave x = .finished x c := by rw [IR.Config.leave, hcallers]
    refine .of_ok (x := x) (y := w'.regs d.result) (by rw [hend, hleave]; rfl) ?_ fun hresult => ?_
    · rcases (hgoes.trans hgoes').loop_ret (s := { t with pc := r }) hreturns.code (hreturns.restores.read_address hpassed)
        rfl rfl hhalted (budget maxSteps) with ⟨fault, hfault, hlimit⟩ | ⟨u, hu, hview⟩
      · exact .inl ⟨fault, resultIn_error hfault, .inr hlimit⟩
      · right
        rw [hu, resultIn_ok hd.result_general, hview, View.regs_set_of_ne _ _ (Reg.ne_sp hd.result_general)]
    · rw [← he.target]
      exact hreturns.result hresult

/-- Compilation preserves meaning. The program of a module whose code is regular and whose frames are within their bound
    can be loaded, and a careful call of a function does in the machine what it does in the interpreter: it returns the
    same value, or fails by a division by zero as the interpreter does, unless the stack or the steps of the machine are
    used up. -/
theorem IR.Module.compile_preserves_eval {config : RegisterCompiler.Config} {d : Descriptor} {m : Module} {options : CompileOptions}
    {out : Output} (hd : config.descriptor = .ok d) (hcompile : m.compile d options = .ok out) (hregular : m.Regular)
    (hframes : m.FitsFrames d) (hsmall : out.program.flatten.length < 2 ^ 63) :
    ∃ img, Image.load out.program.flatten = .ok img ∧ ∀ f ∈ m.functions, ∀ args : List Int64,
      List.Forall₂ (fun p x => p.width.IsCanonical x) f.params args →
      ∀ (limits : Limits) (memory : Memory), memory.size < 2 ^ 63 → m.Careful limits memory f.name args →
      ∀ (maxSteps : Int) (s : State), s.memory.size < 2 ^ 63 →
        Refines f (m.eval limits memory f.name args).result (img.call maxSteps d f.name args s).1 := by
  have hwell := RegisterCompiler.Config.wellFormed_of_descriptor hd
  obtain ⟨img, hload, himg⟩ := Image.exists_carries hwell hcompile hregular hframes hsmall
  refine ⟨img, hload, fun f hf args hargs limits memory hmemory hcareful maxSteps s hs => ?_⟩
  have hname := function?_name (compile_eq_ok hcompile).1 hf
  exact himg.refines hwell hname hargs hmemory hcareful maxSteps hs

namespace Meaning

def smallConfig : Config := { name := "small", allocatable := ["r1", "r2"], args := ["r1"], calleeSaved := ["r2"] }

theorem descriptor_smallConfig : smallConfig.descriptor = .ok Allocation.smallTarget := by cbv

/-- A loop that calls a function, which gets its argument back from a frame variable. -/
def counting : Module :=
  let next : Function :=
    { name := "next", params := [⟨0, .w64⟩], result := .w64, entry := 0, slots := [⟨0, "cell", 1, .w64⟩]
      blocks := [⟨0, "entry", [
        .store (some (.var ⟨0, .w64⟩)) (some (.slot ⟨0, none, 0, 0⟩)),
        .load ⟨1, .w64⟩ (some (.slot ⟨0, none, 0, 0⟩)),
        .binop .add ⟨2, .w64⟩ (some (.var ⟨1, .w64⟩)) (some (.imm 1 .w64)),
        .ret (some (.var ⟨2, .w64⟩))]⟩] }
  { functions := [Allocation.countdown, next] }

theorem compile_preserves_eval_counting :
    ∃ out img, smallConfig.descriptor = .ok Allocation.smallTarget ∧
      counting.compile Allocation.smallTarget {} = .ok out ∧ counting.Regular ∧
      counting.FitsFrames Allocation.smallTarget ∧ out.program.flatten.length < 2 ^ 63 ∧
      Image.load out.program.flatten = .ok img ∧
      List.Forall₂ (fun p x => p.width.IsCanonical x) Allocation.countdown.params [2] ∧
      counting.Careful { maxSteps := 60 } ⟨256, ∅⟩ "countdown" [2] ∧
      (counting.eval { maxSteps := 60 } ⟨256, ∅⟩ "countdown" [2]).result.toOption = some 2 ∧
      Refines Allocation.countdown (counting.eval { maxSteps := 60 } ⟨256, ∅⟩ "countdown" [2]).result
        (img.call 0 Allocation.smallTarget "countdown" [2] { memory := ⟨256, ∅⟩ }).1 := by
  have hd := descriptor_smallConfig
  have hlength : (counting.compile Allocation.smallTarget {}).toOption.map (·.program.flatten.length) = some 43 := by cbv
  have hregular : counting.Regular := by decide
  have hframes : counting.FitsFrames Allocation.smallTarget := by
    have hextents : counting.functions.map (fun f => (Allocation.ofFunction Allocation.smallTarget f).toOption.map fun a =>
        Layout.extent Allocation.smallTarget f a.spilled a.saved) = [some 32, some 16] := by cbv
    intro f hf a ha
    have hmem : some (Layout.extent Allocation.smallTarget f a.spilled a.saved) ∈ [some 32, some 16] :=
      hextents ▸ mem_map.2 ⟨f, hf, by rw [ha]; rfl⟩
    have hextent : Layout.extent Allocation.smallTarget f a.spilled a.saved ∈ [32, 16] := by simpa using hmem
    have hmax : Allocation.smallTarget.maxFrame.toInt = 65536 := rfl
    rcases mem_pair.1 hextent with h | h <;> omega
  have hargs : List.Forall₂ (fun p x => p.width.IsCanonical x) Allocation.countdown.params [2] := .cons rfl .nil
  have hcareful : counting.Careful { maxSteps := 60 } ⟨256, ∅⟩ "countdown" [2] := by decide +kernel
  have heval : (counting.eval { maxSteps := 60 } ⟨256, ∅⟩ "countdown" [2]).result.toOption = some 2 := by decide +kernel
  cases hcompile : counting.compile Allocation.smallTarget {} with
  | error err =>
    rw [hcompile] at hlength
    cases hlength
  | ok out =>
    rw [hcompile] at hlength
    have hlength : out.program.flatten.length = 43 := Option.some.inj hlength
    obtain ⟨img, hload, hcall⟩ := IR.Module.compile_preserves_eval hd hcompile hregular hframes (by omega)
    exact ⟨out, img, hd, rfl, hregular, hframes, by omega, hload, hargs, hcareful, heval,
      hcall _ mem_cons_self [2] hargs _ _ (by decide) hcareful 0 _ (by decide)⟩

/-! ## What the conditions are for -/

def addressOf : Module :=
  { functions := [
    { name := "f", params := [], result := .w64, entry := 0, slots := [⟨0, "a", 1, .w64⟩]
      blocks := [⟨0, "entry", [.slotAddr ⟨0, .w64⟩ ⟨0, none, 0, 0⟩, .ret (some (.var ⟨0, .w64⟩))]⟩] }] }

def foreignCast : Module :=
  { functions := [
    { name := "f", params := [⟨0, .w8⟩], result := .w64, entry := 0, slots := []
      blocks := [⟨0, "entry", [
        .cast (.other 3) ⟨1, .w64⟩ (some (.var ⟨0, .w8⟩)), .ret (some (.var ⟨1, .w64⟩))]⟩] }] }

/-- A function `g` whose frame is so large that its size wraps around to a small one, and a function that calls it. -/
def wrappedFrame : Module :=
  { functions := [
    { name := "g", params := [], result := .w64, entry := 0
      slots := [⟨0, "big", 2305843009213693949, .w64⟩, ⟨1, "x", 1, .w64⟩]
      blocks := [⟨0, "entry", [
        .store (some (.imm 7 .w64)) (some (.slot ⟨1, none, 0, 0⟩)),
        .load ⟨1, .w64⟩ (some (.slot ⟨1, none, 0, 0⟩)),
        .ret (some (.var ⟨1, .w64⟩))]⟩] },
    { name := "f", params := [⟨0, .w64⟩], result := .w64, entry := 0, slots := [⟨0, "pad", 1, .w64⟩]
      blocks := [⟨0, "entry", [.call (some ⟨1, .w64⟩) "g" [], .ret (some (.var ⟨0, .w64⟩))]⟩] }] }

/-- A machine that has all its arguments on the stack, and whose functions give back all registers for variables. -/
def savingConfig : Config := { allocatable := ["r1", "r2"], args := [], calleeSaved := ["r1", "r2"] }

def callCompiled (config : Config) (m : Module) (memory : Memory) (name : String) (args : List Int64) : Option Int64 := do
  let d ← config.descriptor.toOption
  let out ← (m.compile d {}).toOption
  let img ← (Image.load out.program.flatten).toOption
  (img.call 0 d name args { memory }).1.toOption

theorem callCompiled_addressOf : callCompiled {} addressOf ⟨64, ∅⟩ "f" [] = some 40 := by cbv

theorem callCompiled_foreignCast : callCompiled {} foreignCast ⟨64, ∅⟩ "f" [5] = some 0 := by cbv

theorem callCompiled_wrappedFrame : callCompiled savingConfig wrappedFrame ⟨256, ∅⟩ "f" [100] = some 7 := by cbv

/-- Careful calls whose values differ: the address of a frame variable is not the same in the machine, a conversion that
    does not exist has no code, and a frame whose size wraps around has areas in common. -/
theorem callCompiled_ne_eval :
    (addressOf.Careful { maxSteps := 9 } ⟨64, ∅⟩ "f" [] ∧
      (addressOf.eval { maxSteps := 9 } ⟨64, ∅⟩ "f" []).result.toOption = some 48 ∧
      callCompiled {} addressOf ⟨64, ∅⟩ "f" [] = some 40) ∧
    (foreignCast.Careful { maxSteps := 9 } ⟨64, ∅⟩ "f" [5] ∧
      (foreignCast.eval { maxSteps := 9 } ⟨64, ∅⟩ "f" [5]).result.toOption = some 5 ∧
      callCompiled {} foreignCast ⟨64, ∅⟩ "f" [5] = some 0) ∧
    wrappedFrame.Regular ∧ wrappedFrame.Careful { maxSteps := 9 } ⟨256, ∅⟩ "f" [100] ∧
      (wrappedFrame.eval { maxSteps := 9 } ⟨256, ∅⟩ "f" [100]).result.toOption = some 100 ∧
      callCompiled savingConfig wrappedFrame ⟨256, ∅⟩ "f" [100] = some 7 := by
  refine ⟨⟨?_, ?_, callCompiled_addressOf⟩, ⟨?_, ?_, callCompiled_foreignCast⟩, ?_, ?_, ?_, callCompiled_wrappedFrame⟩
  all_goals decide +kernel

end Meaning

end RegisterCompiler
