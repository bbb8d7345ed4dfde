import RegisterCompiler.Proofs.Conduct
import RegisterCompiler.Proofs.Meaning

/-!
# Starting a program

A program with an entry begins with code that calls the function of this name and halts. A machine that runs the program
from there does what it does when the function is called from outside, except that the return address on its stack is that
of the instruction that halts. Whether the function can tell the difference is the question; it cannot if its code obeys
the discipline of the stack.
-/

namespace RegisterCompiler

open List
open IR (Function Module)

namespace Machine

variable {x y : Int64} {u v : View} {s s' t : State} {img : Image} {gate : Nat → Shape → Prop} {F : Shape} {d : Descriptor}
  {f : Asm.Label} {q : Nat} {maxSteps limit : Int} {r : Reg}

theorem View.Twin.of_push (hsp : (v.regs .sp).toInt = v.memory.size) (hsize : v.memory.size < 2 ^ 63)
    (hu : v.push y = .ok u) :
    ∃ a : Nat, a + 8 = u.memory.size ∧ (u.regs .sp).toInt = a ∧ u.memory.value .w64 a = y ∧
      u.memory.size = v.memory.size ∧ ∀ x, ∃ u', v.push x = .ok u' ∧ View.Twin x u u' := by
  have hpush := fun z => View.push_cases (v := v) z (by omega) (by omega) hsize
  have hvalue : ∀ z : Int64, (v.memory.store ((v.regs .sp).toInt - 8).toNat z.toUInt64 8).value .w64
      ((v.regs .sp).toInt - 8).toNat = z := fun z =>
    (Memory.value_store_of_le _ Width.isValid_w64 (Nat.le_refl 8) (Nat.le_refl 8) _ z).trans (Width.canonical_w64 z)
  obtain ⟨hoverflow, -⟩ | ⟨h8, hsub, hok⟩ := hpush y
  · cases hoverflow.symm.trans hu
  cases hok.symm.trans hu
  refine ⟨((v.regs .sp).toInt - 8).toNat, ?_, ?_, hvalue y, Memory.size_store _ _ _ _, fun z => ?_⟩
  · rw [View.memory_set, Memory.size_store]
    omega
  · rw [View.regs_set_self, hsub]
    omega
  · obtain ⟨-, hless⟩ | ⟨-, -, hok'⟩ := hpush z
    · omega
    have htwin : View.Twin z { v with memory := v.memory.store ((v.regs .sp).toInt - 8).toNat y.toUInt64 8 }
        { v with memory := v.memory.store ((v.regs .sp).toInt - 8).toNat z.toUInt64 8 } := by
      refine ⟨rfl, ?_, fun a ha => ?_, ?_⟩
      · simp only [Memory.size_store]
      · simp only [Memory.size_store] at ha
        exact (Memory.get_store_of_outside _ (by omega) _).trans (Memory.get_store_of_outside _ (by omega) _).symm
      · simp only [Memory.size_store]
        rw [show v.memory.size - 8 = ((v.regs .sp).toInt - 8).toNat by omega]
        exact hvalue z
    exact ⟨_, hok', htwin.set _ _⟩

namespace Image

theorem resultIn_eq_ok {out : Except Fault Unit × State} (h : resultIn r out = (.ok x, t)) :
    out = (.ok (), t) ∧ t.view.get r = .ok x := by
  obtain ⟨f | _, s⟩ := out
  · cases h
  · have hreg : (Exec.reg r).run s = (s.view.get r, s) := View.gives_reg r s
    simp only [resultIn, hreg] at h
    cases hget : s.view.get r with
    | error c =>
      rw [hget] at h
      cases h
    | ok y =>
      rw [hget] at h
      cases h
      exact ⟨rfl, hget⟩

/-- A call without arguments that has a result: the return address is on the stack when the function is run. -/
theorem call_nil_eq_ok (hf : img.labels.lookup f = some q) (h : img.call maxSteps d f [] s = (.ok x, t)) :
    ∃ s₁, (Exec.push finalReturn).run s.reset = (.ok (), s₁) ∧
      img.loop (budget maxSteps) { s₁ with pc := q } = (.ok (), t) ∧ t.view.get d.result = .ok x := by
  have hpass : (passArgs d []).run s.reset = (Exec.push finalReturn).run s.reset := by
    simp only [passArgs, drop_nil, reverse_nil, zip_nil_left, View.run_bind]
    rfl
  rw [call, hpass] at h
  cases hpush : (Exec.push finalReturn).run s.reset with
  | mk out s₁ =>
    rw [hpush] at h
    cases out with
    | error c => cases h
    | ok =>
      obtain ⟨hrun, hx⟩ := resultIn_eq_ok h
      rw [runFrom, run_jump hf] at hrun
      exact ⟨s₁, rfl, hrun, hx⟩

theorem start_of_executes {items : List Asm.Instr} {l : Asm.Label} (hl : img.labels.lookup l = some q)
    (h : img.Executes (budget limit) { s.reset with pc := q } items (.ok (), t)) :
    img.start limit l s = (.ok (t.view.regs ⟨0⟩), t) := by
  obtain ⟨items', hloop⟩ := executes_loop img (s := { s.reset with pc := q }) (n := budget limit) rfl (Nat.zero_add _)
  obtain ⟨-, hout⟩ := h.unique hloop
  have hreg : (Exec.reg ⟨0⟩).run t = (t.view.get ⟨0⟩, t) := View.gives_reg _ t
  rw [View.get_general (by decide)] at hreg
  rw [start, runFrom, run_jump hl]
  simp only [hout, resultIn, hreg]

theorem steady_of_push (horder : img.Orderly gate) (hgate : gate q F) (hroom : F.room ≤ 0) (hsize : s.memory.size < 2 ^ 63)
    (hpush : (Exec.push finalReturn).run s.reset = (.ok (), t)) : img.Steady gate { t with pc := q } := by
  obtain ⟨hu, -, hrunning⟩ := (View.does_push finalReturn).of_run hpush
  obtain ⟨a, htop, hsp, hfinal, hsame, -⟩ := View.Twin.of_push
    ((View.sp_reset s hsize).trans (by rw [View.memory_reset])) (by rwa [View.memory_reset]) hu
  refine ⟨hrunning, ?_, q, F, .entry, q, hgate, horder.entry hgate, rfl, .entry hsp (.outermost htop hfinal) hroom⟩
  exact (hsame.trans (congrArg Memory.size (View.memory_reset s))).trans_lt hsize

/-- A call that is the second instruction of the code finds the stack empty. It makes the machine a twin of one on which
    the function is called from outside. -/
theorem twins_of_call (hf : img.labels.lookup f = some q) (hmemory : s'.memory = s.memory) (hsize : s.memory.size < 2 ^ 63)
    (hpush : (Exec.push finalReturn).run s.reset = (.ok (), t)) :
    ∃ t', step img (.call f) { s'.reset with pc := 2 } = (.ok (), t') ∧ t'.steps = t.steps + 1 ∧
      Twins (Int64.ofNat 2) { t with pc := q } t' := by
  have hview : s'.reset.view = s.reset.view := by
    rw [View.view_reset, View.view_reset, hmemory]
    rfl
  obtain ⟨hu, -, hrunning⟩ := (View.does_push finalReturn).of_run hpush
  obtain ⟨_, -, -, -, -, htwin⟩ := View.Twin.of_push
    ((View.sp_reset s hsize).trans (by rw [View.memory_reset])) (by rwa [View.memory_reset]) hu
  obtain ⟨u', hu', htwin⟩ := htwin (Int64.ofNat 2)
  have hok : s'.reset.view.push (Int64.ofNat 2) = .ok u' := hview ▸ hu'
  obtain ⟨c, _, hc, -⟩ | ⟨w, t', hw, ht', hview', hpc', hhalted'⟩ :=
    step_call (s := { s'.reset with pc := 1 }) (p := 1) hf rfl
  · cases hok.symm.trans hc
  cases hok.symm.trans hw
  refine ⟨t', ht', ?_, hpc', hhalted'.trans hrunning.symm, hview' ▸ htwin⟩
  have hclock := (timeless_push finalReturn s.reset).1
  have hclock' := steps_step img (.call f) { s'.reset with pc := 2 }
  rw [hpush] at hclock
  rw [show step img (.call f) { s'.reset with pc := 2 } = (.ok (), t') from ht'] at hclock'
  rw [hclock', hclock]
  rfl

/-- A program of code that obeys the discipline ends with the registers as a call of its entry leaves them. -/
theorem start_of_call (horder : img.Orderly gate) (hresolves : img.Resolves)
    (hstub : img.CodeAt 0 [.label Asm.startLabel, .call f, .halt]) (hf : img.labels.lookup f = some q) (hgate : gate q F)
    (hroom : F.room ≤ 0) (hmemory : s'.memory = s.memory) (hsize : s.memory.size < 2 ^ 63)
    (hcall : img.call maxSteps d f [] s = (.ok x, t)) (hlimit : t.steps + 2 ≤ budget limit) :
    t.view.get d.result = .ok x ∧ ∃ t', img.start limit Asm.startLabel s' = (.ok (t'.view.regs ⟨0⟩), t') ∧
      t'.view.regs = t.view.regs ∧ t'.steps = t.steps + 2 := by
  obtain ⟨s₁, hpush, hloop, hx⟩ := call_nil_eq_ok hf hcall
  obtain ⟨hlabel, hstub⟩ := codeAt_cons.1 hstub
  obtain ⟨hcallAt, hhalt⟩ := codeAt_cons.1 hstub
  -- The first machine is in the function that is called, and the second one gets there by the call of the stub.
  have hsteady := steady_of_push horder hgate hroom hsize hpush
  obtain ⟨s₁', hstep, hsteps, htwins⟩ := twins_of_call hf hmemory hsize hpush
  obtain ⟨items, hrun⟩ := executes_loop img (s := { s₁ with pc := q }) (n := budget maxSteps) hsteady.running rfl
  rw [hloop] at hrun
  -- From there on they are twins, until the second one returns to the instruction that halts.
  have hleft : t.steps + 1 < budget limit := by omega
  obtain ⟨items', t', hrun', hregs, hsteps'⟩ := hrun.twin horder hsteady (codeAt_singleton.1 hhalt) htwins hsteps hleft
  have hpositive : 0 < budget limit := by omega
  have hstart : img.Executes (budget limit) { s'.reset with pc := (0 : Nat) } (.label Asm.startLabel :: .call f :: items')
      (.ok (), t') :=
    .step rfl (instr?_of_code rfl hlabel) hpositive rfl (.step rfl (instr?_of_code rfl hcallAt) hpositive hstep hrun')
  exact ⟨hx, t', start_of_executes (hresolves 0 _ hlabel) hstart, hregs, hsteps'⟩

end Image

end Machine

namespace IR.Module

variable {m : Module} {d : Descriptor} {options : CompileOptions} {out : Output}

theorem entry_of_compile (h : m.compile d options = .ok out) : out.program.entry = options.entry := by
  obtain ⟨functions, -, hlink⟩ := Success.bind_eq_ok.1 h
  unfold link at hlink
  dsimp only at hlink
  split at hlink
  · cases hlink
    rfl
  · cases hlink

/-- Starting a program and calling its entry agree. A module whose functions do not access the memory is compiled with an
    entry that has no parameters, its calls pass the arguments that their callees look for, and its frames are within
    their bound. Then, if a call of the entry has a result, the program ends with the same registers two steps later, and
    gives this result if the machine returns results in the first register. -/
theorem start_agrees {config : RegisterCompiler.Config} {f : Function} (hd : config.descriptor = .ok d)
    (hcompile : m.compile d options = .ok out) (hentry : options.entry ≠ "") (hf : m.function? options.entry = some f)
    (hparams : f.params = []) (hfree : m.AccessFree) (hpasses : m.PassesEnough d) (hframes : m.FitsFrames d)
    (hsmall : out.program.flatten.length < 2 ^ 63) :
    ∃ img, Machine.Image.load out.program.flatten = .ok img ∧
      ∀ (maxSteps limit : Int) (s s' t : Machine.State) (x : Int64), s'.memory = s.memory → s.memory.size < 2 ^ 63 →
        img.call maxSteps d options.entry [] s = (.ok x, t) → t.steps + 2 ≤ Machine.Image.budget limit →
        ∃ t', img.start limit Asm.startLabel s' = (.ok (t.view.regs ⟨0⟩), t') ∧ t'.view.regs = t.view.regs ∧
          t'.steps = t.steps + 2 ∧ (d.result = ⟨0⟩ → t.view.regs ⟨0⟩ = x) := by
  have hwell := RegisterCompiler.Config.wellFormed_of_descriptor hd
  obtain ⟨-, -, -, hvalid⟩ := compile_eq_ok hcompile
  obtain ⟨img, hload, hcode, hresolves⟩ := Machine.Image.exists_load hvalid
  refine ⟨img, hload, fun maxSteps limit s s' t x hmemory hsize hcall hlimit => ?_⟩
  have horder := Machine.Image.orderly hwell hcompile hfree hpasses hframes hload hsmall
  have hname : f.name = options.entry := by simpa using find?_some hf
  obtain ⟨e, rfl, he⟩ := Emission.exists_carried hwell hcompile hframes hload (mem_of_find?_eq_some hf)
  obtain ⟨q, -, hq, -⟩ := he.linked.entry
  have hroom : (e.shape img).room = 0 := by simp [Emission.shape, Emission.argRoom, hparams]
  have hgate : img.gate d m q (e.shape img) := ⟨e, he, hq, rfl, by omega⟩
  have hstub : img.CodeAt 0 [.label Asm.startLabel, .call options.entry, .halt] := by
    rw [Asm.Program.flatten, Asm.Program.start, entry_of_compile hcompile, if_neg hentry] at hcode
    intro k i hk
    rw [hcode, Nat.zero_add, getElem?_toArray, getElem?_append_left (List.getElem?_eq_some_iff.1 hk).1, hk]
  obtain ⟨hx, t', hstart, hregs, hsteps⟩ := Machine.Image.start_of_call horder hresolves hstub
    (hname ▸ hresolves q _ hq) hgate hroom.le hmemory hsize hcall hlimit
  refine ⟨t', hregs ▸ hstart, hregs, hsteps, fun hresult => ?_⟩
  rw [Machine.View.get_general hwell.result_general, hresult] at hx
  exact Except.ok.inj hx

end IR.Module

namespace Startup

open Allocation (smallTarget)
open Meaning (smallConfig)

/-- A function that calls another one with arguments on the stack. -/
def mixing : Module :=
  let w := Width.w64
  { functions := [
    { name := "main", params := [], result := w, entry := 0, slots := []
      blocks := [⟨0, "entry", [
        .call (some ⟨0, w⟩) "mix" [some (.imm 7 w), some (.imm 2 w), some (.imm 5 w)],
        .binop .sub ⟨1, w⟩ (some (.var ⟨0, w⟩)) (some (.imm 1 w)),
        .ret (some (.var ⟨1, w⟩))]⟩] },
    { name := "mix", params := [⟨0, w⟩, ⟨1, w⟩, ⟨2, w⟩], result := w, entry := 0, slots := []
      blocks := [⟨0, "entry", [
        .binop .mul ⟨3, w⟩ (some (.var ⟨1, w⟩)) (some (.var ⟨2, w⟩)),
        .binop .add ⟨4, w⟩ (some (.var ⟨0, w⟩)) (some (.var ⟨3, w⟩)),
        .ret (some (.var ⟨4, w⟩))]⟩] }] }

theorem start_agrees_mixing :
    ∃ out img f t t', smallConfig.descriptor = .ok smallTarget ∧ mixing.compile smallTarget { entry := "main" } = .ok out ∧
      mixing.function? "main" = some f ∧ f.params = [] ∧ mixing.AccessFree ∧ mixing.PassesEnough smallTarget ∧
      mixing.FitsFrames smallTarget ∧ out.program.flatten.length < 2 ^ 63 ∧
      Machine.Image.load out.program.flatten = .ok img ∧
      img.call 0 smallTarget "main" [] { memory := ⟨256, ∅⟩ } = (.ok 16, t) ∧ t.steps = 35 ∧
      img.start 37 Asm.startLabel { memory := ⟨256, ∅⟩ } = (.ok 16, t') ∧ t'.view.regs = t.view.regs ∧ t'.steps = 37 := by
  have hd := Meaning.descriptor_smallConfig
  have hframes : mixing.FitsFrames smallTarget := by
    have hextents : mixing.functions.map (fun f => (Allocation.ofFunction smallTarget f).toOption.map fun a =>
        Layout.extent smallTarget f a.spilled a.saved) = [some 16, some 32] := by cbv
    intro f hf a ha
    have hmem : some (Layout.extent smallTarget f a.spilled a.saved) ∈ [some 16, some 32] :=
      hextents ▸ mem_map.2 ⟨f, hf, by rw [ha]; rfl⟩
    have hextent : Layout.extent smallTarget f a.spilled a.saved ∈ [16, 32] := by simpa using hmem
    have hmax : smallTarget.maxFrame.toInt = 65536 := rfl
    rcases mem_pair.1 hextent with h | h <;> omega
  have hrun : (do
      let out ← (mixing.compile smallTarget { entry := "main" }).toOption
      let img ← (Machine.Image.load out.program.flatten).toOption
      let r := img.call 0 smallTarget "main" [] { memory := ⟨256, ∅⟩ }
      pure (out.program.flatten.length, r.1.toOption, r.2.steps)) = some (42, some 16, 35) := by cbv
  have hfree : mixing.AccessFree := by decide
  have hpasses : mixing.PassesEnough smallTarget := by decide
  cases hcompile : mixing.compile smallTarget { entry := "main" } with
  | error err =>
    rw [hcompile] at hrun
    cases hrun
  | ok out =>
    rw [hcompile] at hrun
    cases hload : Machine.Image.load out.program.flatten with
    | error err =>
      simp only [Except.toOption, bind, Option.bind, hload] at hrun
      cases hrun
    | ok img =>
      simp only [Except.toOption, bind, Option.bind, hload, pure, Option.some.injEq, Prod.mk.injEq] at hrun
      obtain ⟨hlength, hresult, hsteps⟩ := hrun
      obtain ⟨img', hload', hagrees⟩ := IR.Module.start_agrees hd hcompile (by decide) rfl rfl hfree hpasses hframes
        (by rw [hlength]; decide)
      cases hload.symm.trans hload'
      obtain ⟨t, hcall⟩ : ∃ t, img.call 0 smallTarget "main" [] { memory := ⟨256, ∅⟩ } = (.ok 16, t) := by
        cases hcall : img.call 0 smallTarget "main" [] { memory := ⟨256, ∅⟩ } with
        | mk r t =>
          rw [hcall] at hresult
          cases r with
          | error c => cases hresult
          | ok x => exact ⟨t, by rw [Option.some.inj hresult]⟩
      rw [hcall] at hsteps
      obtain ⟨t', hstart, hregs, hsteps', hx⟩ := hagrees 0 37 _ { memory := ⟨256, ∅⟩ } t 16 rfl (by decide) hcall
        (by rw [hsteps]; decide)
      rw [hx rfl] at hstart
      exact ⟨out, img, _, t, t', hd, rfl, rfl, rfl, hfree, hpasses, hframes, by rw [hlength]; decide, hload, hcall, hsteps,
        hstart, hregs, by rw [hsteps', hsteps]⟩

/-! ## What the conditions are for -/

def machine (config : Config) (m : Module) (entry : String) : Option (Descriptor × Machine.Image) := do
  let d ← config.descriptor.toOption
  let out ← (m.compile d { entry }).toOption
  let img ← (Machine.Image.load out.program.flatten).toOption
  pure (d, img)

/-- What a call of the function `main` of a compiled program gives, and what the program gives. -/
def results (config : Config) (m : Module) : Option (Option Int64 × Option Int64) :=
  (machine config m "main").map fun (d, img) =>
    ((img.call 0 d "main" [] { memory := ⟨64, ∅⟩ }).1.toOption,
      (img.start 0 Asm.startLabel { memory := ⟨64, ∅⟩ }).1.toOption)

def secondConfig : Config := { allocatable := ["r2"], result := "r1", args := [] }

def constant : Module :=
  { functions := [
    { name := "main", params := [], result := .w64, entry := 0, slots := []
      blocks := [⟨0, "entry", [.ret (some (.imm 7 .w64))]⟩] }] }

def stackConfig : Config := { args := [] }

/-- A function that calls another one without the arguments that it looks for. -/
def omitting : Module :=
  let w := Width.w64
  { functions := [
    { name := "main", params := [], result := w, entry := 0, slots := []
      blocks := [⟨0, "entry", [.call (some ⟨0, w⟩) "last" [], .ret (some (.var ⟨0, w⟩))]⟩] },
    { name := "last", params := [⟨0, w⟩, ⟨1, w⟩], result := w, entry := 0, slots := []
      blocks := [⟨0, "entry", [.ret (some (.var ⟨1, w⟩))]⟩] }] }

/-- A function whose frame is so large that its size wraps around, with a variable that is not set on every path. -/
def wrapping : Module :=
  let w := Width.w64
  { functions := [
    { name := "main", params := [], result := w, entry := 0, slots := [⟨0, "big", 2305843009213693947, w⟩]
      blocks := [
        ⟨0, "entry", [.branch (some (.imm 0 .w8)) 1 2]⟩,
        ⟨1, "set", [.binop .add ⟨0, w⟩ (some (.imm 1 w)) (some (.imm 2 w)), .jump 2]⟩,
        ⟨2, "exit", [.call none "idle" [], .ret (some (.var ⟨0, w⟩))]⟩] },
    { name := "idle", params := [], result := .none, entry := 0, slots := [], blocks := [⟨0, "entry", [.ret none]⟩] }] }

theorem results_constant : results secondConfig constant = some (some 7, some 0) := by cbv

theorem results_omitting : results stackConfig omitting = some (some (-1), some 2) := by cbv

theorem results_wrapping : results {} wrapping = some (some (-1), some 2) := by cbv

/-- Programs of functions that do not access the memory, which give something else than a call of their entry: the
    result is in another register, or the return address is taken for an argument, or for a variable in the frame. -/
theorem start_ne_call :
    (constant.AccessFree ∧ results secondConfig constant = some (some 7, some 0)) ∧
      (omitting.AccessFree ∧ results stackConfig omitting = some (some (-1), some 2)) ∧
      wrapping.AccessFree ∧ results {} wrapping = some (some (-1), some 2) := by
  refine ⟨⟨?_, results_constant⟩, ⟨?_, results_omitting⟩, ?_, results_wrapping⟩
  all_goals decide

end Startup

end RegisterCompiler
