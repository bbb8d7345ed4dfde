import RegisterCompiler.Proofs.Convention

/-!
# Parameters at the first block

A call from outside may pass any words. The interpreter gives each parameter the value of its argument at its width, and so
does the machine, by the move that brings the argument to the home of the parameter. A parameter whose home is the register
in which its argument comes needs no move, and keeps what else is in the register.
-/

namespace RegisterCompiler

open IR (Function Var)
open Machine (Image State)

theorem IR.Module.env_of_enter {m : IR.Module} {f : Function} {maxDepth : Int} {depth : Nat} {sp : Int64} {args : List Int64}
    {a : IR.Activation} (hfunction : m.function? f.name = some f) (hf : f.WellFormed)
    (henter : m.enter maxDepth depth sp f.name args = .ok a) (hlength : f.params.length = args.length) {n : Nat} {p : Var}
    {x : Int64} (hp : f.params[n]? = some p) (hx : args[n]? = some x) : a.env[p.id]? = some (p.width.canonical x) := by
  obtain ⟨b, slots, last, -, -, rfl⟩ := Module.enter_eq_ok hfunction hf henter
  exact getElem?_bindParams_of_getElem? hf hlength hp hx

/-- What the homes of parameters hold at the first block. A function is compiled, its code is in a program that can be
    loaded, and it is called from outside with any words as arguments, as many as it has parameters. If there is room for
    them and for the frame, the machine gets to the first block. The home of a parameter then holds the value of its
    argument at its width, which the interpreter gives to the parameter, except that a home in which the argument came holds
    the argument as it was given; so the two agree exactly if that is not the home or the argument has the width. -/
theorem Emission.home_of_param {config : Config} {d : Descriptor} {f : Function} {k : Compiled} {prog : Asm.Program}
    {img : Image} (hd : config.descriptor = .ok d) (hk : f.compile d = .ok k) (hmem : k.code ∈ prog.functions)
    (hload : Image.load prog.flatten = .ok img) {args : List Int64} (hlength : f.params.length = args.length) {s : State}
    (hbound : s.memory.size < 2 ^ 63)
    (hfits : k.layout.FitsBelow (s.memory.size - 8 * (args.length - d.args.length : Nat) - 16)) :
    ∃ t r q w, (Image.passArgs d args).run s.reset = (.ok (), t) ∧ img.labels.lookup f.name = some r ∧
      img.Goes r t.view q w ∧ BlockAt ⟨f, k.allocation, k.layout, d⟩ img f.entry q ∧
      ∀ (n : Nat) p x, f.params[n]? = some p → args[n]? = some x →
        ∃ home, Emission.home ⟨f, k.allocation, k.layout, d⟩ p = .ok home ∧
          w.held (w.regs .fp).toInt p.width home =
            (if home = argPlace ⟨f, k.allocation, k.layout, d⟩ n then x else p.width.canonical x) ∧
          (w.held (w.regs .fp).toInt p.width home = p.width.canonical x ↔
            home ≠ argPlace ⟨f, k.allocation, k.layout, d⟩ n ∨ p.width.IsCanonical x) ∧
          ∀ (m : IR.Module) maxDepth depth sp a, m.function? f.name = some f →
            m.enter maxDepth depth sp f.name args = .ok a → a.env[p.id]? = some (p.width.canonical x) := by
  have hd := Config.wellFormed_of_descriptor hd
  obtain ⟨hf, ha, hl, hemit⟩ := IR.Function.compile_eq_ok hk
  obtain ⟨-, hresolves⟩ := Image.load_eq_ok hload
  have hlow := hfits.low
  obtain ⟨t, hrun, hpassed, -, hsp, hsize⟩ := (Machine.View.run_passArgs hd args s hbound).resolve_left fun hoverflow => by
    obtain ⟨-, -, hless⟩ := hoverflow
    omega
  have hbase : (t.view.regs .sp).toInt - 8 = s.memory.size - 8 * (args.length - d.args.length : Nat) - 16 := by omega
  rw [← hbase] at hfits
  have hhigh := hpassed.high
  have hhomed := homed hd hf ha hl hpassed.bound (hfits.lies.mono (Int.le_refl 0) (by omega))
  obtain ⟨r, hr, q, w, hgoes, hblock, -, hheld⟩ := (laidOut hd hf ha hl).goes_entry hhomed (linked_of_load hemit hmem hload)
    hresolves hfits hpassed hlength
  refine ⟨t, r, q, w, hrun, hr, hgoes, hblock, fun n p x hp hx => ?_⟩
  obtain ⟨home, hhome, hvalue⟩ := hheld n p x hp hx
  refine ⟨home, hhome, hvalue, ?_, fun m maxDepth depth sp a hfunction henter =>
    IR.Module.env_of_enter hfunction hf henter hlength hp hx⟩
  rw [hvalue]
  split
  · next hstays => exact ⟨fun h => .inr h.symm, fun h => (h.resolve_left (not_not_intro hstays)).symm⟩
  · next hmoves => exact iff_of_true rfl (.inl hmoves)

namespace Parameters

open Allocation (assignment smallTarget)
open Meaning (callCompiled smallConfig)

def pick : Function :=
  { name := "pick", params := [⟨0, .w8⟩, ⟨1, .w8⟩], result := .w8, entry := 0, slots := []
    blocks := [⟨0, "entry", [.branch (some (.var ⟨0, .w8⟩)) 1 2]⟩, ⟨1, "then", [.ret (some (.var ⟨1, .w8⟩))]⟩,
      ⟨2, "else", [.ret (some (.imm 2 .w8))]⟩] }

def pickFrame : Layout := { function := "pick", size := 16, argSize := 8, areas := [⟨.save ⟨2⟩, -8, 8, 8⟩] }

def pickEmission : Emission := ⟨pick, assignment smallTarget pick, pickFrame, smallTarget⟩

theorem exists_load_pick : ∃ k img, pick.compile smallTarget = .ok k ∧ k.allocation = assignment smallTarget pick ∧
    k.layout = pickFrame ∧ Image.load (Asm.Program.flatten ⟨"", [k.code]⟩) = .ok img := by
  have hlabels : (pick.compile smallTarget).map (fun k =>
      (Asm.Program.flatten ⟨"", [k.code]⟩).filterMap Asm.Instr.label?) =
      .ok ["pick", ".Lpick.entry", ".Lpick.then", ".Lpick.else"] := by cbv
  exact IR.Function.exists_load hlabels (by decide) (by cbv)

/-- Both arguments are 256, which is zero at the width of the parameters. The first stays in its register, and the second is
    loaded from the stack. -/
theorem home_of_param_pick :
    smallConfig.descriptor = .ok smallTarget ∧ pick.params.length = [(256 : Int64), 256].length ∧
      pickFrame.FitsBelow (64 - 8 * (2 - smallTarget.args.length : Nat) - 16) ∧
      ∃ k img t r q w, pick.compile smallTarget = .ok k ∧ Image.load (Asm.Program.flatten ⟨"", [k.code]⟩) = .ok img ∧
        (Image.passArgs smallTarget [256, 256]).run (State.reset { memory := ⟨64, ∅⟩ }) = (.ok (), t) ∧
        img.labels.lookup "pick" = some r ∧ img.Goes r t.view q w ∧ pickEmission.BlockAt img 0 q ∧
        w.held (w.regs .fp).toInt .w8 (.reg ⟨1⟩) = 256 ∧ w.held (w.regs .fp).toInt .w8 (.reg ⟨2⟩) = 0 := by
  have hd := Meaning.descriptor_smallConfig
  have hlength : pick.params.length = [(256 : Int64), 256].length := rfl
  have hfits : pickFrame.FitsBelow (64 - 8 * (2 - smallTarget.args.length : Nat) - 16) :=
    ⟨by decide, by decide, by decide⟩
  have hfirst : pickEmission.home ⟨0, .w8⟩ = .ok (.reg ⟨1⟩) := by cbv
  have hsecond : pickEmission.home ⟨1, .w8⟩ = .ok (.reg ⟨2⟩) := by cbv
  obtain ⟨k, img, hk, hallocation, hlayout, hload⟩ := exists_load_pick
  obtain ⟨t, r, q, w, hrun, hr, hgoes, hblock, hheld⟩ := Emission.home_of_param hd hk List.mem_cons_self hload hlength
    (s := { memory := ⟨64, ∅⟩ }) (by decide) (hlayout ▸ hfits)
  rw [hallocation, hlayout] at hblock hheld
  refine ⟨hd, hlength, hfits, k, img, t, r, q, w, hk, hload, hrun, hr, hgoes, hblock, ?_, ?_⟩
  · obtain ⟨home, hhome, hvalue, -⟩ := hheld 0 ⟨0, .w8⟩ 256 rfl rfl
    cases hfirst.symm.trans hhome
    exact hvalue
  · obtain ⟨home, hhome, hvalue, -⟩ := hheld 1 ⟨1, .w8⟩ 256 rfl rfl
    cases hsecond.symm.trans hhome
    exact hvalue

/-- A verified function whose parameter is zero for the interpreter and, since its argument stays in the register, not for
    the machine, which takes the other branch. -/
theorem pick_ne_eval :
    pick.verify = .ok () ∧
      (IR.Module.eval { functions := [pick] } { maxSteps := 9 } ⟨64, ∅⟩ "pick" [256, 7]).result.toOption = some 2 ∧
      callCompiled {} { functions := [pick] } ⟨64, ∅⟩ "pick" [256, 7] = some 7 := by
  refine ⟨rfl, rfl, ?_⟩
  cbv

end Parameters

end RegisterCompiler
