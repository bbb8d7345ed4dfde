import RegisterCompiler.Proofs.Meaning

/-!
# Caller and callee

What a caller does before a call and what a callee does at its beginning are compiled apart from each other. The two agree:
whatever the number of arguments and of the registers for them, each argument gets from the place where the caller has it
to the home of its parameter. When the callee returns, the caller finds its stack as it was, and the result.

The callee may do anything in between. It is only asked to give back what it must (`Emission.GivesBack`).
-/

namespace RegisterCompiler

open List
open IR (Block Function Operand Var)
open Machine (Image View)

/-- There is room for a frame below the frame pointer. -/
structure Layout.FitsBelow (l : Layout) (base : Int) : Prop where
  low : 0 ≤ base
  size : l.size.toInt ≤ base
  lies : l.LiesIn base 0 base

namespace Emission

/-- A callee is at its first block, and each parameter has the value of its argument. -/
structure Receives (e : Emission) (img : Image) (xs : List Int64) (u : View) (q : Nat) (w : View) : Prop where
  block : e.BlockAt img e.function.entry q
  fp : (w.regs .fp).toInt = (u.regs .sp).toInt - 8
  params : ∀ (n : Nat) x, xs[n]? = some x → ∃ p home, e.function.params[n]? = some p ∧ e.home p = .ok home ∧
    w.held (w.regs .fp).toInt p.width home = x

/-- A callee that was entered with `u` has given back what it must, and the address to return to is where it was. -/
structure GivesBack (d : Descriptor) (u z : View) : Prop where
  sp : z.regs .sp = u.regs .sp
  fp : z.regs .fp = u.regs .fp
  kept : ∀ r ∈ d.calleeSaved, z.regs r = u.regs r
  address : z.memory.value .w64 (u.regs .sp).toInt.toNat = u.memory.value .w64 (u.regs .sp).toInt.toNat
  size : z.memory.size = u.memory.size

/-- A caller goes on behind a call that was made in `v` and from which it is returned with `z`. -/
structure Resumes (e : Emission) (dest : Option Var) (v z t : View) : Prop where
  sp : t.regs .sp = v.regs .sp
  fp : t.regs .fp = v.regs .fp
  kept : ∀ r ∈ e.target.calleeSaved, (∀ x ∈ dest, e.home x ≠ .ok (.reg r)) → t.regs r = v.regs r
  result : ∀ x, dest = some x → ∃ home, e.home x = .ok home ∧
    t.held (v.regs .fp).toInt x.width home = x.width.canonical (z.regs e.target.result)

variable {e : Emission} {img : Image} {base top : Int} {p q : Nat} {u v z : View} {xs : List Int64} {address : Int64}
  {os : List Operand} {dest : Option Var}

/-! ## The callee -/

namespace LaidOut

theorem run_prologue_of_fits (h : e.LaidOut) (hfits : e.layout.FitsBelow ((u.regs .sp).toInt - 8))
    (hhigh : (u.regs .sp).toInt ≤ u.memory.size) (hbound : u.memory.size < 2 ^ 63) :
    ∃ w, u.run e.layout.prologue = .ok w ∧ u.Entered w := by
  have hlow := hfits.low
  have hlies : ∀ x ∈ e.layout.saves, 0 ≤ (u.regs .sp).toInt - 8 + x.2.offset.toInt ∧ x.2.offset.toInt + 8 ≤ 0 := by
    intro x hx
    have hbelow : _ ∧ _ + ((8 : Nat) : Int) ≤ _ := hfits.lies _ _ (h.saveList.2 x hx).2.2.2
    omega
  obtain ⟨w, hrun, hentered, -⟩ := Layout.run_prologue h.saveList hfits.size hlies (by omega) hhigh hbound
  exact ⟨w, hrun, hentered⟩

theorem below_of_fits (h : e.LaidOut) (hfits : e.layout.FitsBelow base) : e.Below := by
  intro u hu offset hhome
  rcases h.home_cases hu hhome with ⟨_, ⟨⟩, -⟩ | ⟨_, ⟨⟩, hat⟩
  have hhigh : base + offset.toInt + u.width.size ≤ base := (hfits.lies _ _ hat).2
  omega

variable (h : e.LaidOut) (hhomed : e.Homed ((u.regs .sp).toInt - 8) u.memory.size) (hlinked : e.Linked img)
  (hresolves : img.Resolves) (hfits : e.layout.FitsBelow ((u.regs .sp).toInt - 8))
  (hpassed : Passed e.target xs address u)
include h hhomed hlinked hresolves hfits hpassed

/-- A callee that finds its arguments gets to its first block. Each parameter has the value of its argument at its width
    there; only one whose home is where the argument is found has the argument as it was given. -/
theorem goes_entry (hlength : e.function.params.length = xs.length) :
    ∃ r, img.labels.lookup e.function.name = some r ∧ ∃ q w, img.Goes r u q w ∧ e.BlockAt img e.function.entry q ∧
      (w.regs .fp).toInt = (u.regs .sp).toInt - 8 ∧
      ∀ (n : Nat) p x, e.function.params[n]? = some p → xs[n]? = some x → ∃ home, e.home p = .ok home ∧
        w.held (w.regs .fp).toInt p.width home = if home = e.argPlace n then x else p.width.canonical x := by
  obtain ⟨r, code, hlabel, hcode, hat, hfalls⟩ := hlinked.entry
  obtain ⟨ms, start, hms, rfl, hstart⟩ := entryCode_eq_ok hcode
  obtain ⟨hat, hstartAt⟩ := Image.codeAt_append.1 hat
  have hhigh := hpassed.high
  obtain ⟨v, hprologue, hentered⟩ := h.run_prologue_of_fits hfits (by omega) hpassed.bound
  obtain ⟨w, hmoves, hheld, hc⟩ := h.run_params_of_length hhomed (h.below_of_fits hfits) hpassed hlength hms hentered
  have hrun : u.run (e.layout.prologue ++ e.moves ms) = .ok w := by
    rw [View.run_append, hprologue]
    exact hmoves
  have hfp : w.regs .fp = v.regs .fp := by
    refine hc.regs .fp ?_
    rintro (hr | ⟨p, hp, hhome⟩)
    · exact h.fp_not_scratch hr
    · exact Reg.ne_fp (h.home_general (mem_append_left _ hp) hhome) rfl
  have hbase : (w.regs .fp).toInt = (u.regs .sp).toInt - 8 := hfp ▸ hentered.stands.fp
  obtain ⟨q, hgo, hblock⟩ := hlinked.goes_start hresolves h.ready.wellFormed hstart hstartAt hfalls w
  refine ⟨r, hresolves r _ hlabel, q, w,
    ((Image.goes_of_exec hlabel rfl).trans (Image.goes_of_run hat hrun)).trans hgo, hblock, hbase, fun n p x hp hx => ?_⟩
  obtain ⟨home, hhome⟩ := h.exists_home (mem_append_left _ (mem_of_getElem? hp))
  exact ⟨home, hhome, hbase ▸ hheld n p x hp hx home hhome⟩

/-- A callee that finds its arguments, with values of the widths of its parameters, has them in the homes of those at its
    first block. -/
theorem receives (hargs : List.Forall₂ (fun p x => p.width.IsCanonical x) e.function.params xs) :
    ∃ r, img.labels.lookup e.function.name = some r ∧ ∃ q w, img.Goes r u q w ∧ e.Receives img xs u q w := by
  obtain ⟨r, hr, q, w, hgoes, hblock, hbase, hheld⟩ :=
    h.goes_entry hhomed hlinked hresolves hfits hpassed hargs.length_eq
  refine ⟨r, hr, q, w, hgoes, hblock, hbase, fun n x hx => ?_⟩
  have hlt : n < e.function.params.length := hargs.length_eq ▸ (List.getElem?_eq_some_iff.1 hx).1
  have hparam := getElem?_eq_getElem hlt
  obtain ⟨home, hhome, hvalue⟩ := hheld n _ x hparam hx
  have hcanonical : (e.function.params[n]).width.IsCanonical x :=
    forall₂_zip hargs (mem_iff_getElem?.2 ⟨n, getElem?_zip_eq_some.2 ⟨hparam, hx⟩⟩)
  exact ⟨_, home, hparam, hhome, by rw [hvalue, hcanonical, ite_self]⟩

end LaidOut

/-! ## The caller -/

theorem exists_operands {args : List (Option Operand)}
    (h : List.Forall₂ (fun o x => ∃ y, o = some y ∧ e.Reads base v y x) args xs) :
    ∃ os, args = os.map some ∧ List.Forall₂ (e.Reads base v) os xs := by
  induction h with
  | nil => exact ⟨[], rfl, .nil⟩
  | cons hy _ ih =>
    obtain ⟨y, rfl, hy⟩ := hy
    obtain ⟨os, rfl, hreads⟩ := ih
    exact ⟨y :: os, rfl, .cons hy hreads⟩

theorem LaidOut.above_of_liesIn (h : e.LaidOut) {high : Int} (hlies : e.layout.LiesIn base top high) : e.Above base top := by
  intro u hu p hp a hcovers
  rcases h.home_cases hu hp with ⟨_, rfl, -⟩ | ⟨offset, rfl, hat⟩
  · exact absurd hcovers id
  · have hlow := (hlies _ _ hat).1
    simp only [Place.Covers, View.cell] at hcovers
    omega

theorem Calls.resumes (h : e.Calls (v.regs .sp).toInt xs address v u) (hhomed : e.Homed (v.regs .fp).toInt v.memory.size)
    (hv : v.Stands (v.regs .fp).toInt v.memory.size) (hhigh : (v.regs .sp).toInt ≤ v.memory.size)
    (hz : GivesBack e.target u z) (hdest : ∀ x ∈ dest, x ∈ e.function.vars) {result : List Asm.Instr}
    (hresult : e.resultCode dest = .ok result) :
    ∃ t, (z.set .sp (z.regs .sp + 8)).run
        (clearCode (Int64.ofNat (xs.length - e.target.args.length) * e.target.stackArgSize) ++ result) = .ok t ∧
      e.Resumes dest v z t := by
  have hplaced := hhomed.toPlaced
  obtain ⟨w, hclear, hsp, hc⟩ := h.run_clear hplaced (h.changes.size ▸ hhigh) hz.sp
  have hwsp : w.regs .sp = v.regs .sp := Int64.toInt_inj.1 hsp
  have hwfp : w.regs .fp = v.regs .fp := (hc.regs _ (by decide)).trans (hz.fp.trans (h.fp hplaced))
  have hwkept : ∀ r ∈ e.target.calleeSaved, w.regs r = v.regs r := fun r hr => by
    have hgeneral := hplaced.target.allocatable_general r (hplaced.target.saved_allocatable r hr)
    rw [hc.regs r (Reg.ne_sp hgeneral), hz.kept r hr, h.kept hplaced hr]
  rw [View.run_append, hclear]
  cases dest with
  | none =>
    cases hresult
    exact ⟨w, rfl, hwsp, hwfp, fun r hr _ => hwkept r hr, fun x hx => by cases hx⟩
  | some x =>
    obtain ⟨home, hhome, ⟨⟩⟩ := Success.bind_eq_ok.1 hresult
    have hx := hdest x rfl
    have hw : w.Stands (v.regs .fp).toInt v.memory.size :=
      ⟨congrArg Int64.toInt hwfp, (hc.size.trans hz.size).trans h.changes.size, hv.bound⟩
    obtain ⟨t, hrun, hheld, hct⟩ := hhomed.run_result hx hhome hw
    -- The move changes the home of the result, and no register that holds the stack.
    have hkeeps : ∀ r, r ∉ e.target.scratch → home ≠ .reg r → t.regs r = w.regs r := fun r hr hne =>
      hct.regs r fun hor => hor.elim hr hne
    have hstack : ∀ r : Reg, ¬r.num < 16 → t.regs r = w.regs r := fun r hr =>
      hkeeps r (fun hmem => hr (hplaced.target.scratch_general r hmem)) fun heq =>
        hr (hplaced.home_general hx (heq ▸ hhome))
    refine ⟨t, hrun, (hstack _ (by decide)).trans hwsp, (hstack _ (by decide)).trans hwfp, fun r hr hne => ?_, ?_⟩
    · have hscratch := hplaced.target.allocatable_not_scratch r (hplaced.target.saved_allocatable r hr)
      exact (hkeeps r hscratch fun heq => hne x rfl (heq ▸ hhome)).trans (hwkept r hr)
    · rintro _ ⟨⟩
      refine ⟨home, hhome, hheld.trans ?_⟩
      rw [hc.regs _ (Reg.ne_sp hplaced.target.result_general)]

/-! ## Calls between compiled functions -/

/-- Caller and callee agree. Two functions are compiled for the same machine, and their code is in a program that can be
    loaded; one calls the other, with arguments of the widths of its parameters. From every state of the machine that has
    the values of the arguments, and room on the stack, the machine gets to the first block of the callee, where each
    parameter has the value of its argument. From every return at which the callee has given back what it must, the machine
    gets to the code behind the call, with the stack as it was and the result in its home. -/
theorem goes_callee_and_back {config : RegisterCompiler.Config} {d : Descriptor} {f g : Function} {k j : Compiled}
    {prog : Asm.Program} {b : Block} {i : Nat} {args : List (Option Operand)} (hd : config.descriptor = .ok d)
    (hk : f.compile d = .ok k) (hj : g.compile d = .ok j) (hkmem : k.code ∈ prog.functions) (hjmem : j.code ∈ prog.functions)
    (hload : Image.load prog.flatten = .ok img) (hsmall : prog.flatten.length < 2 ^ 63) (hb : b ∈ f.blocks)
    (hi : b.code[i]? = some (.call dest g.name args))
    (hwidths : args.map (·.map Operand.width) = g.params.map (some ·.width)) :
    (∃ p, RestAt ⟨f, k.allocation, k.layout, d⟩ img b (b.code.drop i) p) ∧
      ∀ (p : Nat) (v : View) (xs : List Int64), RestAt ⟨f, k.allocation, k.layout, d⟩ img b (b.code.drop i) p →
        v.memory.size < 2 ^ 63 → (v.regs .sp).toInt ≤ v.memory.size →
        k.layout.LiesIn (v.regs .fp).toInt (v.regs .sp).toInt v.memory.size →
        List.Forall₂ (fun o x => ∃ y, o = some y ∧ Reads ⟨f, k.allocation, k.layout, d⟩ (v.regs .fp).toInt v y x) args xs →
        j.layout.FitsBelow ((v.regs .sp).toInt - 8 * (xs.length - d.args.length : Nat) - 16) →
        ∃ r u s w q, img.labels.lookup g.name = some r ∧ img.Goes p v r u ∧ img.Goes r u s w ∧
          Receives ⟨g, j.allocation, j.layout, d⟩ img xs u s w ∧
          RestAt ⟨f, k.allocation, k.layout, d⟩ img b (b.code.drop (i + 1)) q ∧
          ∀ (y : Nat) (z : View), img.code[y]? = some .ret → GivesBack d u z →
            ∃ t, img.Goes y z q t ∧ Resumes ⟨f, k.allocation, k.layout, d⟩ dest v z t := by
  have hd := RegisterCompiler.Config.wellFormed_of_descriptor hd
  obtain ⟨hf, ha, hl, hemit⟩ := IR.Function.compile_eq_ok hk
  obtain ⟨hg, ha', hl', hemit'⟩ := IR.Function.compile_eq_ok hj
  obtain ⟨hcode, hresolves⟩ := Image.load_eq_ok hload
  have hlinked' := linked_of_load hemit' hjmem hload
  have hdrop : b.code.drop i = .call dest g.name args :: b.code.drop (i + 1) := by
    obtain ⟨hlt, hget⟩ := List.getElem?_eq_some_iff.1 hi
    rw [drop_eq_getElem_cons hlt, hget]
  refine ⟨?_, fun p v xs hrest hbound hhigh hlies hargs hfits => ?_⟩
  · obtain ⟨q, -, hblock⟩ := (linked_of_load hemit hkmem hload).block b hb
    rw [← take_append_drop i b.code] at hblock
    exact hblock.of_append
  have hfitsLow := hfits.low
  have hhomed := homed hd hf ha hl hbound (hlies.mono (by omega) (by omega))
  have hv : v.Stands (v.regs .fp).toInt v.memory.size := ⟨rfl, rfl, hbound⟩
  have hlaid := laidOut hd hf ha hl
  have hmem := mem_of_getElem? hi
  obtain ⟨os, rfl, hreads⟩ := exists_operands hargs
  rw [hdrop] at hrest
  obtain ⟨pushes, ms, result, q, hpushes, hms, hresult, hat, hq, hback, hafter⟩ := hrest.call
  obtain ⟨r, -, hlabel, -⟩ := hlinked'.entry
  have hr : img.labels.lookup g.name = some r := hresolves r _ hlabel
  obtain ⟨u, hgoes, hcalls⟩ := (hhomed.goes_callee (hlaid.above_of_liesIn hlies) hv rfl (by omega) hhigh hreads hpushes hms
    (hlaid.ready.scratch_args hb hmem hms) hat hr).resolve_left fun hoverflow => by
      have hless := hoverflow.2
      dsimp only at hless
      omega
  have husp : (u.regs .sp).toInt - 8 = (v.regs .sp).toInt - 8 * (xs.length - d.args.length : Nat) - 16 := by
    have hsp := hcalls.sp
    dsimp only at hsp
    omega
  have hubound : u.memory.size < 2 ^ 63 := hcalls.passed.bound
  rw [← husp] at hfits
  have hpassedHigh := hcalls.passed.high
  have hhomed' := homed hd hg ha' hl' hubound (hfits.lies.mono (Int.le_refl 0) (by omega))
  have hcanonical := canonical_of_widths hhomed.toPlaced hwidths hreads
  obtain ⟨r', hr', s, w, hgoes', hreceives⟩ := (laidOut hd hg ha' hl').receives hhomed' hlinked' hresolves hfits
    hcalls.passed hcanonical
  cases hr.symm.trans hr'
  refine ⟨r, u, s, w, _, hr, hgoes, hgoes', hreceives, hafter, fun y z hret hz => ?_⟩
  have hdest : ∀ x ∈ dest, x ∈ f.vars := fun x hx => IR.Function.WellFormed.mem_vars_of_dest hb hmem hx
  obtain ⟨t, hrun, hresumes⟩ := hcalls.resumes hhomed hv hhigh hz hdest hresult
  have hplace : q < 2 ^ 63 := by
    have hcallAt := Image.codeAt_singleton.1 (Image.codeAt_append.1 hat).2
    have hlt := (Array.getElem?_eq_some_iff.1 hcallAt).1
    rw [hcode, size_toArray] at hlt
    omega
  rw [← hq] at hcalls
  rw [← hreads.length_eq] at hrun
  exact ⟨t, (Image.goes_ret hret hplace (hcalls.passed.read_address hz.sp hz.size hz.address)).trans
    (Image.goes_of_run hback hrun), hresumes⟩

end Emission

namespace Convention

open Allocation (assignment smallTarget)
open Meaning (smallConfig)

def mix : Function :=
  { name := "mix", params := [⟨0, .w64⟩, ⟨1, .w8⟩, ⟨2, .w64⟩], result := .w64, entry := 0, slots := []
    blocks := [⟨0, "entry", [.binop .sub ⟨3, .w64⟩ (some (.var ⟨0, .w64⟩)) (some (.var ⟨2, .w64⟩)),
      .ret (some (.var ⟨3, .w64⟩))]⟩] }

/-- The arguments of a call, two of which are parameters in the other order. -/
def swapped : List (Option Operand) := [some (.var ⟨1, .w64⟩), some (.imm 5 .w8), some (.var ⟨0, .w64⟩)]

def swapBlock : Block :=
  ⟨0, "entry", [.call (some ⟨2, .w64⟩) "mix" swapped,
    .binop .add ⟨3, .w64⟩ (some (.var ⟨2, .w64⟩)) (some (.var ⟨0, .w64⟩)), .ret (some (.var ⟨3, .w64⟩))]⟩

def swap : Function :=
  { name := "swap", params := [⟨0, .w64⟩, ⟨1, .w64⟩], result := .w64, entry := 0, slots := [], blocks := [swapBlock] }

def frameOf (name : String) : Layout :=
  { function := name, size := 16, argSize := 8, areas := [⟨.save ⟨2⟩, -8, 8, 8⟩, ⟨.spill ⟨2, .w64⟩, -16, 8, 8⟩] }

def emissionOf (f : Function) : Emission := ⟨f, assignment smallTarget f, frameOf f.name, smallTarget⟩

def swapView : View :=
  { regs := fun r => if r = .fp then 96 else if r = .sp then 80 else if r = ⟨1⟩ then 7 else if r = ⟨2⟩ then 3 else 0
    memory := ⟨128, ∅⟩ }

theorem reads_swapped : List.Forall₂ (fun o x => ∃ y, o = some y ∧
    (emissionOf swap).Reads (swapView.regs .fp).toInt swapView y x) swapped [7, 5, 3] := by
  have hfirst : (emissionOf swap).home ⟨1, .w64⟩ = .ok (.reg ⟨1⟩) := by cbv
  have hlast : (emissionOf swap).home ⟨0, .w64⟩ = .ok (.reg ⟨2⟩) := by cbv
  refine .cons ⟨_, rfl, by decide, by decide, fun p hp => ?_⟩
    (.cons ⟨_, rfl, by decide, by decide⟩
      (.cons ⟨_, rfl, by decide, by decide, fun p hp => ?_⟩ .nil))
  · cases hfirst.symm.trans hp
    rfl
  · cases hlast.symm.trans hp
    rfl

theorem exists_load_swap : ∃ k j img, swap.compile smallTarget = .ok k ∧ mix.compile smallTarget = .ok j ∧
    k.allocation = assignment smallTarget swap ∧ k.layout = frameOf "swap" ∧ j.allocation = assignment smallTarget mix ∧
    j.layout = frameOf "mix" ∧ (Asm.Program.flatten ⟨"", [k.code, j.code]⟩).length < 2 ^ 63 ∧
    Image.load (Asm.Program.flatten ⟨"", [k.code, j.code]⟩) = .ok img := by
  have hlisting : (do
      let k ← swap.compile smallTarget
      let j ← mix.compile smallTarget
      pure ((Asm.Program.flatten ⟨"", [k.code, j.code]⟩).filterMap Asm.Instr.label?,
        (Asm.Program.flatten ⟨"", [k.code, j.code]⟩).length) : Except FunctionError (List Asm.Label × Nat)) =
      .ok (["swap", ".Lswap.entry", "mix", ".Lmix.entry"], 37) := by cbv
  obtain ⟨k, hk, hlisting⟩ := Success.bind_eq_ok.1 hlisting
  obtain ⟨j, hj, hlisting⟩ := Success.bind_eq_ok.1 hlisting
  obtain ⟨hlabels, hlength⟩ := Prod.mk.inj (Except.ok.inj hlisting)
  obtain ⟨hka, hkl⟩ := IR.Function.stages_of_compile hk (l := frameOf "swap") (by cbv)
  obtain ⟨hja, hjl⟩ := IR.Function.stages_of_compile hj (l := frameOf "mix") (by cbv)
  have hnodup : ((Asm.Program.flatten ⟨"", [k.code, j.code]⟩).filterMap Asm.Instr.label?).Nodup := by
    rw [hlabels]
    decide
  obtain ⟨img, hload⟩ := Image.exists_load_iff.2 hnodup
  exact ⟨k, j, img, hk, hj, hka, hkl, hja, hjl, by rw [hlength]; decide, hload⟩

theorem goes_callee_and_back_swap :
    smallConfig.descriptor = .ok smallTarget ∧ swapBlock ∈ swap.blocks ∧
      swapped.map (·.map Operand.width) = mix.params.map (some ·.width) ∧
      (frameOf "swap").LiesIn (swapView.regs .fp).toInt (swapView.regs .sp).toInt swapView.memory.size ∧
      (frameOf "mix").FitsBelow ((swapView.regs .sp).toInt - 8 * (3 - smallTarget.args.length : Nat) - 16) ∧
      ∃ k j img, swap.compile smallTarget = .ok k ∧ mix.compile smallTarget = .ok j ∧
        Image.load (Asm.Program.flatten ⟨"", [k.code, j.code]⟩) = .ok img ∧
        ∃ p r u s w q, (emissionOf swap).RestAt img swapBlock swapBlock.code p ∧ img.labels.lookup "mix" = some r ∧
          img.Goes p swapView r u ∧ img.Goes r u s w ∧ (emissionOf mix).Receives img [7, 5, 3] u s w ∧
          ∀ (y : Nat) (z : View), img.code[y]? = some .ret → Emission.GivesBack smallTarget u z →
            ∃ t, img.Goes y z q t ∧ (emissionOf swap).Resumes (some ⟨2, .w64⟩) swapView z t := by
  have hd := Meaning.descriptor_smallConfig
  have hwidths : swapped.map (·.map Operand.width) = mix.params.map (some ·.width) := rfl
  have hlies : (frameOf "swap").LiesIn (swapView.regs .fp).toInt (swapView.regs .sp).toInt swapView.memory.size := by decide
  have hfits : (frameOf "mix").FitsBelow ((swapView.regs .sp).toInt - 8 * (3 - smallTarget.args.length : Nat) - 16) :=
    ⟨by decide, by decide, by decide⟩
  obtain ⟨k, j, img, hk, hj, hka, hkl, hja, hjl, hsmall, hload⟩ := exists_load_swap
  obtain ⟨⟨p, hp⟩, hagrees⟩ := Emission.goes_callee_and_back hd hk hj mem_cons_self
    (mem_cons_of_mem _ mem_cons_self) hload hsmall (b := swapBlock) (i := 0) mem_cons_self rfl hwidths
  rw [hka, hkl] at hp hagrees
  rw [hja, hjl] at hagrees
  obtain ⟨r, u, s, w, q, hr, hgoes, hgoes', hreceives, -, hback⟩ :=
    hagrees p swapView [7, 5, 3] hp (by decide) (by decide) hlies reads_swapped hfits
  exact ⟨hd, mem_cons_self, hwidths, hlies, hfits, k, j, img, hk, hj, hload, p, r, u, s, w, q, hp, hr, hgoes, hgoes',
    hreceives, hback⟩

end Convention

end RegisterCompiler
