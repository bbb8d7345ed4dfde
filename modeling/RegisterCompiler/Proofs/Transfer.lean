import RegisterCompiler.Proofs.Meaning

/-!
# Control along the edges of a function

A jump or a branch ends its block. The interpreter chooses the next block, and its phis take their values all at once.
The machine gets to the label of the same block, by a jump or because its code is next, with the moves of the phis in the
block that it leaves or in a block of their own on the edge. This holds from every state of the machine that has what is
live at the end of the block (`Emission.Bears`), whatever the code before it has done.
-/

namespace RegisterCompiler

open List
open IR (Activation Block BlockId Function Operand PhiMove)
open Machine (Image View)
open Machine.View (Changes)

namespace Emission

/-- The variables that are live before the instruction of the index `k` are in their homes, each with its value. -/
def Bears (e : Emission) (base : Int) (a : Activation) (b : Block) (k : Nat) (v : View) : Prop :=
  ∀ u ∈ e.function.vars, e.function.LiveAt u.id b k → u.width.IsCanonical (a.env.getD u.id 0) ∧
    ∀ p, e.home u = .ok p → v.held base u.width p = a.env.getD u.id 0

/-- The machine has gone from the block `b` into the block `s`. Every phi has the value that its operand had before, and
    what else is live in the block has stayed. -/
structure Crosses (e : Emission) (base : Int) (b s : Block) (a : Activation) (v w : View) : Prop where
  fp : w.regs .fp = v.regs .fp
  phis : ∀ phi ∈ s.phis, ∃ m ∈ s.phiMoves b.id, m.dest = phi.1 ∧ ∃ z home, a.value m.source = .ok z ∧
    e.home m.dest = .ok home ∧ w.held base m.dest.width home = z
  others : ∀ u ∈ e.function.vars, e.function.LiveAt u.id s 0 → (∀ phi ∈ s.phis, phi.1.id ≠ u.id) →
    ∃ home, e.home u = .ok home ∧ w.held base u.width home = v.held base u.width home

variable {e : Emission} {base : Int} {size p : Nat} {a : Activation} {b s : Block} {v w : View} {i : IR.Instr} {img : Image}

namespace Bears

variable {t : BlockId} {x : Option Operand}

/-- What is live behind the last instruction of a block is live before it, since it has no result. -/
theorem liveAt_last {f : Function} {id : IR.VarId} (hlast : b.code.getLast? = some i) (hdest : i.dest? = none)
    (h : f.LiveAt id b b.code.length) : f.LiveAt id b (b.code.length - 1) := by
  rw [getLast?_eq_getElem?] at hlast
  have hlt := (List.getElem?_eq_some_iff.1 hlast).1
  refine .pass hlast (by simp [hdest]) ?_
  rwa [Nat.sub_add_cancel (by omega)]

section

variable (h : e.Bears base a b (b.code.length - 1) v) (hwell : e.function.WellFormed)
include h hwell

theorem reads (hb : b ∈ e.function.blocks) (hlast : b.code.getLast? = some i) (hx : x ∈ i.uses) :
    ∃ y z, x = some y ∧ a.value x = .ok z ∧ e.Reads base v y z := by
  have hreadable := hwell.readable b hb i (mem_of_getLast? hlast) x hx
  rcases x with _ | (u | ⟨c, wd⟩)
  · exact absurd hreadable id
  · have hused : u ∈ i.usedVars := mem_filterMap.2 ⟨_, hx, rfl⟩
    obtain ⟨hcanonical, hheld⟩ := h u hreadable (.read (getLast?_eq_getElem? ▸ hlast) (mem_map_of_mem hused))
    exact ⟨.var u, _, rfl, rfl, hreadable, hcanonical, hheld⟩
  · exact ⟨.imm c wd, _, rfl, rfl, hreadable, rfl⟩

theorem arrives (hlast : b.code.getLast? = some i) (hdest : i.dest? = none) (hs : s ∈ e.function.blocks)
    (hleads : s.id ∈ b.successors) {m : PhiMove} (hm : m ∈ s.phiMoves b.id) :
    ∃ y z, a.value m.source = .ok z ∧ e.Arrives base v m y z := by
  obtain ⟨hvar, hwidth⟩ := hwell.width_phiMove hs hm
  have hreadable := hwell.readable_phiMove hs hm
  obtain ⟨dest, source⟩ := m
  rcases source with _ | (u | ⟨c, wd⟩)
  · exact absurd hreadable id
  · have hlive := liveAt_last hlast hdest (.phi hleads (hwell.block?_eq_some_iff.2 ⟨hs, rfl⟩) hm rfl)
    obtain ⟨hcanonical, hheld⟩ := h u hreadable hlive
    exact ⟨.var u, _, rfl, rfl, ⟨hreadable, hcanonical, hheld⟩, Option.some.inj hwidth, hvar⟩
  · exact ⟨.imm c wd, _, rfl, rfl, ⟨hreadable, rfl⟩, Option.some.inj hwidth, hvar⟩

end

theorem of_scratch {k : Nat} (h : e.Bears base a b k v) (hplaced : e.Placed)
    (hc : Changes (· ∈ e.target.scratch) (fun _ => False) v w) : e.Bears base a b k w := fun u hu hlive =>
  (h u hu hlive).imp_right fun hheld p hp =>
    (hc.held_eq (hplaced.home_ne_scratch hu hp) fun _ _ => id).trans (hheld p hp)

theorem crosses (h : e.Bears base a b (b.code.length - 1) v) (hhomed : e.Homed base size) (hv : v.Stands base size)
    (hb : b ∈ e.function.blocks) (hlast : b.code.getLast? = some i) (hdest : i.dest? = none) (hs : s ∈ e.function.blocks)
    (hleads : s.id ∈ b.successors)
    (hcost : Allocation.moveCost (e.allocation.movesOnEdge e.function b.id s.id) ≤ e.target.scratch.length)
    {moves : List Asm.Instr} (hmoves : e.phiCode b.id s.id = .ok moves) :
    ∃ w, v.run moves = .ok w ∧ e.Crosses base b s a v w := by
  have hwell := hhomed.ready.wellFormed
  have harrives : ∀ m ∈ s.phiMoves b.id, ∃ y z, a.value m.source = .ok z ∧ e.Arrives base v m y z := fun m hm =>
    h.arrives hwell hlast hdest hs hleads hm
  obtain ⟨w, hrun, hheld, hc⟩ := hhomed.run_edge hv hs hcost
    (fun m hm => (harrives m hm).imp fun _ => Exists.imp fun _ => And.right) hmoves
  refine ⟨w, hrun, ?_, fun phi hphi => ?_, fun u hu hlive hne => ?_⟩
  · refine hc.regs .fp ?_
    rintro (hr | ⟨m, hm, hhome⟩)
    · exact absurd (hhomed.target.scratch_general _ hr) (by decide)
    · obtain ⟨hr, -⟩ := hhomed.home_not_scratch (hwell.width_phiMove hs hm).1 hhome
      exact absurd (hhomed.target.allocatable_general _ hr) (by decide)
  · obtain ⟨m, hm, hmdest⟩ := hwell.exists_phiMove hb hs hleads hphi
    obtain ⟨y, z, hz, harr⟩ := harrives m hm
    obtain ⟨home, hhome⟩ := hhomed.exists_home harr.dest
    exact ⟨m, hm, hmdest, z, home, hz, hhome, hheld m hm y z harr home hhome⟩
  · obtain ⟨home, hhome⟩ := hhomed.exists_home hu
    refine ⟨home, hhome, hhomed.held_of_edge hs hc hu hlive.behind_phis (fun m hm => ?_) hhome⟩
    obtain ⟨edges, hphi, -⟩ := IR.Block.mem_phiMoves.1 hm
    exact hne _ (IR.Block.mem_phis.2 hphi)

variable (h : e.Bears base a b (b.code.length - 1) v) (hlinked : e.Linked img) (hresolves : img.Resolves)
  (hhomed : e.Homed base size) (hv : v.Stands base size) (hb : b ∈ e.function.blocks)
include h hlinked hresolves hhomed hv hb

theorem jumpTo (hlast : b.code.getLast? = some i) (hdest : i.dest? = none) (ht : t ∈ i.successors)
    (hcost : Allocation.moveCost (e.allocation.movesOnEdge e.function b.id t) ≤ e.target.scratch.length)
    (hinstr : ∀ site n em, e.instr site n i = .ok em → e.jumpTo site t = .ok em.code) (hcode : e.RestAt img b [i] p) :
    ∃ s ∈ e.function.blocks, s.id = t ∧ ∃ q w, img.Goes p v q w ∧ e.BlockAt img s.id q ∧ e.Crosses base b s a v w := by
  obtain ⟨s, hs, rfl, hleads⟩ := hhomed.ready.wellFormed.exists_of_mem_successors hb (mem_of_getLast? hlast) ht
  obtain ⟨site, n, em, hsite, hem, hat, -, -, hnext⟩ := hcode.cons
  refine ⟨s, hs, rfl, hlinked.goes_jumpTo hresolves hs (hinstr site n em hem) hat (hnext rfl) fun moves hmoves => ?_⟩
  rw [hsite] at hmoves
  exact h.crosses hhomed hv hb hlast hdest hs hleads hcost hmoves

theorem jump (hlast : b.code.getLast? = some (.jump t)) (hcode : e.RestAt img b [.jump t] p) :
    ∃ s ∈ e.function.blocks, s.id = t ∧ ∃ q w, img.Goes p v q w ∧ e.BlockAt img s.id q ∧ e.Crosses base b s a v w := by
  refine h.jumpTo hlinked hresolves hhomed hv hb hlast rfl mem_cons_self
    (hhomed.ready.demand b hb _ (mem_of_getLast? hlast)) (fun site n em hem => ?_) hcode
  obtain ⟨code, hcode, ⟨⟩⟩ := Success.bind_eq_ok.1 hem
  exact hcode

theorem branch {t f : BlockId} (hlast : b.code.getLast? = some (.branch x t f)) (hregular : Operand.IsRegular x)
    (hcode : e.RestAt img b [.branch x t f] p) :
    ∃ z, a.value x = .ok z ∧ ∃ s ∈ e.function.blocks, s.id = (if z ≠ 0 then t else f) ∧
      ∃ q w, img.Goes p v q w ∧ e.BlockAt img s.id q ∧ e.Crosses base b s a v w := by
  have hwell := hhomed.ready.wellFormed
  have hi := mem_of_getLast? hlast
  obtain ⟨y, z, rfl, hvalue, hreads⟩ := h.reads hwell hb hlast (x := x) mem_cons_self
  have hsucc : (if z ≠ 0 then t else f) ∈ (IR.Instr.branch (some y) t f).successors :=
    IR.Instr.ite_mem_successors (z ≠ 0)
  obtain ⟨s, hs, hid, hleads⟩ := hwell.exists_of_mem_successors hb hi hsucc
  have hcost := hhomed.ready.moveCost_branch hb hi hreads hregular hid
  obtain ⟨site, n, em, hsite, hem, hat, hedges, -, hnext⟩ := hcode.cons
  refine ⟨z, hvalue, s, hs, hid, hlinked.goes_branch hresolves hhomed hv hs hreads hregular hid hem hat hedges (hnext rfl)
    fun u hu moves hmoves => ?_⟩
  rw [hsite] at hmoves
  -- The condition may have been fetched into a scratch register, where no variable lives.
  have hfp : u.regs .fp = v.regs .fp := hu.regs .fp fun hr =>
    absurd (hhomed.target.scratch_general _ hr) (by decide)
  obtain ⟨w, hrun, hcross⟩ := (h.of_scratch hhomed.toPlaced hu).crosses hhomed
    ⟨hfp ▸ hv.fp, hu.size.trans hv.memory, hv.bound⟩ hb hlast rfl hs (hid ▸ hleads) hcost hmoves
  refine ⟨w, hrun, hcross.fp.trans hfp, hcross.phis, fun x hx hlive hne => ?_⟩
  obtain ⟨home, hhome, hheld⟩ := hcross.others x hx hlive hne
  exact ⟨home, hhome, hheld.trans (hu.held_eq (hhomed.home_ne_scratch hx hhome) fun _ _ => id)⟩

end Bears

/-- Control gets to the block that the interpreter goes on with. A function is compiled, and its code is in a program that
    can be loaded. Then the code of the jump or branch at the end of a block leads, from every state of the machine that
    has what is live there and in whose memory the frame lies, to the label of the block that the interpreter chooses. -/
theorem goes_successor {config : RegisterCompiler.Config} {d : Descriptor} {f : Function} {k : Compiled}
    {prog : Asm.Program} (hd : config.descriptor = .ok d) (hk : f.compile d = .ok k) (hmem : k.code ∈ prog.functions)
    (hload : Image.load prog.flatten = .ok img) (hb : b ∈ f.blocks) (hlast : b.code.getLast? = some i)
    (hleaves : (∃ t, i = .jump t) ∨ ∃ x t t', i = .branch x t t') (hregular : ∀ o ∈ i.operands, Operand.IsRegular o) :
    (∃ p, RestAt ⟨f, k.allocation, k.layout, d⟩ img b [i] p) ∧
      ∀ (p : Nat) (v : View) (c : IR.Config), RestAt ⟨f, k.allocation, k.layout, d⟩ img b [i] p →
        v.memory.size < 2 ^ 63 → k.layout.LiesIn (v.regs .fp).toInt 0 v.memory.size →
        c.active.function = f → c.active.blockId = b.id →
        Bears ⟨f, k.allocation, k.layout, d⟩ (v.regs .fp).toInt c.active b (b.code.length - 1) v →
        ∀ (m : IR.Module) (maxDepth : Int), ∃ c' s q w, c.step m maxDepth i = .ok (.next c') ∧
          s ∈ f.blocks ∧ c'.active.block = s ∧ c'.active.blockId = s.id ∧
          img.Goes p v q w ∧ BlockAt ⟨f, k.allocation, k.layout, d⟩ img s.id q ∧
          Crosses ⟨f, k.allocation, k.layout, d⟩ (v.regs .fp).toInt b s c.active v w := by
  have hd := RegisterCompiler.Config.wellFormed_of_descriptor hd
  obtain ⟨hwell, ha, hl, hemit⟩ := IR.Function.compile_eq_ok hk
  obtain ⟨-, hresolves⟩ := Image.load_eq_ok hload
  have hlinked := linked_of_load hemit hmem hload
  refine ⟨?_, fun p v c hrest hbound hlies hfunction hid hbears m maxDepth => ?_⟩
  · obtain ⟨body, hbody⟩ := getLast?_eq_some_iff.1 hlast
    exact hlinked.exists_restAt hb hbody
  · have hhomed := homed hd hwell ha hl hbound hlies
    have hv : v.Stands (v.regs .fp).toInt v.memory.size := ⟨rfl, rfl, hbound⟩
    have hgo : ∀ s ∈ f.blocks, ∃ a', c.active.goTo c.active.blockId s.id = .ok a' ∧ a'.block = s ∧ a'.blockId = s.id :=
      fun s hs => exists_goTo_block (hfunction ▸ hwell) (hfunction ▸ hs) c.active.blockId
    rcases hleaves with ⟨t, rfl⟩ | ⟨x, t, t', rfl⟩
    · obtain ⟨s, hs, rfl, q, w, hgoes, hat, hcross⟩ := hbears.jump hlinked hresolves hhomed hv hb hlast hrest
      obtain ⟨a', hgo, hblock, hblockId⟩ := hgo s hs
      exact ⟨{ c with active := a' }, s, q, w, by simp only [IR.Config.step, hgo]; rfl, hs, hblock, hblockId, hgoes, hat,
        hcross⟩
    · obtain ⟨z, hz, s, hs, hchosen, q, w, hgoes, hat, hcross⟩ :=
        hbears.branch hlinked hresolves hhomed hv hb hlast (hregular x mem_cons_self) hrest
      obtain ⟨a', hgo, hblock, hblockId⟩ := hgo s hs
      rw [hchosen] at hgo
      exact ⟨{ c with active := a' }, s, q, w, by simp only [IR.Config.step, hz, bind, Except.bind, hgo]; rfl, hs, hblock,
        hblockId, hgoes, hat, hcross⟩

end Emission

namespace Transfer

open Allocation (assignment countdown smallTarget)
open Meaning (smallConfig)

/-- The branch at the end of the loop, which leads back to the loop by an edge of its own. -/
def again : IR.Instr := .branch (some (.var ⟨5, .w8⟩)) 1 2

def loopFrame : Layout :=
  { function := "countdown", size := 32, argSize := 8
    areas := [⟨.save ⟨2⟩, -8, 8, 8⟩, ⟨.spill ⟨2, .w64⟩, -16, 8, 8⟩, ⟨.spill ⟨3, .w64⟩, -24, 8, 8⟩,
      ⟨.spill ⟨5, .w8⟩, -25, 1, 1⟩] }

def loopEmission : Emission := ⟨countdown, assignment smallTarget countdown, loopFrame, smallTarget⟩

/-- A state of the machine before the branch: the condition is in the frame and holds. -/
def loopView : View :=
  { regs := fun r => if r = .fp then 64 else if r = ⟨1⟩ then 7 else if r = ⟨2⟩ then 8 else 0
    memory := Memory.store (Memory.store (Memory.store ⟨128, ∅⟩ 48 2 8) 40 9 8) 39 1 1 }

/-- The values of the variables. Two of them share a register, since they are not live together. -/
def loopEnv : IR.Env := (((((∅ : IR.Env).insert 0 7).insert 1 8).insert 2 2).insert 3 9).insert 4 7 |>.insert 5 1

def loopConfig (b : Block) : IR.Config :=
  { active := ⟨countdown, loopEnv, [], 64, b.id, b, []⟩, callers := [], memory := ⟨128, ∅⟩, steps := 0 }

theorem bears_loop (b : Block) (k : Nat) : loopEmission.Bears (loopView.regs .fp).toInt (loopConfig b).active b k loopView := by
  have hhomes : countdown.vars.map (fun u => (u, loopEmission.home u)) =
      [(⟨0, .w64⟩, .ok (.reg ⟨1⟩)), (⟨1, .w64⟩, .ok (.reg ⟨2⟩)), (⟨2, .w64⟩, .ok (.frame (-16))),
        (⟨3, .w64⟩, .ok (.frame (-24))), (⟨4, .w64⟩, .ok (.reg ⟨1⟩)), (⟨5, .w8⟩, .ok (.frame (-25)))] := by cbv
  have hheld : ∀ x ∈ countdown.vars.map (fun u => (u, loopEmission.home u)), ∃ p, x.2 = .ok p ∧
      x.1.width.IsCanonical (loopEnv.getD x.1.id 0) ∧
      loopView.held (loopView.regs .fp).toInt x.1.width p = loopEnv.getD x.1.id 0 := by
    rw [hhomes]
    simp only [forall_mem_cons]
    exact ⟨⟨_, rfl, rfl, rfl⟩, ⟨_, rfl, rfl, rfl⟩, ⟨_, rfl, rfl, rfl⟩, ⟨_, rfl, rfl, rfl⟩, ⟨_, rfl, rfl, rfl⟩,
      ⟨_, rfl, rfl, rfl⟩, forall_mem_nil _⟩
  intro u hu _
  obtain ⟨p, hp, hcanonical, hvalue⟩ := hheld (u, loopEmission.home u) (mem_map_of_mem hu)
  refine ⟨hcanonical, fun q hq => ?_⟩
  cases hp.symm.trans hq
  exact hvalue

theorem exists_load_loop : ∃ k img, countdown.compile smallTarget = .ok k ∧ k.allocation = assignment smallTarget countdown ∧
    k.layout = loopFrame ∧ Image.load (Asm.Program.flatten ⟨"", [k.code]⟩) = .ok img := by
  have hlabels : (countdown.compile smallTarget).map (fun k =>
      (Asm.Program.flatten ⟨"", [k.code]⟩).filterMap Asm.Instr.label?) =
      .ok ["countdown", ".Lcountdown.entry", ".Lcountdown.loop", ".Lcountdown.exit", ".Lcountdown.edge0"] := by cbv
  exact IR.Function.exists_load hlabels (by decide) (by cbv)

def blockAfter : IR.Progress → BlockId
  | .next c => c.active.blockId
  | .finished _ c => c.active.blockId

def loop : Block :=
  ⟨1, "loop", [
    .phi ⟨1, .w64⟩ [⟨0, some (.var ⟨0, .w64⟩)⟩, ⟨1, some (.var ⟨4, .w64⟩)⟩],
    .phi ⟨2, .w64⟩ [⟨0, some (.imm 0 .w64)⟩, ⟨1, some (.var ⟨3, .w64⟩)⟩],
    .call (some ⟨3, .w64⟩) "next" [some (.var ⟨2, .w64⟩)],
    .binop .sub ⟨4, .w64⟩ (some (.var ⟨1, .w64⟩)) (some (.imm 1 .w64)),
    .cmp .ne ⟨5, .w8⟩ (some (.var ⟨4, .w64⟩)) (some (.imm 0 .w64)), again]⟩

theorem goes_successor_again :
    smallConfig.descriptor = .ok smallTarget ∧ loop ∈ countdown.blocks ∧ loop.code.getLast? = some again ∧
      (∀ o ∈ again.operands, Operand.IsRegular o) ∧ loopView.memory.size < 2 ^ 63 ∧
      loopFrame.LiesIn (loopView.regs .fp).toInt 0 loopView.memory.size ∧
      loopEmission.Bears (loopView.regs .fp).toInt (loopConfig loop).active loop (loop.code.length - 1) loopView ∧
      ∃ k img, countdown.compile smallTarget = .ok k ∧ Image.load (Asm.Program.flatten ⟨"", [k.code]⟩) = .ok img ∧
      ∃ p c s q w, loopEmission.RestAt img loop [again] p ∧ (loopConfig loop).step ⟨[]⟩ 1 again = .ok (.next c) ∧
        c.active.block = s ∧ s.id = 1 ∧ img.Goes p loopView q w ∧ loopEmission.BlockAt img s.id q ∧
        loopEmission.Crosses (loopView.regs .fp).toInt loop s (loopConfig loop).active loopView w := by
  have hd := Meaning.descriptor_smallConfig
  have hb : loop ∈ countdown.blocks := mem_cons_of_mem _ mem_cons_self
  have hlast : loop.code.getLast? = some again := rfl
  have hregular : ∀ o ∈ again.operands, Operand.IsRegular o := forall_mem_singleton.2 trivial
  have hlies : loopFrame.LiesIn (loopView.regs .fp).toInt 0 loopView.memory.size := by decide
  obtain ⟨k, img, hk, hallocation, hlayout, hload⟩ := exists_load_loop
  obtain ⟨⟨p, hp⟩, hgoes⟩ := Emission.goes_successor hd hk mem_cons_self hload hb hlast (.inr ⟨_, _, _, rfl⟩) hregular
  rw [hallocation, hlayout] at hp hgoes
  obtain ⟨c, s, q, w, hstep, -, hblock, hid, hgoes, hat, hcross⟩ :=
    hgoes p loopView (loopConfig loop) hp (by decide) hlies rfl rfl (bears_loop _ _) ⟨[]⟩ 1
  -- The condition holds, so the interpreter goes to the first block of the branch.
  have hchosen : ((loopConfig loop).step ⟨[]⟩ 1 again).map blockAfter = .ok 1 := by decide +kernel
  rw [hstep] at hchosen
  exact ⟨hd, hb, hlast, hregular, by decide, hlies, bears_loop _ _, k, img, hk, hload, p, c, s, q, w, hp, hstep, hblock,
    hid.symm.trans (Except.ok.inj hchosen), hgoes, hat, hcross⟩

/-- A loop whose label is that of the code on its edge. -/
def circling : Function :=
  { name := "f", params := [⟨0, .w64⟩], result := .w64, entry := 0, slots := []
    blocks := [
      ⟨0, "entry", [.jump 1]⟩,
      ⟨1, "edge0", [
        .phi ⟨1, .w64⟩ [⟨0, some (.var ⟨0, .w64⟩)⟩, ⟨1, some (.var ⟨2, .w64⟩)⟩],
        .binop .sub ⟨2, .w64⟩ (some (.var ⟨1, .w64⟩)) (some (.imm 1 .w64)),
        .cmp .ne ⟨3, .w8⟩ (some (.var ⟨2, .w64⟩)) (some (.imm 0 .w64)), .branch (some (.var ⟨3, .w8⟩)) 1 2]⟩,
      ⟨2, "exit", [.ret (some (.var ⟨2, .w64⟩))]⟩] }

/-- A function is compiled whose code cannot be loaded, so that the machine does not get along its edges. -/
theorem not_load_circling :
    smallConfig.descriptor = .ok smallTarget ∧
      (∀ b ∈ circling.blocks, ∀ i ∈ b.code, ∀ o ∈ i.operands, Operand.IsRegular o) ∧
      ∃ k, circling.compile smallTarget = .ok k ∧ ∀ img, Image.load (Asm.Program.flatten ⟨"", [k.code]⟩) ≠ .ok img := by
  have hlabels : (circling.compile smallTarget).map (fun k =>
      (Asm.Program.flatten ⟨"", [k.code]⟩).filterMap Asm.Instr.label?) =
      .ok ["f", ".Lf.entry", ".Lf.edge0", ".Lf.exit", ".Lf.edge0"] := by cbv
  obtain ⟨k, hk, hlabels⟩ := Success.map_eq_ok.1 hlabels
  refine ⟨by cbv, by decide +kernel, k, hk, fun img hload => ?_⟩
  have hnodup := Image.exists_load_iff.1 ⟨img, hload⟩
  rw [hlabels] at hnodup
  exact absurd hnodup (by decide +kernel)

end Transfer

end RegisterCompiler
