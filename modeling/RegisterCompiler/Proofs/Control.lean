import RegisterCompiler.Proofs.Calls
import RegisterCompiler.Proofs.Linking

/-!
# Control in the machine

Control goes from block to block along the labels of the code, with the moves of phis on the way: in the block that
control leaves, or in a block of their own on the edge.
-/

namespace RegisterCompiler

open List
open IR (Activation Block BlockId EvalCause Operand Progress)
open Machine (Image View)
open Machine.View (Changes)
open Success

namespace Emission

variable {e : Emission} {img : Image} {p q n : Nat} {v w : View} {b : Block} {site : BlockSite} {code moves : List Asm.Instr}
  {label : Asm.Label} {t f : BlockId} {em : Emitted} {base : Int} {z : Int64} {edges : List EdgeBlock} {y : Operand}
  {P : View → Prop}

/-! ## Along labels -/

section

variable (h : e.Linked img) (hresolves : img.Resolves) (hb : b ∈ e.function.blocks)
include h hresolves hb

theorem Linked.goes_block (hat : e.BlockAt img b.id p) (v : View) :
    ∃ q, img.Goes p v q v ∧ e.RestAt img b b.code q := by
  obtain ⟨q, ⟨label, hlabel, hq⟩, hrest⟩ := h.block b hb
  obtain ⟨label', hlabel', hp⟩ := hat
  cases hlabel.symm.trans hlabel'
  cases (hresolves q label hq).symm.trans (hresolves p label hp)
  exact ⟨p + 1, Image.goes_of_exec hp rfl, hrest⟩

theorem Linked.lookup_label (hlabel : e.blockLabel b.id = .ok label) :
    ∃ q, img.labels.lookup label = some q ∧ e.BlockAt img b.id q := by
  obtain ⟨q, ⟨label', hlabel', hq⟩, -⟩ := h.block b hb
  cases hlabel.symm.trans hlabel'
  exact ⟨q, hresolves q label hq, label, hlabel, hq⟩

theorem Linked.goes_jumpTo (hcode : e.jumpTo site b.id = .ok code) (hat : img.CodeAt p code)
    (hnext : ∀ id, site.next = some id → e.BlockAt img id (p + code.length))
    (hmoves : ∀ moves, e.phiCode site.block.id b.id = .ok moves → ∃ w, v.run moves = .ok w ∧ P w) :
    ∃ q w, img.Goes p v q w ∧ e.BlockAt img b.id q ∧ P w := by
  obtain ⟨moves, hphis, hcode⟩ := bind_eq_ok.1 hcode
  obtain ⟨w, hrun, hw⟩ := hmoves moves hphis
  split at hcode
  · next hsite =>
    cases hcode
    exact ⟨_, w, Image.goes_of_run hat hrun, hnext _ hsite, hw⟩
  · obtain ⟨label, hlabel, ⟨⟩⟩ := bind_eq_ok.1 hcode
    obtain ⟨hat, hjump⟩ := Image.codeAt_append.1 hat
    obtain ⟨q, hq, hblock⟩ := h.lookup_label hresolves hb hlabel
    have hjump := Image.goes_jump (v := w) (Image.codeAt_singleton.1 hjump) hq
    exact ⟨q, w, (Image.goes_of_run hat hrun).trans hjump, hblock, hw⟩

theorem Linked.goes_branchTo (hcode : e.branchTo site n b.id = .ok (label, edges)) (hedges : EdgesAt img edges)
    (hmoves : ∀ moves, e.phiCode site.block.id b.id = .ok moves → ∃ w, v.run moves = .ok w ∧ P w) :
    ∃ r q w, img.labels.lookup label = some r ∧ img.Goes r v q w ∧ e.BlockAt img b.id q ∧ P w := by
  obtain ⟨moves, hphis, hcode⟩ := bind_eq_ok.1 hcode
  obtain ⟨target, htarget, hcode⟩ := bind_eq_ok.1 hcode
  obtain ⟨w, hrun, hw⟩ := hmoves moves hphis
  obtain ⟨q, hq, hblock⟩ := h.lookup_label hresolves hb htarget
  split at hcode
  · next hempty =>
    cases hcode
    rw [List.isEmpty_iff.1 hempty] at hrun
    cases hrun
    exact ⟨q, q, v, hq, .refl q v, hblock, hw⟩
  · cases hcode
    obtain ⟨r, hat⟩ := hedges _ mem_cons_self
    obtain ⟨hlabel, hat⟩ := Image.codeAt_cons.1 hat
    obtain ⟨hat, hjump⟩ := Image.codeAt_append.1 hat
    have hjump := Image.goes_jump (v := w) (Image.codeAt_singleton.1 hjump) hq
    exact ⟨r, q, w, hresolves r _ hlabel, (Image.goes_of_exec hlabel rfl).trans ((Image.goes_of_run hat hrun).trans hjump),
      hblock, hw⟩

theorem Linked.goes_either {taken : Prop} [Decidable taken] {s s' : BlockId} (hid : b.id = if taken then s else s')
    (hjump : ∀ r, (taken → img.labels.lookup label = some r) → img.Goes p v (if taken then r else p + 1) v)
    (hbranch : e.branchTo site n s = .ok (label, edges)) (hedges : EdgesAt img edges)
    (hcode : e.jumpTo site s' = .ok code) (hat : img.CodeAt (p + 1) code)
    (hnext : ∀ id, site.next = some id → e.BlockAt img id (p + 1 + code.length))
    (hmoves : ∀ moves, e.phiCode site.block.id b.id = .ok moves → ∃ w, v.run moves = .ok w ∧ P w) :
    ∃ q w, img.Goes p v q w ∧ e.BlockAt img b.id q ∧ P w := by
  by_cases htaken : taken
  · rw [if_pos htaken] at hid
    subst hid
    obtain ⟨r, q, w, hr, hgoes, hend⟩ := h.goes_branchTo hresolves hb hbranch hedges hmoves
    have hjump := hjump r fun _ => hr
    rw [if_pos htaken] at hjump
    exact ⟨q, w, hjump.trans hgoes, hend⟩
  · rw [if_neg htaken] at hid
    subst hid
    obtain ⟨q, w, hgoes, hend⟩ := h.goes_jumpTo hresolves hb hcode hat hnext hmoves
    have hjump := hjump 0 fun htaken' => absurd htaken' htaken
    rw [if_neg htaken] at hjump
    exact ⟨q, w, hjump.trans hgoes, hend⟩

theorem Linked.goes_branchCode {condition : Operand} (hid : b.id = if z ≠ 0 then t else f)
    (hcode : e.branchCode site n condition t f = .ok em) (hat : img.CodeAt p em.code) (hedges : EdgesAt img em.edges)
    (hnext : ∀ id, site.next = some id → e.BlockAt img id (p + em.code.length)) {P Q : View → Prop}
    (hfetch : ∀ y, e.fetch 0 condition = .ok y → ∃ u, v.run y.code = .ok u ∧ u.regs y.reg = z ∧ y.reg.num < 16 ∧ Q u)
    (hmoves : ∀ u, Q u → ∀ moves, e.phiCode site.block.id b.id = .ok moves → ∃ w, u.run moves = .ok w ∧ P w) :
    ∃ q w, img.Goes p v q w ∧ e.BlockAt img b.id q ∧ P w := by
  obtain ⟨y, hy, hcode⟩ := bind_eq_ok.1 hcode
  obtain ⟨u, hrun, rfl, hgeneral, hu⟩ := hfetch y hy
  split at hcode
  · -- The code of the jump to `t` is that of its phis alone, since `t` is laid out next.
    next hsite =>
    obtain ⟨⟨label, edges⟩, hbranch, hcode⟩ := bind_eq_ok.1 hcode
    obtain ⟨moves, hphis, ⟨⟩⟩ := bind_eq_ok.1 hcode
    have hjumpTo : e.jumpTo site t = .ok moves := bind_eq_ok.2 ⟨moves, hphis, if_pos hsite.2⟩
    obtain ⟨hat, hrest⟩ := Image.codeAt_append.1 hat
    obtain ⟨hat, hjump⟩ := Image.codeAt_append.1 hat
    obtain ⟨q, w, hgoes, hend⟩ := h.goes_either hresolves hb
      (show b.id = if u.regs y.reg = 0 then f else t by simpa using hid)
      (fun r hr => Image.goes_jumpZero (Reg.lt_count hgeneral) (Image.codeAt_singleton.1 hjump) hr) hbranch hedges hjumpTo
      (by simpa [Nat.add_assoc] using hrest) (by simpa [Nat.add_assoc, Nat.add_comm 1] using hnext) (hmoves u hu)
    exact ⟨q, w, (Image.goes_of_run hat hrun).trans hgoes, hend⟩
  · obtain ⟨⟨label, edges⟩, hbranch, hcode⟩ := bind_eq_ok.1 hcode
    obtain ⟨code, hjumpTo, ⟨⟩⟩ := bind_eq_ok.1 hcode
    obtain ⟨hat, hrest⟩ := Image.codeAt_append.1 hat
    obtain ⟨hat, hjump⟩ := Image.codeAt_append.1 hat
    obtain ⟨q, w, hgoes, hend⟩ := h.goes_either hresolves hb hid
      (fun r hr => Image.goes_jumpNonzero (Reg.lt_count hgeneral) (Image.codeAt_singleton.1 hjump) hr) hbranch hedges
      hjumpTo (by simpa [Nat.add_assoc] using hrest) (by simpa [Nat.add_assoc, Nat.add_comm 1] using hnext) (hmoves u hu)
    exact ⟨q, w, (Image.goes_of_run hat hrun).trans hgoes, hend⟩

end

theorem Linked.goes_branch (h : e.Linked img) (hresolves : img.Resolves) {size : Nat} (hhomed : e.Homed base size)
    (hv : v.Stands base size) (hb : b ∈ e.function.blocks) (hy : e.Reads base v y z)
    (hregular : Operand.IsRegular (some y)) (hid : b.id = if z ≠ 0 then t else f)
    (hem : e.instr site n (.branch (some y) t f) = .ok em) (hat : img.CodeAt p em.code) (hedges : EdgesAt img em.edges)
    (hnext : ∀ id, site.next = some id → e.BlockAt img id (p + em.code.length))
    (hmoves : ∀ u, Changes (· ∈ e.target.scratch) (fun _ => False) v u →
      ∀ moves, e.phiCode site.block.id b.id = .ok moves → ∃ w, u.run moves = .ok w ∧ P w) :
    ∃ q w, img.Goes p v q w ∧ e.BlockAt img b.id q ∧ P w := by
  cases y with
  | imm c wd =>
    have hz : z = c := hy.2.trans hregular
    subst hz
    obtain ⟨code, hcode, ⟨⟩⟩ := bind_eq_ok.1 (show (do
      pure ⟨← e.jumpTo site (if z ≠ 0 then t else f), []⟩ : Except EmitError Emitted) = .ok em from hem)
    rw [← hid] at hcode
    exact h.goes_jumpTo hresolves hb hcode hat hnext (hmoves v (.refl v))
  | var u =>
    have hem : (if t = f then do pure ⟨← e.jumpTo site t, []⟩ else e.branchCode site n (.var u) t f :
      Except EmitError Emitted) = .ok em := hem
    split at hem
    · next heq =>
      obtain ⟨code, hcode, ⟨⟩⟩ := bind_eq_ok.1 hem
      rw [← heq, ite_self] at hid
      rw [← hid] at hcode
      exact h.goes_jumpTo hresolves hb hcode hat hnext (hmoves v (.refl v))
    · refine h.goes_branchCode hresolves hb hid hem hat hedges hnext (fun y hy' => ?_) hmoves
      obtain ⟨w, hrun, hz, hgeneral, -, -, hc⟩ := hhomed.run_fetch hv hy hy'
      exact ⟨w, hrun, hz, hgeneral, Scratch.changes hc⟩

/-- The scratch registers suffice for the moves on the way to the block that a branch chooses. -/
theorem Ready.moveCost_branch (h : e.Ready) {a : Block} (ha : a ∈ e.function.blocks)
    (hi : .branch (some y) t f ∈ a.code) (hy : e.Reads base v y z) (hregular : Operand.IsRegular (some y))
    (hid : b.id = if z ≠ 0 then t else f) :
    Allocation.moveCost (e.allocation.movesOnEdge e.function a.id b.id) ≤ e.target.scratch.length := by
  refine (Ready.demand_branch (h.demand a ha _ hi)).2 _ ?_
  cases y with
  | imm c wd =>
    rw [show z = c from hy.2.trans hregular] at hid
    exact hid ▸ mem_cons_self
  | var u => exact hid ▸ IR.Instr.ite_mem_successors (o := some (.var u)) (z ≠ 0)

end Emission

/-! ## An activation along its code -/

/-- A function is compiled for the machine `d`, and its code is in the machine. -/
structure Emission.Carried (e : Emission) (img : Image) (d : Descriptor) (m : IR.Module) : Prop where
  sound : e.Sound
  linked : e.Linked img
  target : e.target = d
  member : e.function ∈ m.functions

/-- The machine has the code of a regular module, whose functions are compiled for the machine `d`. -/
structure Machine.Image.Carries (img : Image) (d : Descriptor) (m : IR.Module) : Prop where
  resolves : img.Resolves
  regular : m.Regular
  small : img.code.size < 2 ^ 63
  carried : ∀ f ∈ m.functions, ∃ e : Emission, e.function = f ∧ e.Carried img d m
  callee : ∀ f ∈ m.functions, ∀ b ∈ f.blocks, ∀ dest callee args, .call dest callee args ∈ b.code →
    ∃ g, m.function? callee = some g

namespace Emission

variable {e : Emission} {img : Image} {p k n : Nat} {v w : View} {b : Block} {code : List Asm.Instr} {d : Descriptor}
  {o : Origin} {a a' : Activation} {stored : List Nat} {memory : Memory} {m : IR.Module} {c : IR.Config} {i : IR.Instr}
  {rest : List IR.Instr} {maxDepth : Int}

/-- The machine is at the code of the next instruction of an activation. -/
structure Runs (e : Emission) (img : Image) (o : Origin) (c : IR.Config) (stored : List Nat) (p : Nat) (v : View) :
    Prop where
  tracks : ∃ k, e.Tracks o c.active k stored c.memory v
  code : e.RestAt img c.active.block c.active.rest p

/-- What a function leaves behind that returns `x`. -/
structure Returns (e : Emission) (img : Image) (o : Origin) (x : Int64) (p : Nat) (v : View) : Prop where
  code : img.code[p]? = some .ret
  restores : e.Restores o.base o.start v
  result : e.function.result ≠ .none → v.regs e.target.result = x

/-- What an instruction does in the interpreter, the machine does from the index `p` on. -/
def Continues (e : Emission) (img : Image) (o : Origin) (c : IR.Config) (stored : List Nat) (p : Nat) (v : View) :
    Except EvalCause Progress → Prop
  | .ok progress => ∃ c' q w, progress = .next c' ∧ c'.callers = c.callers ∧ img.Goes p v q w ∧
      e.Runs img o c' stored q w
  | .error cause => ∀ s, cause = .scalar s → img.Fails p v (.scalar s)

theorem Follows.continues (h : e.Before o m c k stored v i rest) {stored' : List Nat} {r : Except EvalCause Progress}
    (hfollows : e.Follows o c k stored' code v r) (hat : img.CodeAt p code)
    (hrest : e.RestAt img c.active.block rest (p + code.length)) : e.Continues img o c stored' p v r := by
  cases r with
  | error cause =>
    rintro s rfl
    exact Image.fails_of_run hat (hfollows s rfl) nofun
  | ok progress =>
    obtain ⟨c', w, rfl, hcallers, hblock, hrun, htracks⟩ := hfollows
    refine ⟨c', _, w, rfl, hcallers, Image.goes_of_run hat hrun, ⟨_, htracks⟩, ?_⟩
    rwa [htracks.rest, hblock, ← (h.tracks.next h.next).2]

theorem Tracks.of_scratch (h : e.Tracks o a k stored memory v) (hsound : e.Sound) {rs : Reg → Prop}
    (hc : Changes rs (fun _ => False) v w) (hrs : ∀ r, rs r → r ∈ e.target.scratch) : e.Tracks o a k stored memory w :=
  { h with
    framed := h.framed.of_changes hc (fun r hr => hsound.free_scratch (hrs r hr)) fun _ => False.elim
    holds := h.holds.of_changes hc (fun _ _ hu => hu)
      (fun _ hu _ r hr hscratch => hsound.home_ne_scratch hu hr r rfl (hrs r hscratch)) fun _ _ _ _ _ _ _ => id
    mirrors := h.mirrors.of_changes hsound h.framed.room hc fun _ _ _ _ _ _ => id }

theorem Tracks.eq_nil_of_isTerminator (h : e.Tracks o a k stored memory v) (hsound : e.Sound) (hrest : a.rest = i :: rest)
    (hterm : i.isTerminator) : rest = [] := by
  obtain ⟨phis, body, last, hshape⟩ := hsound.ready.wellFormed.shape _ (h.mem_blocks hsound).1
  have := (hshape.isTerminator_iff (h.next hrest).1).1 hterm
  rw [(h.next hrest).2, drop_eq_nil_of_le (by omega)]

/-- An activation can go to every block of its function, and is at the beginning of the block then. -/
theorem exists_goTo_block (hwell : a.function.WellFormed) (hb : b ∈ a.function.blocks) (pred : BlockId) :
    ∃ a', a.goTo pred b.id = .ok a' ∧ a'.block = b ∧ a'.blockId = b.id := by
  obtain ⟨env, hgo⟩ := a.exists_goTo pred (hwell.block?_eq_some_iff.2 ⟨hb, rfl⟩) fun m hm =>
    a.exists_value (hwell.readable_phiMove hb hm)
  exact ⟨_, hgo, rfl, rfl⟩

theorem exists_goTo (hwell : e.function.WellFormed) (hfunction : a.function = e.function) (hb : b ∈ e.function.blocks) (pred : BlockId) :
    ∃ a', a.goTo pred b.id = .ok a' :=
  (exists_goTo_block (hfunction ▸ hwell) (hfunction ▸ hb) pred).imp fun _ => And.left

namespace Before

variable {x : Option Operand}

/-- Control leaves a block for another, whose phis take their values. -/
theorem enter (h : e.Before o m c k stored v i rest) (he : e.Carried img d m) (hphi : i.isPhi = false)
    (hb : b ∈ e.function.blocks) (hsucc : b.id ∈ i.successors)
    (hcost : Allocation.moveCost (e.allocation.movesOnEdge e.function c.active.block.id b.id) ≤ e.target.scratch.length)
    (hnext : (c.advance rest).active.next? i = some b.id) :
    ∃ a', (c.advance rest).active.goTo c.active.blockId b.id = .ok a' ∧ ∀ w, e.Tracks o c.active k stored c.memory w →
      ∀ moves, e.phiCode c.active.block.id b.id = .ok moves →
        ∃ u, w.run moves = .ok u ∧ a'.block = b ∧ e.Tracks o a' 0 stored c.memory u := by
  obtain ⟨-, hid⟩ := h.tracks.mem_blocks he.sound
  obtain ⟨a', hgo⟩ := exists_goTo (a := (c.advance rest).active) he.sound.ready.wellFormed h.tracks.function hb c.active.blockId
  refine ⟨a', hgo, fun w hw moves hmoves => hw.enter he.sound h.next hphi hb hsucc hcost (fun move hmove u hu => ?_)
    hmoves (hid ▸ hgo)⟩
  refine h.mindful.1 u (mem_append_right _ ?_)
  have hblock : ((c.advance rest).active.next? i).bind (c.advance rest).active.function.block? = some b := by
    rw [hnext, show (c.advance rest).active.function = e.function from h.tracks.function]
    exact he.sound.ready.wellFormed.block?_eq_some_iff.2 ⟨hb, rfl⟩
  rw [Activation.phiReads, hblock]
  exact mem_filterMap.2 ⟨move, hid ▸ hmove, by rw [hu]⟩

theorem continues_of_goTo (himg : img.Carries d m) (he : e.Carried img d m) (hb : b ∈ e.function.blocks)
    (hgo : (c.advance rest).active.goTo c.active.blockId b.id = .ok a')
    (hgoes : ∃ q w, img.Goes p v q w ∧ e.BlockAt img b.id q ∧ a'.block = b ∧ e.Tracks o a' 0 stored c.memory w) :
    e.Continues img o c stored p v (do
      pure (.next { c.advance rest with active := ← (c.advance rest).active.goTo c.active.blockId b.id })) := by
  obtain ⟨q, w, hgoes, hat, rfl, htracks⟩ := hgoes
  obtain ⟨q', hgoes', hrest⟩ := he.linked.goes_block himg.resolves hb hat w
  rw [hgo]
  refine ⟨_, q', w, rfl, rfl, hgoes.trans hgoes', ⟨0, htracks⟩, ?_⟩
  rwa [show a'.rest = a'.block.code from htracks.rest]

theorem jump {target : BlockId} (h : e.Before o m c k stored v (.jump target) rest) (himg : img.Carries d m)
    (he : e.Carried img d m) (hcode : e.RestAt img c.active.block (.jump target :: rest) p) :
    e.Continues img o c stored p v ((c.advance rest).step m maxDepth (.jump target)) := by
  obtain ⟨hblock, -⟩ := h.tracks.mem_blocks he.sound
  have hi := mem_of_getElem? (h.tracks.next h.next).1
  obtain ⟨b, hb, rfl, -⟩ := he.sound.ready.wellFormed.exists_of_mem_successors hblock hi mem_cons_self
  obtain ⟨a', hgo, hmoves⟩ := h.enter he rfl hb mem_cons_self (he.sound.ready.demand _ hblock _ hi) rfl
  obtain ⟨site, n, em, hsite, hem, hat, -, -, hlast⟩ := hcode.cons
  obtain ⟨code, hcode, ⟨⟩⟩ := bind_eq_ok.1 hem
  have hlast := hlast (h.tracks.eq_nil_of_isTerminator he.sound h.next rfl)
  exact continues_of_goTo himg he hb hgo
    (he.linked.goes_jumpTo himg.resolves hb hcode hat hlast (hsite ▸ hmoves v h.tracks))

theorem branch {t f : BlockId} (h : e.Before o m c k stored v (.branch x t f) rest) (himg : img.Carries d m)
    (he : e.Carried img d m) (hcode : e.RestAt img c.active.block (.branch x t f :: rest) p) :
    e.Continues img o c stored p v ((c.advance rest).step m maxDepth (.branch x t f)) := by
  obtain ⟨hblock, -⟩ := h.tracks.mem_blocks he.sound
  have hi := mem_of_getElem? (h.tracks.next h.next).1
  obtain ⟨y, z, rfl, hvalue, hreads⟩ := h.reads he.sound rfl (x := x) mem_cons_self
  have hregular : Operand.IsRegular (some y) := h.regular _ mem_cons_self
  have hsucc : (if z ≠ 0 then t else f) ∈ (IR.Instr.branch (some y) t f).successors :=
    IR.Instr.ite_mem_successors (z ≠ 0)
  obtain ⟨b, hb, hid, -⟩ := he.sound.ready.wellFormed.exists_of_mem_successors hblock hi hsucc
  have hnext : (c.advance rest).active.next? (.branch (some y) t f) = some b.id := by
    rw [Activation.next?, hvalue, hid]
    rfl
  obtain ⟨a', hgo, hmoves⟩ := h.enter he rfl hb (hid ▸ hsucc)
    (he.sound.ready.moveCost_branch hblock hi hreads hregular hid) hnext
  have hstep : (c.advance rest).step m maxDepth (.branch (some y) t f) = (do
      pure (.next { c.advance rest with active := ← (c.advance rest).active.goTo c.active.blockId b.id })) := by
    rw [hid]
    simp only [IR.Config.step, hvalue, bind, Except.bind]
    rfl
  rw [hstep]
  refine continues_of_goTo himg he hb hgo ?_
  obtain ⟨site, n, em, hsite, hem, hat, hedges, -, hlast⟩ := hcode.cons
  have hlast := hlast (h.tracks.eq_nil_of_isTerminator he.sound h.next rfl)
  rw [← hsite] at hmoves
  exact he.linked.goes_branch himg.resolves (h.homed he.sound) h.tracks.framed.stands hb hreads hregular hid hem hat hedges
    hlast fun u hu => hmoves u (h.tracks.of_scratch he.sound hu fun _ hr => hr)

theorem ret (h : e.Before o m c k stored v (.ret x) rest) (he : e.Carried img d m)
    (hsize : o.start.memory.size = o.size) (hcode : e.RestAt img c.active.block (.ret x :: rest) p) (maxDepth : Int) :
    ∃ z q w, (c.advance rest).step m maxDepth (.ret x) = .ok ((c.advance rest).leave z) ∧ img.Goes p v q w ∧
      e.Returns img o z q w := by
  obtain ⟨site, n, em, -, hem, hat, -⟩ := hcode.cons
  cases x with
  | none =>
    cases hem
    obtain ⟨w, code, hepilogue, hrun, hrestores, -⟩ := h.tracks.framed.run_epilogue he.sound hsize
    rw [hepilogue] at hat
    obtain ⟨hat, hret⟩ := Image.codeAt_append.1 hat
    exact ⟨0, _, w, rfl, Image.goes_of_run hat hrun, Image.codeAt_singleton.1 hret, hrestores,
      fun hresult => absurd (h.fits he.sound) hresult⟩
  | some x =>
    obtain ⟨_, z, ⟨⟩, hvalue, hreads⟩ := h.reads he.sound rfl (x := some x) mem_cons_self
    obtain ⟨s, hs, ⟨⟩⟩ := bind_eq_ok.1 hem
    obtain ⟨hload, hat⟩ := Image.codeAt_cons.1 hat
    obtain ⟨hfits, hsource, -⟩ := (h.homed he.sound).source_value hreads hs
    have hexec := h.tracks.framed.stands.exec_load (Reg.lt_count he.sound.target.result_general) hfits
    rw [hsource] at hexec
    have hframed := h.tracks.framed.of_changes (View.changes_set (fun _ => False) v e.target.result z)
      (by rintro r rfl; exact he.sound.free_result) fun _ => False.elim
    obtain ⟨w, code, hepilogue, hrun, hrestores, hresult⟩ := hframed.run_epilogue he.sound hsize
    rw [hepilogue] at hat
    obtain ⟨hat, hret⟩ := Image.codeAt_append.1 hat
    refine ⟨z, _, w, ?_, (Image.goes_of_exec hload hexec).trans (Image.goes_of_run hat hrun),
      Image.codeAt_singleton.1 hret, hrestores, fun _ => ?_⟩
    · simp only [IR.Config.step, hvalue, bind, Except.bind]
      rfl
    · rw [hresult, View.regs_set_self]

end Before

variable (h : e.Runs img o c stored p v) (himg : img.Carries d m) (he : e.Carried img d m)
  (hrest : c.active.rest = i :: rest) (hmindful : (c.advance rest).active.Mindful stored i)
include h himg he hrest hmindful

theorem Runs.before : ∃ k, e.Before o m c k stored v i rest := by
  obtain ⟨k, htracks⟩ := h.tracks
  have hi := mem_of_getElem? (htracks.next hrest).1
  obtain ⟨hregular, hrule⟩ := himg.regular _ he.member _ (htracks.mem_blocks he.sound).1 i hi
  exact ⟨k, htracks, hrest, hregular, hrule, hmindful⟩

theorem Runs.continues (hcall : ∀ dest callee args, i ≠ .call dest callee args) (hret : ∀ x, i ≠ .ret x)
    (outer : List (List Nat)) (maxDepth : Int) :
    ∃ stored', (c.advance rest).storedAfter (stored :: outer) i = stored' :: outer ∧
      e.Continues img o c stored' p v ((c.advance rest).step m maxDepth i) := by
  obtain ⟨k, hbefore⟩ := h.before himg he hrest hmindful
  have hcode := hrest ▸ h.code
  by_cases hjump : i.isTerminator
  · cases i with
    | jump target => exact ⟨stored, rfl, hbefore.jump himg he hcode⟩
    | branch x t f => exact ⟨stored, rfl, hbefore.branch himg he hcode⟩
    | ret x => exact absurd rfl (hret x)
    | _ => cases hjump
  · obtain ⟨site, n, em, -, hem, hat, -, hafter, -⟩ := hcode.cons
    by_cases hphi : i.isPhi
    · cases i with
      | phi d edges =>
        cases hem
        exact ⟨stored, rfl, _, _, v, rfl, rfl, .refl p v, ⟨_, hbefore.tracks.phi he.sound hrest rfl⟩, hafter⟩
      | _ => cases hphi
    · exact (hbefore.follows he.sound (by simpa using hphi) (by simpa using hjump) hcall hem outer).imp
        fun stored' h => ⟨h.1, h.2.continues hbefore hat hafter⟩

end Emission

end RegisterCompiler
