import RegisterCompiler.Proofs.Steps

/-!
# From block to block

On the way into a block its phis take their values all at once. The interpreter assigns them, and the machine moves
them into place; what else is live in the block stays where it is.
-/

namespace RegisterCompiler

open List
open IR (Activation Block BlockId Function Operand PhiMove Var VarId)
open Machine (View)
open Machine.View (Changes)
open Success

namespace IR

/-! ## Assignments -/

section

variable {α : Type} {l : List α} (key : α → VarId) (value : α → Int64)

theorem getElem?_foldl_insert_of_notMem {id : VarId} (h : id ∉ l.map key) (env : Env) :
    (l.foldl (fun env x => env.insert (key x) (value x)) env)[id]? = env[id]? := by
  induction l generalizing env with
  | nil => rfl
  | cons x l ih =>
    rw [map_cons, mem_cons, not_or] at h
    rw [foldl_cons, ih h.2, Std.ExtTreeMap.getElem?_insert, if_neg (by simpa using Ne.symm h.1)]

theorem getElem?_foldl_insert_of_mem (hnodup : (l.map key).Nodup) {x : α} (hx : x ∈ l) (env : Env) :
    (l.foldl (fun env x => env.insert (key x) (value x)) env)[key x]? = some (value x) := by
  induction l generalizing env with
  | nil => cases hx
  | cons y l ih =>
    obtain ⟨hy, hnodup⟩ := nodup_cons.1 hnodup
    rw [foldl_cons]
    rcases mem_cons.1 hx with rfl | hx
    · rw [getElem?_foldl_insert_of_notMem key value hy, Std.ExtTreeMap.getElem?_insert_self]
    · exact ih hnodup hx _

end

/-! ## Phis -/

namespace Function

variable {f : Function} {b c : Block} {v : VarId}

theorem exists_phi_of_lt {k : Nat} (hk : k < b.phis.length) :
    ∃ dest edges, (dest, edges) ∈ b.phis ∧ b.code[k]? = some (.phi dest edges) := by
  rw [Block.length_phis] at hk
  have hcode : b.code[k]? = some (b.code.takeWhile Instr.isPhi)[k] := by
    obtain ⟨rest, hrest⟩ : b.code.takeWhile Instr.isPhi <+: b.code := takeWhile_prefix Instr.isPhi
    have hleft : (b.code.takeWhile Instr.isPhi ++ rest)[k]? = _ := getElem?_append_left hk
    rwa [hrest, getElem?_eq_getElem hk] at hleft
  have hmem := getElem_mem hk
  rw [hcode]
  generalize (b.code.takeWhile Instr.isPhi)[k] = i at hmem
  have hphi := mem_takeWhile_imp hmem
  cases i with
  | phi dest edges => exact ⟨dest, edges, Block.mem_phis.2 hmem, rfl⟩
  | _ => cases hphi

/-- What is live behind the phis of a block and is none of their results is live before them. -/
theorem LiveAt.before_phis (h : f.LiveAt v b b.phis.length) (hv : ∀ phi ∈ b.phis, phi.1.id ≠ v) : f.LiveAt v b 0 := by
  suffices ∀ j, f.LiveAt v b (b.phis.length - j) by simpa using this b.phis.length
  intro j
  induction j with
  | zero => exact h
  | succ j ih =>
    by_cases hj : b.phis.length ≤ j
    · rwa [show b.phis.length - (j + 1) = b.phis.length - j by omega]
    obtain ⟨dest, edges, hphi, hcode⟩ := exists_phi_of_lt (b := b) (k := b.phis.length - (j + 1)) (by omega)
    refine .pass hcode ?_ (by rwa [show b.phis.length - (j + 1) + 1 = b.phis.length - j by omega])
    exact fun heq => hv (dest, edges) hphi (Option.some.inj heq)

/-- What is live at the beginning of a block is live behind its phis, which read nothing there. -/
theorem LiveAt.behind_phis (h : f.LiveAt v b 0) : f.LiveAt v b b.phis.length := by
  suffices ∀ j ≤ b.phis.length, f.LiveAt v b j from this _ (Nat.le_refl _)
  intro j
  induction j with
  | zero => exact fun _ => h
  | succ j ih =>
    intro hj
    obtain ⟨dest, edges, -, hcode⟩ := exists_phi_of_lt (b := b) hj
    have hlt := (List.getElem?_eq_some_iff.1 hcode).1
    cases ih (Nat.le_of_succ_le hj) with
    | read instr use =>
      cases instr.symm.trans hcode
      cases use
    | pass instr other later => exact later
    | phi | edge => exact absurd hlt (Nat.lt_irrefl _)

theorem WellFormed.exists_phiMove (h : f.WellFormed) (hb : b ∈ f.blocks) (hc : c ∈ f.blocks) (hleads : c.id ∈ b.successors)
    {phi : Var × List PhiEdge} (hphi : phi ∈ c.phis) : ∃ m ∈ c.phiMoves b.id, m.dest = phi.1 := by
  obtain ⟨dest, edges⟩ := phi
  have hmem := Block.mem_phis.1 hphi
  have hfits : f.PhiFits c dest edges := h.fits c hc _ (takeWhile_subset _ hmem)
  have hpred : b.id ∈ edges.map PhiEdge.pred :=
    (hfits.mem_iff b.id).2 (Function.mem_predecessors_iff.2 ⟨b, hb, hleads, rfl⟩)
  obtain ⟨⟨pred, source⟩, hedge, rfl⟩ := mem_map.1 hpred
  exact ⟨⟨dest, source⟩, Block.mem_phiMoves.2 ⟨edges, hmem, hedge⟩, rfl⟩

theorem WellFormed.phiMoves_pairwise (h : f.WellFormed) (hc : c ∈ f.blocks) {r : Var → Var → Prop}
    (hr : c.phis.Pairwise fun p q => r p.1 q.1) (pred : BlockId) :
    (c.phiMoves pred).Pairwise fun m n => r m.dest n.dest := by
  rw [Block.phiMoves, pairwise_flatMap]
  refine ⟨fun phi hphi => ?_, hr.imp fun hpq m hm n hn => ?_⟩
  · obtain ⟨dest, edges⟩ := phi
    have hfits : f.PhiFits c dest edges := h.fits c hc _ (takeWhile_subset _ (Block.mem_phis.1 hphi))
    refine pairwise_map.2 ((pairwise_map.1 hfits.nodup).filter _ |>.imp_of_mem fun {x y} hx hy hne => ?_)
    have hx := of_decide_eq_true (mem_filter.1 hx).2
    have hy := of_decide_eq_true (mem_filter.1 hy).2
    exact absurd (hx.trans hy.symm) hne
  · obtain ⟨_, -, rfl⟩ := mem_map.1 hm
    obtain ⟨_, -, rfl⟩ := mem_map.1 hn
    exact hpq

theorem WellFormed.width_phiMove (h : f.WellFormed) (hc : c ∈ f.blocks) {pred : BlockId} {m : PhiMove}
    (hm : m ∈ c.phiMoves pred) : m.dest ∈ f.vars ∧ m.source.map Operand.width = some m.dest.width := by
  obtain ⟨edges, hphi, hedge⟩ := Block.mem_phiMoves.1 hm
  have hmem := takeWhile_subset _ hphi
  have hfits : f.PhiFits c m.dest edges := h.fits c hc _ hmem
  exact ⟨WellFormed.mem_vars_of_dest hc hmem rfl, hfits.width _ hedge⟩

end Function

theorem Activation.exists_value {f : Function} {o : Option Operand} (a : Activation) (h : f.Readable o) :
    ∃ x, a.value o = .ok x := by
  match o, h with
  | some (.var v), _ => exact ⟨_, rfl⟩
  | some (.imm v w), _ => exact ⟨_, rfl⟩

theorem Activation.exists_goTo (a : Activation) (pred : BlockId) {id : BlockId} {b : Block} (hb : a.function.block? id = some b)
    (hmoves : ∀ m ∈ b.phiMoves pred, ∃ x, a.value m.source = .ok x) :
    ∃ env, a.goTo pred id = .ok { a with env, blockId := id, block := b, rest := b.code } := by
  obtain ⟨values, hvalues⟩ := exists_mapM hmoves
  rw [goTo, hb]
  dsimp only
  rw [hvalues]
  exact ⟨_, rfl⟩

theorem Activation.goTo_eq_ok {a a' : Activation} {pred succ : BlockId} {b : Block} (hb : a.function.block? succ = some b)
    (hnodup : ((b.phiMoves pred).map (·.dest.id)).Nodup) (h : a.goTo pred succ = .ok a') :
    ∃ env, a' = { a with env, blockId := succ, block := b, rest := b.code } ∧
      (∀ m ∈ b.phiMoves pred, ∃ z, a.value m.source = .ok z ∧ env[m.dest.id]? = some z) ∧
      ∀ id, (∀ m ∈ b.phiMoves pred, m.dest.id ≠ id) → env[id]? = a.env[id]? := by
  unfold goTo at h
  rw [hb] at h
  obtain ⟨values, hvalues, ⟨⟩⟩ := bind_eq_ok.1 h
  have hzip := forall₂_iff_zip.1 (mapM_eq_ok.1 hvalues)
  have hfst : ((b.phiMoves pred).zip values).map Prod.fst = b.phiMoves pred := map_fst_zip (Nat.le_of_eq hzip.1)
  have hkeys : ((b.phiMoves pred).zip values).map (fun x => x.1.dest.id) = (b.phiMoves pred).map (·.dest.id) := by
    conv_rhs => rw [← hfst]
    rw [map_map]
    rfl
  refine ⟨_, rfl, fun m hm => ?_, fun id hid => ?_⟩
  · rw [← hfst] at hm
    obtain ⟨⟨m, z⟩, hmem, rfl⟩ := mem_map.1 hm
    exact ⟨z, hzip.2 hmem, getElem?_foldl_insert_of_mem (fun x : PhiMove × Int64 => x.1.dest.id) Prod.snd (hkeys ▸ hnodup) hmem _⟩
  · refine getElem?_foldl_insert_of_notMem (fun x : PhiMove × Int64 => x.1.dest.id) Prod.snd ?_ _
    rw [hkeys]
    rintro hmem
    obtain ⟨m, hm, heq⟩ := mem_map.1 hmem
    exact hid m hm heq

end IR

namespace Emission

variable {e : Emission} {o : Origin} {a : Activation} {k n : Nat} {stored : List Nat} {memory : Memory} {v w : View}
  {i : IR.Instr} {rest : List IR.Instr} {b : Block} {ms : List Move}

/-- The move that the machine makes for a phi. -/
def Realizes (e : Emission) (m : PhiMove) (move : Move) : Prop :=
  ∃ y s, m.source = some y ∧ e.home m.dest = .ok move.dest ∧ e.source y = .ok s ∧ move.source = s ∧
    move.width = m.dest.width

/-- A phi reads a value that the machine has at the end of the block that control comes from. -/
structure Arrives (e : Emission) (base : Int) (v : View) (m : PhiMove) (y : Operand) (z : Int64) : Prop where
  source : m.source = some y
  reads : e.Reads base v y z
  width : y.width = m.dest.width
  dest : m.dest ∈ e.function.vars

/-- The registers that the code of an edge may change. -/
def EdgeRegs (e : Emission) (pred : BlockId) (b : Block) (r : Reg) : Prop :=
  r ∈ e.target.scratch ∨ ∃ m ∈ b.phiMoves pred, e.home m.dest = .ok (.reg r)

/-- The bytes that the code of an edge may change. -/
def EdgeBytes (e : Emission) (base : Int) (pred : BlockId) (b : Block) (x : Nat) : Prop :=
  ∃ m ∈ b.phiMoves pred, ∃ p, e.home m.dest = .ok p ∧ p.Covers base m.dest.width x

namespace Homed

variable {base : Int} {size : Nat} {pred : BlockId}

theorem moving (h : e.Homed base size) (hb : b ∈ e.function.blocks) (hms : List.Forall₂ e.Realizes (b.phiMoves pred) ms)
    (harrives : ∀ m ∈ b.phiMoves pred, ∃ y z, e.Arrives base v m y z)
    (hscratch : ∀ m ∈ ms, 2 ≤ e.target.scratch.length ∨ m.isIdentity) : e.Moving base size ms := by
  have hwell := h.ready.wellFormed
  -- Each move brings the value of an operand to the home of a phi.
  have hmove : ∀ m ∈ ms, ∃ d ∈ e.function.vars, ∃ y z, e.home d = .ok m.dest ∧ e.source y = .ok m.source ∧
      e.Reads base v y z ∧ y.width = m.width ∧ d.width = m.width := by
    intro m hm
    obtain ⟨phi, hphi, y, s, hy, hhome, hs, hsource, hwidth⟩ := exists_of_mem_right hms hm
    obtain ⟨y', z, harr⟩ := harrives phi hphi
    cases hy.symm.trans harr.source
    exact ⟨phi.dest, harr.dest, y, z, hhome, hsource ▸ hs, harr.reads, harr.width.trans hwidth.symm, hwidth.symm⟩
  refine
    { dest := fun m hm => ?_, source := fun m hm => ?_, dest_free := fun m hm => ?_,
      source_free := fun m hm r hr => ?_, dests := ?_, sources := fun m hm m' hm' p hp => ?_, scratch := hscratch }
  · obtain ⟨d, hd, _, _, hhome, -, -, -, hwidth⟩ := hmove m hm
    exact hwidth ▸ h.home_fits hd hhome
  · obtain ⟨_, -, y, z, -, hs, hreads, hwidth, -⟩ := hmove m hm
    exact hwidth ▸ (h.source_value hreads hs).1
  · obtain ⟨d, hd, _, _, hhome, -⟩ := hmove m hm
    exact h.home_ne_scratch hd hhome
  · obtain ⟨_, -, y, z, -, hs, hreads, -, -⟩ := hmove m hm
    obtain ⟨u, rfl, hu⟩ := exists_of_source_eq (hr ▸ hs)
    exact (h.home_not_scratch hreads.1 hu).2
  · have hne := hwell.phiMoves_pairwise hb (r := fun p q => p.id ≠ q.id) (Allocation.phis_pairwise_ne hwell hb) pred
    have hapart := hwell.phiMoves_pairwise hb (r := fun p q => e.allocation.Apart p.id q.id)
      (h.allocation.phis b hb) pred
    refine pairwise_of_forall₂ hms (hne.and hapart) ?_
    rintro m hm m' hm' n n' ⟨_, _, -, hhome, -, -, hwidth⟩ ⟨_, _, -, hhome', -, -, hwidth'⟩ ⟨hne, hapart⟩
    rw [hwidth, hwidth']
    exact h.home_disjoint (hwell.width_phiMove hb hm).1 (hwell.width_phiMove hb hm').1 hne hapart hhome hhome'
  · obtain ⟨_, -, y, z, -, hs, hreads, hwidth, -⟩ := hmove m hm
    obtain ⟨d, hd, _, _, hhome, -, -, -, hwidth'⟩ := hmove m' hm'
    obtain ⟨u, rfl, hu⟩ := exists_of_source_eq (hp ▸ hs)
    rw [← hwidth, ← hwidth']
    exact h.eq_or_home_disjoint hreads.1 hd hu hhome

theorem run_edge (h : e.Homed base size) (hv : v.Stands base size) (hb : b ∈ e.function.blocks)
    (hcost : Allocation.moveCost (e.allocation.movesOnEdge e.function pred b.id) ≤ e.target.scratch.length)
    (harrives : ∀ m ∈ b.phiMoves pred, ∃ y z, e.Arrives base v m y z) {code : List Asm.Instr}
    (hcode : e.phiCode pred b.id = .ok code) :
    ∃ w, v.run code = .ok w ∧
      (∀ m ∈ b.phiMoves pred, ∀ y z, e.Arrives base v m y z → ∀ p, e.home m.dest = .ok p →
        w.held base m.dest.width p = z) ∧
      Changes (e.EdgeRegs pred b) (e.EdgeBytes base pred b) v w := by
  rw [phiCode, h.ready.wellFormed.block?_eq_some_iff.2 ⟨hb, rfl⟩] at hcode
  obtain ⟨ms, hmapM, ⟨⟩⟩ := bind_eq_ok.1 hcode
  have hscratch := (@Ready.phiMoves e [] True pred h.ready b hb hcost).of_eq hmapM
  have hms : List.Forall₂ e.Realizes (b.phiMoves pred) ms := by
    refine (mapM_eq_ok.1 hmapM).imp fun m move hmove => ?_
    obtain ⟨p, hp, hmove⟩ := bind_eq_ok.1 hmove
    obtain ⟨y, hy, hmove⟩ := bind_eq_ok.1 hmove
    obtain ⟨s, hs, ⟨⟩⟩ := bind_eq_ok.1 hmove
    have hsource : m.source = some y := by
      cases hsource : m.source with
      | none => rw [hsource] at hy; cases hy
      | some y' => rw [hsource] at hy; cases hy; rfl
    exact ⟨y, s, hsource, hp, hs, rfl, rfl⟩
  obtain ⟨w, hrun, hheld, hc⟩ := h.run_moves (h.moving hb hms harrives hscratch) hv fun m hm p hp => by
    obtain ⟨phi, hphi, y, s, hy, -, hs, rfl, hwidth⟩ := exists_of_mem_right hms hm
    obtain ⟨y', z, harr⟩ := harrives phi hphi
    cases hy.symm.trans harr.source
    rw [hwidth, ← harr.width, ((h.source_value harr.reads hs).2.2 p hp).2]
    exact (harr.reads.canonical h.toPlaced).2
  refine ⟨w, hrun, fun phi hphi y z harr p hp => ?_, hc.mono ?_ ?_⟩
  · obtain ⟨m, hm, y', s, hy, hhome, hs, rfl, hwidth⟩ := exists_of_mem_left hms hphi
    cases hy.symm.trans harr.source
    cases hhome.symm.trans hp
    have hvalue := (h.source_value harr.reads hs).2.1
    rw [← hwidth, hheld m hm, hwidth, ← harr.width, hvalue]
  · rintro r (hr | ⟨m, hm, hmr⟩)
    · exact .inl hr
    · obtain ⟨phi, hphi, _, _, -, hhome, -⟩ := exists_of_mem_right hms hm
      exact .inr ⟨phi, hphi, hmr ▸ hhome⟩
  · rintro x ⟨m, hm, hcovers⟩
    obtain ⟨phi, hphi, _, _, -, hhome, -, -, hwidth⟩ := exists_of_mem_right hms hm
    exact ⟨phi, hphi, m.dest, hhome, hwidth ▸ hcovers⟩

/-- What is live in a block and is none of its phis stays where it is on the way into the block. -/
theorem held_of_edge (h : e.Homed base size) (hb : b ∈ e.function.blocks)
    (hc : Changes (e.EdgeRegs pred b) (e.EdgeBytes base pred b) v w) {u : Var} (hu : u ∈ e.function.vars)
    (hlive : e.function.LiveAt u.id b b.phis.length) (hne : ∀ m ∈ b.phiMoves pred, m.dest.id ≠ u.id) {p : Place}
    (hp : e.home u = .ok p) : w.held base u.width p = v.held base u.width p := by
  have hvar : ∀ m ∈ b.phiMoves pred, m.dest ∈ e.function.vars := fun m hm =>
    (h.ready.wellFormed.width_phiMove hb hm).1
  have hdisj : ∀ m ∈ b.phiMoves pred, ∀ q, e.home m.dest = .ok q → p.Disjoint u.width m.dest.width q := by
    intro m hm q hq
    obtain ⟨edges, hphi, -⟩ := IR.Block.mem_phiMoves.1 hm
    exact h.home_disjoint hu (hvar m hm) (Ne.symm (hne m hm))
      (h.allocation.phiWritten b hb _ edges (IR.Block.mem_phis.2 hphi) u.id hlive (Ne.symm (hne m hm))) hp hq
  refine hc.held_eq ?_ ?_
  · rintro r rfl (hr | ⟨m, hm, hmr⟩)
    · exact h.home_ne_scratch hu hp r rfl hr
    · exact hdisj m hm _ hmr rfl
  · rintro y hy ⟨m, hm, q, hq, hcovers⟩
    exact (hdisj m hm q hq).not_covers (h.home_fits hu hp) (h.home_fits (hvar m hm) hq) hy hcovers

end Homed

namespace Tracks

variable (h : e.Tracks o a k stored memory v) (hsound : e.Sound)
include h hsound

theorem leads (hrest : a.rest = i :: rest) {succ : BlockId} (hsucc : succ ∈ i.successors) :
    ∃ b ∈ e.function.blocks, b.id = succ ∧ b.id ∈ a.block.successors ∧
      ∀ u, e.function.LiveAt u a.block a.block.code.length → e.function.LiveAt u a.block k := by
  obtain ⟨ha, -⟩ := h.mem_blocks hsound
  have hi := (h.next hrest).1
  obtain ⟨b, hb, rfl, hleads⟩ :=
    hsound.ready.wellFormed.exists_of_mem_successors ha (mem_of_getElem? hi) hsucc
  refine ⟨b, hb, rfl, hleads, fun u hu => ?_⟩
  obtain ⟨phis, body, last, hshape⟩ := hsound.ready.wellFormed.shape _ ha
  have hterm : i.isTerminator := by
    cases i <;> first | rfl | cases hsucc
  have hlast := (hshape.isTerminator_iff hi).1 hterm
  refine .pass hi ?_ (hlast ▸ hu)
  cases i <;> simp_all [IR.Instr.isTerminator, IR.Instr.dest?]

theorem arrives (hphis : a.block.phis.length ≤ k) (hb : b ∈ e.function.blocks) (hleads : b.id ∈ a.block.successors)
    (hlive : ∀ u, e.function.LiveAt u a.block a.block.code.length → e.function.LiveAt u a.block k) {m : PhiMove}
    (hm : m ∈ b.phiMoves a.block.id) (hassigned : ∀ u, m.source = some (.var u) → u.id ∈ a.env) :
    ∃ y z, a.value m.source = .ok z ∧ e.Arrives o.base v m y z := by
  obtain ⟨hdest, hwidth⟩ := hsound.ready.wellFormed.width_phiMove hb hm
  have hreadable := hsound.ready.wellFormed.readable_phiMove hb hm
  obtain ⟨dest, source⟩ := m
  rcases source with _ | (u | ⟨c, wd⟩)
  · exact absurd hreadable id
  · obtain ⟨z, hz⟩ := Option.isSome_iff_exists.1 (Std.ExtTreeMap.isSome_getElem?_iff_mem.2 (hassigned u rfl))
    have hu : e.function.LiveAt u.id a.block k :=
      hlive u.id (.phi hleads (hsound.ready.wellFormed.block?_eq_some_iff.2 ⟨hb, rfl⟩) hm rfl)
    refine ⟨.var u, z, ?_, rfl, ⟨hreadable, h.typed u hreadable z hz, fun p hp => h.holds u hreadable ?_ z hz p hp⟩,
      Option.some.inj hwidth, hdest⟩
    · rw [Activation.value, Std.ExtTreeMap.getD_eq_getD_getElem?, hz]
      rfl
    · rwa [Nat.max_eq_left hphis]
  · exact ⟨.imm c wd, wd.canonical c, rfl, rfl, ⟨hreadable, rfl⟩, Option.some.inj hwidth, hdest⟩

theorem enter (hrest : a.rest = i :: rest) (hphi : i.isPhi = false) (hb : b ∈ e.function.blocks)
    (hsucc : b.id ∈ i.successors)
    (hcost : Allocation.moveCost (e.allocation.movesOnEdge e.function a.block.id b.id) ≤ e.target.scratch.length)
    (hassigned : ∀ m ∈ b.phiMoves a.block.id, ∀ u, m.source = some (.var u) → u.id ∈ a.env) {code : List Asm.Instr}
    (hcode : e.phiCode a.block.id b.id = .ok code) {a' : Activation}
    (hgo : ({ a with rest } : Activation).goTo a.block.id b.id = .ok a') :
    ∃ w, v.run code = .ok w ∧ a'.block = b ∧ e.Tracks o a' 0 stored memory w := by
  have hroom := h.framed.room
  have hwell := hsound.ready.wellFormed
  have hblock : e.function.block? b.id = some b := hwell.block?_eq_some_iff.2 ⟨hb, rfl⟩
  obtain ⟨ha, -⟩ := h.mem_blocks hsound
  obtain ⟨_, hb', hid, hleads, hlive⟩ := h.leads hsound hrest hsucc
  cases hwell.eq_of_id_eq hb' hb hid
  have hphis := h.phis_le hsound hrest hphi
  have harrives : ∀ m ∈ b.phiMoves a.block.id, ∃ y z, a.value m.source = .ok z ∧ e.Arrives o.base v m y z := fun m hm =>
    h.arrives hsound hphis hb hleads hlive hm (hassigned m hm)
  have hhomed := hsound.homed hroom
  obtain ⟨w, hrun, hheld, hc⟩ := hhomed.run_edge h.framed.stands hb hcost
    (fun m hm => (harrives m hm).imp fun _ => Exists.imp fun _ => And.right) hcode
  have hvar : ∀ m ∈ b.phiMoves a.block.id, m.dest ∈ e.function.vars := fun m hm => (hwell.width_phiMove hb hm).1
  have hnodup : ((b.phiMoves a.block.id).map (·.dest.id)).Nodup := pairwise_map.2
    (hwell.phiMoves_pairwise hb (r := fun p q => p.id ≠ q.id) (Allocation.phis_pairwise_ne hwell hb) a.block.id)
  obtain ⟨env, rfl, hassign, hother⟩ := IR.Activation.goTo_eq_ok (by rw [← hblock]; exact congrArg (·.block? b.id) h.function)
    hnodup hgo
  -- A variable has the value of its phi, or the one that it had before.
  have henv : ∀ u ∈ e.function.vars, ∀ x, env[u.id]? = some x →
      (∃ m ∈ b.phiMoves a.block.id, m.dest = u ∧ ∃ y, e.Arrives o.base v m y x) ∨
        (∀ m ∈ b.phiMoves a.block.id, m.dest.id ≠ u.id) ∧ a.env[u.id]? = some x := by
    intro u hu x hx
    by_cases hphi : ∃ m ∈ b.phiMoves a.block.id, m.dest.id = u.id
    · obtain ⟨m, hm, hid⟩ := hphi
      obtain ⟨y, z, hz, harr⟩ := harrives m hm
      obtain ⟨z', hz', henv⟩ := hassign m hm
      cases hz.symm.trans hz'
      rw [hid] at henv
      cases henv.symm.trans hx
      exact .inl ⟨m, hm, inj_on_of_nodup_map hwell.nodup (hvar m hm) hu hid, y, harr⟩
    · have hne : ∀ m ∈ b.phiMoves a.block.id, m.dest.id ≠ u.id := fun m hm hid => hphi ⟨m, hm, hid⟩
      exact .inr ⟨hne, (hother u.id hne).symm.trans hx⟩
  refine ⟨w, hrun, rfl, ?_⟩
  exact
    { framed := by
        refine h.framed.of_changes hc ?_ ?_
        · rintro r (hr | ⟨m, hm, hmr⟩)
          · exact hsound.free_scratch hr
          · exact hsound.free_home (hvar m hm) hmr
        · rintro x ⟨m, hm, p, hp, hcovers⟩
          exact hsound.private_home hroom (hvar m hm) hp hcovers
      function := h.function
      block := hblock
      inside := by
        obtain ⟨phis, body, last, hshape⟩ := hwell.shape b hb
        rw [hshape.length_code]
        omega
      rest := rfl
      typed := by
        intro u hu x hx
        rcases henv u hu x hx with ⟨m, -, rfl, y, harr⟩ | ⟨-, hx⟩
        · exact harr.width ▸ (harr.reads.canonical hsound.toPlaced).2
        · exact h.typed u hu x hx
      holds := by
        intro u hu hul x hx p hp
        change e.function.LiveAt u.id b (max 0 b.phis.length) at hul
        rw [Nat.zero_max] at hul
        rcases henv u hu x hx with ⟨m, hm, rfl, y, harr⟩ | ⟨hne, hx⟩
        · exact hheld m hm y x harr p hp
        · -- What is no phi is live on the edge, too, and no phi takes its place.
          have hzero : e.function.LiveAt u.id b 0 := hul.before_phis fun phi hphi => by
            obtain ⟨m, hm, hdest⟩ := hwell.exists_phiMove ha hb hleads hphi
            exact hdest ▸ hne m hm
          have hbefore := hlive u.id (.edge hleads hblock hzero)
          rw [← h.holds u hu (by rwa [Nat.max_eq_left hphis]) x hx p hp]
          exact hhomed.held_of_edge hb hc hu hul hne hp
      mirrors := h.mirrors.of_changes hsound hroom hc fun s offset hat x hlow hhigh => by
        rintro ⟨m, hm, p, hp, hcovers⟩
        exact hsound.not_covers_slot hroom (hvar m hm) hp hat hlow hhigh hcovers
      reserved := h.reserved
      depth := h.depth
      untouched := h.untouched }

end Tracks

end Emission

end RegisterCompiler
