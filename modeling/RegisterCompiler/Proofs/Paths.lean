import RegisterCompiler.Proofs.Lawful

/-!
# Live variables along paths

The analysis gives every block two sets of variables. What they hold is said here by the paths that control can take
between blocks: a variable is live at the end of a block if a path leads from there to a use of it, and no block on the
way defines it. The sets are computed in place, again and again, from the last block to the first.
-/

namespace RegisterCompiler.IR

open List

variable {i : Instr}

/-! ## Uses and definitions of a block -/

/-- A block defines a variable: one of its instructions does, or it is the entry and the variable is a parameter. -/
def Function.DefinedIn (f : Function) (b : Block) (v : VarId) : Prop :=
  (b.id = f.entry ∧ ∃ p ∈ f.params, p.id = v) ∨ ∃ i ∈ b.code, ∃ u, i.Defines u ∧ u.id = v

/-- A block uses a variable from before: an instruction that is not a phi reads it, and it is neither a parameter that
    comes with control nor the result of an instruction above. -/
def Function.UsesFromBefore (f : Function) (b : Block) (v : VarId) : Prop :=
  ¬(b.id = f.entry ∧ ∃ p ∈ f.params, p.id = v) ∧
    ∃ (k : Nat) (i : Instr), b.code[k]? = some i ∧ i.isPhi = false ∧ (∃ u, i.Reads (some (.var u)) ∧ u.id = v) ∧
      ∀ j < k, ∀ above, b.code[j]? = some above → ∀ u, above.Defines u → u.id ≠ v

/-- A phi of a block reads a variable when control comes from the block `pred`. -/
def Block.PhiReads (b : Block) (pred : BlockId) (v : VarId) : Prop :=
  ∃ dest edges u, .phi dest edges ∈ b.code ∧ ⟨pred, some (.var u)⟩ ∈ edges ∧ u.id = v

theorem Instr.mem_usedVars_iff {v : VarId} :
    v ∈ i.usedVars.map Var.id ↔ i.isPhi = false ∧ ∃ u, i.Reads (some (.var u)) ∧ u.id = v := by
  have hused : v ∈ i.usedVars.map Var.id ↔ ∃ u, some (.var u) ∈ i.uses ∧ u.id = v := by
    simp only [usedVars, mem_map, mem_filterMap]
    refine exists_congr fun u => and_congr_left fun _ => ⟨?_, fun h => ⟨_, h, rfl⟩⟩
    rintro ⟨o, ho, hsome⟩
    split at hsome
    · cases hsome; exact ho
    · cases hsome
  rw [hused]
  cases hphi : i.isPhi with
  | true =>
    cases i <;> simp_all [isPhi, uses]
  | false =>
    have hreads : ∀ o, i.Reads o ↔ o ∈ i.uses := by
      refine fun o => reads_iff.trans ⟨?_, .inl⟩
      rintro (h | ⟨dest, edges, rfl, -⟩)
      · exact h
      · cases hphi
    simp only [hreads, true_and]

theorem Instr.forall_defines_iff {v : VarId} : (∀ u, i.Defines u → u.id ≠ v) ↔ i.dest?.map Var.id ≠ some v := by
  simp only [defines_iff]
  cases i.dest? <;> simp

theorem mem_exposedUses_iff {code : List Instr} {v : VarId} :
    v ∈ exposedUses ∅ code ↔ ∃ (k : Nat) (i : Instr), code[k]? = some i ∧ v ∈ i.usedVars.map Var.id ∧
      ∀ j < k, ∀ above, code[j]? = some above → above.dest?.map Var.id ≠ some v := by
  induction code with
  | nil => simp [exposedUses]
  | cons i rest ih =>
    rw [mem_exposedUses_cons, ih]
    constructor
    · rintro (huse | ⟨⟨k, x, hx, huse, habove⟩, hdest⟩)
      · exact ⟨0, i, rfl, huse, fun j hj => absurd hj (Nat.not_lt_zero j)⟩
      · refine ⟨k + 1, x, hx, huse, fun j hj above hget => ?_⟩
        cases j with
        | zero => cases hget; exact hdest
        | succ j => exact habove j (Nat.lt_of_succ_lt_succ hj) above hget
    · rintro ⟨k, x, hx, huse, habove⟩
      cases k with
      | zero => cases hx; exact .inl huse
      | succ k =>
        refine .inr ⟨⟨k, x, hx, huse, fun j hj above hget => ?_⟩, habove 0 (Nat.succ_pos k) i rfl⟩
        exact habove (j + 1) (Nat.succ_lt_succ hj) above hget

namespace Function

variable {f : Function} {b c : Block} {v : VarId} {live : Liveness}

theorem mem_entered_iff : v ∈ f.entered b ↔ b.id = f.entry ∧ ∃ p ∈ f.params, p.id = v := by
  unfold entered
  split
  · next hentry => simp [VarSet.mem_ofVars, hentry]
  · next hentry => simp [hentry]

theorem definedIn_iff : f.DefinedIn b v ↔ v ∈ f.defs b := by
  rw [DefinedIn, defs, Std.ExtTreeSet.mem_union_iff, mem_entered_iff, VarSet.mem_ofVars]
  simp only [mem_map, mem_filterMap, Instr.defines_iff]
  grind

theorem usesFromBefore_iff : f.UsesFromBefore b v ↔ v ∈ f.exposed b := by
  rw [UsesFromBefore, exposed, mem_exposedUses, mem_exposedUses_iff, mem_entered_iff, and_comm]
  simp only [Instr.mem_usedVars_iff, Instr.forall_defines_iff, and_assoc]

theorem WellFormed.phiReads_iff (h : f.WellFormed) (hb : b ∈ f.blocks) {pred : BlockId} :
    b.PhiReads pred v ↔ v ∈ b.phiUses pred := by
  obtain ⟨phis, body, last, hshape⟩ := h.shape b hb
  have hphi : ∀ dest edges, .phi dest edges ∈ b.code ↔ .phi dest edges ∈ b.code.takeWhile Instr.isPhi := by
    refine fun dest edges => ⟨fun hmem => ?_, fun hmem => takeWhile_subset _ hmem⟩
    obtain ⟨k, hk⟩ := getElem?_of_mem hmem
    have hlt := (hshape.isPhi_iff hk).1 rfl
    rw [hshape.code, append_assoc, getElem?_append_left hlt] at hk
    exact hshape.takeWhile_isPhi ▸ mem_of_getElem? hk
  simp only [Block.PhiReads, Block.mem_phiUses, Block.mem_phiMoves, hphi]
  grind

/-! ## Paths -/

/-- A path of `n` steps from the end of the block `b` to a use of the variable `v`. No block between the first and the
    last defines it, and the last uses it from before or has a phi that reads it on the last step. -/
structure LivePath (f : Function) (v : VarId) (b : Block) (n : Nat) (path : Nat → Block) : Prop where
  pos : 1 ≤ n
  start : path 0 = b
  edge : ∀ i < n, f.Edge (path i) (path (i + 1))
  clear : ∀ i, 0 < i → i < n → ¬f.DefinedIn (path i) v
  use : f.UsesFromBefore (path n) v ∨ (path n).PhiReads (path (n - 1)).id v

def extendPath (b : Block) (path : Nat → Block) : Nat → Block
  | 0 => b
  | i + 1 => path i

variable {n : Nat} {path : Nat → Block}

theorem Edge.livePath (h : f.Edge b c) (huse : f.UsesFromBefore c v ∨ c.PhiReads b.id v) :
    f.LivePath v b 1 (extendPath b fun _ => c) where
  pos := Nat.le_refl 1
  start := rfl
  edge := by
    intro i hi
    obtain rfl := Nat.lt_one_iff.1 hi
    exact h
  clear := fun i hpos hlt => absurd hpos (by omega)
  use := huse

theorem LivePath.extend (h : f.LivePath v c n path) (hedge : f.Edge b c) (hclear : ¬f.DefinedIn c v) :
    f.LivePath v b (n + 1) (extendPath b path) where
  pos := Nat.le_add_left 1 n
  start := rfl
  edge := by
    intro i hi
    cases i with
    | zero =>
      have hfirst : f.Edge b (path 0) := h.start ▸ hedge
      exact hfirst
    | succ i => exact h.edge i (Nat.lt_of_succ_lt_succ hi)
  clear := by
    intro i hpos hlt
    obtain ⟨i, rfl⟩ := Nat.exists_eq_succ_of_ne_zero hpos.ne'
    rcases Nat.eq_zero_or_pos i with rfl | hi
    · have hfirst : ¬f.DefinedIn (path 0) v := h.start ▸ hclear
      exact hfirst
    · exact h.clear i hi (Nat.lt_of_succ_lt_succ hlt)
  use := by
    obtain ⟨m, rfl⟩ := Nat.exists_eq_succ_of_ne_zero (Nat.pos_iff_ne_zero.1 h.pos)
    exact h.use

theorem LivePath.tail (h : f.LivePath v b (n + 2) path) : f.LivePath v (path 1) (n + 1) fun i => path (i + 1) where
  pos := Nat.le_add_left 1 n
  start := rfl
  edge := fun i hi => h.edge (i + 1) (Nat.succ_lt_succ hi)
  clear := fun i _ hlt => h.clear (i + 1) (Nat.succ_pos i) (Nat.succ_lt_succ hlt)
  use := h.use

/-! ## The sets of the analysis -/

theorem WellFormed.mem_liveAfter_iff_edge (h : f.WellFormed) (hb : b ∈ f.blocks) {ins : List VarSet} :
    v ∈ f.liveAfter ins b ↔ ∃ c, f.Edge b c ∧ (v ∈ setAt ins c.id ∨ c.PhiReads b.id v) := by
  rw [mem_liveAfter]
  constructor
  · rintro ⟨s, hs, hlive⟩
    obtain ⟨c, hc⟩ := Option.isSome_iff_exists.1 (h.target b hb s hs)
    obtain ⟨hmem, rfl⟩ := h.block?_eq_some_iff.1 hc
    refine ⟨c, edge_iff.2 ⟨hb, hmem, hs⟩, hlive.imp_right ?_⟩
    rintro ⟨x, hx, hphi⟩
    cases hc.symm.trans hx
    exact (h.phiReads_iff hmem).2 hphi
  · rintro ⟨c, hedge, hlive⟩
    obtain ⟨-, hmem, hs⟩ := edge_iff.1 hedge
    exact ⟨c.id, hs, hlive.imp_right fun hphi =>
      ⟨c, h.block?_eq_some_iff.2 ⟨hmem, rfl⟩, (h.phiReads_iff hmem).1 hphi⟩⟩

theorem mem_liveBefore_iff {out : VarSet} :
    v ∈ f.liveBefore out b ↔ f.UsesFromBefore b v ∨ v ∈ out ∧ ¬f.DefinedIn b v := by
  rw [liveBefore, Std.ExtTreeSet.mem_union_iff, Std.ExtTreeSet.mem_diff_iff, usesFromBefore_iff, definedIn_iff]

theorem WellFormed.mem_liveIn_iff (h : f.WellFormed) (hb : b ∈ f.blocks) :
    v ∈ setAt f.liveIn b.id ↔ f.UsesFromBefore b v ∨ v ∈ setAt f.liveOut b.id ∧ ¬f.DefinedIn b v := by
  rw [h.setAt_liveIn hb, h.setAt_liveOut hb, mem_liveBefore_iff]

theorem LivePath.mem_liveOut (h : f.WellFormed) (hpath : f.LivePath v b n path) : v ∈ setAt f.liveOut b.id := by
  obtain ⟨n, rfl⟩ := Nat.exists_eq_succ_of_ne_zero (Nat.pos_iff_ne_zero.1 hpath.pos)
  induction n generalizing b path with
  | zero =>
    have hedge := hpath.start ▸ hpath.edge 0 Nat.one_pos
    rw [h.setAt_liveOut hedge.source, h.mem_liveAfter_iff_edge hedge.source]
    refine ⟨_, hedge, hpath.use.imp (fun huse => ?_) fun hphi => ?_⟩
    · exact (h.mem_liveIn_iff hedge.target).2 (.inl huse)
    · exact hpath.start ▸ hphi
  | succ n ih =>
    have hedge := hpath.start ▸ hpath.edge 0 (Nat.succ_pos _)
    have hlater := ih hpath.tail
    rw [h.setAt_liveOut hedge.source, h.mem_liveAfter_iff_edge hedge.source]
    refine ⟨_, hedge, .inl ((h.mem_liveIn_iff hedge.target).2 (.inr ⟨hlater, ?_⟩))⟩
    exact hpath.clear 1 Nat.one_pos (by omega)

/-- What is known to be live at the beginning of the blocks is live there. -/
def Justified (f : Function) (live : Liveness) : Prop :=
  ∀ b ∈ f.blocks, ∀ v ∈ setAt live.ins b.id,
    f.UsesFromBefore b v ∨ (∃ n path, f.LivePath v b n path) ∧ ¬f.DefinedIn b v

/-- What follows at the end of a block from what is live at the beginning of the blocks is live there. -/
theorem Justified.exists_livePath (hlive : f.Justified live) (h : f.WellFormed) (hb : b ∈ f.blocks)
    (hv : v ∈ f.liveAfter live.ins b) : ∃ n path, f.LivePath v b n path := by
  obtain ⟨c, hedge, hin | hphi⟩ := (h.mem_liveAfter_iff_edge hb).1 hv
  · rcases hlive c hedge.target v hin with huse | ⟨⟨n, path, hpath⟩, hclear⟩
    · exact ⟨_, _, hedge.livePath (.inl huse)⟩
    · exact ⟨_, _, hpath.extend hedge hclear⟩
  · exact ⟨_, _, hedge.livePath (.inr hphi)⟩

theorem mem_setAt_set {sets : List VarSet} {s : VarSet} {x y : BlockId} (hx : 0 ≤ x) (hv : v ∈ setAt (sets.set x.toNat s) y) :
    x = y ∧ v ∈ s ∨ v ∈ setAt sets y := by
  unfold setAt at hv ⊢
  split at hv
  · simp at hv
  · next hy =>
    rw [if_neg hy]
    rw [getD_eq_getElem?_getD, getElem?_set] at hv
    split at hv
    · next heq =>
      split at hv
      · have hxy : x = y := by
          rw [← Int.toNat_of_nonneg hx, ← Int.toNat_of_nonneg (Int.not_lt.1 hy), heq]
        exact .inl ⟨hxy, by simpa using hv⟩
      · simp at hv
    · exact .inr (by rwa [getD_eq_getElem?_getD])

theorem Justified.renew (hlive : f.Justified live) (h : f.WellFormed) (hc : c ∈ f.blocks) :
    f.Justified (f.renew c live) := by
  intro b hb v hv
  have hnonneg : 0 ≤ c.id := by
    obtain ⟨k, hk⟩ := getElem?_of_mem hc
    rw [h.block k c hk]
    exact Int.natCast_nonneg k
  rcases mem_setAt_set hnonneg hv with ⟨hid, hnew⟩ | hold
  · obtain rfl := h.eq_of_id_eq hc hb hid
    exact (mem_liveBefore_iff.1 hnew).imp_right (And.imp_left (hlive.exists_livePath h hc))
  · exact hlive b hb v hold

theorem WellFormed.justified_liveness (h : f.WellFormed) : f.Justified f.liveness := by
  refine liveness_induction f.Justified (fun b _ v hv => ?_) fun live hlive => ?_
  · exact absurd hv (forall_mem_setAt (p := fun _ => False) (by simp [unswept]) b.id v)
  · exact sweep_induction f.Justified (fun c hc live hlive => hlive.renew h hc) hlive

/-- The set at the end of a block holds the variables that have a path from there to a use. -/
theorem WellFormed.mem_liveOut_iff (h : f.WellFormed) (hb : b ∈ f.blocks) :
    v ∈ setAt f.liveOut b.id ↔ ∃ n path, f.LivePath v b n path := by
  refine ⟨fun hv => ?_, fun ⟨_, _, hpath⟩ => hpath.mem_liveOut h⟩
  rw [h.setAt_liveOut hb] at hv
  exact h.justified_liveness.exists_livePath h hb hv

/-! ## The sweeps -/

/-- The iteration ends with the sets after some number of steps, each of which changed something. -/
theorem exists_stabilize_eq_iterate (step : Liveness → Liveness) (fuel : Nat) (live : Liveness) :
    ∃ n, stabilize step fuel live = step^[n] live ∧ ∀ m < n, step^[m + 1] live ≠ step^[m] live := by
  induction fuel generalizing live with
  | zero => exact ⟨0, rfl, fun m hm => absurd hm (Nat.not_lt_zero m)⟩
  | succ fuel ih =>
    classical
    rw [stabilize_succ]
    split
    · exact ⟨0, rfl, fun m hm => absurd hm (Nat.not_lt_zero m)⟩
    · next hchanges =>
      obtain ⟨n, heq, hbefore⟩ := ih (step live)
      refine ⟨n + 1, heq, fun m hm => ?_⟩
      cases m with
      | zero => exact hchanges
      | succ m => exact hbefore m (Nat.lt_of_succ_lt_succ hm)

/-- Liveness is exact. For a function that the check accepts the sweeps come to an end: each of the first `n` changes
    some set, and one more changes none. Then a variable is in the set at the end of a block exactly if a path leads from
    there to a use of it, and in the set at its beginning exactly if the block uses it from before or it is live at the
    end and not defined in the block. -/
theorem liveness_exact (hf : f.verify = .ok ()) :
    (∃ n, f.liveness = f.sweep^[n] f.unswept ∧ (∀ m < n, f.sweep^[m + 1] f.unswept ≠ f.sweep^[m] f.unswept) ∧
        f.sweep^[n + 1] f.unswept = f.sweep^[n] f.unswept) ∧
      ∀ b ∈ f.blocks, ∀ v,
        (v ∈ setAt f.liveOut b.id ↔ ∃ n path, f.LivePath v b n path) ∧
        (v ∈ setAt f.liveIn b.id ↔ f.UsesFromBefore b v ∨ v ∈ setAt f.liveOut b.id ∧ ¬f.DefinedIn b v) := by
  have h := verify_eq_ok.1 hf
  refine ⟨?_, fun b hb v => ⟨h.mem_liveOut_iff hb, h.mem_liveIn_iff hb⟩⟩
  obtain ⟨n, heq, hbefore⟩ :=
    exists_stabilize_eq_iterate f.sweep (2 * (f.blocks.length * f.vars.length) + 1) f.unswept
  have hlast : f.liveness = f.sweep^[n] f.unswept := heq
  refine ⟨n, hlast, hbefore, ?_⟩
  rw [Function.iterate_succ_apply', ← hlast]
  exact h.sweep_liveness

end Function

namespace Paths

/-- A loop that is entered in two places, with a variable that is used only behind it. -/
def tangle : Function :=
  let w := Width.w64
  { name := "tangle", params := [⟨0, w⟩], result := w, entry := 0, slots := []
    blocks := [
      ⟨0, "entry", [
        .binop .add ⟨1, w⟩ (some (.var ⟨0, w⟩)) (some (.imm 1 w)),
        .cmp .ne ⟨2, Width.w8⟩ (some (.var ⟨0, w⟩)) (some (.imm 0 w)),
        .branch (some (.var ⟨2, Width.w8⟩)) 1 2]⟩,
      ⟨1, "left", [.jump 2]⟩,
      ⟨2, "right", [
        .cmp .slt ⟨3, Width.w8⟩ (some (.var ⟨0, w⟩)) (some (.imm 10 w)),
        .branch (some (.var ⟨3, Width.w8⟩)) 1 3]⟩,
      ⟨3, "exit", [.ret (some (.var ⟨1, w⟩))]⟩] }

/-- The variable is live at the end of the first block of the loop, since a path leads through the second to the use. -/
theorem liveness_exact_tangle :
    tangle.verify = .ok () ∧ ∃ b ∈ tangle.blocks, b.label = "left" ∧ 1 ∈ setAt tangle.liveOut b.id ∧
      ∃ n path, tangle.LivePath 1 b n path := by
  have hb : tangle.blocks[1] ∈ tangle.blocks := getElem_mem _
  have hlive : (setAt tangle.liveOut 1).contains 1 = true := by cbv
  exact ⟨rfl, _, hb, rfl, hlive, ((Function.liveness_exact rfl).2 _ hb 1).1.1 hlive⟩

end Paths

end RegisterCompiler.IR
