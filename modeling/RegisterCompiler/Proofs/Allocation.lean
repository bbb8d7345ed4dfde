import RegisterCompiler.Allocation.Basic
import RegisterCompiler.Proofs.Interval
import RegisterCompiler.Proofs.Scan

/-!
# Allocations lose no value

Two variables may have one register as long as no value is lost by it. `Allocation.Sound` says so in terms of the
paths that control can take: a variable that is live at a place shares its register with none that is live there or
is written there, and with no call that may change it.
-/

namespace RegisterCompiler

open List
open IR (Block Function Instr Interval Var VarId)

namespace Allocation

/-- Two variables that do not have the same register. -/
def Apart (a : Allocation) (v w : VarId) : Prop := ∀ r, a.loc? v = some (.reg r) → a.loc? w ≠ some (.reg r)

/-- An allocation that loses no value. -/
structure Sound (a : Allocation) (d : Descriptor) (f : Function) : Prop where
  placed : ∀ v ∈ f.vars, ∃ loc, a.loc? v.id = some loc
  allocatable : ∀ v ∈ f.vars, ∀ r, a.loc? v.id = some (.reg r) → r ∈ d.allocatable
  live : ∀ b ∈ f.blocks, ∀ k v w, f.LiveAt v b k → f.LiveAt w b k → v ≠ w → a.Apart v w
  /-- What is live behind an instruction is not overwritten by it. -/
  written : ∀ b ∈ f.blocks, ∀ k i dest, b.code[k]? = some i → i.dest? = some dest →
    ∀ v, f.LiveAt v b (k + 1) → v ≠ dest.id → a.Apart v dest.id
  /-- What is live behind the phis of a block is not overwritten by them. -/
  phiWritten : ∀ b ∈ f.blocks, ∀ dest edges, (dest, edges) ∈ b.phis →
    ∀ v, f.LiveAt v b b.phis.length → v ≠ dest.id → a.Apart v dest.id
  /-- What is live at the beginning of a function is not overwritten by the parameters. -/
  paramWritten : ∀ b, f.block? f.entry = some b → ∀ p ∈ f.params, ∀ v, f.LiveAt v b 0 → v ≠ p.id → a.Apart v p.id
  phis : ∀ b ∈ f.blocks, b.phis.Pairwise fun p q => a.Apart p.1.id q.1.id
  params : f.params.Pairwise fun p q => a.Apart p.id q.id
  call : ∀ b ∈ f.blocks, ∀ k dest callee args, b.code[k]? = some (.call dest callee args) →
    ∀ v, f.LiveAt v b (k + 1) → dest.map Var.id ≠ some v →
      a.loc? v = some .spilled ∨ ∃ r ∈ d.calleeSaved, a.loc? v = some (.reg r)

end Allocation

namespace IR.Function

variable {f : Function}

theorem WellFormed.intervals_nodup (h : f.WellFormed) : (f.intervals.map (·.var.id)).Nodup := by
  have hsub : ∀ vs : List Var, ((vs.filterMap (intervalOf f.allOccurrences f.callPositions)).map Interval.var).Sublist vs := by
    intro vs
    induction vs with
    | nil => simp
    | cons v vs ih =>
      cases hv : intervalOf f.allOccurrences f.callPositions v with
      | none => simpa [hv] using ih.cons v
      | some iv => simpa [hv, (intervalOf_eq_some hv).1] using ih
  have hperm : (f.intervals.map Interval.var).Perm
      ((f.vars.filterMap (intervalOf f.allOccurrences f.callPositions)).map Interval.var) :=
    (mergeSort_perm _ _).map _
  have hnodup := (hperm.map Var.id).nodup_iff.2 (h.nodup.sublist ((hsub f.vars).map Var.id))
  rwa [map_map] at hnodup

theorem intervals_sorted (f : Function) : f.intervals.Pairwise fun iv jv => iv.start ≤ jv.start := by
  refine (pairwise_mergeSort ?_ ?_ _).imp fun {iv jv} h => ?_
  · intro a b c
    simp only [Interval.before, Bool.or_eq_true, Bool.and_eq_true, decide_eq_true_eq, beq_iff_eq]
    grind
  · intro a b
    simp only [Interval.before, Bool.or_eq_true, Bool.and_eq_true, decide_eq_true_eq, beq_iff_eq]
    grind
  · simp only [Interval.before, Bool.or_eq_true, Bool.and_eq_true, decide_eq_true_eq, beq_iff_eq] at h
    omega

end IR.Function

namespace Allocation

variable {d : Descriptor} {f : Function} {iv jv : Interval}

theorem apart_of_reaches (h : f.WellFormed) {v w : VarId} (hne : v ≠ w) {pos : Int} (hv : f.Reaches v pos)
    (hw : f.Reaches w pos) : (assignment d f).Apart v w := by
  obtain ⟨iv, hiv, rfl, hi⟩ := hv
  obtain ⟨jv, hjv, rfl, hj⟩ := hw
  refine (Scan.run_sound h.intervals_nodup f.intervals_sorted).2 iv hiv jv hjv hne ?_
  simp only [Interval.overlaps, Bool.and_eq_true, decide_eq_true_eq]
  omega

theorem exists_loc?_of_mem (h : f.WellFormed) (hiv : iv ∈ f.intervals) :
    ∃ loc, (assignment d f).loc? iv.var.id = some loc ∧ ∀ r, loc = .reg r → r ∈ Scan.candidates d iv :=
  (Scan.run_sound h.intervals_nodup f.intervals_sorted).1 iv hiv

theorem mem_allocatable_of_mem_candidates {r : Reg} (hr : r ∈ Scan.candidates d iv) : r ∈ d.allocatable := by
  unfold Scan.candidates at hr
  split at hr
  · exact (mem_filter.1 hr).1
  · exact hr

theorem phis_pairwise_ne (h : f.WellFormed) {b : Block} (hb : b ∈ f.blocks) :
    b.phis.Pairwise fun p q => p.1.id ≠ q.1.id := by
  have hsub := b.map_fst_phis_sublist.trans (Function.WellFormed.dests_sublist_vars hb)
  have hnodup := h.nodup.sublist (hsub.map Var.id)
  rw [map_map] at hnodup
  exact pairwise_map.1 hnodup

theorem assignment_sound (h : f.WellFormed) : (assignment d f).Sound d f where
  placed := by
    intro v hv
    obtain ⟨iv, hiv, rfl⟩ := h.exists_interval hv
    obtain ⟨loc, hloc, -⟩ := exists_loc?_of_mem h hiv
    exact ⟨loc, hloc⟩
  allocatable := by
    intro v hv r hr
    obtain ⟨iv, hiv, rfl⟩ := h.exists_interval hv
    obtain ⟨loc, hloc, hcand⟩ := exists_loc?_of_mem h hiv
    exact mem_allocatable_of_mem_candidates (hcand r (Option.some.inj (hloc.symm.trans hr)))
  live := by
    intro b hb k v w hv hw hne
    obtain ⟨p, hp⟩ := IR.exists_placed hb
    obtain ⟨x, hx⟩ := IR.Function.exists_mark hp (Nat.le_succ_of_le hv.index_le)
    exact apart_of_reaches h hne (h.reaches_of_liveAt hp hv (.inl hx)) (h.reaches_of_liveAt hp hw (.inl hx))
  written := by
    intro b hb k i dest hi hdest v hv hne
    obtain ⟨p, hp⟩ := IR.exists_placed hb
    obtain ⟨x, hx⟩ := IR.Function.exists_mark hp (Nat.le_succ_of_le hv.index_le)
    exact apart_of_reaches h hne (h.reaches_of_liveAt hp hv (.inl hx)) (h.reaches_of_dest hp hi hdest hx)
  phiWritten := by
    intro b hb dest edges hphi v hv hne
    obtain ⟨p, hp⟩ := IR.exists_placed hb
    -- Behind the phis is still the position of the beginning of the block.
    have hmark : p.marks[b.phis.length]? = some p.start := by
      rw [(IR.mem_placed hp).2, IR.marks_phi b.length_phis.le]
      rfl
    exact apart_of_reaches h hne (h.reaches_of_liveAt hp hv (.inl hmark))
      (h.reaches_of_phi hp (takeWhile_subset _ (IR.Block.mem_phis.1 hphi)))
  paramWritten := by
    intro b hb u hu v hv hne
    obtain ⟨hb, hentry⟩ := h.block?_eq_some_iff.1 hb
    obtain ⟨p, hp⟩ := IR.exists_placed hb
    exact apart_of_reaches h hne (h.reaches_of_liveAt hp hv (.inl rfl)) (h.reaches_of_param hp hentry hu)
  phis := by
    intro b hb
    obtain ⟨p, hp⟩ := IR.exists_placed hb
    have hcode : ∀ phi ∈ b.phis, Instr.phi phi.1 phi.2 ∈ b.code := fun phi hphi =>
      takeWhile_subset _ (IR.Block.mem_phis.1 hphi)
    exact (phis_pairwise_ne h hb).imp_of_mem fun hx hy hne =>
      apart_of_reaches h hne (h.reaches_of_phi hp (hcode _ hx)) (h.reaches_of_phi hp (hcode _ hy))
  params := by
    obtain ⟨b, hb⟩ := Option.isSome_iff_exists.1 h.entry
    obtain ⟨hb, hentry⟩ := h.block?_eq_some_iff.1 hb
    obtain ⟨p, hp⟩ := IR.exists_placed hb
    have hnodup : f.params.Pairwise fun u v => u.id ≠ v.id :=
      pairwise_map.1 (h.nodup.sublist ((sublist_append_left _ _).map Var.id))
    exact hnodup.imp_of_mem fun hu hv hne =>
      apart_of_reaches h hne (h.reaches_of_param hp hentry hu) (h.reaches_of_param hp hentry hv)
  call := by
    intro b hb k dest callee args hi v hv hother
    obtain ⟨p, hp⟩ := IR.exists_placed hb
    obtain ⟨u, hu, rfl⟩ := h.mem_vars_of_liveAt hv hb
    obtain ⟨iv, hiv, rfl⟩ := h.exists_interval hu
    obtain ⟨loc, hloc, hcand⟩ := exists_loc?_of_mem (d := d) h hiv
    have hspan := h.spansCall_of_liveAt hp hi rfl hiv hv hother
    cases loc with
    | spilled => exact .inl hloc
    | reg r =>
      have hr := hcand r rfl
      rw [Scan.candidates, if_pos hspan, mem_filter] at hr
      exact .inr ⟨r, by simpa [Descriptor.isCalleeSaved] using hr.2, hloc⟩

theorem eq_assignment_of_ofFunction {a : Allocation} (h : ofFunction d f = .ok a) : a = assignment d f := by
  unfold ofFunction at h
  simp only at h
  split at h
  · cases h
  · exact (Except.ok.inj h).symm

/-- Every allocation that is made for a function that the check accepts loses no value. -/
theorem sound_of_ofFunction {a : Allocation} (hf : f.verify = .ok ()) (ha : ofFunction d f = .ok a) : a.Sound d f :=
  eq_assignment_of_ofFunction ha ▸ assignment_sound (Function.verify_eq_ok.1 hf)

/-- A machine with two registers for variables, one of which a function gives back as it found it. -/
def smallTarget : Descriptor :=
  { name := "small", allocatable := [⟨1⟩, ⟨2⟩], result := ⟨0⟩, scratch := [⟨13⟩, ⟨14⟩, ⟨15⟩], args := [⟨1⟩]
    calleeSaved := [⟨2⟩], forms := Width.all.map fun w => (w, Form.all), stackAlign := 16, slotAlign := 8
    maxFrame := 65536, stackArgSize := 8, growsDown := true }

/-- A loop around a call, with two variables that live over the call. -/
def countdown : Function :=
  let w := Width.w64
  { name := "countdown", params := [⟨0, w⟩], result := w, entry := 0, slots := []
    blocks := [
      ⟨0, "entry", [.jump 1]⟩,
      ⟨1, "loop", [
        .phi ⟨1, w⟩ [⟨0, some (.var ⟨0, w⟩)⟩, ⟨1, some (.var ⟨4, w⟩)⟩],
        .phi ⟨2, w⟩ [⟨0, some (.imm 0 w)⟩, ⟨1, some (.var ⟨3, w⟩)⟩],
        .call (some ⟨3, w⟩) "next" [some (.var ⟨2, w⟩)],
        .binop .sub ⟨4, w⟩ (some (.var ⟨1, w⟩)) (some (.imm 1 w)),
        .cmp .ne ⟨5, Width.w8⟩ (some (.var ⟨4, w⟩)) (some (.imm 0 w)),
        .branch (some (.var ⟨5, Width.w8⟩)) 1 2]⟩,
      ⟨2, "exit", [.ret (some (.var ⟨3, w⟩))]⟩] }

theorem sound_countdown :
    countdown.verify = .ok () ∧
      ∃ a, ofFunction smallTarget countdown = .ok a ∧ a.Sound smallTarget countdown := by
  have hmade : ofFunction smallTarget countdown = .ok (assignment smallTarget countdown) := by cbv
  exact ⟨rfl, _, hmade, sound_of_ofFunction rfl hmade⟩

end Allocation

end RegisterCompiler
