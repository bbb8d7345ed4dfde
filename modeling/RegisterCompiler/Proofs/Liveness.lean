import RegisterCompiler.Allocation.Liveness
import RegisterCompiler.Proofs.WellFormed

/-!
# Live variables

Liveness is a property of the paths that control can take: `Function.LiveAt` says that from a place in the code
some path gets to a use of a variable without a definition of it on the way. The analysis computes sets of
variables for whole blocks by iteration.
-/

namespace RegisterCompiler.IR

open List

variable {b : Block} {code : List Instr} {vs : List VarId} {live other : Liveness}
  {n : Nat} {v : VarId} {s t : VarSet}

/-- The variable `v` is live in the block `b` before the instruction of the index `k`: some path from there gets to
    a use of it without a definition of it on the way. The operand of a phi is used on the way from the end of a
    block into the block of the phi. -/
inductive Function.LiveAt (f : Function) (v : VarId) : Block → Nat → Prop where
  | read {b : Block} {k : Nat} {i : Instr} (instr : b.code[k]? = some i) (use : v ∈ i.usedVars.map Var.id) :
      f.LiveAt v b k
  | pass {b : Block} {k : Nat} {i : Instr} (instr : b.code[k]? = some i) (other : i.dest?.map Var.id ≠ some v)
      (later : f.LiveAt v b (k + 1)) : f.LiveAt v b k
  | phi {b c : Block} (leads : c.id ∈ b.successors) (block : f.block? c.id = some c) {dest u : Var}
      (move : ⟨dest, some (.var u)⟩ ∈ c.phiMoves b.id) (use : u.id = v) : f.LiveAt v b b.code.length
  | edge {b c : Block} (leads : c.id ∈ b.successors) (block : f.block? c.id = some c) (later : f.LiveAt v c 0) :
      f.LiveAt v b b.code.length

/-! ## Sets of variables -/

theorem VarSet.mem_ofVars {vs : List Var} : v ∈ VarSet.ofVars vs ↔ v ∈ vs.map Var.id := by
  simp [VarSet.ofVars, Std.ExtTreeSet.mem_ofList]

theorem mem_exposedUses {defined : VarSet} :
    v ∈ exposedUses defined code ↔ v ∈ exposedUses ∅ code ∧ v ∉ defined := by
  induction code generalizing defined with
  | nil => simp [exposedUses]
  | cons i rest ih =>
    rw [exposedUses, exposedUses]
    simp only [Std.ExtTreeSet.mem_union_iff, Std.ExtTreeSet.mem_diff_iff]
    rw [ih, @ih (∅ ∪ VarSet.ofVars i.dest?.toList)]
    simp only [Std.ExtTreeSet.mem_union_iff, Std.ExtTreeSet.not_mem_empty]
    grind

theorem mem_exposedUses_cons {i : Instr} :
    v ∈ exposedUses ∅ (i :: code) ↔
      v ∈ i.usedVars.map Var.id ∨ v ∈ exposedUses ∅ code ∧ i.dest?.map Var.id ≠ some v := by
  rw [exposedUses, Std.ExtTreeSet.mem_union_iff, mem_exposedUses]
  simp [VarSet.mem_ofVars, Std.ExtTreeSet.mem_union_iff, Std.ExtTreeSet.mem_diff_iff]

theorem Block.mem_phiUses {p : BlockId} :
    v ∈ b.phiUses p ↔ ∃ dest u, ⟨dest, some (.var u)⟩ ∈ b.phiMoves p ∧ u.id = v := by
  simp only [Block.phiUses, VarSet.mem_ofVars, mem_map, mem_filterMap]
  constructor
  · rintro ⟨u, ⟨⟨dest, source⟩, hm, hu⟩, rfl⟩
    split at hu
    · next h => cases h; cases hu; exact ⟨dest, u, hm, rfl⟩
    · cases hu
  · rintro ⟨dest, u, hm, rfl⟩
    exact ⟨u, ⟨_, hm, rfl⟩, rfl⟩

theorem Function.mem_liveAfter {f : Function} {ins : List VarSet} :
    v ∈ f.liveAfter ins b ↔
      ∃ s ∈ b.successors, v ∈ setAt ins s ∨ ∃ c, f.block? s = some c ∧ v ∈ c.phiUses b.id := by
  have hstep : ∀ s : BlockId, (v ∈ ((f.block? s).map fun c => c.phiUses b.id).getD ∅) ↔
      ∃ c, f.block? s = some c ∧ v ∈ c.phiUses b.id := by
    intro s
    cases f.block? s <;> simp
  have hfold : ∀ (succs : List BlockId) (out : VarSet), v ∈ succs.foldl (fun out s =>
      out ∪ (setAt ins s ∪ (((f.block? s).map fun c => c.phiUses b.id).getD ∅))) out ↔
        v ∈ out ∨ ∃ s ∈ succs, v ∈ setAt ins s ∨ ∃ c, f.block? s = some c ∧ v ∈ c.phiUses b.id := by
    intro succs
    induction succs with
    | nil => simp
    | cons s rest ih => intro out; simp only [foldl_cons, ih, Std.ExtTreeSet.mem_union_iff, hstep]; grind
  simp [Function.liveAfter, hfold]

theorem Function.mem_liveBefore {f : Function} {out : VarSet} :
    v ∈ f.liveBefore out b ↔ v ∉ f.entered b ∧
      (v ∈ exposedUses ∅ b.code ∨ v ∈ out ∧ v ∉ (b.code.filterMap Instr.dest?).map Var.id) := by
  simp only [Function.liveBefore, Function.exposed, Function.defs, Std.ExtTreeSet.mem_union_iff,
    Std.ExtTreeSet.mem_diff_iff, VarSet.mem_ofVars]
  rw [mem_exposedUses]
  grind

/-! ## The iteration -/

theorem forall_mem_setAt {sets : List VarSet} {p : VarId → Prop} (h : ∀ s ∈ sets, ∀ v ∈ s, p v) (id : BlockId) :
    ∀ v ∈ setAt sets id, p v := by
  intro v hv
  unfold setAt at hv
  split at hv
  · simp at hv
  · rw [getD_eq_getElem?_getD] at hv
    cases hget : sets[id.toNat]? with
    | none => simp [hget] at hv
    | some s => exact h s (mem_of_getElem? hget) v (by simpa [hget] using hv)

/-- Every set of an assignment is part of the set of the same block in another. -/
def Below (sets others : List VarSet) : Prop := List.Forall₂ (fun s t => ∀ v ∈ s, v ∈ t) sets others

section

variable {sets others : List VarSet}

theorem Below.setAt (h : Below sets others) (id : BlockId) (hv : v ∈ setAt sets id) : v ∈ setAt others id := by
  have hgetD : ∀ k : Nat, v ∈ sets.getD k ∅ → v ∈ others.getD k ∅ := by
    clear hv
    induction h with
    | nil => simp
    | cons hst _ ih =>
      rintro (_ | k)
      · simpa using hst v
      · simpa using ih k
  unfold IR.setAt at hv ⊢
  split at hv
  · simp at hv
  · next hneg => rw [if_neg hneg]; exact hgetD _ hv

theorem Below.set (h : Below sets others) (hst : ∀ v ∈ s, v ∈ t) (k : Nat) : Below (sets.set k s) (others.set k t) := by
  induction h generalizing k with
  | nil => exact .nil
  | cons hfirst hrest ih =>
    cases k with
    | zero => exact .cons hst hrest
    | succ k => exact .cons hfirst (ih k)

/-- Every set is part of the same set in another assignment. -/
structure Liveness.Below (live other : Liveness) : Prop where
  ins : IR.Below live.ins other.ins
  outs : IR.Below live.outs other.outs

/-- The number of pairs of a block and one of the variables `vs` in its set. -/
def rank (vs : List VarId) (sets : List VarSet) : Nat := (sets.map fun s => vs.countP s.contains).sum

theorem rank_le (vs : List VarId) (sets : List VarSet) : rank vs sets ≤ sets.length * vs.length := by
  induction sets with
  | nil => simp [rank]
  | cons s rest ih =>
    have hs : vs.countP s.contains ≤ vs.length := countP_le_length
    simp only [rank, map_cons, sum_cons, length_cons, Nat.succ_mul] at ih ⊢
    omega

theorem countP_lt_countP (hst : ∀ v ∈ s, v ∈ t) (hv : v ∈ vs) (hs : v ∉ s) (ht : v ∈ t) :
    vs.countP s.contains < vs.countP t.contains := by
  obtain ⟨left, right, rfl⟩ := append_of_mem hv
  have hmono : ∀ l : List VarId, l.countP s.contains ≤ l.countP t.contains :=
    fun l => countP_mono_left fun u _ hu => hst u hu
  have hleft := hmono left
  have hright := hmono right
  have hs' : s.contains v = false := Bool.eq_false_iff.2 hs
  have ht' : t.contains v = true := ht
  rw [countP_append, countP_append, countP_cons, countP_cons, hs', ht']
  simp only [Bool.false_eq_true, if_false, if_true]
  omega

theorem Below.rank_lt (h : Below sets others) (hne : sets ≠ others) (hvs : ∀ t ∈ others, ∀ v ∈ t, v ∈ vs) :
    rank vs sets < rank vs others := by
  induction h with
  | nil => exact absurd rfl hne
  | @cons s t rest rest' hst hrest ih =>
    simp only [rank, map_cons, sum_cons] at ih ⊢
    have hle : vs.countP s.contains ≤ vs.countP t.contains := countP_mono_left fun u _ hu => hst u hu
    have hvs' : ∀ t ∈ rest', ∀ v ∈ t, v ∈ vs := fun t ht => hvs t (mem_cons_of_mem _ ht)
    by_cases hrests : rest = rest'
    · -- The rest stays as it is, so the first set grows.
      subst hrests
      have hgrows : ∃ v ∈ t, v ∉ s := by
        by_contra hnone
        push Not at hnone
        exact hne (by rw [Std.ExtTreeSet.ext_mem fun v => ⟨hst v, hnone v⟩])
      obtain ⟨v, hvt, hvs''⟩ := hgrows
      have := countP_lt_countP hst (hvs t mem_cons_self v hvt) hvs'' hvt
      omega
    · have := ih hrests hvs'
      omega

theorem Below.rank_le (h : Below sets others) (hvs : ∀ t ∈ others, ∀ v ∈ t, v ∈ vs) :
    rank vs sets ≤ rank vs others := by
  by_cases hne : sets = others
  · rw [hne]
  · exact (h.rank_lt hne hvs).le

end

/-- The number of pairs of a set and one of the variables `vs` in it. -/
def Liveness.rank (vs : List VarId) (live : Liveness) : Nat := IR.rank vs live.ins + IR.rank vs live.outs

/-- There is a set for each of `n` blocks at its beginning and at its end, with variables of `vs`. -/
structure Liveness.Within (n : Nat) (vs : List VarId) (live : Liveness) : Prop where
  length_ins : live.ins.length = n
  length_outs : live.outs.length = n
  ins : ∀ s ∈ live.ins, ∀ v ∈ s, v ∈ vs
  outs : ∀ s ∈ live.outs, ∀ v ∈ s, v ∈ vs

theorem Liveness.Within.rank_le {live : Liveness} (h : live.Within n vs) : live.rank vs ≤ 2 * (n * vs.length) := by
  have hins := IR.rank_le vs live.ins
  have houts := IR.rank_le vs live.outs
  rw [h.length_ins] at hins
  rw [h.length_outs] at houts
  unfold Liveness.rank
  omega

theorem Liveness.Below.rank_lt (h : live.Below other) (hne : live ≠ other) (hvs : other.Within n vs) :
    live.rank vs < other.rank vs := by
  unfold Liveness.rank
  by_cases hins : live.ins = other.ins
  · have houts : live.outs ≠ other.outs := fun houts => hne (Liveness.ext hins houts)
    have := h.outs.rank_lt houts hvs.outs
    rw [hins]
    omega
  · have := h.ins.rank_lt hins hvs.ins
    have := h.outs.rank_le hvs.outs
    omega

/-- The two sets of the block of an index. -/
def Liveness.sets (live : Liveness) (k : Nat) : Option VarSet × Option VarSet := (live.ins[k]?, live.outs[k]?)

theorem Liveness.eq_of_sets (h : ∀ k, live.sets k = other.sets k) : live = other := by
  refine Liveness.ext ?_ ?_
  · exact ext_getElem? fun k => congrArg Prod.fst (h k)
  · exact ext_getElem? fun k => congrArg Prod.snd (h k)

theorem stabilize_succ (step : Liveness → Liveness) (fuel : Nat) (live : Liveness) [Decidable (step live = live)] :
    stabilize step (fuel + 1) live = if step live = live then live else stabilize step fuel (step live) := by
  simp only [stabilize, Liveness.ext_iff]

/-- An iteration that goes up in rank, but not beyond a bound, comes to a fixed point. -/
theorem stabilize_fixed {step : Liveness → Liveness} (holds : Liveness → Prop) (rank : Liveness → Nat) (bound : Nat)
    (hstep : ∀ live, holds live → holds (step live)) (hbound : ∀ live, holds live → rank live ≤ bound)
    (hrank : ∀ live, holds live → step live ≠ live → rank live < rank (step live)) {fuel : Nat} {live : Liveness}
    (hlive : holds live) (hfuel : bound < rank live + fuel) :
    step (stabilize step fuel live) = stabilize step fuel live := by
  induction fuel generalizing live with
  | zero => exact absurd (hbound live hlive) (by omega)
  | succ fuel ih =>
    classical
    rw [stabilize_succ]
    by_cases hfix : step live = live
    · rwa [if_pos hfix]
    · rw [if_neg hfix]
      have := hrank live hlive hfix
      exact ih (hstep live hlive) (by omega)

namespace Function

variable {f : Function} {i : Instr} {bs : List Block} {rest : List Instr} {k : Nat}

theorem exists_of_mem_exposedUses {code : List Instr} (hv : v ∈ exposedUses ∅ code) :
    ∃ i ∈ code, v ∈ i.usedVars.map Var.id := by
  induction code with
  | nil => simp [exposedUses] at hv
  | cons i rest ih =>
    rcases mem_exposedUses_cons.1 hv with hi | hrest
    · exact ⟨i, mem_cons_self, hi⟩
    · obtain ⟨j, hj, hvj⟩ := ih hrest.1
      exact ⟨j, mem_cons_of_mem i hj, hvj⟩

theorem liveAfter_mono {sets others : List VarSet} (h : Below sets others) (hv : v ∈ f.liveAfter sets b) :
    v ∈ f.liveAfter others b := by
  rw [mem_liveAfter] at hv ⊢
  obtain ⟨s, hs, hset | hphi⟩ := hv
  · exact ⟨s, hs, .inl (h.setAt s hset)⟩
  · exact ⟨s, hs, .inr hphi⟩

theorem liveBefore_mono {out out' : VarSet} (h : ∀ v ∈ out, v ∈ out') (hv : v ∈ f.liveBefore out b) :
    v ∈ f.liveBefore out' b := by
  rw [mem_liveBefore] at hv ⊢
  exact ⟨hv.1, hv.2.imp_right (And.imp_left (h v))⟩

theorem renew_mono {live other : Liveness} (h : live.Below other) (b : Block) :
    (f.renew b live).Below (f.renew b other) where
  ins := h.ins.set (fun _ => liveBefore_mono fun _ => liveAfter_mono h.ins) _
  outs := h.outs.set (fun _ => liveAfter_mono h.ins) _

theorem sweep_mono {live other : Liveness} (h : live.Below other) : (f.sweep live).Below (f.sweep other) := by
  unfold sweep
  induction f.blocks with
  | nil => exact h
  | cons b rest ih => exact renew_mono ih b

theorem WellFormed.within_renew (h : f.WellFormed) (hlive : live.Within n (f.vars.map Var.id)) (hb : b ∈ f.blocks) :
    (f.renew b live).Within n (f.vars.map Var.id) := by
  have hafter : ∀ v ∈ f.liveAfter live.ins b, v ∈ f.vars.map Var.id := by
    intro v hv
    obtain ⟨s, -, hset | ⟨c, hc, hphi⟩⟩ := mem_liveAfter.1 hv
    · exact forall_mem_setAt hlive.ins s v hset
    · obtain ⟨dest, u, hmove, rfl⟩ := Block.mem_phiUses.1 hphi
      exact mem_map_of_mem (h.readable_phiMove (h.block?_eq_some_iff.1 hc).1 hmove)
  have hbefore : ∀ v ∈ f.liveBefore (f.liveAfter live.ins b) b, v ∈ f.vars.map Var.id := by
    intro v hv
    rcases (mem_liveBefore.1 hv).2 with huse | hout
    · obtain ⟨i, hi, hvi⟩ := exists_of_mem_exposedUses huse
      obtain ⟨u, hu, rfl⟩ := mem_map.1 hvi
      exact mem_map_of_mem (h.mem_vars_of_use hb hi hu)
    · exact hafter v hout.1
  refine ⟨(length_set ..).trans hlive.length_ins, (length_set ..).trans hlive.length_outs, fun s hs => ?_, fun s hs => ?_⟩
  · rcases mem_or_eq_of_mem_set hs with hs | rfl
    · exact hlive.ins s hs
    · exact hbefore
  · rcases mem_or_eq_of_mem_set hs with hs | rfl
    · exact hlive.outs s hs
    · exact hafter

/-- What every computation of the sets of a block keeps up holds after the sweep. -/
theorem sweep_induction (holds : Liveness → Prop) (hrenew : ∀ b ∈ f.blocks, ∀ live, holds live → holds (f.renew b live))
    (hlive : holds live) : holds (f.sweep live) :=
  List.foldrRecOn f.blocks f.renew hlive fun live hlive b hb => hrenew b hb live hlive

theorem liveness_induction (holds : Liveness → Prop) (hunswept : holds f.unswept)
    (hsweep : ∀ live, holds live → holds (f.sweep live)) : holds f.liveness := by
  have hall : ∀ fuel live, holds live → holds (stabilize f.sweep fuel live) := by
    intro fuel
    induction fuel with
    | zero => exact fun live => id
    | succ fuel ih =>
      intro live hlive
      classical
      rw [stabilize_succ]
      split
      · exact hlive
      · exact ih _ (hsweep live hlive)
  exact hall _ _ hunswept

theorem within_unswept (f : Function) (vs : List VarId) : f.unswept.Within f.blocks.length vs := by
  constructor <;> simp [unswept]

theorem WellFormed.within_sweep (h : f.WellFormed) (hlive : live.Within n (f.vars.map Var.id)) :
    (f.sweep live).Within n (f.vars.map Var.id) :=
  sweep_induction (Liveness.Within n (f.vars.map Var.id)) (fun _ hb _ hlive => h.within_renew hlive hb) hlive

theorem WellFormed.within_liveness (h : f.WellFormed) : f.liveness.Within f.blocks.length (f.vars.map Var.id) :=
  liveness_induction (Liveness.Within _ _) (f.within_unswept _) fun _ => h.within_sweep

theorem unswept_below {vs : List VarId} (h : live.Within f.blocks.length vs) : f.unswept.Below live := by
  have hempty : ∀ sets : List VarSet, sets.length = f.blocks.length → IR.Below (f.blocks.map fun _ => ∅) sets := by
    intro sets hlength
    refine forall₂_iff_get.2 ⟨by rw [length_map, hlength], fun k _ _ v hv => ?_⟩
    simp at hv
  exact ⟨hempty _ h.length_ins, hempty _ h.length_outs⟩

/-- The sweeps come to an end: one more changes nothing. -/
theorem WellFormed.sweep_liveness (h : f.WellFormed) : f.sweep f.liveness = f.liveness := by
  have hunswept := f.within_unswept (f.vars.map Var.id)
  refine stabilize_fixed (fun live => live.Below (f.sweep live) ∧ live.Within f.blocks.length (f.vars.map Var.id))
    (Liveness.rank (f.vars.map Var.id)) (2 * (f.blocks.length * f.vars.length))
    (fun live hlive => ⟨sweep_mono hlive.1, h.within_sweep hlive.2⟩) (fun live hlive => ?_)
    (fun live hlive hne => hlive.1.rank_lt (Ne.symm hne) (h.within_sweep hlive.2))
    ⟨unswept_below (h.within_sweep hunswept), hunswept⟩ (by omega)
  have := hlive.2.rank_le
  rwa [length_map] at this

/-! ## The sets of a block -/

theorem sets_renew_of_ne (hk : b.id.toNat ≠ k) : (f.renew b live).sets k = live.sets k := by
  simp [renew, Liveness.sets, getElem?_set_ne hk]

theorem sets_foldr_renew (hk : ∀ b ∈ bs, b.id.toNat ≠ k) : (bs.foldr f.renew live).sets k = live.sets k := by
  induction bs with
  | nil => rfl
  | cons b rest ih =>
    obtain ⟨hb, hrest⟩ := forall_mem_cons.1 hk
    exact (sets_renew_of_ne hb).trans (ih hrest)

/-- If blocks are taken one by one and nothing is different in the end, nothing was different on the way. -/
theorem renew_eq_of_foldr_renew_eq (hnodup : (bs.map (·.id.toNat)).Nodup) (h : bs.foldr f.renew live = live) :
    ∀ b ∈ bs, f.renew b live = live := by
  induction bs with
  | nil => exact forall_mem_nil _
  | cons b rest ih =>
    obtain ⟨hb, hnodup⟩ := nodup_cons.1 hnodup
    rw [foldr_cons] at h
    -- The last block changes its own sets only, and the blocks before it leave these alone.
    have hrest : rest.foldr f.renew live = live := by
      refine Liveness.eq_of_sets fun k => ?_
      by_cases hk : b.id.toNat = k
      · exact sets_foldr_renew fun c hc hck => hb (mem_map.2 ⟨c, hc, hck.trans hk.symm⟩)
      · rw [← sets_renew_of_ne hk, h]
    rw [hrest] at h
    exact forall_mem_cons.2 ⟨h, ih hnodup hrest⟩

theorem WellFormed.ids_nodup (h : f.WellFormed) : (f.blocks.map (·.id.toNat)).Nodup := by
  have hids : f.blocks.map (·.id.toNat) = List.range f.blocks.length := by
    refine ext_getElem (by simp) fun k hk _ => ?_
    rw [getElem_map, getElem_range, h.block k _ (getElem?_eq_getElem (by simpa using hk)), Int.toNat_natCast]
  exact hids ▸ nodup_range

/-- In the end the sets of every block follow from those of the blocks after it. -/
theorem WellFormed.renew_liveness (h : f.WellFormed) : ∀ b ∈ f.blocks, f.renew b f.liveness = f.liveness :=
  renew_eq_of_foldr_renew_eq h.ids_nodup h.sweep_liveness

/-- The set of a block, at its beginning or its end, when it is computed anew and stays as it was. -/
theorem WellFormed.setAt_of_set_eq (h : f.WellFormed) (hb : b ∈ f.blocks) {sets : List VarSet} {s : VarSet}
    (hlength : sets.length = f.blocks.length) (hset : sets.set b.id.toNat s = sets) : setAt sets b.id = s := by
  obtain ⟨k, hk⟩ := getElem?_of_mem hb
  have hlt : k < sets.length := hlength ▸ (List.getElem?_eq_some_iff.1 hk).1
  rw [h.block k b hk, Int.toNat_natCast] at hset
  rw [h.block k b hk, setAt, if_neg (Int.not_lt.2 (Int.natCast_nonneg k)), Int.toNat_natCast, ← hset,
    getD_eq_getElem?_getD, getElem?_set_self hlt, Option.getD_some]

theorem WellFormed.setAt_liveIn (h : f.WellFormed) (hb : b ∈ f.blocks) :
    setAt f.liveIn b.id = f.liveBefore (f.liveAfter f.liveIn b) b :=
  h.setAt_of_set_eq hb h.within_liveness.length_ins (congrArg Liveness.ins (h.renew_liveness b hb))

theorem WellFormed.setAt_liveOut (h : f.WellFormed) (hb : b ∈ f.blocks) :
    setAt f.liveOut b.id = f.liveAfter f.liveIn b :=
  h.setAt_of_set_eq hb h.within_liveness.length_outs (congrArg Liveness.outs (h.renew_liveness b hb))

/-! ## Paths -/

/-- What is live before a rest of a block is used there, or live after the block and not defined there. -/
def LiveFrom (f : Function) (v : VarId) (b : Block) (rest : List Instr) : Prop :=
  v ∈ exposedUses ∅ rest ∨ v ∉ (rest.filterMap Instr.dest?).map Var.id ∧ v ∈ f.liveAfter f.liveIn b

theorem mem_dests_cons :
    v ∈ ((i :: rest).filterMap Instr.dest?).map Var.id ↔
      i.dest?.map Var.id = some v ∨ v ∈ (rest.filterMap Instr.dest?).map Var.id := by
  cases h : i.dest? <;> simp [h, eq_comm]

theorem liveFrom_cons :
    f.LiveFrom v b (i :: rest) ↔
      v ∈ i.usedVars.map Var.id ∨ i.dest?.map Var.id ≠ some v ∧ f.LiveFrom v b rest := by
  rw [LiveFrom, LiveFrom, mem_exposedUses_cons, mem_dests_cons]
  tauto

theorem WellFormed.id_ne_entry (h : f.WellFormed) {b c : Block} (hb : b ∈ f.blocks) (hc : c ∈ f.blocks)
    (hleads : c.id ∈ b.successors) : c.id ≠ f.entry := by
  intro hentry
  have hmem : b.id ∈ f.predecessors c.id := mem_predecessors_iff.2 ⟨b, hb, hleads, rfl⟩
  simp [(h.entered c hc).2 hentry] at hmem

theorem LiveFrom.mem_setAt (h : f.WellFormed) (hb : b ∈ f.blocks) (hentry : b.id ≠ f.entry)
    (hlive : f.LiveFrom v b b.code) : v ∈ setAt f.liveIn b.id := by
  rw [h.setAt_liveIn hb, mem_liveBefore, entered, if_neg hentry]
  exact ⟨by simp, hlive.imp_right And.symm⟩

/-- The fixed point takes in all that is live along a path. -/
theorem LiveAt.liveFrom (h : f.WellFormed) (hlive : f.LiveAt v b k) (hb : b ∈ f.blocks) :
    f.LiveFrom v b (b.code.drop k) := by
  induction hlive with
  | read hi huse =>
    rw [drop_eq_getElem?_toList_append, hi]
    exact liveFrom_cons.2 (.inl huse)
  | pass hi hother _ ih =>
    rw [drop_eq_getElem?_toList_append, hi]
    exact liveFrom_cons.2 (.inr ⟨hother, ih hb⟩)
  | @phi b c hleads hc dest u hmove huse =>
    rw [drop_length]
    refine .inr ⟨by simp, mem_liveAfter.2 ⟨c.id, hleads, .inr ⟨c, hc, Block.mem_phiUses.2 ⟨dest, u, hmove, huse⟩⟩⟩⟩
  | @edge b c hleads hc _ ih =>
    have hmem := (h.block?_eq_some_iff.1 hc).1
    have hset := (ih hmem).mem_setAt h hmem (h.id_ne_entry hb hmem hleads)
    rw [drop_length]
    exact .inr ⟨by simp, mem_liveAfter.2 ⟨c.id, hleads, .inl hset⟩⟩

end Function

end RegisterCompiler.IR
