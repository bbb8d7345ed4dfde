import RegisterCompiler.Proofs.Homes

/-!
# Frames in the memory

The offsets of a frame are computed in words. Those of a frame that is too large can wrap around, and then its areas are
anywhere (`Layout.LiesIn` says where). Still two variables never share a byte of their areas if these lie in the memory:
an area is placed a few bytes below the one before it, and a memory is too small for the word between them to wrap around.
-/

namespace RegisterCompiler

open List
open IR (Function Var)

variable {d : Descriptor} {f : Function} {a : Allocation} {l : Layout} {base : Int}

namespace Allocation

theorem mem_vars_of_mem_spilled {v : IR.Var} (hv : v ∈ (assignment d f).spilled) : v ∈ f.vars := by
  obtain ⟨iv, hiv, rfl⟩ := mem_map.1 (mem_filter.1 (mem_mergeSort.1 hv)).1
  obtain ⟨u, hu, hof⟩ := IR.Function.mem_intervals.1 hiv
  rwa [(IR.intervalOf_eq_some hof).1]

theorem nodup_eraseDups (l : List Reg) : l.eraseDups.Nodup := by
  induction h : l.length using Nat.strongRecOn generalizing l with
  | ind n ih =>
  cases l with
  | nil => exact .nil
  | cons r l =>
    rw [eraseDups_cons]
    refine nodup_cons.2 ⟨fun hmem => ?_, ih _ ?_ _ rfl⟩
    · simpa using (mem_filter.1 (mem_eraseDups.1 hmem)).2
    · rw [← h, length_cons]
      exact Nat.lt_succ_of_le (length_filter_le _ _)

theorem nodup_saved : (assignment d f).saved.Nodup :=
  ((mergeSort_perm _ _).nodup_iff.2 (nodup_eraseDups _)).filter _

theorem mem_saved_iff (hf : f.WellFormed) {r : Reg} :
    r ∈ (assignment d f).saved ↔ r ∈ d.calleeSaved ∧ ∃ v ∈ f.vars, (assignment d f).loc? v.id = some (.reg r) := by
  -- Registers are collected from the intervals; every variable has one.
  have hused : r ∈ (assignment d f).used ↔ ∃ iv ∈ f.intervals, (assignment d f).loc? iv.var.id = some (.reg r) := by
    refine mem_mergeSort.trans (mem_eraseDups.trans (mem_filterMap.trans ?_))
    refine exists_congr fun iv => and_congr_right fun _ => ?_
    have hloc : (assignment d f).loc? iv.var.id = (Scan.run d f.intervals).lookup iv.var.id := rfl
    rw [hloc]
    rcases (Scan.run d f.intervals).lookup iv.var.id with _ | (q | _) <;> simp
  have hsaved : r ∈ (assignment d f).saved ↔ r ∈ (assignment d f).used ∧ d.isCalleeSaved r := mem_filter
  rw [hsaved, hused, Descriptor.isCalleeSaved, contains_iff_mem, and_comm]
  refine and_congr_right fun _ => ⟨?_, ?_⟩
  · rintro ⟨iv, hiv, hloc⟩
    obtain ⟨u, hu, hof⟩ := IR.Function.mem_intervals.1 hiv
    exact ⟨u, hu, (IR.intervalOf_eq_some hof).1 ▸ hloc⟩
  · rintro ⟨v, hv, hloc⟩
    obtain ⟨iv, hiv, rfl⟩ := hf.exists_interval hv
    exact ⟨iv, hiv, hloc⟩

end Allocation

namespace Layout

/-- The areas of the frame at `base` lie between two addresses. -/
def LiesIn (l : Layout) (base low high : Int) : Prop :=
  ∀ u offset, l.At u offset → low ≤ base + offset.toInt ∧ base + offset.toInt + u.extent ≤ high

theorem liesIn_iff {low high : Int} : l.LiesIn base low high ↔
    ∀ a ∈ l.areas, low ≤ base + a.offset.toInt ∧ base + a.offset.toInt + a.use.extent ≤ high := by
  refine ⟨fun h a ha => h a.use a.offset ⟨a, ha, rfl, rfl⟩, ?_⟩
  rintro h _ _ ⟨a, ha, rfl, rfl⟩
  exact h a ha

instance {low high : Int} : Decidable (l.LiesIn base low high) := decidable_of_iff _ liesIn_iff.symm

theorem LiesIn.mono {low high low' high' : Int} (h : l.LiesIn base low high) (hlow : low' ≤ low) (hhigh : high ≤ high') :
    l.LiesIn base low' high' := by
  intro u offset hat
  obtain ⟨hle, hge⟩ := h u offset hat
  exact ⟨by omega, by omega⟩

/-! ## Areas of variables -/

/-- Rounding up adds less than twice the alignment, around the end of the words if it must. -/
theorem toInt_alignUp_eq_bmod {align : Int64} {k : Nat} (halign : align.toInt = k) (hk : 0 < k) (n : Int64) :
    ∃ m : Int, 0 ≤ m ∧ m < 2 * k ∧ (alignUp n align).toInt = (n.toInt + m).bmod (2 ^ 64) := by
  have hne : align ≠ 0 := by
    rintro rfl
    have : (0 : Int64).toInt = 0 := rfl
    omega
  have hone : (1 : Int64).toInt = 1 := rfl
  have hlow := Int.lt_tmod_of_pos (n + align - 1).toInt (by omega : (0 : Int) < k)
  have hhigh := Int.tmod_lt_of_pos (n + align - 1).toInt (by omega : (0 : Int) < k)
  refine ⟨k - 1 - (n + align - 1).toInt.tmod k, by omega, by omega, ?_⟩
  rw [alignUp, if_neg hne, Int64.toInt_mul, Int64.toInt_div, halign, Int.bmod_mul_bmod, Int.tdiv_mul_self]
  generalize (n + align - 1).toInt.tmod k = t
  rw [Int64.toInt_sub, Int64.toInt_add, hone, halign, Int.bmod_sub_bmod, Int.sub_sub, Int.bmod_sub_bmod]
  congr 1
  omega

/-- An area that is placed below a depth, if both lie in the memory, ends above it. -/
theorem toInt_bottom_le {w : Width} (hw : w.isValid) {depth : Int64} (hlow : 0 ≤ base + (-depth).toInt)
    (hhigh : base + (-depth).toInt < 2 ^ 63)
    (hhigh' : base + (-(alignUp (depth + w.bytes) w.bytes)).toInt + w.size < 2 ^ 63) :
    (-(alignUp (depth + w.bytes) w.bytes)).toInt + w.size ≤ (-depth).toInt := by
  have hsize := Width.size_of_isValid hw
  have hbytes := w.toInt_bytes
  obtain ⟨m, hm, hlt, heq⟩ := toInt_alignUp_eq_bmod hbytes hsize.2.1 (depth + w.bytes)
  rw [Int64.toInt_add, hbytes, Int.bmod_add_bmod] at heq
  rw [Int64.toInt_neg, heq, Int.bmod_def, Int.bmod_def] at hhigh' ⊢
  rw [Int64.toInt_neg, Int.bmod_def] at hlow hhigh ⊢
  omega

section

variable {vars : List Var} {depth : Int64}

theorem place_spill (v : Var) :
    (place depth ((v :: vars).map .spill)).1 =
      ⟨.spill v, -(alignUp (depth + v.width.bytes) v.width.bytes), v.width.bytes, v.width.bytes⟩ ::
        (place (alignUp (depth + v.width.bytes) v.width.bytes) (vars.map .spill)).1 := rfl

theorem place_below (hvars : ∀ v ∈ vars, v.width.isValid) (hlow : 0 ≤ base + (-depth).toInt)
    (hhigh : base + (-depth).toInt < 2 ^ 63) (hlies : ∀ a ∈ (place depth (vars.map .spill)).1,
      0 ≤ base + a.offset.toInt ∧ base + a.offset.toInt + a.use.extent < 2 ^ 63) :
    ∀ a ∈ (place depth (vars.map .spill)).1, a.offset.toInt + a.use.extent ≤ (-depth).toInt := by
  induction vars generalizing depth with
  | nil => exact forall_mem_nil _
  | cons v vars ih =>
    obtain ⟨hv, hvars'⟩ := forall_mem_cons.1 hvars
    rw [place_spill] at hlies ⊢
    obtain ⟨⟨hlow', hhigh'⟩, hlies'⟩ := forall_mem_cons.1 hlies
    simp only [AreaUse.extent] at hlow' hhigh'
    have hbottom := toInt_bottom_le hv hlow hhigh hhigh'
    refine forall_mem_cons.2 ⟨hbottom, fun a ha => ?_⟩
    exact (ih hvars' hlow' (by omega) hlies' a ha).trans (by omega)

theorem pairwise_place (hvars : ∀ v ∈ vars, v.width.isValid) (hlies : ∀ a ∈ (place depth (vars.map .spill)).1,
      0 ≤ base + a.offset.toInt ∧ base + a.offset.toInt + a.use.extent < 2 ^ 63) :
    (place depth (vars.map .spill)).1.Pairwise fun a b : Area => b.offset.toInt + b.use.extent ≤ a.offset.toInt := by
  induction vars generalizing depth with
  | nil => exact .nil
  | cons v vars ih =>
    obtain ⟨-, hvars'⟩ := forall_mem_cons.1 hvars
    rw [place_spill] at hlies ⊢
    obtain ⟨⟨hlow, hhigh⟩, hlies'⟩ := forall_mem_cons.1 hlies
    simp only [AreaUse.extent] at hlow hhigh
    exact pairwise_cons.2 ⟨place_below hvars' hlow (by omega) hlies', ih hvars' hlies'⟩

theorem place_append (depth : Int64) (xs ys : List AreaRequest) :
    (place depth (xs ++ ys)).1 = (place depth xs).1 ++ (place (place depth xs).2 ys).1 := by
  induction xs generalizing depth with
  | nil => rfl
  | cons r xs ih => exact congrArg (_ :: ·) (ih _)

end

theorem disjoint_spills {spilled : List Var} {saved : List Reg} (h : ofFunction d f spilled saved = .ok l) (base : Int)
    (hwidths : ∀ v ∈ spilled, v.width.isValid) (hlies : ∀ v offset, l.At (.spill v) offset →
      0 ≤ base + offset.toInt ∧ base + offset.toInt + v.width.size < 2 ^ 63)
    {u v : Var} {x y : Int64} (hu : l.At (.spill u) x) (hv : l.At (.spill v) y) (hne : u ≠ v) :
    x.toInt + u.width.size ≤ y.toInt ∨ y.toInt + v.width.size ≤ x.toInt := by
  set others := saved.map AreaRequest.save ++ f.slots.map (AreaRequest.slot d) with hothers
  set last := (place (place 0 others).2 (spilled.map .spill)).1 with hlast
  have hareas : l.areas = (place 0 others).1 ++ last := by
    unfold ofFunction at h
    dsimp only at h
    split at h
    · cases h
    · cases h
      exact place_append 0 others _
  -- The areas before the last ones are no areas of variables.
  have hmem : ∀ w z, l.At (.spill w) z → ∃ a ∈ last, a.use = .spill w ∧ a.offset = z := by
    rintro w z ⟨a, ha, huse, hoffset⟩
    rcases mem_append.1 (hareas ▸ ha) with ha | ha
    · have huse : AreaUse.spill w ∈ others.map AreaRequest.use := by
        rw [← map_use_place 0, ← huse]
        exact mem_map_of_mem ha
      simp [hothers, AreaRequest.save, AreaRequest.slot] at huse
    · exact ⟨a, ha, huse, hoffset⟩
  have hin : ∀ a ∈ last, 0 ≤ base + a.offset.toInt ∧ base + a.offset.toInt + a.use.extent < 2 ^ 63 := by
    intro a ha
    have huse : a.use ∈ (spilled.map AreaRequest.spill).map AreaRequest.use := by
      rw [← map_use_place (place 0 others).2]
      exact mem_map_of_mem ha
    obtain ⟨r, hr, huse⟩ := mem_map.1 huse
    obtain ⟨w, -, rfl⟩ := mem_map.1 hr
    rw [← huse]
    exact hlies w a.offset ⟨a, hareas ▸ mem_append_right _ ha, huse.symm, rfl⟩
  have hpairwise := pairwise_place hwidths hin
  obtain ⟨a, ha, hau, rfl⟩ := hmem u x hu
  obtain ⟨b, hb, hbv, rfl⟩ := hmem v y hv
  have := apart_of_pairwise hpairwise ha hb fun huse => hne (AreaUse.spill.inj (hau.symm.trans (huse.trans hbv)))
  rw [hau, hbv] at this
  exact this

end Layout

/-! ## Functions -/

namespace Emission

variable (hd : d.WellFormed) (hf : f.WellFormed) (ha : Allocation.ofFunction d f = .ok a)
  (hl : Layout.ofFunction d f a.spilled a.saved = .ok l)
include hd hf ha hl

theorem laidOut : LaidOut ⟨f, a, l, d⟩ := by
  have hready := Emission.ready hf ha hl
  obtain rfl := Allocation.eq_assignment_of_ofFunction ha
  exact
    { ready := hready
      target := hd
      allocation := Allocation.assignment_sound hf
      spillAt := fun v hv offset => Layout.at_of_spillOffset? hl hf (fun _ => Allocation.mem_vars_of_mem_spilled) hv
      slotAt := fun k offset => Layout.at_of_slotOffset? hl hf
      argSize := by
        unfold Layout.ofFunction at hl
        dsimp only at hl
        split at hl
        · cases hl
        · cases hl
          exact hd.stackArgSize
      saved_nodup := by
        rw [Layout.saved_eq hl]
        exact Allocation.nodup_saved
      saved := by
        rw [Layout.saved_eq hl]
        exact fun r hr => ((Allocation.mem_saved_iff hf).1 hr).1
      kept := by
        rw [Layout.saved_eq hl]
        exact fun v hv r hloc hr => (Allocation.mem_saved_iff hf).2 ⟨hr, v, hv, hloc⟩ }

theorem homed {size : Nat} (hsize : size < 2 ^ 63) (hlies : l.LiesIn base 0 size) : Homed ⟨f, a, l, d⟩ base size := by
  have hlaid := laidOut hd hf ha hl
  have hspilled : ∀ v ∈ a.spilled, v ∈ f.vars := by
    obtain rfl := Allocation.eq_assignment_of_ofFunction ha
    exact fun v hv => Allocation.mem_vars_of_mem_spilled hv
  refine { toPlaced := hlaid.toPlaced, fits := fun v hv offset hp => ?_, apart := fun u hu v hv hne x y hp hq => ?_ }
  · rcases hlaid.home_cases hv hp with ⟨_, ⟨⟩, -⟩ | ⟨_, ⟨⟩, hat⟩
    obtain ⟨hlow, hhigh⟩ := hlies _ _ hat
    exact ⟨hlaid.width hv, hlow, hhigh⟩
  · rcases hlaid.home_cases hu hp with ⟨_, ⟨⟩, -⟩ | ⟨_, ⟨⟩, hat⟩
    rcases hlaid.home_cases hv hq with ⟨_, ⟨⟩, -⟩ | ⟨_, ⟨⟩, hat'⟩
    refine Layout.disjoint_spills hl base (fun w hw => hf.width w (hspilled w hw)) (fun w z hw => ?_) hat hat' fun huv => ?_
    · obtain ⟨hlow, hhigh⟩ := hlies _ _ hw
      exact ⟨hlow, lt_of_le_of_lt hhigh (by exact_mod_cast hsize)⟩
    · exact hne (congrArg Var.id huv)

/-- What the stages of the compilation give has all that the code of a function needs, if the size of the frame is
    within its bound not only as a word. -/
theorem sound (hfits : Layout.extent d f a.spilled a.saved ≤ d.maxFrame.toInt) : Sound ⟨f, a, l, d⟩ where
  toLaidOut := laidOut hd hf ha hl
  tidy := by
    obtain rfl := Allocation.eq_assignment_of_ofFunction ha
    exact Layout.tidy_of_ofFunction hl hd hf (fun _ => Allocation.mem_vars_of_mem_spilled) hfits

end Emission

end RegisterCompiler
