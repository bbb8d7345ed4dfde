import RegisterCompiler.Proofs.Careful
import RegisterCompiler.Proofs.Correspondence

/-!
# Operands in machine code are read where they live

The code of an instruction brings its operands into registers, computes, and brings the result to its home. Operands
take the scratch registers one after the other, so that one does not overwrite another, and nothing else is changed on
the way.
-/

namespace RegisterCompiler

open IR (MemRef Operand Var)
open Machine (View)
open Machine.View (Changes)
open Success

namespace Emission

variable {ref : MemRef}

/-- An operand has a value: the canonical form of a constant, or what the home of a variable holds. -/
def Reads (e : Emission) (base : Int) (v : View) : Operand → Int64 → Prop
  | .imm c w, x => w.isValid ∧ x = w.canonical c
  | .var u, x => u ∈ e.function.vars ∧ u.width.IsCanonical x ∧ ∀ p, e.home u = .ok p → v.held base u.width p = x

/-- The scratch registers that are taken between two counts. -/
def Scratch (e : Emission) (lo hi : Nat) (r : Reg) : Prop := ∃ j, lo ≤ j ∧ j < hi ∧ e.target.scratch[j]? = some r

theorem Scratch.mem {e : Emission} {lo hi : Nat} {r : Reg} (h : e.Scratch lo hi r) : r ∈ e.target.scratch := by
  obtain ⟨j, -, -, hj⟩ := h
  exact List.mem_of_getElem? hj

variable {e : Emission} {base : Int} {size n : Nat} {v w : View} {o : Operand} {x : Int64} {d : Var} {p : Place}
  {code : List Asm.Instr} {r : Reg} {rs : Reg → Prop} {bytes : Nat → Prop}

theorem Scratch.changes {lo hi : Nat} (h : Changes (e.Scratch lo hi) (fun _ => False) v w) :
    Changes (· ∈ e.target.scratch) (fun _ => False) v w := h.mono (fun _ hr => hr.mem) fun _ ha => ha

theorem Placed.scratch_ne (h : e.Placed) {lo mid hi : Nat} (hr : e.Scratch lo mid r) : ¬e.Scratch mid hi r := by
  rintro ⟨k, hk, -, hkr⟩
  obtain ⟨j, -, hj, hjr⟩ := hr
  have hlt : k < e.target.scratch.length := (List.getElem?_eq_some_iff.1 hkr).1
  exact List.nodup_iff_getElem?_ne_getElem?.1 h.target.scratch_nodup j k (by omega) hlt (hjr.trans hkr.symm)

theorem Placed.fp_not_scratch (h : e.Placed) : Reg.fp ∉ e.target.scratch := fun hfp =>
  Reg.ne_fp (h.target.scratch_general _ hfp) rfl

theorem Reads.of_changes (hplaced : e.Placed) (h : e.Reads base v o x) (hc : Changes rs bytes v w)
    (hrs : ∀ r, rs r → r ∈ e.target.scratch ∨ r = .sp)
    (hbytes : ∀ u ∈ e.function.vars, ∀ p, e.home u = .ok p → ∀ a, p.Covers base u.width a → ¬bytes a) :
    e.Reads base w o x := by
  cases o with
  | imm c wd => exact h
  | var u =>
    obtain ⟨hu, hcanonical, hheld⟩ := h
    refine ⟨hu, hcanonical, fun p hp => ?_⟩
    rw [← hheld p hp]
    refine hc.held_eq (fun r hr hrr => ?_) fun a ha => hbytes u hu p hp a ha
    rcases hrs r hrr with hscratch | rfl
    · exact hplaced.home_ne_scratch hu hp r hr hscratch
    · exact Reg.ne_sp (hplaced.home_general hu (hr ▸ hp)) rfl

theorem Reads.of_scratch (hplaced : e.Placed) (h : e.Reads base v o x)
    (hc : Changes (· ∈ e.target.scratch) (fun _ => False) v w) : e.Reads base w o x :=
  h.of_changes hplaced hc (fun _ => .inl) fun _ _ _ _ _ _ => id

theorem Reads.canonical (hplaced : e.Placed) (h : e.Reads base v o x) : o.width.isValid ∧ o.width.IsCanonical x := by
  cases o with
  | imm c wd => exact ⟨h.1, h.2 ▸ Width.canonical_canonical wd c⟩
  | var u => exact ⟨hplaced.width h.1, h.2.1⟩

theorem exists_of_source_eq (h : e.source o = .ok (.place p)) : ∃ u, o = .var u ∧ e.home u = .ok p := by
  cases o with
  | imm c wd => cases h
  | var u =>
    obtain ⟨q, hq, ⟨⟩⟩ := map_eq_ok.1 h
    exact ⟨u, rfl, hq⟩

theorem Homed.source_value (h : e.Homed base size) (ho : e.Reads base v o x) {s : Source} (hs : e.source o = .ok s) :
    s.Fits base size o.width ∧ v.value base o.width s = x ∧ ∀ p, s = .place p →
      (∃ u, o = .var u ∧ e.home u = .ok p) ∧ v.held base o.width p = x := by
  cases o with
  | imm c wd =>
    cases hs
    obtain ⟨-, rfl⟩ := ho
    exact ⟨trivial, rfl, nofun⟩
  | var u =>
    obtain ⟨hu, hcanonical, hheld⟩ := ho
    obtain ⟨p, hp⟩ := h.exists_home hu
    rw [source, hp] at hs
    cases hs
    refine ⟨h.home_fits hu hp, ?_, fun q hq => ?_⟩
    · exact (congrArg u.width.canonical (hheld p hp)).trans hcanonical
    · cases hq
      exact ⟨⟨u, rfl, hp⟩, hheld p hp⟩

theorem Placed.scratch_of_eq_ok (h : e.Placed) (hr : e.scratch n = .ok r) : e.Scratch n (n + 1) r ∧ r.num < 16 := by
  have hget : e.target.scratch[n]? = some r := by
    unfold scratch at hr
    split at hr
    · next hget => cases hr; exact hget
    · cases hr
  exact ⟨⟨n, Nat.le_refl n, Nat.lt_succ_self n, hget⟩, h.target.scratch_general r (List.mem_of_getElem? hget)⟩

/-- An operand is brought into a register, by scratch registers that were not taken. -/
theorem Homed.run_fetch (h : e.Homed base size) (hv : v.Stands base size) (ho : e.Reads base v o x) {y : Fetched}
    (hy : e.fetch n o = .ok y) :
    ∃ w, v.run y.code = .ok w ∧ w.regs y.reg = x ∧ y.reg.num < 16 ∧
      (y.reg ∉ e.target.scratch ∨ e.Scratch n y.used y.reg) ∧ n ≤ y.used ∧
      Changes (e.Scratch n y.used) (fun _ => False) v w := by
  obtain ⟨s, hs, hrest⟩ := bind_eq_ok.1 hy
  obtain ⟨hfits, hvalue, hplace⟩ := h.source_value ho hs
  by_cases hreg : ∃ q, s = .place (.reg q)
  · obtain ⟨q, rfl⟩ := hreg
    cases hrest
    obtain ⟨⟨u, rfl, hu⟩, hheld⟩ := hplace _ rfl
    exact ⟨v, rfl, hheld, h.home_general ho.1 hu, .inl (h.home_not_scratch ho.1 hu).2, Nat.le_refl n, .refl v⟩
  · have hload : (do let r ← e.scratch n; pure ⟨[s.load o.width r], r, n + 1⟩ : Except EmitError Fetched) = .ok y := by
      rcases s with (q | _) | _
      · exact absurd ⟨q, rfl⟩ hreg
      · exact hrest
      · exact hrest
    obtain ⟨r, hr, hy⟩ := bind_eq_ok.1 hload
    cases hy
    obtain ⟨htaken, hgeneral⟩ := h.scratch_of_eq_ok hr
    refine ⟨v.set r x, ?_, View.regs_set_self v r x, hgeneral, .inr htaken, Nat.le_succ n, ?_⟩
    · rw [View.run_singleton, hv.exec_load (Reg.lt_count hgeneral) hfits, hvalue]
    · exact (View.changes_set _ v r x).mono (fun q hq => hq ▸ htaken) fun _ ha => ha

/-- The result of an instruction is left in a register, and goes from there to its home. -/
theorem Homed.produce_cases (h : e.Homed base size) (hd : d ∈ e.function.vars) (hp : e.home d = .ok p)
    {make : Reg → List Asm.Instr} (hcode : e.produce d make = .ok code) :
    ∃ r last, code = make r ++ last ∧ r.num < 16 ∧ (r ∈ e.target.scratch ∨ p = .reg r) ∧
      ∀ v : View, v.Stands base size → d.width.IsCanonical (v.regs r) →
        ∃ w, v.run last = .ok w ∧ w.held base d.width p = v.regs r ∧
          Changes (fun _ => False) (p.Covers base d.width) v w := by
  obtain ⟨loc, hloc⟩ := h.ready.placed d hd
  obtain ⟨r, hr, hrest⟩ := bind_eq_ok.1 hcode
  obtain ⟨last, hlast, hcode⟩ := bind_eq_ok.1 hrest
  cases hcode
  refine ⟨r, last, rfl, ?_⟩
  cases loc with
  | reg q =>
    have hq : r = q := by simpa [resultReg, hloc] using hr.symm
    have hempty : last = [] := by simpa [writeBack, Allocation.isSpilled, hloc] using hlast.symm
    have hhome : p = .reg q := by simpa [home, hloc] using hp.symm
    subst hq hempty hhome
    exact ⟨h.home_general hd hp, .inr rfl, fun v _ _ => ⟨v, rfl, rfl, .refl v⟩⟩
  | spilled =>
    obtain ⟨offset, hoffset⟩ := h.ready.spill d hd hloc
    have hstore : last = [.store d.width r { base := .fp, offset }] := by
      simpa [writeBack, Allocation.isSpilled, hloc, spillOffset, hoffset, bind, Except.bind, pure, Except.pure]
        using hlast.symm
    have hhome : p = .frame offset := by simpa [home, hloc, spillOffset, hoffset] using hp.symm
    subst hstore hhome
    have hmem : r ∈ e.target.scratch := by
      simp only [resultReg, hloc, firstScratch] at hr
      split at hr
      · next hs =>
        cases hr
        rw [hs]
        exact List.mem_cons_self
      · cases hr
    have hgeneral := h.target.scratch_general r hmem
    refine ⟨hgeneral, .inl hmem, fun v hv hcanonical => ⟨_, ?_, ?_, View.changes_store v (v.regs r).toUInt64 offset⟩⟩
    · rw [View.run_singleton]
      exact hv.exec_store (Reg.lt_count hgeneral) (h.home_fits hd hp)
    · exact (View.held_store (h.width hd) v _ offset).trans hcanonical

/-! ## Addresses -/

/-- A memory operand has an address: that of an element of a frame variable, or one that an operand holds. The index
    of an element goes into its address as it stands. -/
def Addresses (e : Emission) (base : Int) (v : View) : MemRef → Int64 → Prop
  | .slot ref, x => ∃ offset z, e.layout.slotOffset? ref.slot = some offset ∧
      (∀ o, ref.index = some o → e.Reads base v o z ∧ Operand.IsRegular (some o)) ∧
      x = v.regs .fp + offset + ref.offset + if ref.index.isSome then z * ref.scale else 0
  | .pointer o offset, x => ∃ y z, o = some y ∧ e.Reads base v y z ∧ x = z + offset

theorem addresses_slot {ref : IR.SlotRef} {offset z : Int64} (hoffset : e.layout.slotOffset? ref.slot = some offset)
    (hindex : ∀ o, ref.index = some o → e.Reads base v o z ∧ Operand.IsRegular (some o)) :
    e.Addresses base v (.slot ref)
      (v.regs .fp + offset + ref.offset + if ref.index.isSome then z * ref.scale else 0) :=
  ⟨offset, z, hoffset, hindex, rfl⟩

theorem Addresses.of_scratch (hplaced : e.Placed) (h : e.Addresses base v ref x)
    (hc : Changes (· ∈ e.target.scratch) (fun _ => False) v w) : e.Addresses base w ref x := by
  cases ref with
  | slot ref =>
    obtain ⟨offset, z, hoffset, hindex, rfl⟩ := h
    refine ⟨offset, z, hoffset, fun o ho => (hindex o ho).imp_left fun hz => hz.of_scratch hplaced hc, ?_⟩
    rw [hc.regs _ hplaced.fp_not_scratch]
  | pointer o offset =>
    obtain ⟨y, z, rfl, hy, rfl⟩ := h
    exact ⟨y, z, rfl, hy.of_scratch hplaced hc, rfl⟩

theorem Homed.run_address (h : e.Homed base size) (hv : v.Stands base size) (href : e.Addresses base v ref x)
    {y : FetchedAddr} (hy : e.address n ref = .ok y) :
    ∃ w, v.run y.code = .ok w ∧ w.effective y.addr = .ok x ∧ n ≤ y.used ∧
      Changes (e.Scratch n y.used) (fun _ => False) v w := by
  have hplain : ∀ (v : View) (r : Reg) (c : Int64), r.num < 16 → v.effective { base := r, offset := c } = .ok (v.regs r + c) :=
    fun v r c hr => by simp only [View.effective, View.get_general hr]; rfl
  have hframe : ∀ (v : View) (c : Int64), v.effective { base := .fp, offset := c } = .ok (v.regs .fp + c) := fun _ _ => rfl
  cases ref with
  | pointer o offset =>
    obtain ⟨o, z, rfl, ho, rfl⟩ := href
    obtain ⟨f, hf, ⟨⟩⟩ := bind_eq_ok.1
      (show (do let p ← e.fetch n o; pure ⟨p.code, { base := p.reg, offset }, p.used⟩ : Except EmitError FetchedAddr) = .ok y
        from hy)
    obtain ⟨w, hrun, hz, hgeneral, -, hle, hc⟩ := h.run_fetch hv ho hf
    exact ⟨w, hrun, hz ▸ hplain w f.reg offset hgeneral, hle, hc⟩
  | slot ref =>
    obtain ⟨offset, z, hoffset, hindex, rfl⟩ := href
    have hslot : e.slotOffset ref.slot = .ok offset := by simp [slotOffset, hoffset]
    obtain ⟨slot, index, scale, off⟩ := ref
    obtain ⟨offset', hslot', hy⟩ := bind_eq_ok.1 hy
    cases hslot.symm.trans hslot'
    dsimp only at *
    rcases index with _ | (u | ⟨c, wd⟩)
    · cases hy
      refine ⟨v, rfl, ?_, Nat.le_refl n, .refl v⟩
      rw [hframe]
      exact congrArg Except.ok (by grind)
    · obtain ⟨r, hr, hy⟩ := bind_eq_ok.1 hy
      obtain ⟨q, hq, hy⟩ := bind_eq_ok.1 hy
      obtain ⟨⟨hu, hcanonical, hheld⟩, -⟩ := hindex _ rfl
      obtain ⟨htaken, hgeneral⟩ := h.scratch_of_eq_ok hr
      -- The index is in its register, or is loaded into the one in which the address is computed.
      have hloaded : ∃ reload i v₁, y = ⟨reload ++ [.lea r { base := .fp, index := some ⟨i, scale⟩, offset := offset + off }],
          { base := r }, n + 1⟩ ∧ v.run reload = .ok v₁ ∧ v₁.regs i = z ∧ i.num < 16 ∧
            Changes (· = r) (fun _ => False) v v₁ := by
        cases q with
        | reg i =>
          cases hy
          exact ⟨[], i, v, rfl, rfl, hheld _ hq, h.home_general hu hq, .refl v⟩
        | frame cellOffset =>
          cases hy
          have hfits : (Source.place (.frame cellOffset)).Fits base size u.width := h.home_fits hu hq
          refine ⟨_, r, v.set r z, rfl, ?_, View.regs_set_self v r z, hgeneral, View.changes_set _ v r z⟩
          rw [View.run_singleton, hv.exec_load (Reg.lt_count hgeneral) hfits]
          simp only [View.value, hheld _ hq]
          exact congrArg (fun x => Except.ok (v.set r x)) hcanonical
      obtain ⟨reload, i, v₁, rfl, hrun, hi, higeneral, hchanges⟩ := hloaded
      have hfp : v₁.regs .fp = v.regs .fp := hchanges.regs _ (Reg.ne_fp hgeneral).symm
      refine ⟨v₁.set r (v.regs .fp + (offset + off) + z * scale), ?_, ?_, Nat.le_succ n, ?_⟩
      · rw [View.run_append, hrun, ← hfp, ← hi]
        exact (View.run_singleton _ _).trans (View.exec_lea_index hgeneral higeneral v₁ scale (offset + off))
      · rw [hplain _ _ _ hgeneral, View.regs_set_self]
        exact congrArg Except.ok (by grind)
      · exact (hchanges.mono (fun q hq => hq ▸ htaken) fun _ ha => ha).trans
          ((View.changes_set _ v₁ r _).mono (fun q hq => hq ▸ htaken) fun _ ha => ha)
    · cases hy
      obtain ⟨⟨-, rfl⟩, hregular⟩ := hindex _ rfl
      refine ⟨v, rfl, ?_, Nat.le_refl n, .refl v⟩
      rw [hframe, show wd.canonical c = c from hregular]
      exact congrArg Except.ok (by grind)

end Emission

end RegisterCompiler
