import Mathlib
import RegisterCompiler.Allocation.Scan

/-!
# The linear scan keeps intervals apart

The scan takes the intervals in the order of their beginning. What it keeps up, interval by interval, is
`Scan.Sound`: the intervals that it has seen and that hold a register still are among the active ones or have
ended, and no two of them that overlap were given the same register. An interval that loses its register to
another one goes into the frame as a whole, so nothing that was said of it before counts any longer.
-/

namespace RegisterCompiler.Scan

open List
open IR (Interval VarId)

variable {d : Descriptor} {s : Scan} {done : List Interval} {cur iv jv : Interval} {pos : Int} {r : Reg}
  {locs : List (VarId × Loc)} {intervals : List Interval} {loc : Loc}

/-- What the scan has seen to when it has come to the position `pos` and has placed the intervals `done`. -/
structure Sound (d : Descriptor) (done : List Interval) (pos : Int) (s : Scan) : Prop where
  placed : ∀ iv ∈ done, ∃ loc, s.locs.lookup iv.var.id = some loc ∧ ∀ r, loc = .reg r → r ∈ candidates d iv
  active : ∀ iv r, (iv, r) ∈ s.active → iv ∈ done ∧ s.locs.lookup iv.var.id = some (.reg r)
  nodup : (s.active.map Prod.snd).Nodup
  /-- What holds a register is active or has ended. -/
  ended : ∀ iv ∈ done, ∀ r, s.locs.lookup iv.var.id = some (.reg r) → (iv, r) ∈ s.active ∨ iv.stop < pos
  /-- Intervals that overlap are apart. -/
  apart : ∀ iv ∈ done, ∀ jv ∈ done, iv.var.id ≠ jv.var.id → iv.overlaps jv → ∀ r,
    s.locs.lookup iv.var.id = some (.reg r) → s.locs.lookup jv.var.id ≠ some (.reg r)

theorem holder?_eq_none : s.holder? r = none ↔ ∀ iv, (iv, r) ∉ s.active := by
  simp only [holder?, Option.map_eq_none_iff, find?_eq_none, decide_eq_true_eq, Prod.forall]
  exact ⟨fun h iv hiv => h iv r hiv rfl, fun h iv r' hiv hr => h iv (hr ▸ hiv)⟩

theorem mem_active_of_holder? (h : s.holder? r = some iv) : (iv, r) ∈ s.active := by
  obtain ⟨⟨jv, q⟩, hfind, rfl⟩ := Option.map_eq_some_iff.1 h
  have hq : q = r := by simpa using find?_some hfind
  exact hq ▸ mem_of_find?_eq_some hfind

theorem mem_of_victim? {regs : List Reg} (h : s.victim? cur regs = some (iv, r)) : r ∈ regs ∧ (iv, r) ∈ s.active := by
  -- Whatever is best so far holds one of the registers.
  have hbest : ∀ iv r, s.victim? cur regs = some (iv, r) → r ∈ regs ∧ (iv, r) ∈ s.active := by
    unfold victim?
    refine List.foldlRecOn (motive := fun best => ∀ iv r, best = some (iv, r) → r ∈ regs ∧ (iv, r) ∈ s.active) regs _ ?_ ?_
    · rintro iv r ⟨⟩
    · intro best hbest q hq iv r hnext
      split at hnext
      · next jv hjv =>
        split at hnext
        · cases hnext
          exact ⟨hq, mem_active_of_holder? hjv⟩
        · exact hbest iv r hnext
      · exact hbest iv r hnext
  exact hbest iv r h

theorem lookup_cons_self {v : VarId} : ((v, loc) :: locs).lookup v = some loc := by
  simp

theorem lookup_cons_of_ne {v w : VarId} (h : w ≠ v) : ((v, loc) :: locs).lookup w = locs.lookup w := by
  rw [lookup_cons, beq_eq_false_iff_ne.2 h]

theorem Sound.expire (h : Sound d done pos s) (hpos : pos ≤ cur.start) : Sound d done cur.start (s.expire cur.start) where
  placed := h.placed
  active := fun iv r hmem => h.active iv r (mem_filter.1 hmem).1
  nodup := h.nodup.sublist (filter_sublist.map Prod.snd)
  ended := by
    intro iv hiv r hloc
    rcases h.ended iv hiv r hloc with hactive | hend
    · by_cases hstop : cur.start ≤ iv.stop
      · exact .inl (mem_filter.2 ⟨hactive, by simpa using hstop⟩)
      · exact .inr (Int.not_le.1 hstop)
    · exact .inr (Int.lt_of_lt_of_le hend hpos)
  apart := h.apart

theorem Sound.spill (h : Sound d done pos s) (hnew : ∀ iv ∈ done, iv.var.id ≠ cur.var.id) :
    Sound d (cur :: done) pos (s.spill cur) := by
  have hself : (s.spill cur).locs.lookup cur.var.id = some .spilled := lookup_cons_self
  have hold : ∀ iv ∈ done, (s.spill cur).locs.lookup iv.var.id = s.locs.lookup iv.var.id :=
    fun iv hiv => lookup_cons_of_ne (hnew iv hiv)
  constructor
  · refine forall_mem_cons.2 ⟨⟨_, hself, nofun⟩, fun iv hiv => ?_⟩
    rw [hold iv hiv]
    exact h.placed iv hiv
  · intro iv r hmem
    obtain ⟨hiv, hloc⟩ := h.active iv r hmem
    exact ⟨mem_cons_of_mem cur hiv, (hold iv hiv).trans hloc⟩
  · exact h.nodup
  · refine forall_mem_cons.2 ⟨fun r hr => ?_, fun iv hiv r hr => ?_⟩
    · cases hself.symm.trans hr
    · exact h.ended iv hiv r ((hold iv hiv).symm.trans hr)
  · intro iv hiv jv hjv hne hover r hloc
    rcases mem_cons.1 hiv with rfl | hiv
    · cases hself.symm.trans hloc
    rcases mem_cons.1 hjv with rfl | hjv
    · rw [hself]; nofun
    rw [hold jv hjv]
    exact h.apart iv hiv jv hjv hne hover r ((hold iv hiv).symm.trans hloc)

theorem Sound.assign (h : Sound d done cur.start s) (hnew : ∀ iv ∈ done, iv.var.id ≠ cur.var.id)
    (hr : r ∈ candidates d cur) (hfree : ∀ iv, (iv, r) ∉ s.active) :
    Sound d (cur :: done) cur.start (s.assign cur r) := by
  have hself : (s.assign cur r).locs.lookup cur.var.id = some (.reg r) := lookup_cons_self
  have hold : ∀ iv ∈ done, (s.assign cur r).locs.lookup iv.var.id = s.locs.lookup iv.var.id :=
    fun iv hiv => lookup_cons_of_ne (hnew iv hiv)
  -- What had the register before has ended.
  have hover : ∀ iv ∈ done, s.locs.lookup iv.var.id = some (.reg r) → iv.stop < cur.start :=
    fun iv hiv hloc => (h.ended iv hiv r hloc).resolve_left (hfree iv)
  constructor
  · refine forall_mem_cons.2 ⟨⟨_, hself, fun q hq => Loc.reg.inj hq ▸ hr⟩, fun iv hiv => ?_⟩
    rw [hold iv hiv]
    exact h.placed iv hiv
  · intro iv q hmem
    rcases mem_append.1 hmem with hmem | hmem
    · obtain ⟨hiv, hloc⟩ := h.active iv q hmem
      exact ⟨mem_cons_of_mem cur hiv, (hold iv hiv).trans hloc⟩
    · cases mem_singleton.1 hmem
      exact ⟨mem_cons_self, hself⟩
  · rw [Scan.assign, map_append, nodup_append]
    refine ⟨h.nodup, nodup_singleton r, ?_⟩
    rintro q hq _ hr rfl
    cases mem_singleton.1 hr
    obtain ⟨⟨iv, _⟩, hmem, rfl⟩ := mem_map.1 hq
    exact hfree iv hmem
  · refine forall_mem_cons.2 ⟨fun q hq => ?_, fun iv hiv q hq => ?_⟩
    · cases hself.symm.trans hq
      exact .inl (mem_append_right _ mem_cons_self)
    · exact (h.ended iv hiv q ((hold iv hiv).symm.trans hq)).imp_left (mem_append_left _)
  · intro iv hiv jv hjv hne hoverlap q hloc
    simp only [Interval.overlaps, Bool.and_eq_true, decide_eq_true_eq] at hoverlap
    rcases mem_cons.1 hiv with rfl | hiv' <;> rcases mem_cons.1 hjv with rfl | hjv'
    · exact absurd rfl hne
    · cases hself.symm.trans hloc
      rw [hold jv hjv']
      exact fun hjloc => absurd (hover jv hjv' hjloc) (Int.not_lt.2 hoverlap.1)
    · rw [hself]
      rintro ⟨⟩
      exact absurd (hover iv hiv' ((hold iv hiv').symm.trans hloc)) (Int.not_lt.2 hoverlap.2)
    · rw [hold jv hjv']
      exact h.apart iv hiv' jv hjv' hne (by simpa [Interval.overlaps] using hoverlap) q ((hold iv hiv').symm.trans hloc)

theorem Sound.evict (h : Sound d done pos s) (hmem : (iv, r) ∈ s.active) :
    Sound d done pos { s.spill iv with active := s.active.filter (·.2 ≠ r) } := by
  have hself : (s.spill iv).locs.lookup iv.var.id = some .spilled := lookup_cons_self
  -- Whoever still has a register had it before, under another number.
  have hold : ∀ (jv : Interval) (q : Reg), (s.spill iv).locs.lookup jv.var.id = some (.reg q) →
      jv.var.id ≠ iv.var.id ∧ s.locs.lookup jv.var.id = some (.reg q) := by
    intro jv q hloc
    have hne : jv.var.id ≠ iv.var.id := fun heq => by cases hself.symm.trans (heq ▸ hloc)
    exact ⟨hne, (lookup_cons_of_ne hne).symm.trans hloc⟩
  constructor
  · intro jv hjv
    by_cases heq : jv.var.id = iv.var.id
    · exact ⟨.spilled, heq ▸ hself, nofun⟩
    · obtain ⟨loc, hloc, hcand⟩ := h.placed jv hjv
      exact ⟨loc, (lookup_cons_of_ne heq).trans hloc, hcand⟩
  · intro jv q hjq
    obtain ⟨hjq, hne⟩ := mem_filter.1 hjq
    obtain ⟨hjv, hloc⟩ := h.active jv q hjq
    refine ⟨hjv, (lookup_cons_of_ne fun heq => ?_).trans hloc⟩
    rw [heq, (h.active iv r hmem).2] at hloc
    cases hloc
    simp at hne
  · exact h.nodup.sublist (filter_sublist.map Prod.snd)
  · intro jv hjv q hloc
    obtain ⟨hne, hloc⟩ := hold jv q hloc
    refine (h.ended jv hjv q hloc).imp_left fun hjq => mem_filter.2 ⟨hjq, ?_⟩
    have hqr : q ≠ r := by
      rintro rfl
      exact hne (by rw [(Prod.mk.inj (inj_on_of_nodup_map h.nodup hjq hmem rfl)).1])
    simpa using hqr
  · intro jv hjv kv hkv hne hoverlap q hjloc hkloc
    exact h.apart jv hjv kv hkv hne hoverlap q (hold jv q hjloc).2 (hold kv q hkloc).2

theorem Sound.place (h : Sound d done pos s) (hnew : ∀ iv ∈ done, iv.var.id ≠ cur.var.id) (hpos : pos ≤ cur.start) :
    Sound d (cur :: done) cur.start (s.place d cur) := by
  have hexp := h.expire hpos
  unfold Scan.place
  simp only
  split
  · next r hfind =>
    have hfree : (s.expire cur.start).holder? r = none := by simpa using find?_some hfind
    exact hexp.assign hnew (mem_of_find?_eq_some hfind) (holder?_eq_none.1 hfree)
  · split
    · exact hexp.spill hnew
    · next iv r hvictim =>
      obtain ⟨hr, hmem⟩ := mem_of_victim? hvictim
      refine (hexp.evict hmem).assign hnew hr fun jv hjv => ?_
      simpa using (mem_filter.1 hjv).2

theorem Sound.foldl (h : Sound d done pos s) (hnodup : ((intervals ++ done).map (·.var.id)).Nodup)
    (hpos : ∀ iv ∈ intervals, pos ≤ iv.start) (hsorted : intervals.Pairwise fun iv jv => iv.start ≤ jv.start) :
    ∃ pos', Sound d (intervals.reverse ++ done) pos' (intervals.foldl (Scan.place d) s) := by
  induction intervals generalizing s done pos with
  | nil => exact ⟨pos, h⟩
  | cons cur rest ih =>
    obtain ⟨hfirst, hrest⟩ := pairwise_cons.1 hsorted
    rw [cons_append, map_cons, nodup_cons] at hnodup
    have hnew : ∀ iv ∈ done, iv.var.id ≠ cur.var.id := fun iv hiv heq =>
      hnodup.1 (mem_map.2 ⟨iv, mem_append_right rest hiv, heq⟩)
    have hperm : ((rest ++ cur :: done).map (·.var.id)).Nodup := by
      rw [(perm_middle.map _).nodup_iff]
      exact nodup_cons.2 hnodup
    have := ih (h.place hnew (hpos cur mem_cons_self)) hperm hfirst hrest
    simpa using this

/-- The scan gives every interval a place that it may have, and no register to two intervals that overlap. -/
theorem run_sound (hnodup : (intervals.map (·.var.id)).Nodup)
    (hsorted : intervals.Pairwise fun iv jv => iv.start ≤ jv.start) :
    (∀ iv ∈ intervals, ∃ loc, (run d intervals).lookup iv.var.id = some loc ∧
        ∀ r, loc = .reg r → r ∈ candidates d iv) ∧
      ∀ iv ∈ intervals, ∀ jv ∈ intervals, iv.var.id ≠ jv.var.id → iv.overlaps jv → ∀ r,
        (run d intervals).lookup iv.var.id = some (.reg r) → (run d intervals).lookup jv.var.id ≠ some (.reg r) := by
  cases intervals with
  | nil => simp
  | cons first rest =>
    have hstart : Sound d [] first.start ⟨[], []⟩ := ⟨nofun, nofun, nodup_nil, nofun, nofun⟩
    have hle : ∀ iv ∈ first :: rest, first.start ≤ iv.start :=
      forall_mem_cons.2 ⟨Int.le_refl _, (pairwise_cons.1 hsorted).1⟩
    obtain ⟨pos, h⟩ := hstart.foldl (by simpa using hnodup) hle hsorted
    rw [append_nil] at h
    refine ⟨fun iv hiv => h.placed iv (mem_reverse.2 hiv), fun iv hiv jv hjv => ?_⟩
    exact h.apart iv (mem_reverse.2 hiv) jv (mem_reverse.2 hjv)

end RegisterCompiler.Scan
