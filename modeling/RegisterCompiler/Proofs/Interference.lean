import RegisterCompiler.Proofs.Allocation

/-!
# Interference and the check of an allocation

The graph of intervals is drawn in one go over the list: each interval is joined to those behind it, up to the first
that begins after its end. In a list that stands in the order of its beginnings nothing is missed by that, and
everything that is joined overlaps. The check of an allocation goes over the graph, so what it accepts can be said of
the intervals themselves.
-/

namespace RegisterCompiler

open List
open IR (Interval VarId)

theorem IR.Interval.overlaps_iff {iv jv : Interval} (hiv : iv.start ≤ iv.stop) (hjv : jv.start ≤ jv.stop) :
    iv.overlaps jv ↔ ∃ pos, (iv.start ≤ pos ∧ pos ≤ iv.stop) ∧ jv.start ≤ pos ∧ pos ≤ jv.stop := by
  simp only [Interval.overlaps, Bool.and_eq_true, decide_eq_true_eq]
  constructor
  · rintro ⟨hij, hji⟩
    exact ⟨max iv.start jv.start, by omega, by omega⟩
  · rintro ⟨pos, hi, hj⟩
    omega

theorem IR.Interval.start_le_of_before {iv jv : Interval} (h : iv.before jv) : iv.start ≤ jv.start := by
  simp only [Interval.before, Bool.or_eq_true, Bool.and_eq_true, decide_eq_true_eq, beq_iff_eq] at h
  omega

namespace Interference

variable {g : Interference} {a b v w : VarId} {iv jv : Interval} {rest intervals : List Interval}

/-! ## Drawing -/

theorem mem_edges_addNode : w ∈ (g.addNode v).edges ↔ v = w ∨ w ∈ g.edges := by
  simp only [addNode, Std.ExtTreeMap.mem_insert, Std.LawfulEqCmp.compare_eq_iff_eq]

theorem neighbours_addNode (g : Interference) (v w : VarId) : (g.addNode v).neighbours w = g.neighbours w := by
  simp only [addNode, neighbours, Std.ExtTreeMap.getD_insert, Std.LawfulEqCmp.compare_eq_iff_eq]
  split
  · next h => rw [h]
  · rfl

theorem mem_edges_addEdge : w ∈ (g.addEdge a b).edges ↔ a ≠ b ∧ (a = w ∨ b = w) ∨ w ∈ g.edges := by
  by_cases hne : a = b
  · simp [addEdge, hne]
  · simp only [addEdge, hne, if_false, Std.ExtTreeMap.mem_insert, Std.LawfulEqCmp.compare_eq_iff_eq, mem_edges_addNode]
    grind

theorem mem_neighbours_addEdge :
    w ∈ (g.addEdge a b).neighbours v ↔ v ≠ w ∧ (a = v ∧ b = w ∨ a = w ∧ b = v) ∨ w ∈ g.neighbours v := by
  by_cases hne : a = b
  · simp only [addEdge, hne, if_true]
    grind
  · have hnodes : ∀ v, ((g.addNode a).addNode b).edges.getD v ∅ = g.edges.getD v ∅ := fun v =>
      (neighbours_addNode _ b v).trans (neighbours_addNode g a v)
    simp only [addEdge, hne, if_false, neighbours, Std.ExtTreeMap.getD_insert, Std.LawfulEqCmp.compare_eq_iff_eq, hnodes]
    split
    · next hb => simp only [Std.ExtTreeSet.mem_insert, Std.LawfulEqCmp.compare_eq_iff_eq]; grind
    · split
      · next ha => simp only [Std.ExtTreeSet.mem_insert, Std.LawfulEqCmp.compare_eq_iff_eq]; grind
      · grind

theorem acrossCalls_addEdge : (g.addEdge a b).acrossCalls = g.acrossCalls := by
  unfold addEdge
  split <;> rfl

theorem mem_edges_foldl_addEdge :
    w ∈ (rest.foldl (fun g jv => g.addEdge a jv.var.id) g).edges ↔
      (∃ jv ∈ rest, a ≠ jv.var.id ∧ (a = w ∨ jv.var.id = w)) ∨ w ∈ g.edges := by
  induction rest generalizing g with
  | nil => simp
  | cons jv rest ih =>
    simp only [foldl_cons, ih, mem_edges_addEdge, exists_mem_cons_iff, or_assoc, or_left_comm]

theorem mem_neighbours_foldl_addEdge :
    w ∈ (rest.foldl (fun g jv => g.addEdge a jv.var.id) g).neighbours v ↔
      (∃ jv ∈ rest, v ≠ w ∧ (a = v ∧ jv.var.id = w ∨ a = w ∧ jv.var.id = v)) ∨ w ∈ g.neighbours v := by
  induction rest generalizing g with
  | nil => simp
  | cons jv rest ih =>
    simp only [foldl_cons, ih, mem_neighbours_addEdge, exists_mem_cons_iff, or_assoc, or_left_comm]

theorem acrossCalls_foldl_addEdge :
    (rest.foldl (fun g jv => g.addEdge a jv.var.id) g).acrossCalls = g.acrossCalls := by
  induction rest generalizing g with
  | nil => rfl
  | cons jv rest ih => rw [foldl_cons, ih, acrossCalls_addEdge]

/-! ## The graph of intervals -/

theorem mem_takeWhile_start {pos : Int} (hsorted : rest.Pairwise fun iv jv => iv.start ≤ jv.start) :
    jv ∈ rest.takeWhile (·.start ≤ pos) ↔ jv ∈ rest ∧ jv.start ≤ pos := by
  induction rest with
  | nil => simp
  | cons iv rest ih =>
    obtain ⟨hfirst, hrest⟩ := pairwise_cons.1 hsorted
    by_cases hstart : iv.start ≤ pos
    · rw [takeWhile_cons_of_pos (by simpa using hstart), mem_cons, mem_cons, ih hrest]
      grind
    · rw [takeWhile_cons_of_neg (by simpa using hstart)]
      grind

theorem mem_edges_addIntervals (hsorted : intervals.Pairwise fun iv jv => iv.start ≤ jv.start) :
    w ∈ (g.addIntervals intervals).edges ↔ (∃ iv ∈ intervals, iv.var.id = w) ∨ w ∈ g.edges := by
  induction intervals generalizing g with
  | nil => simp [addIntervals]
  | cons iv rest ih =>
    obtain ⟨-, hrest⟩ := pairwise_cons.1 hsorted
    have hedges : w ∈ (g.addInterval iv rest).edges ↔
        (∃ jv ∈ rest.takeWhile (·.start ≤ iv.stop), iv.var.id ≠ jv.var.id ∧ (iv.var.id = w ∨ jv.var.id = w)) ∨
          iv.var.id = w ∨ w ∈ g.edges := by
      rw [addInterval, mem_edges_foldl_addEdge, ← mem_edges_addNode]
      split <;> rfl
    simp only [addIntervals, ih hrest, hedges, mem_takeWhile_start hrest, exists_mem_cons_iff]
    grind

theorem mem_acrossCalls_addIntervals :
    w ∈ (g.addIntervals intervals).acrossCalls ↔
      (∃ iv ∈ intervals, iv.var.id = w ∧ iv.spansCall) ∨ w ∈ g.acrossCalls := by
  induction intervals generalizing g with
  | nil => simp [addIntervals]
  | cons iv rest ih =>
    have hcalls : w ∈ (g.addInterval iv rest).acrossCalls ↔ iv.var.id = w ∧ iv.spansCall ∨ w ∈ g.acrossCalls := by
      rw [addInterval, acrossCalls_foldl_addEdge]
      split
      · next hspans => simp [hspans, addNode]
      · next hspans => simp [hspans, addNode]
    simp only [addIntervals, ih, hcalls, exists_mem_cons_iff, or_assoc, or_left_comm]

section

variable (hsorted : intervals.Pairwise fun iv jv => iv.start ≤ jv.start)
include hsorted

theorem mem_neighbours_addIntervals (hproper : ∀ iv ∈ intervals, iv.start ≤ iv.stop) :
    w ∈ (g.addIntervals intervals).neighbours v ↔
      (v ≠ w ∧ ∃ iv ∈ intervals, ∃ jv ∈ intervals, iv.var.id = v ∧ jv.var.id = w ∧ iv.overlaps jv) ∨
        w ∈ g.neighbours v := by
  induction intervals generalizing g with
  | nil => simp [addIntervals]
  | cons iv rest ih =>
    obtain ⟨hfirst, hrest⟩ := pairwise_cons.1 hsorted
    obtain ⟨-, hproper⟩ := forall_mem_cons.1 hproper
    have hneighbours : w ∈ (g.addInterval iv rest).neighbours v ↔
        (∃ jv ∈ rest.takeWhile (·.start ≤ iv.stop),
          v ≠ w ∧ (iv.var.id = v ∧ jv.var.id = w ∨ iv.var.id = w ∧ jv.var.id = v)) ∨ w ∈ g.neighbours v := by
      rw [addInterval, mem_neighbours_foldl_addEdge, ← g.neighbours_addNode]
      split <;> rfl
    -- What is behind an interval begins after it, so the two overlap if it begins before the end.
    have hoverlaps : ∀ jv ∈ rest, (iv.overlaps jv ↔ jv.start ≤ iv.stop) ∧ (jv.overlaps iv ↔ jv.start ≤ iv.stop) := by
      intro jv hjv
      have hstart : iv.start ≤ jv.stop := Int.le_trans (hfirst jv hjv) (hproper jv hjv)
      simp [Interval.overlaps, hstart]
    simp only [addIntervals, ih hrest hproper, hneighbours, mem_takeWhile_start hrest, exists_mem_cons_iff]
    grind

theorem mem_edges_ofIntervals : v ∈ (ofIntervals intervals).edges ↔ ∃ iv ∈ intervals, iv.var.id = v := by
  simp [ofIntervals, mem_edges_addIntervals hsorted, empty]

/-- The neighbours of a variable are the others whose intervals overlap with its interval. -/
theorem mem_neighbours_ofIntervals (hproper : ∀ iv ∈ intervals, iv.start ≤ iv.stop) :
    w ∈ (ofIntervals intervals).neighbours v ↔
      v ≠ w ∧ ∃ iv ∈ intervals, ∃ jv ∈ intervals, iv.var.id = v ∧ jv.var.id = w ∧ iv.overlaps jv := by
  rw [ofIntervals, mem_neighbours_addIntervals hsorted hproper]
  simp [empty, neighbours]

theorem hasEdge_ofIntervals (hproper : ∀ iv ∈ intervals, iv.start ≤ iv.stop) :
    (ofIntervals intervals).hasEdge v w ↔
      v ≠ w ∧ ∃ iv ∈ intervals, ∃ jv ∈ intervals, iv.var.id = v ∧ jv.var.id = w ∧ iv.overlaps jv := by
  rw [hasEdge, Std.ExtTreeSet.contains_iff_mem, mem_neighbours_ofIntervals hsorted hproper]

theorem hasEdge_symm (hproper : ∀ iv ∈ intervals, iv.start ≤ iv.stop) (h : (ofIntervals intervals).hasEdge v w) :
    (ofIntervals intervals).hasEdge w v := by
  rw [hasEdge_ofIntervals hsorted hproper] at h ⊢
  obtain ⟨hne, iv, hiv, jv, hjv, hv, hw, hover⟩ := h
  have hback : jv.overlaps iv := by simpa only [Interval.overlaps, Bool.and_comm] using hover
  exact ⟨hne.symm, jv, hjv, iv, hiv, hw, hv, hback⟩

end

theorem mem_acrossCalls_ofIntervals :
    v ∈ (ofIntervals intervals).acrossCalls ↔ ∃ iv ∈ intervals, iv.var.id = v ∧ iv.spansCall := by
  simp [ofIntervals, mem_acrossCalls_addIntervals, empty]

end Interference

namespace Allocation

variable {a : Allocation} {d : Descriptor} {g : Interference} {iv : Interval} {intervals : List Interval} {v : VarId}
  {r : Reg}

/-- An interval may have a place: the frame, or a register that is given out, that a callee gives back if there is a
    call inside, and that no interval which overlaps has. -/
def Suits (a : Allocation) (d : Descriptor) (iv : Interval) : Loc → Prop
  | .spilled => True
  | .reg r => r ∈ d.allocatable ∧ (iv.spansCall → d.isCalleeSaved r) ∧
      ∀ jv ∈ a.intervals, jv.var.id ≠ iv.var.id → iv.overlaps jv → a.loc? jv.var.id ≠ some (.reg r)

theorem conflictAt?_eq_none_iff :
    a.conflictAt? d g v = none ↔ a.loc? v = some .spilled ∨
      ∃ r, a.loc? v = some (.reg r) ∧ r ∈ d.allocatable ∧ (v ∈ g.acrossCalls → d.isCalleeSaved r) ∧
        ∀ w ∈ g.neighbours v, (a.loc? w).getD (.reg ⟨0⟩) ≠ .reg r := by
  unfold conflictAt?
  split
  · next hloc => simp [hloc]
  · next hloc => simp [hloc]
  · next r hloc =>
    simp only [hloc, Option.some.injEq, reduceCtorEq, Loc.reg.injEq, exists_eq_left', false_or]
    split
    · next hr => simp [hr]
    · next hr =>
      split
      · next hcall =>
        simp_all
      · next hcall =>
        simp_all

theorem check_eq_none_iff (hsorted : a.intervals.Pairwise fun iv jv => iv.start ≤ jv.start)
    (hnodup : (a.intervals.map (·.var.id)).Nodup) (hproper : ∀ iv ∈ a.intervals, iv.start ≤ iv.stop) :
    a.check d = none ↔ ∀ iv ∈ a.intervals, ∃ loc, a.loc? iv.var.id = some loc ∧ a.Suits d iv loc := by
  -- A variable has one interval, so what the graph says of the variable is said of the interval.
  have hsame : ∀ iv ∈ a.intervals, ∀ jv ∈ a.intervals, jv.var.id = iv.var.id → jv = iv := fun iv hiv jv hjv hid =>
    inj_on_of_nodup_map hnodup hjv hiv hid
  have hkey : a.check d = none ↔
      ∀ iv ∈ a.intervals, a.conflictAt? d (Interference.ofIntervals a.intervals) iv.var.id = none := by
    simp only [check, findSome?_eq_none_iff, Std.ExtTreeMap.mem_keys, Interference.mem_edges_ofIntervals hsorted]
    grind
  simp only [hkey, conflictAt?_eq_none_iff, Interference.mem_neighbours_ofIntervals hsorted hproper,
    Interference.mem_acrossCalls_ofIntervals]
  constructor
  · intro h iv hiv
    rcases h iv hiv with hloc | ⟨r, hloc, hr, hcall, hshared⟩
    · exact ⟨.spilled, hloc, trivial⟩
    · refine ⟨.reg r, hloc, hr, fun hspans => hcall ⟨iv, hiv, rfl, hspans⟩, fun jv hjv hne hover hjloc => ?_⟩
      exact hshared jv.var.id ⟨hne.symm, iv, hiv, jv, hjv, rfl, rfl, hover⟩ (by rw [hjloc]; rfl)
  · intro h iv hiv
    obtain ⟨loc, hloc, hsuits⟩ := h iv hiv
    cases loc with
    | spilled => exact .inl hloc
    | reg r =>
      obtain ⟨hr, hcall, hshared⟩ := hsuits
      refine .inr ⟨r, hloc, hr, ?_, ?_⟩
      · rintro ⟨jv, hjv, hid, hspans⟩
        exact hcall (hsame iv hiv jv hjv hid ▸ hspans)
      · rintro _ ⟨hne, iv', hiv', jv, hjv, hid, rfl, hover⟩
        -- The neighbour has a place of its own, so none is made up for it.
        obtain ⟨jloc, hjloc, -⟩ := h jv hjv
        have hapart := hshared jv hjv hne.symm (hsame iv hiv iv' hiv' hid ▸ hover)
        rw [hjloc] at hapart ⊢
        exact fun heq => hapart (congrArg some heq)

theorem isCalleeSaved_of_mem_candidates (hspans : iv.spansCall) (hr : r ∈ Scan.candidates d iv) :
    d.isCalleeSaved r := by
  rw [Scan.candidates, if_pos hspans] at hr
  exact (mem_filter.1 hr).2

theorem check_scan (hsorted : intervals.Pairwise fun iv jv => iv.before jv) (hnodup : (intervals.map (·.var.id)).Nodup)
    (hproper : ∀ iv ∈ intervals, iv.start ≤ iv.stop) (hintervals : a.intervals = intervals)
    (hlocs : a.locs = Scan.run d intervals) :
    a.check d = none ∧ ∀ iv ∈ intervals, ∃ loc, a.loc? iv.var.id = some loc ∧ a.Suits d iv loc := by
  subst hintervals
  have hstart : a.intervals.Pairwise fun iv jv => iv.start ≤ jv.start := hsorted.imp Interval.start_le_of_before
  obtain ⟨hplaced, hapart⟩ := Scan.run_sound (d := d) hnodup hstart
  rw [← hlocs] at hplaced hapart
  have hsuits : ∀ iv ∈ a.intervals, ∃ loc, a.loc? iv.var.id = some loc ∧ a.Suits d iv loc := by
    intro iv hiv
    obtain ⟨loc, hloc, hcandidate⟩ := hplaced iv hiv
    refine ⟨loc, hloc, ?_⟩
    cases loc with
    | spilled => trivial
    | reg r =>
      have hr := hcandidate r rfl
      refine ⟨mem_allocatable_of_mem_candidates hr, fun hspans => isCalleeSaved_of_mem_candidates hspans hr, ?_⟩
      exact fun jv hjv hne hover => hapart iv hiv jv hjv hne.symm hover r hloc
  exact ⟨(check_eq_none_iff hstart hnodup hproper).2 hsuits, hsuits⟩

/-- Five intervals, of which more overlap than there are registers; two of them have a call inside. -/
def crowded : List Interval :=
  let w := Width.w64
  [⟨⟨0, w⟩, 0, 10, false⟩, ⟨⟨1, w⟩, 0, 8, true⟩, ⟨⟨2, w⟩, 2, 12, true⟩, ⟨⟨3, w⟩, 4, 6, false⟩, ⟨⟨4, w⟩, 7, 9, false⟩]

theorem check_scan_crowded :
    (crowded.Pairwise fun iv jv => iv.before jv) ∧ (crowded.map (·.var.id)).Nodup ∧
      (∀ iv ∈ crowded, iv.start ≤ iv.stop) ∧
      ∃ a : Allocation, a.intervals = crowded ∧ a.locs = Scan.run smallTarget crowded ∧
        a.check smallTarget = none ∧ (∀ iv ∈ crowded, ∃ loc, a.loc? iv.var.id = some loc ∧ a.Suits smallTarget iv loc) ∧
        -- The first interval loses its register to the fourth, and the third one never gets one.
        crowded.map (a.loc? ·.var.id) =
          [some .spilled, some (.reg ⟨2⟩), some .spilled, some (.reg ⟨1⟩), some (.reg ⟨1⟩)] := by
  have hsorted : crowded.Pairwise fun iv jv => iv.before jv := by decide
  have hnodup : (crowded.map (·.var.id)).Nodup := by decide
  have hproper : ∀ iv ∈ crowded, iv.start ≤ iv.stop := by decide
  obtain ⟨hcheck, hsuits⟩ := check_scan (a := ⟨"f", Scan.run smallTarget crowded, crowded, [], [], []⟩)
    hsorted hnodup hproper rfl rfl
  exact ⟨hsorted, hnodup, hproper, _, rfl, rfl, hcheck, hsuits, by decide⟩

/-- The graph joins exactly the different variables whose intervals have a position in common, and the check, which
    goes over the graph, accepts exactly the allocations in which every interval has a place that suits it. -/
theorem check_exact (hsorted : a.intervals.Pairwise fun iv jv => iv.start ≤ jv.start)
    (hnodup : (a.intervals.map (·.var.id)).Nodup) (hproper : ∀ iv ∈ a.intervals, iv.start ≤ iv.stop) :
    (∀ v w, (Interference.ofIntervals a.intervals).hasEdge v w ↔
      v ≠ w ∧ ∃ iv ∈ a.intervals, ∃ jv ∈ a.intervals, iv.var.id = v ∧ jv.var.id = w ∧ iv.overlaps jv) ∧
    (∀ iv ∈ a.intervals, ∀ jv ∈ a.intervals,
      iv.overlaps jv ↔ ∃ pos, (iv.start ≤ pos ∧ pos ≤ iv.stop) ∧ jv.start ≤ pos ∧ pos ≤ jv.stop) ∧
    (∀ v w, (Interference.ofIntervals a.intervals).hasEdge v w → (Interference.ofIntervals a.intervals).hasEdge w v) ∧
    (∀ v, (Interference.ofIntervals a.intervals).hasEdge v v = false) ∧
    ∀ d, a.check d = none ↔ ∀ iv ∈ a.intervals, ∃ loc, a.loc? iv.var.id = some loc ∧ a.Suits d iv loc := by
  have hedge := fun v w => Interference.hasEdge_ofIntervals (v := v) (w := w) hsorted hproper
  refine ⟨hedge, fun iv hiv jv hjv => Interval.overlaps_iff (hproper iv hiv) (hproper jv hjv),
    fun v w => Interference.hasEdge_symm hsorted hproper, fun v => ?_,
    fun d => check_eq_none_iff hsorted hnodup hproper⟩
  exact Bool.eq_false_iff.2 fun h => ((hedge v v).1 h).1 rfl

/-- Places for `crowded`: two intervals that do not overlap share the first register, and `r` is the register of the
    second interval, which has a call inside. -/
def crowdedPlaces (r : Reg) : Allocation :=
  ⟨"f", [(0, .spilled), (1, .reg r), (2, .spilled), (3, .reg ⟨1⟩), (4, .reg ⟨1⟩)], crowded, [], [], []⟩

/-- The second register suits the second interval. The first one does not, since the callee may change it and two
    intervals that overlap have it already. -/
theorem check_exact_crowded :
    (crowded.Pairwise fun iv jv => iv.start ≤ jv.start) ∧ (crowded.map (·.var.id)).Nodup ∧
      (∀ iv ∈ crowded, iv.start ≤ iv.stop) ∧
      (Interference.ofIntervals crowded).hasEdge 1 4 ∧ ¬(Interference.ofIntervals crowded).hasEdge 3 4 ∧
      (∀ iv ∈ crowded, ∃ loc, (crowdedPlaces ⟨2⟩).loc? iv.var.id = some loc ∧ (crowdedPlaces ⟨2⟩).Suits smallTarget iv loc) ∧
      ¬∀ iv ∈ crowded, ∃ loc, (crowdedPlaces ⟨1⟩).loc? iv.var.id = some loc ∧ (crowdedPlaces ⟨1⟩).Suits smallTarget iv loc := by
  have hsorted : crowded.Pairwise fun iv jv => iv.start ≤ jv.start := by decide
  have hnodup : (crowded.map (·.var.id)).Nodup := by decide
  have hproper : ∀ iv ∈ crowded, iv.start ≤ iv.stop := by decide
  obtain ⟨hedge, -, -, -, hgood⟩ := check_exact (a := crowdedPlaces ⟨2⟩) hsorted hnodup hproper
  obtain ⟨-, -, -, -, hbad⟩ := check_exact (a := crowdedPlaces ⟨1⟩) hsorted hnodup hproper
  refine ⟨hsorted, hnodup, hproper, (hedge 1 4).2 (by decide), fun h => ?_, ?_, ?_⟩
  · exact absurd ((hedge 3 4).1 h) (by decide)
  · exact (hgood smallTarget).1 (by cbv)
  · exact fun h => absurd ((hbad smallTarget).2 h) (by cbv; simp)

end Allocation

end RegisterCompiler
