import RegisterCompiler.Allocation.Interval
import RegisterCompiler.Proofs.Liveness

/-!
# Where intervals reach

The interval of a variable takes in every place where the variable occurs. So it reaches from before to behind
every place where the variable is live, and a call over which the variable stays live lies strictly inside.
-/

namespace RegisterCompiler.IR

open List

variable {occurrences : List (VarId × Int)} {code : List Instr}

/-! ## Positions -/

/-- The positions of a block from its beginning to its end, that of the instruction `k` at the index `k + 1`. -/
def BlockPositions.marks (p : BlockPositions) : List Int := p.start :: (p.code ++ [p.stop])

def positionsFrom (pos : Int) (code : List Instr) : BlockPositions :=
  ⟨pos, (codePositions pos code).1, (codePositions pos code).2⟩

theorem marks_positionsFrom_nil (pos : Int) : (positionsFrom pos []).marks = [pos, pos] := rfl

theorem marks_positionsFrom_cons (pos : Int) (i : Instr) (rest : List Instr) :
    (positionsFrom pos (i :: rest)).marks = pos :: (positionsFrom (if i.isPhi then pos else pos + 2) rest).marks := rfl

theorem length_codePositions (pos : Int) (code : List Instr) : (codePositions pos code).1.length = code.length := by
  induction code generalizing pos with
  | nil => rfl
  | cons i rest ih => simp [codePositions, ih]

theorem pairwise_marks (pos : Int) (code : List Instr) : (positionsFrom pos code).marks.Pairwise (· ≤ ·) := by
  induction code generalizing pos with
  | nil => simp [marks_positionsFrom_nil]
  | cons i rest ih =>
    rw [marks_positionsFrom_cons, pairwise_cons]
    refine ⟨fun q hq => ?_, ih _⟩
    have hnext : pos ≤ if i.isPhi then pos else pos + 2 := by split <;> omega
    have hhead := pairwise_cons.1 (ih (if i.isPhi then pos else pos + 2))
    rcases mem_cons.1 hq with rfl | hq
    · exact hnext
    · exact Int.le_trans hnext (hhead.1 q hq)

theorem marks_succ {pos : Int} {k : Nat} {i : Instr} (hi : code[k]? = some i) (hphi : i.isPhi = false) {p q : Int}
    (hp : (positionsFrom pos code).marks[k]? = some p) (hq : (positionsFrom pos code).marks[k + 1]? = some q) :
    q = p + 2 := by
  induction code generalizing pos k with
  | nil => simp at hi
  | cons j rest ih =>
    rw [marks_positionsFrom_cons] at hp hq
    cases k with
    | zero =>
      cases hi
      simp only [getElem?_cons_zero, Option.some.injEq, getElem?_cons_succ] at hp hq
      rw [hphi] at hq
      cases hp
      exact (Option.some.inj hq).symm
    | succ k =>
      simp only [getElem?_cons_succ] at hi hp hq
      exact ih hi hp hq

theorem marks_phi {pos : Int} {k : Nat} (hk : k ≤ (code.takeWhile Instr.isPhi).length) :
    (positionsFrom pos code).marks[k]? = some pos := by
  induction code generalizing k with
  | nil => simp at hk; simp [hk, marks_positionsFrom_nil]
  | cons j rest ih =>
    rw [marks_positionsFrom_cons]
    cases k with
    | zero => rfl
    | succ k =>
      rw [takeWhile_cons] at hk
      split at hk
      · next hj => rw [getElem?_cons_succ, if_pos hj]; exact ih (by simpa using hk)
      · simp at hk

theorem mem_placed {f : Function} {b : Block} {p : BlockPositions} (h : (b, p) ∈ f.placed) :
    b ∈ f.blocks ∧ p = positionsFrom p.start b.code := by
  refine ⟨(of_mem_zip h).1, ?_⟩
  have hgen : ∀ (blocks : List Block) (start : Int), (b, p) ∈ blocks.zip (blockPositions start blocks) →
      p = positionsFrom p.start b.code := by
    intro blocks
    induction blocks with
    | nil => intro start hmem; simp at hmem
    | cons c rest ih =>
      intro start hmem
      rcases mem_cons.1 hmem with heq | hmem
      · cases heq; rfl
      · exact ih _ hmem
  exact hgen _ _ h

theorem length_blockPositions (start : Int) (blocks : List Block) :
    (blockPositions start blocks).length = blocks.length := by
  induction blocks generalizing start with
  | nil => rfl
  | cons b rest ih => simp [blockPositions, ih]

theorem exists_placed {f : Function} {b : Block} (hb : b ∈ f.blocks) : ∃ p, (b, p) ∈ f.placed := by
  obtain ⟨k, hk, rfl⟩ := getElem_of_mem hb
  have hk' : k < f.positions.length := by simpa [Function.positions, length_blockPositions] using hk
  exact ⟨f.positions[k], mem_iff_getElem.2 ⟨k, by rw [Function.placed, length_zip]; exact Nat.lt_min.2 ⟨hk, hk'⟩,
    by simp [Function.placed]⟩⟩

theorem Function.WellFormed.getElem?_of_placed {f : Function} (h : f.WellFormed) {b : Block} {p : BlockPositions}
    (hp : (b, p) ∈ f.placed) : ∃ k : Nat, b.id = k ∧ f.blocks[k]? = some b ∧ f.positions[k]? = some p := by
  obtain ⟨k, hk⟩ := mem_iff_getElem?.1 hp
  obtain ⟨hb, hp⟩ := getElem?_zip_eq_some.1 hk
  exact ⟨k, h.block k b hb, hb, hp⟩

/-! ## Occurrences -/

theorem intervalOf_eq_some {calls : List Int} {v : Var} {iv : Interval} (h : intervalOf occurrences calls v = some iv) :
    iv.var = v ∧ (∀ pos, (v.id, pos) ∈ occurrences → iv.start ≤ pos ∧ pos ≤ iv.stop) ∧
      ∀ c ∈ calls, iv.start < c → c < iv.stop → iv.spansCall = true := by
  unfold intervalOf at h
  split at h
  · cases h
  · next p rest hpos =>
    cases h
    have hmin := (min?_eq_some_iff.1 (show (p :: rest).min? = some (rest.foldl min p) from rfl)).2
    have hmax := (max?_eq_some_iff.1 (show (p :: rest).max? = some (rest.foldl max p) from rfl)).2
    refine ⟨rfl, fun pos hocc => ?_, fun c hc hstart hstop => ?_⟩
    · have hmem : pos ∈ p :: rest := hpos ▸ mem_map.2 ⟨(v.id, pos), by simpa using hocc, rfl⟩
      exact ⟨hmin pos hmem, hmax pos hmem⟩
    · simp only [any_eq_true, Bool.and_eq_true, decide_eq_true_eq]
      exact ⟨c, hc, hstart, hstop⟩

theorem exists_intervalOf (calls : List Int) {v : Var} {pos : Int} (h : (v.id, pos) ∈ occurrences) :
    ∃ iv, intervalOf occurrences calls v = some iv := by
  have hmem : pos ∈ (occurrences.filter (·.1 = v.id)).map Prod.snd :=
    mem_map.2 ⟨(v.id, pos), by simpa using h, rfl⟩
  unfold intervalOf
  split
  · next hnil => rw [hnil] at hmem; simp at hmem
  · exact ⟨_, rfl⟩

namespace Function

variable {f : Function} {i : Instr} {x y : Int} {edges : List PhiEdge}

def allOccurrences (f : Function) : List (VarId × Int) := f.occurrences f.liveIn f.liveOut

theorem mem_intervals {iv : Interval} :
    iv ∈ f.intervals ↔ ∃ v ∈ f.vars, intervalOf f.allOccurrences f.callPositions v = some iv := by
  rw [intervals, mem_mergeSort, mem_filterMap]
  rfl

theorem mem_occurrences_of_placed {b : Block} {p : BlockPositions} (hp : (b, p) ∈ f.placed) {v : VarId} {pos : Int}
    (h : v ∈ setAt f.liveOut b.id ∧ pos = p.stop ∨ v ∈ setAt f.liveIn b.id ∧ pos = p.start ∨
      ∃ i here, (i, here) ∈ b.code.zip p.code ∧ (v, pos) ∈ f.occurrencesAt f.positions b p.start i here) :
    (v, pos) ∈ f.allOccurrences := by
  refine mem_append_right _ (mem_flatMap.2 ⟨(b, p), hp, ?_⟩)
  simp only [mem_append, mem_map, Std.ExtTreeSet.mem_toList, mem_flatMap, Prod.mk.injEq, Prod.exists]
  rcases h with ⟨hv, rfl⟩ | ⟨hv, rfl⟩ | hcode
  · exact .inl (.inl ⟨v, hv, rfl, rfl⟩)
  · exact .inl (.inr ⟨v, hv, rfl, rfl⟩)
  · exact .inr hcode

variable {b c : Block} {p q : BlockPositions} {v : VarId} {u : Var} {k : Nat} {pos : Int}

theorem WellFormed.occurs_liveAfter (h : f.WellFormed) (hp : (b, p) ∈ f.placed) (hv : v ∈ f.liveAfter f.liveIn b) :
    (v, p.stop) ∈ f.allOccurrences := by
  refine mem_occurrences_of_placed hp (.inl ⟨?_, rfl⟩)
  rwa [h.setAt_liveOut (mem_placed hp).1]

theorem occurs_liveIn (hp : (b, p) ∈ f.placed) (hv : v ∈ setAt f.liveIn b.id) :
    (v, p.start) ∈ f.allOccurrences :=
  mem_occurrences_of_placed hp (.inr (.inl ⟨hv, rfl⟩))

theorem WellFormed.eq_of_placed (h : f.WellFormed) (hp : (b, p) ∈ f.placed) (hq : (c, q) ∈ f.placed)
    (hid : b.id = c.id) : b = c ∧ p = q := by
  obtain ⟨k, hbk, hb, hp⟩ := h.getElem?_of_placed hp
  obtain ⟨l, hcl, hc, hq⟩ := h.getElem?_of_placed hq
  obtain rfl : k = l := Int.ofNat.inj (hbk.symm.trans (hid.trans hcl))
  exact ⟨Option.some.inj (hb.symm.trans hc), Option.some.inj (hp.symm.trans hq)⟩

theorem WellFormed.occurs_param (h : f.WellFormed) (hp : (b, p) ∈ f.placed) (hentry : b.id = f.entry)
    (hu : u ∈ f.params) : (u.id, p.start) ∈ f.allOccurrences := by
  refine mem_append_left _ (mem_map.2 ⟨u, hu, ?_⟩)
  have hstart : (f.placed.find? fun placed => placed.1.id == f.entry).map (·.2.start) = some p.start := by
    cases hfind : f.placed.find? (fun placed => placed.1.id == f.entry) with
    | none => exact absurd (find?_eq_none.1 hfind _ hp) (by simp [hentry])
    | some placed =>
      obtain ⟨c, q⟩ := placed
      have hid : c.id = f.entry := by simpa using find?_some hfind
      obtain ⟨-, rfl⟩ := h.eq_of_placed hp (mem_of_find?_eq_some hfind) (hentry.trans hid.symm)
      rfl
  exact congrArg (fun start => (u.id, start.getD 0)) hstart

section

variable (hp : (b, p) ∈ f.placed)
include hp

theorem mem_zip_of_placed (hi : b.code[k]? = some i) (hpos : p.marks[k + 1]? = some pos) :
    (i, pos) ∈ b.code.zip p.code := by
  have hlen : p.code.length = b.code.length := by
    rw [(mem_placed hp).2]
    exact length_codePositions _ _
  have hk : k < b.code.length := (List.getElem?_eq_some_iff.1 hi).1
  have hcode : p.code[k]? = some pos := by
    rwa [BlockPositions.marks, getElem?_cons_succ, getElem?_append_left (hlen ▸ hk)] at hpos
  exact mem_iff_getElem?.2 ⟨k, getElem?_zip_eq_some.2 ⟨hi, hcode⟩⟩

theorem occurs_instr (hi : b.code[k]? = some i) (hphi : i.isPhi = false) (hu : i.dest? = some u ∨ u ∈ i.usedVars)
    (hpos : p.marks[k + 1]? = some pos) : (u.id, pos) ∈ f.allOccurrences := by
  refine mem_occurrences_of_placed hp (.inr (.inr ⟨i, pos, mem_zip_of_placed hp hi hpos, ?_⟩))
  have hmem : u ∈ i.dest?.toList ++ i.usedVars := by simpa using hu
  cases i with
  | phi dest edges => simp [Instr.isPhi] at hphi
  | _ => exact mem_map.2 ⟨u, hmem, rfl⟩

theorem occurs_phi {dest : Var} (hphi : .phi dest edges ∈ b.code)
    (hpos : pos = p.start ∨ ∃ c ∈ f.predecessors b.id, pos = stopAt f.positions c) :
    (dest.id, pos) ∈ f.allOccurrences := by
  obtain ⟨k, hk, hi⟩ := getElem_of_mem hphi
  have hlen : k < p.code.length := by
    rw [(mem_placed hp).2]
    simpa [positionsFrom, length_codePositions] using hk
  have hzip : (Instr.phi dest edges, p.code[k]) ∈ b.code.zip p.code := by
    refine mem_iff_getElem?.2 ⟨k, getElem?_zip_eq_some.2 ⟨?_, getElem?_eq_getElem hlen⟩⟩
    rw [getElem?_eq_getElem hk, hi]
  refine mem_occurrences_of_placed hp (.inr (.inr ⟨_, _, hzip, ?_⟩))
  rcases hpos with rfl | ⟨c, hc, rfl⟩
  · exact mem_cons_self
  · exact mem_cons_of_mem _ (mem_map.2 ⟨c, hc, rfl⟩)

/-! ## Live variables -/

theorem marks_le {j k : Nat} (hjk : j ≤ k) (hx : p.marks[j]? = some x) (hy : p.marks[k]? = some y) : x ≤ y := by
  rw [(mem_placed hp).2] at hx hy
  obtain ⟨hj, rfl⟩ := List.getElem?_eq_some_iff.1 hx
  obtain ⟨hk, rfl⟩ := List.getElem?_eq_some_iff.1 hy
  rcases Nat.lt_or_eq_of_le hjk with hlt | rfl
  · exact pairwise_iff_getElem.1 (pairwise_marks _ _) j k hj hk hlt
  · exact Int.le_refl _

theorem start_le_marks {x : Int} (hx : p.marks[k]? = some x) : p.start ≤ x :=
  marks_le hp (Nat.zero_le k) rfl hx

theorem marks_le_stop {x : Int} (hx : p.marks[k]? = some x) : x ≤ p.stop := by
  have hk : k ≤ p.code.length + 1 := by
    have := (List.getElem?_eq_some_iff.1 hx).1
    simp only [BlockPositions.marks, length_cons, length_append, length_nil] at this
    omega
  exact marks_le hp hk hx (by simp [BlockPositions.marks])

theorem exists_mark (hk : k ≤ b.code.length + 1) : ∃ x, p.marks[k]? = some x := by
  have hlen : p.code.length = b.code.length := by
    rw [(mem_placed hp).2]
    exact length_codePositions _ _
  exact ⟨_, getElem?_eq_getElem (by simp [BlockPositions.marks, hlen]; omega)⟩

end

/-- What is live before a rest is live before what stands before it, unless that defines it. -/
theorem LiveFrom.append {pre rest : List Instr} (hlive : f.LiveFrom v b rest)
    (hpre : v ∉ (pre.filterMap Instr.dest?).map Var.id) : f.LiveFrom v b (pre ++ rest) := by
  induction pre with
  | nil => exact hlive
  | cons i pre ih =>
    rw [mem_dests_cons, not_or] at hpre
    exact liveFrom_cons.2 (.inr ⟨hpre.1, ih hpre.2⟩)

theorem WellFormed.occurs_before (h : f.WellFormed) (hp : (b, p) ∈ f.placed) (hlive : f.LiveAt v b k)
    (hpos : p.marks[k]? = some pos) : ∃ x ≤ pos, (v, x) ∈ f.allOccurrences := by
  have hb := (mem_placed hp).1
  by_cases hdef : v ∈ ((b.code.take k).filterMap Instr.dest?).map Var.id
  · -- It is defined further up in the block.
    obtain ⟨u, hu, rfl⟩ := mem_map.1 hdef
    obtain ⟨i, hi, hdest⟩ := mem_filterMap.1 hu
    obtain ⟨j, hj⟩ := getElem?_of_mem hi
    rw [getElem?_take] at hj
    split at hj
    · next hjk =>
      cases hphi : i.isPhi with
      | true =>
        cases i <;> simp only [Instr.isPhi, Bool.false_eq_true] at hphi
        cases hdest
        exact ⟨_, start_le_marks hp hpos, occurs_phi hp (mem_of_getElem? hj) (.inl rfl)⟩
      | false =>
        obtain ⟨x, hx⟩ := exists_mark hp (k := j + 1) (by
          have := (List.getElem?_eq_some_iff.1 hj).1
          omega)
        exact ⟨x, marks_le hp hjk hx hpos, occurs_instr hp hj hphi (.inl hdest) hx⟩
    · cases hj
  · -- It is live at the beginning of the block.
    have hall : f.LiveFrom v b b.code := by
      have := (hlive.liveFrom h hb).append hdef
      rwa [take_append_drop] at this
    by_cases hentered : v ∈ f.entered b
    · rw [Function.entered] at hentered
      split at hentered
      · next hentry =>
        obtain ⟨u, hu, rfl⟩ := mem_map.1 (VarSet.mem_ofVars.1 hentered)
        exact ⟨_, start_le_marks hp hpos, h.occurs_param hp hentry hu⟩
      · simp at hentered
    · have hset : v ∈ setAt f.liveIn b.id := by
        rw [h.setAt_liveIn hb, mem_liveBefore]
        exact ⟨hentered, hall.imp_right And.symm⟩
      exact ⟨_, start_le_marks hp hpos, occurs_liveIn hp hset⟩

theorem WellFormed.occurs_after (h : f.WellFormed) (hp : (b, p) ∈ f.placed) (hlive : f.LiveAt v b k)
    (hpos : p.marks[k + 1]? = some pos) : ∃ x, pos ≤ x ∧ (v, x) ∈ f.allOccurrences := by
  rcases hlive.liveFrom h (mem_placed hp).1 with huse | ⟨-, hafter⟩
  · obtain ⟨i, hi, hvi⟩ := exists_of_mem_exposedUses huse
    obtain ⟨u, hu, rfl⟩ := mem_map.1 hvi
    obtain ⟨j, hj⟩ := getElem?_of_mem hi
    rw [getElem?_drop] at hj
    have hphi : i.isPhi = false := by
      cases i <;> first | rfl | simp [Instr.usedVars, Instr.uses] at hu
    obtain ⟨x, hx⟩ := exists_mark hp (k := k + j + 1) (by
      have := (List.getElem?_eq_some_iff.1 hj).1
      omega)
    exact ⟨x, marks_le hp (by omega) hpos hx, occurs_instr hp hj hphi (.inr hu) hx⟩
  · exact ⟨_, marks_le_stop hp hpos, h.occurs_liveAfter hp hafter⟩

/-! ## Intervals -/

variable {iv : Interval}

theorem mem_interval_of_occurs (hiv : iv ∈ f.intervals) (hocc : (iv.var.id, pos) ∈ f.allOccurrences) :
    iv.start ≤ pos ∧ pos ≤ iv.stop := by
  obtain ⟨u, -, hof⟩ := mem_intervals.1 hiv
  obtain ⟨rfl, hall, -⟩ := intervalOf_eq_some hof
  exact hall pos hocc

theorem WellFormed.exists_interval (h : f.WellFormed) (hu : u ∈ f.vars) : ∃ iv ∈ f.intervals, iv.var = u := by
  have hocc : ∃ pos, (u.id, pos) ∈ f.allOccurrences := by
    rcases mem_append.1 hu with hparam | hdest
    · obtain ⟨b, hb⟩ := Option.isSome_iff_exists.1 h.entry
      obtain ⟨hb, hentry⟩ := h.block?_eq_some_iff.1 hb
      obtain ⟨p, hp⟩ := exists_placed hb
      exact ⟨_, h.occurs_param hp hentry hparam⟩
    · obtain ⟨b, hb, hdest⟩ := mem_flatMap.1 hdest
      obtain ⟨i, hi, hdest⟩ := mem_filterMap.1 hdest
      obtain ⟨p, hp⟩ := exists_placed hb
      obtain ⟨k, hk⟩ := getElem?_of_mem hi
      cases hphi : i.isPhi with
      | true =>
        cases i <;> simp only [Instr.isPhi, Bool.false_eq_true] at hphi
        cases hdest
        exact ⟨_, occurs_phi hp hi (.inl rfl)⟩
      | false =>
        obtain ⟨x, hx⟩ := exists_mark hp (k := k + 1) (by
          have := (List.getElem?_eq_some_iff.1 hk).1
          omega)
        exact ⟨x, occurs_instr hp hk hphi (.inl hdest) hx⟩
  obtain ⟨pos, hocc⟩ := hocc
  obtain ⟨iv, hiv⟩ := exists_intervalOf f.callPositions hocc
  exact ⟨iv, mem_intervals.2 ⟨u, hu, hiv⟩, (intervalOf_eq_some hiv).1⟩

/-- The interval of a variable that is live before an instruction reaches from before it to it. -/
theorem WellFormed.interval_of_liveAt (h : f.WellFormed) (hp : (b, p) ∈ f.placed) (hiv : iv ∈ f.intervals)
    (hlive : f.LiveAt iv.var.id b k) (hx : p.marks[k]? = some x) (hy : p.marks[k + 1]? = some y) :
    iv.start ≤ x ∧ y ≤ iv.stop := by
  obtain ⟨s, hs, hbefore⟩ := h.occurs_before hp hlive hx
  obtain ⟨t, ht, hafter⟩ := h.occurs_after hp hlive hy
  exact ⟨Int.le_trans (mem_interval_of_occurs hiv hbefore).1 hs,
    Int.le_trans ht (mem_interval_of_occurs hiv hafter).2⟩

theorem LiveAt.index_le (hlive : f.LiveAt v b k) : k ≤ b.code.length := by
  cases hlive with
  | read hi | pass hi => exact (List.getElem?_eq_some_iff.1 hi).1.le
  | phi | edge => exact Nat.le_refl _

theorem WellFormed.mem_vars_of_liveAt (h : f.WellFormed) (hlive : f.LiveAt v b k) (hb : b ∈ f.blocks) :
    ∃ u ∈ f.vars, u.id = v := by
  induction hlive with
  | read hi huse =>
    obtain ⟨u, hu, rfl⟩ := mem_map.1 huse
    exact ⟨u, h.mem_vars_of_use hb (mem_of_getElem? hi) hu, rfl⟩
  | pass _ _ _ ih => exact ih hb
  | @phi _ _ _ hc _ u hmove huse => exact ⟨u, h.readable_phiMove (h.block?_eq_some_iff.1 hc).1 hmove, huse⟩
  | edge _ hc _ ih => exact ih (h.block?_eq_some_iff.1 hc).1

/-- The interval of a variable takes in a position. -/
def Reaches (f : Function) (v : VarId) (pos : Int) : Prop :=
  ∃ iv ∈ f.intervals, iv.var.id = v ∧ iv.start ≤ pos ∧ pos ≤ iv.stop

theorem WellFormed.reaches_of_occurs (h : f.WellFormed) (hu : u ∈ f.vars) (hocc : (u.id, pos) ∈ f.allOccurrences) :
    f.Reaches u.id pos := by
  obtain ⟨iv, hiv, rfl⟩ := h.exists_interval hu
  exact ⟨iv, hiv, rfl, mem_interval_of_occurs hiv hocc⟩

variable (h : f.WellFormed) (hp : (b, p) ∈ f.placed)
include h hp

theorem WellFormed.reaches_of_liveAt (hlive : f.LiveAt v b k)
    (hpos : p.marks[k]? = some pos ∨ p.marks[k + 1]? = some pos) : f.Reaches v pos := by
  obtain ⟨u, hu, rfl⟩ := h.mem_vars_of_liveAt hlive (mem_placed hp).1
  obtain ⟨iv, hiv, rfl⟩ := h.exists_interval hu
  obtain ⟨x, hx⟩ := exists_mark hp (k := k) (Nat.le_succ_of_le hlive.index_le)
  obtain ⟨y, hy⟩ := exists_mark hp (k := k + 1) (Nat.succ_le_succ hlive.index_le)
  have hle := marks_le hp (Nat.le_succ k) hx hy
  obtain ⟨hstart, hstop⟩ := h.interval_of_liveAt hp hiv hlive hx hy
  refine ⟨iv, hiv, rfl, ?_⟩
  rcases hpos with hpos | hpos
  · cases hx.symm.trans hpos
    exact ⟨hstart, Int.le_trans hle hstop⟩
  · cases hy.symm.trans hpos
    exact ⟨Int.le_trans hstart hle, hstop⟩

theorem WellFormed.reaches_of_dest (hi : b.code[k]? = some i) (hdest : i.dest? = some u)
    (hpos : p.marks[k + 1]? = some pos) : f.Reaches u.id pos := by
  have hu := mem_vars_of_dest (mem_placed hp).1 (mem_of_getElem? hi) hdest
  refine h.reaches_of_occurs hu ?_
  cases hphi : i.isPhi with
  | false => exact occurs_instr hp hi hphi (.inl hdest) hpos
  | true =>
    obtain ⟨phis, body, last, hshape⟩ := h.shape b (mem_placed hp).1
    have hk : k + 1 ≤ (b.code.takeWhile Instr.isPhi).length := by
      rw [hshape.takeWhile_isPhi]
      exact (hshape.isPhi_iff hi).1 hphi
    cases i <;> simp only [Instr.isPhi, Bool.false_eq_true] at hphi
    cases hdest
    refine occurs_phi hp (mem_of_getElem? hi) (.inl ?_)
    rw [(mem_placed hp).2, marks_phi hk] at hpos
    exact (Option.some.inj hpos).symm

theorem WellFormed.reaches_of_phi (hphi : .phi u edges ∈ b.code) : f.Reaches u.id p.start :=
  h.reaches_of_occurs (mem_vars_of_dest (mem_placed hp).1 hphi rfl) (occurs_phi hp hphi (.inl rfl))

theorem WellFormed.reaches_of_param (hentry : b.id = f.entry) (hu : u ∈ f.params) : f.Reaches u.id p.start :=
  h.reaches_of_occurs (mem_append_left _ hu) (h.occurs_param hp hentry hu)

/-- A call over which a variable stays live lies inside its interval. -/
theorem WellFormed.spansCall_of_liveAt (hi : b.code[k]? = some i) (hcall : i.isCall) (hiv : iv ∈ f.intervals)
    (hlive : f.LiveAt iv.var.id b (k + 1)) (hother : i.dest?.map Var.id ≠ some iv.var.id) : iv.spansCall = true := by
  obtain ⟨phis, body, last, hshape⟩ := h.shape b (mem_placed hp).1
  have hk : k < b.code.length := (List.getElem?_eq_some_iff.1 hi).1
  have hphi : i.isPhi = false := by cases i <;> first | rfl | simp [Instr.isCall] at hcall
  -- The call does not end the block, so another instruction follows, which is no phi either.
  have hnext : k + 1 < b.code.length := by
    have hterm : i.isTerminator = false := by cases i <;> first | rfl | simp [Instr.isCall] at hcall
    have := (hshape.isTerminator_iff hi).not.1 (by simp [hterm])
    omega
  have hnextPhi : b.code[k + 1].isPhi = false := by
    have hle := (hshape.isPhi_iff hi).not.1 (by simp [hphi])
    have := (hshape.isPhi_iff (getElem?_eq_getElem hnext)).not.2 (by omega)
    simpa using this
  obtain ⟨x, hx⟩ := exists_mark hp (k := k) (by omega)
  obtain ⟨y, hy⟩ := exists_mark hp (k := k + 1) (by omega)
  obtain ⟨z, hz⟩ := exists_mark hp (k := k + 2) (by omega)
  have hstart := (h.interval_of_liveAt hp hiv (.pass hi hother hlive) hx hy).1
  have hstop := (h.interval_of_liveAt hp hiv hlive hy hz).2
  have hcallPos : y ∈ f.callPositions := by
    refine mem_flatMap.2 ⟨(b, p), hp, mem_map.2 ⟨(i, y), mem_filter.2 ⟨?_, hcall⟩, rfl⟩⟩
    exact mem_zip_of_placed hp hi hy
  rw [(mem_placed hp).2] at hx hy hz
  have hxy := marks_succ hi hphi hx hy
  have hyz := marks_succ (getElem?_eq_getElem hnext) hnextPhi hy hz
  obtain ⟨u, -, hof⟩ := mem_intervals.1 hiv
  exact (intervalOf_eq_some hof).2.2 y hcallPos (by omega) (by omega)

end Function

end RegisterCompiler.IR
