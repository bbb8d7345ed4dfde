import RegisterCompiler.Proofs.Descriptor
import RegisterCompiler.Proofs.Interference

/-!
# Spilling the interval that ends last is best

The scan spills an interval when all registers are taken, and then the one that ends last. No choice of intervals for
which the registers are enough keeps more of them: at every position that the scan has not come to yet, at least as many
of the intervals that it keeps will have ended as of those that the choice keeps (`Scan.Ahead`). This is so for a
register that was free, and if none was free, up to the end of the interval that is spilled nothing is different; behind
it all that the scan keeps has ended, and the choice had no more registers to keep anything else in.
-/

namespace RegisterCompiler

open List
open IR (Interval VarId)

def IR.Interval.covers (iv : Interval) (pos : Int) : Bool := iv.start ≤ pos && pos ≤ iv.stop

namespace Scan

variable {d : Descriptor} {s : Scan} {done : List Interval} {cur iv jv : Interval} {pos : Int} {r : Reg}
  {locs : List (VarId × Loc)} {kept : Interval → Bool} {a : Allocation} {other : Interval → Bool} {n : Nat}
  {v : VarId}

/-- The variables that places leave without a register. -/
def spilledVars (locs : List (VarId × Loc)) : Finset VarId :=
  (locs.map Prod.fst).toFinset.filter fun v => locs.lookup v = some .spilled

def regOf? (locs : List (VarId × Loc)) (iv : Interval) : Option Reg :=
  match locs.lookup iv.var.id with
  | some (.reg r) => some r
  | _ => none

def keeps (locs : List (VarId × Loc)) (iv : Interval) : Bool := (regOf? locs iv).isSome

theorem regOf?_eq_some_iff : regOf? locs iv = some r ↔ locs.lookup iv.var.id = some (.reg r) := by
  unfold regOf?
  rcases locs.lookup iv.var.id with _ | (q | _) <;> simp

theorem keeps_iff : keeps locs iv ↔ ∃ r, locs.lookup iv.var.id = some (.reg r) := by
  simp only [keeps, Option.isSome_iff_exists, regOf?_eq_some_iff]

theorem keeps_cons_of_ne {loc : Loc} (h : iv.var.id ≠ v) : keeps ((v, loc) :: locs) iv = keeps locs iv := by
  rw [keeps, regOf?, lookup_cons_of_ne h]
  rfl

theorem keeps_cons_reg : keeps ((iv.var.id, .reg r) :: locs) iv = true := keeps_iff.2 ⟨r, lookup_cons_self⟩

theorem keeps_assign (s : Scan) (cur : Interval) (r : Reg) : keeps (s.assign cur r).locs cur = true := keeps_cons_reg

theorem keeps_cons_spilled : keeps ((iv.var.id, .spilled) :: locs) iv = false := by
  rw [keeps, regOf?, lookup_cons_self]
  rfl

/-! ## Counting -/

/-- The number of the intervals of a choice that have ended before a position. -/
def ended (kept : Interval → Bool) (pos : Int) (intervals : List Interval) : Nat :=
  intervals.countP fun iv => kept iv && iv.stop < pos

/-- The number of the intervals of a choice that have not ended before a position. -/
def running (kept : Interval → Bool) (pos : Int) (intervals : List Interval) : Nat :=
  intervals.countP fun iv => kept iv && pos ≤ iv.stop

theorem ended_add_running (kept : Interval → Bool) (pos : Int) (intervals : List Interval) :
    ended kept pos intervals + running kept pos intervals = intervals.countP kept := by
  unfold ended running
  induction intervals with
  | nil => rfl
  | cons iv rest ih =>
    simp only [countP_cons]
    have hone : (if (kept iv && decide (iv.stop < pos)) = true then 1 else 0) +
        (if (kept iv && decide (pos ≤ iv.stop)) = true then 1 else 0) = if kept iv = true then 1 else 0 := by
      cases kept iv with
      | false => simp
      | true => by_cases hstop : iv.stop < pos <;> simp [hstop, Int.not_le.2, Int.not_lt.1]
    omega

theorem ended_le_countP (kept : Interval → Bool) (pos : Int) (intervals : List Interval) :
    ended kept pos intervals ≤ intervals.countP kept := by
  have := ended_add_running kept pos intervals
  omega

theorem ended_cons : ended kept pos (cur :: done) = ended kept pos done + if kept cur && cur.stop < pos then 1 else 0 :=
  countP_cons

theorem ended_congr (h : ∀ iv ∈ done, iv.stop < pos → kept iv = other iv) :
    ended kept pos done = ended other pos done := by
  refine countP_congr fun iv hiv => ?_
  by_cases hstop : iv.stop < pos
  · simp [h iv hiv hstop]
  · simp [hstop]

theorem ended_cons_of_kept (hcur : kept cur = true) :
    ended kept pos (cur :: done) = ended kept pos done + if cur.stop < pos then 1 else 0 := by
  simp [ended_cons, hcur]

theorem countP_eq_ended (h : ∀ iv ∈ done, kept iv → iv.stop < pos) : done.countP kept = ended kept pos done := by
  refine countP_congr fun iv hiv => ?_
  simpa using h iv hiv

/-- If all intervals of a choice have ended, another choice without one of them has all ended but one. -/
theorem countP_le_ended_add_one (hnodup : done.Nodup) (hiv : iv ∈ done)
    (hother : ∀ jv ∈ done, jv ≠ iv → other jv = kept jv) (h : ∀ jv ∈ done, kept jv → jv.stop < pos) :
    done.countP kept ≤ ended other pos done + 1 := by
  have hrest : ∀ jv ∈ done.erase iv, kept jv ↔ other jv && jv.stop < pos := by
    intro jv hjv
    obtain ⟨hne, hjv⟩ := hnodup.mem_erase_iff.1 hjv
    simpa [hother jv hjv hne] using h jv hjv
  calc done.countP kept
      = (iv :: done.erase iv).countP kept := (perm_cons_erase hiv).countP_eq _
    _ ≤ (done.erase iv).countP kept + 1 := by rw [countP_cons]; split <;> omega
    _ = ended other pos (done.erase iv) + 1 := congrArg (· + 1) (countP_congr hrest)
    _ ≤ ended other pos done + 1 := Nat.succ_le_succ erase_sublist.countP_le

/-! ## Staying ahead -/

/-- From the position `pos` on, at least as many of the intervals that the scan keeps have ended as of those of a
    choice. -/
def Ahead (kept : Interval → Bool) (done : List Interval) (pos : Int) (s : Scan) : Prop :=
  ∀ p, pos ≤ p → ended kept p done ≤ ended (keeps s.locs) p done

theorem Ahead.ended_cons_le (h : Ahead kept done pos s) (cur : Interval) {p : Int} (hp : pos ≤ p) :
    ended kept p (cur :: done) ≤ ended (keeps s.locs) p done + if cur.stop < p then 1 else 0 := by
  have := h p hp
  rw [ended_cons]
  by_cases hstop : cur.stop < p
  · simp only [hstop, decide_true, Bool.and_true, if_true]
    split <;> omega
  · simpa [hstop] using this

theorem Ahead.assign (h : Ahead kept done pos s) (hpos : pos ≤ cur.start) (hnew : ∀ iv ∈ done, iv.var.id ≠ cur.var.id) :
    Ahead kept (cur :: done) cur.start (s.assign cur r) := by
  intro p hp
  have hold : ended (keeps (s.assign cur r).locs) p done = ended (keeps s.locs) p done :=
    ended_congr fun iv hiv _ => keeps_cons_of_ne (hnew iv hiv)
  rw [ended_cons_of_kept (s.keeps_assign cur r), hold]
  exact h.ended_cons_le cur (hpos.trans hp)

theorem ended_spill (hnew : ∀ iv ∈ done, iv.var.id ≠ cur.var.id) (p : Int) :
    ended (keeps (s.spill cur).locs) p (cur :: done) = ended (keeps s.locs) p done := by
  have hself : keeps (s.spill cur).locs cur = false := keeps_cons_spilled
  rw [ended_cons, hself]
  exact ended_congr fun iv hiv _ => keeps_cons_of_ne (hnew iv hiv)

theorem Ahead.spill_of_not_kept (h : Ahead kept done pos s) (hpos : pos ≤ cur.start)
    (hnew : ∀ iv ∈ done, iv.var.id ≠ cur.var.id) (hkept : kept cur = false) :
    Ahead kept (cur :: done) cur.start (s.spill cur) := by
  intro p hp
  rw [ended_spill hnew, ended_cons, hkept]
  exact h p (hpos.trans hp)

section

variable (h : Ahead kept done pos s) (hpos : pos ≤ cur.start) (hproper : cur.start ≤ cur.stop)
include h hpos hproper

/-- When `n` registers are all taken, the scan keeps no fewer intervals than a choice can for which `n` are enough. -/
theorem Ahead.ended_le (hroom : running kept cur.start (cur :: done) ≤ n)
    (hfull : n ≤ running (keeps s.locs) cur.start done) (p : Int) :
    ended kept p (cur :: done) ≤ done.countP (keeps s.locs) := by
  have hcur : ended kept cur.start (cur :: done) = ended kept cur.start done := by
    rw [ended_cons]
    simp [Int.not_lt.2 hproper]
  calc ended kept p (cur :: done)
      ≤ (cur :: done).countP kept := ended_le_countP ..
    _ = ended kept cur.start done + running kept cur.start (cur :: done) := by rw [← hcur, ended_add_running]
    _ ≤ ended (keeps s.locs) cur.start done + running (keeps s.locs) cur.start done :=
      Nat.add_le_add (h cur.start hpos) (hroom.trans hfull)
    _ = done.countP (keeps s.locs) := ended_add_running ..

theorem Ahead.spill (hnew : ∀ iv ∈ done, iv.var.id ≠ cur.var.id)
    (hlast : ∀ iv ∈ done, keeps s.locs iv → iv.stop ≤ cur.stop) (hroom : running kept cur.start (cur :: done) ≤ n)
    (hfull : n ≤ running (keeps s.locs) cur.start done) : Ahead kept (cur :: done) cur.start (s.spill cur) := by
  intro p hp
  rw [ended_spill hnew]
  by_cases hstop : cur.stop < p
  · -- All that is kept has ended.
    rw [← countP_eq_ended fun iv hiv hkeeps => Int.lt_of_le_of_lt (hlast iv hiv hkeeps) hstop]
    exact h.ended_le hpos hproper hroom hfull p
  · simpa [hstop] using h.ended_cons_le cur (hpos.trans hp)

/-- An interval that ends last loses its register to a new one. -/
theorem Ahead.evict (hnew : ∀ iv ∈ done, iv.var.id ≠ cur.var.id) (hnodup : (done.map (·.var.id)).Nodup)
    (hiv : iv ∈ done) (hcur : cur.stop ≤ iv.stop) (hlast : ∀ jv ∈ done, keeps s.locs jv → jv.stop ≤ iv.stop)
    (hroom : running kept cur.start (cur :: done) ≤ n) (hfull : n ≤ running (keeps s.locs) cur.start done)
    (active : List (Interval × Reg)) (r : Reg) :
    Ahead kept (cur :: done) cur.start (Scan.assign ⟨active, (s.spill iv).locs⟩ cur r) := by
  intro p hp
  have hold : ∀ jv ∈ done, jv ≠ iv → keeps (Scan.assign ⟨active, (s.spill iv).locs⟩ cur r).locs jv = keeps s.locs jv := by
    intro jv hjv hne
    have hid : jv.var.id ≠ iv.var.id := fun hid => hne (inj_on_of_nodup_map hnodup hjv hiv hid)
    exact (keeps_cons_of_ne (hnew jv hjv)).trans (keeps_cons_of_ne hid)
  rw [ended_cons_of_kept (keeps_assign ..)]
  by_cases hstop : iv.stop < p
  · -- All that is kept has ended, and the new interval makes up for the one that is spilled.
    rw [if_pos (Int.lt_of_le_of_lt hcur hstop)]
    refine (h.ended_le hpos hproper hroom hfull p).trans (countP_le_ended_add_one hnodup.of_map hiv hold ?_)
    exact fun jv hjv hkeeps => Int.lt_of_le_of_lt (hlast jv hjv hkeeps) hstop
  · -- The interval that is spilled has not ended yet, so it does not count.
    rw [ended_congr fun jv hjv hlt => hold jv hjv fun heq => hstop (heq ▸ hlt)]
    exact h.ended_cons_le cur (hpos.trans hp)

end

/-! ## The scan -/

theorem holder?_of_mem_active (hnodup : (s.active.map Prod.snd).Nodup) (h : (iv, r) ∈ s.active) : s.holder? r = some iv := by
  cases hholder : s.holder? r with
  | none => exact absurd h (holder?_eq_none.1 hholder iv)
  | some jv =>
    have heq := inj_on_of_nodup_map hnodup (mem_active_of_holder? hholder) h rfl
    exact congrArg some (Prod.mk.inj heq).1

theorem stop_le_of_isFarther (h : isFarther iv jv = true) : jv.stop ≤ iv.stop := by
  unfold isFarther at h
  split at h
  · next heq => exact heq.ge
  · exact (of_decide_eq_true h).le

theorem stop_le_of_not_isFarther (h : isFarther iv jv = false) : iv.stop ≤ jv.stop := by
  unfold isFarther at h
  split at h
  · next heq => exact heq.le
  · exact Int.not_lt.1 (of_decide_eq_false h)

/-- A choice of one of several, made by going over registers, that ends no earlier than what is compared with it. -/
theorem foldl_stop_le {best : Option (Interval × Reg)} {next : Option (Interval × Reg) → Reg → Option (Interval × Reg)}
    (stop : Option (Interval × Reg) → Int) (hnext : ∀ best q, stop best ≤ stop (next best q) ∧
      ∀ jv, s.holder? q = some jv → jv.stop ≤ stop (next best q)) (regs : List Reg) :
    stop best ≤ stop (regs.foldl next best) ∧
      ∀ q ∈ regs, ∀ jv, s.holder? q = some jv → jv.stop ≤ stop (regs.foldl next best) := by
  induction regs generalizing best with
  | nil => exact ⟨Int.le_refl _, forall_mem_nil _⟩
  | cons q regs ih =>
    obtain ⟨hbest, hholder⟩ := hnext best q
    obtain ⟨hlater, hothers⟩ := @ih (next best q)
    refine ⟨hbest.trans hlater, forall_mem_cons.2 ⟨fun jv hjv => ?_, hothers⟩⟩
    exact (hholder jv hjv).trans hlater

/-- Of the new interval and those that hold the registers, the one that is spilled ends last. -/
theorem stop_le_victim (s : Scan) (cur : Interval) (regs : List Reg) :
    cur.stop ≤ (((s.victim? cur regs).map Prod.fst).getD cur).stop ∧
      ∀ q ∈ regs, ∀ jv, s.holder? q = some jv → jv.stop ≤ (((s.victim? cur regs).map Prod.fst).getD cur).stop := by
  unfold victim?
  refine foldl_stop_le (fun best => ((best.map Prod.fst).getD cur).stop) (fun best q => ?_) regs
  cases hholder : s.holder? q with
  | none => exact ⟨Int.le_refl _, fun jv hjv => absurd hjv (by simp)⟩
  | some iv =>
    dsimp only
    split
    · next hfarther =>
      refine ⟨stop_le_of_isFarther hfarther, fun jv hjv => ?_⟩
      cases hjv
      exact Int.le_refl _
    · next hfarther =>
      refine ⟨Int.le_refl _, fun jv hjv => ?_⟩
      cases hjv
      exact stop_le_of_not_isFarther (Bool.eq_false_iff.2 hfarther)

theorem candidates_of_not_spansCall (h : cur.spansCall = false) : candidates d cur = d.allocatable := by
  simp [candidates, h]

theorem candidates_of_spansCall (h : cur.spansCall = true) (hsaved : d.calleeSaved = []) : candidates d cur = [] := by
  simp [candidates, h, Descriptor.isCalleeSaved, hsaved]

theorem Sound.length_le_running (h : Sound d done pos s) (hnodup : d.allocatable.Nodup)
    (hactive : ∀ iv r, (iv, r) ∈ s.active → pos ≤ iv.stop) (hfull : ∀ r ∈ d.allocatable, ∃ iv, (iv, r) ∈ s.active) :
    d.allocatable.length ≤ running (keeps s.locs) pos done := by
  set holders := done.filter fun iv => keeps s.locs iv && pos ≤ iv.stop with hholders
  have hsub : d.allocatable ⊆ holders.filterMap (regOf? s.locs) := by
    intro r hr
    obtain ⟨iv, hmem⟩ := hfull r hr
    obtain ⟨hiv, hloc⟩ := h.active iv r hmem
    refine mem_filterMap.2 ⟨iv, mem_filter.2 ⟨hiv, ?_⟩, regOf?_eq_some_iff.2 hloc⟩
    simpa [hactive iv r hmem] using keeps_iff.2 ⟨r, hloc⟩
  calc d.allocatable.length
      ≤ (holders.filterMap (regOf? s.locs)).length := (hnodup.subperm hsub).length_le
    _ ≤ holders.length := length_filterMap_le ..
    _ = running (keeps s.locs) pos done := countP_eq_length_filter.symm

/-- The interval that is spilled ends after all that the scan keeps. -/
theorem Sound.stop_le_victim (h : Sound d done cur.start s) (hproper : cur.start ≤ cur.stop) :
    ∀ jv ∈ done, keeps s.locs jv → jv.stop ≤ (((s.victim? cur d.allocatable).map Prod.fst).getD cur).stop := by
  intro jv hjv hkeeps
  obtain ⟨hcur, hholders⟩ := Scan.stop_le_victim s cur d.allocatable
  obtain ⟨r, hloc⟩ := keeps_iff.1 hkeeps
  rcases h.ended jv hjv r hloc with hactive | hended
  · obtain ⟨loc, hplaced, hcandidate⟩ := h.placed jv hjv
    have hr := hcandidate r (Option.some.inj (hplaced.symm.trans hloc))
    exact hholders r (Allocation.mem_allocatable_of_mem_candidates hr) jv (holder?_of_mem_active h.nodup hactive)
  · omega

/-- Finding a place for one more interval keeps the scan ahead of a choice for which the registers are enough. -/
theorem Ahead.place (h : Ahead kept done pos s) (hs : Sound d done pos s) (hnew : ∀ iv ∈ done, iv.var.id ≠ cur.var.id)
    (hdone : (done.map (·.var.id)).Nodup) (hpos : pos ≤ cur.start) (hproper : cur.start ≤ cur.stop)
    (hnodup : d.allocatable.Nodup) (hcalls : cur.spansCall = true → d.calleeSaved = [] ∧ kept cur = false)
    (hroom : running kept cur.start (cur :: done) ≤ d.allocatable.length) :
    Ahead kept (cur :: done) cur.start (s.place d cur) := by
  have hexp := hs.expire hpos
  have hahead : Ahead kept done pos (s.expire cur.start) := h
  have hstop : ∀ iv r, (iv, r) ∈ (s.expire cur.start).active → cur.start ≤ iv.stop := fun iv r hmem =>
    of_decide_eq_true (mem_filter.1 hmem).2
  unfold Scan.place
  simp only
  cases hspans : cur.spansCall with
  | true =>
    obtain ⟨hsaved, hkept⟩ := hcalls hspans
    rw [candidates_of_spansCall hspans hsaved]
    exact hahead.spill_of_not_kept hpos hnew hkept
  | false =>
    rw [candidates_of_not_spansCall hspans]
    split
    · exact hahead.assign hpos hnew
    · next hfind =>
      have hfull : ∀ r ∈ d.allocatable, ∃ iv, (iv, r) ∈ (s.expire cur.start).active := by
        intro r hr
        have hheld : (s.expire cur.start).holder? r ≠ none := by simpa using find?_eq_none.1 hfind r hr
        obtain ⟨iv, hiv⟩ := Option.ne_none_iff_exists'.1 hheld
        exact ⟨iv, mem_active_of_holder? hiv⟩
      have hfull := hexp.length_le_running hnodup hstop hfull
      have hlast := hexp.stop_le_victim hproper
      have hcur := (Scan.stop_le_victim (s.expire cur.start) cur d.allocatable).1
      split
      · next hvictim =>
        rw [hvictim] at hlast
        exact hahead.spill hpos hproper hnew hlast hroom hfull
      · next iv r hvictim =>
        rw [hvictim] at hlast hcur
        have hiv := (hexp.active iv r (mem_of_victim? hvictim).2).1
        exact hahead.evict hpos hproper hnew hdone hiv hcur hlast hroom hfull _ r

theorem Sound.mem_locs_place (h : Sound d done pos s) (hknown : ∀ x ∈ s.locs, ∃ iv ∈ done, iv.var.id = x.1) :
    ∀ x ∈ (s.place d cur).locs, ∃ iv ∈ cur :: done, iv.var.id = x.1 := by
  have hold : ∀ x ∈ s.locs, ∃ iv ∈ cur :: done, iv.var.id = x.1 := by
    intro x hx
    obtain ⟨iv, hiv, hid⟩ := hknown x hx
    exact ⟨iv, mem_cons_of_mem cur hiv, hid⟩
  have hcur : ∀ loc : Loc, ∃ iv ∈ cur :: done, iv.var.id = ((cur.var.id, loc) : VarId × Loc).1 :=
    fun _ => ⟨cur, mem_cons_self, rfl⟩
  unfold Scan.place
  simp only
  split
  · exact forall_mem_cons.2 ⟨hcur _, hold⟩
  · split
    · exact forall_mem_cons.2 ⟨hcur _, hold⟩
    · next iv r hvictim =>
      have hiv := (h.active iv r (mem_filter.1 (mem_of_victim? hvictim).2).1).1
      exact forall_mem_cons.2 ⟨hcur _, forall_mem_cons.2 ⟨⟨iv, mem_cons_of_mem cur hiv, rfl⟩, hold⟩⟩

/-- The registers are enough for a choice of intervals: none of them has a call inside, and no position is in more of them
    than there are registers. -/
structure Affordable (d : Descriptor) (kept : Interval → Bool) (intervals : List Interval) : Prop where
  calls : ∀ iv ∈ intervals, iv.spansCall = true → kept iv = false
  room : ∀ pos, intervals.countP (fun iv => kept iv && iv.covers pos) ≤ d.allocatable.length

/-- What the scan keeps up, compared with a choice of intervals. -/
structure Frugal (d : Descriptor) (kept : Interval → Bool) (done : List Interval) (pos : Int) (s : Scan) : Prop where
  sound : Sound d done pos s
  ahead : Ahead kept done pos s
  known : ∀ x ∈ s.locs, ∃ iv ∈ done, iv.var.id = x.1

/-- What a choice keeps of intervals that begin no later than the last of them is in its first position, if it has not
    ended there. -/
theorem Affordable.running_le {intervals : List Interval} (h : Affordable d kept intervals)
    (hsub : (cur :: done).Sublist intervals) (hstarts : ∀ iv ∈ done, iv.start ≤ cur.start) :
    running kept cur.start (cur :: done) ≤ d.allocatable.length := by
  have hcovers : running kept cur.start (cur :: done) = (cur :: done).countP fun iv => kept iv && iv.covers cur.start := by
    have hbegun : ∀ iv ∈ cur :: done, iv.start ≤ cur.start := forall_mem_cons.2 ⟨Int.le_refl _, hstarts⟩
    refine countP_congr fun iv hiv => ?_
    simp [Interval.covers, hbegun iv hiv]
  exact hcovers ▸ hsub.countP_le.trans (h.room cur.start)

theorem Frugal.foldl {intervals : List Interval} (h : Frugal d kept done pos s) (hregs : d.allocatable.Nodup)
    (hnodup : ((intervals ++ done).map (·.var.id)).Nodup) (hpos : ∀ iv ∈ intervals, pos ≤ iv.start)
    (hstarts : ∀ iv ∈ done, iv.start ≤ pos) (hsorted : intervals.Pairwise fun iv jv => iv.start ≤ jv.start)
    (hproper : ∀ iv ∈ intervals, iv.start ≤ iv.stop) (hcalls : ∀ iv ∈ intervals, iv.spansCall = true → d.calleeSaved = [])
    (hkept : Affordable d kept (intervals ++ done)) :
    ∃ pos', Frugal d kept (intervals.reverse ++ done) pos' (intervals.foldl (Scan.place d) s) := by
  induction intervals generalizing s done pos with
  | nil => exact ⟨pos, h⟩
  | cons cur rest ih =>
    obtain ⟨hfirst, hrest⟩ := pairwise_cons.1 hsorted
    obtain ⟨hcur, hproper⟩ := forall_mem_cons.1 hproper
    obtain ⟨hcall, hcalls⟩ := forall_mem_cons.1 hcalls
    obtain ⟨hlow, -⟩ := forall_mem_cons.1 hpos
    -- The new interval goes over to those that have a place.
    have hmoved : (cur :: rest ++ done).Perm (rest ++ cur :: done) := perm_middle.symm
    have hids : ((rest ++ cur :: done).map (·.var.id)).Nodup := (hmoved.map _).nodup_iff.1 hnodup
    have hids' : ((cur :: done).map (·.var.id)).Nodup := hids.sublist ((sublist_append_right ..).map _)
    obtain ⟨hnew, hdone⟩ := nodup_cons.1 hids'
    have hnew : ∀ iv ∈ done, iv.var.id ≠ cur.var.id := fun iv hiv heq => hnew (mem_map.2 ⟨iv, hiv, heq⟩)
    have hbegun : ∀ iv ∈ done, iv.start ≤ cur.start := fun iv hiv => (hstarts iv hiv).trans hlow
    have hkept' : Affordable d kept (rest ++ cur :: done) :=
      ⟨fun iv hiv => hkept.calls iv (hmoved.mem_iff.2 hiv), fun p => (hmoved.countP_eq _).symm.trans_le (hkept.room p)⟩
    have hroom := hkept'.running_le (sublist_append_right ..) hbegun
    have hnext : Frugal d kept (cur :: done) cur.start (s.place d cur) :=
      { sound := h.sound.place hnew hlow
        ahead := h.ahead.place h.sound hnew hdone hlow hcur hregs
          (fun hspans => ⟨hcall hspans, hkept.calls cur mem_cons_self hspans⟩) hroom
        known := h.sound.mem_locs_place h.known }
    have := ih hnext hids hfirst (forall_mem_cons.2 ⟨Int.le_refl _, hbegun⟩) hrest hproper hcalls hkept'
    simpa using this

section

variable {intervals : List Interval}

theorem exists_frugal_run (kept : Interval → Bool) (hsorted : intervals.Pairwise fun iv jv => iv.start ≤ jv.start)
    (hnodup : (intervals.map (·.var.id)).Nodup) (hproper : ∀ iv ∈ intervals, iv.start ≤ iv.stop)
    (hregs : d.allocatable.Nodup) (hcalls : ∀ iv ∈ intervals, iv.spansCall = true → d.calleeSaved = [])
    (hkept : Affordable d kept intervals) :
    ∃ pos s, s.locs = run d intervals ∧ Frugal d kept intervals.reverse pos s := by
  obtain ⟨low, hlow⟩ : ∃ low, ∀ iv ∈ intervals, low ≤ iv.start := by
    cases intervals with
    | nil => exact ⟨0, forall_mem_nil _⟩
    | cons first rest => exact ⟨first.start, forall_mem_cons.2 ⟨Int.le_refl _, (pairwise_cons.1 hsorted).1⟩⟩
  have hstart : Frugal d kept [] low ⟨[], []⟩ :=
    ⟨by constructor <;> simp, fun _ _ => Nat.le_refl _, forall_mem_nil _⟩
  obtain ⟨pos, h⟩ := hstart.foldl hregs (by simpa using hnodup) hlow (forall_mem_nil _) hsorted hproper hcalls
    (by simpa using hkept)
  exact ⟨pos, _, rfl, by simpa using h⟩

/-- No choice for which the registers are enough keeps more intervals than the scan. -/
theorem countP_le_countP_run (kept : Interval → Bool) (hsorted : intervals.Pairwise fun iv jv => iv.start ≤ jv.start)
    (hnodup : (intervals.map (·.var.id)).Nodup) (hproper : ∀ iv ∈ intervals, iv.start ≤ iv.stop)
    (hregs : d.allocatable.Nodup) (hcalls : ∀ iv ∈ intervals, iv.spansCall = true → d.calleeSaved = [])
    (hkept : Affordable d kept intervals) : intervals.countP kept ≤ intervals.countP (keeps (run d intervals)) := by
  obtain ⟨pos, s, hlocs, h⟩ := exists_frugal_run kept hsorted hnodup hproper hregs hcalls hkept
  -- Behind the end of all intervals nothing is running any more.
  obtain ⟨high, hhigh⟩ : ∃ high, pos ≤ high ∧ ∀ iv ∈ intervals, iv.stop < high := by
    clear * -
    induction intervals with
    | nil => exact ⟨pos, Int.le_refl _, forall_mem_nil _⟩
    | cons iv rest ih =>
      obtain ⟨high, hle, hrest⟩ := ih
      refine ⟨max high (iv.stop + 1), by omega, forall_mem_cons.2 ⟨by omega, fun jv hjv => ?_⟩⟩
      have := hrest jv hjv
      omega
  have hall : ∀ kept : Interval → Bool, intervals.countP kept = ended kept high intervals.reverse := by
    intro kept
    rw [← (reverse_perm intervals).countP_eq]
    exact countP_eq_ended fun iv hiv _ => hhigh.2 iv (mem_reverse.1 hiv)
  rw [hall, hall, ← hlocs]
  exact h.ahead high hhigh.1

/-! ## Spilled variables -/

theorem mem_spilledVars : v ∈ spilledVars locs ↔ locs.lookup v = some .spilled := by
  simp only [spilledVars, Finset.mem_filter, mem_toFinset, and_iff_right_iff_imp]
  intro h
  obtain ⟨before, behind, rfl, -⟩ := lookup_eq_some_iff.1 h
  simp

/-- The number of intervals without a register is at most that of the variables without one. -/
theorem countP_le_card_spilledVars (hnodup : (intervals.map (·.var.id)).Nodup) (locs : List (VarId × Loc)) :
    intervals.countP (fun iv => locs.lookup iv.var.id = some .spilled) ≤ (spilledVars locs).card := by
  rw [countP_eq_length_filter]
  set spilled := intervals.filter fun iv => locs.lookup iv.var.id = some .spilled with hspilled
  have hids : (spilled.map (·.var.id)).Nodup := hnodup.sublist (filter_sublist.map _)
  rw [← length_map (·.var.id), ← toFinset_card_of_nodup hids]
  refine Finset.card_le_card fun v hv => ?_
  obtain ⟨iv, hiv, rfl⟩ := mem_map.1 (mem_toFinset.1 hv)
  exact mem_spilledVars.2 (of_decide_eq_true (mem_filter.1 hiv).2)

theorem card_spilledVars_le_countP (hknown : ∀ x ∈ locs, ∃ iv ∈ intervals, iv.var.id = x.1) :
    (spilledVars locs).card ≤ intervals.countP fun iv => locs.lookup iv.var.id = some .spilled := by
  rw [countP_eq_length_filter, ← length_map (·.var.id)]
  refine (Finset.card_le_card fun v hv => ?_).trans (toFinset_card_le _)
  have hloc := mem_spilledVars.1 hv
  obtain ⟨before, behind, hlocs, -⟩ := lookup_eq_some_iff.1 hloc
  obtain ⟨iv, hiv, rfl⟩ := hknown (v, .spilled) (by simp [hlocs])
  exact mem_toFinset.2 (mem_map.2 ⟨iv, mem_filter.2 ⟨hiv, decide_eq_true hloc⟩, rfl⟩)

theorem countP_keeps_add_countP_spilled (locs : List (VarId × Loc))
    (hplaced : ∀ iv ∈ intervals, ∃ loc, locs.lookup iv.var.id = some loc) :
    intervals.countP (keeps locs) + intervals.countP (fun iv => locs.lookup iv.var.id = some .spilled) =
      intervals.length := by
  rw [length_eq_countP_add_countP (keeps locs)]
  refine congrArg (_ + ·) (countP_congr fun iv hiv => ?_)
  obtain ⟨loc, hloc⟩ := hplaced iv hiv
  cases loc <;> simp [keeps, regOf?, hloc]

theorem length_le_of_suits {there : List Interval} (pos : Int)
    (hsuits : ∀ iv ∈ a.intervals, ∀ r, a.loc? iv.var.id = some (.reg r) → a.Suits d iv (.reg r))
    (hthere : ∀ iv ∈ there, iv ∈ a.intervals ∧ keeps a.locs iv ∧ iv.covers pos) (hids : (there.map (·.var.id)).Nodup) :
    there.length ≤ d.allocatable.length := by
  have hlength : (there.filterMap (regOf? a.locs)).length = there.length :=
    filterMap_length_eq_length.2 fun iv hiv => (hthere iv hiv).2.1
  have hown : (there.filterMap (regOf? a.locs)).Nodup := by
    refine pairwise_filterMap.2 ((pairwise_map.1 hids).imp_of_mem ?_)
    intro iv jv hiv hjv hne r hr q hq heq
    obtain ⟨hiv, -, hcovers⟩ := hthere iv hiv
    obtain ⟨hjv, -, hcovers'⟩ := hthere jv hjv
    have hover : iv.overlaps jv := by
      simp only [Interval.covers, Interval.overlaps, Bool.and_eq_true, decide_eq_true_eq] at hcovers hcovers' ⊢
      omega
    refine (hsuits iv hiv r (regOf?_eq_some_iff.1 hr)).2.2 jv hjv hne.symm hover ?_
    exact regOf?_eq_some_iff.1 (heq ▸ hq)
  have hsub : there.filterMap (regOf? a.locs) ⊆ d.allocatable := by
    intro r hr
    obtain ⟨iv, hiv, hreg⟩ := mem_filterMap.1 hr
    exact (hsuits iv (hthere iv hiv).1 r (regOf?_eq_some_iff.1 hreg)).1
  exact hlength ▸ (hown.subperm hsub).length_le

/-- The registers are enough for the intervals that have one in places that the check accepts. -/
theorem affordable_of_check (hsorted : a.intervals.Pairwise fun iv jv => iv.start ≤ jv.start)
    (hnodup : (a.intervals.map (·.var.id)).Nodup) (hproper : ∀ iv ∈ a.intervals, iv.start ≤ iv.stop)
    (hcalls : ∀ iv ∈ a.intervals, iv.spansCall = true → d.calleeSaved = []) (hcheck : a.check d = none) :
    Affordable d (keeps a.locs) a.intervals := by
  have hsuits : ∀ iv ∈ a.intervals, ∀ r, a.loc? iv.var.id = some (.reg r) → a.Suits d iv (.reg r) := by
    intro iv hiv r hloc
    obtain ⟨loc, hloc', hsuits⟩ := (Allocation.check_eq_none_iff hsorted hnodup hproper).1 hcheck iv hiv
    cases hloc'.symm.trans hloc
    exact hsuits
  constructor
  · intro iv hiv hspans
    refine Bool.eq_false_iff.2 fun hkeeps => ?_
    obtain ⟨r, hloc⟩ := keeps_iff.1 hkeeps
    have hsaved := (hsuits iv hiv r hloc).2.1 hspans
    simp [Descriptor.isCalleeSaved, hcalls iv hiv hspans] at hsaved
  · intro pos
    rw [countP_eq_length_filter]
    refine length_le_of_suits pos hsuits (fun iv hiv => ?_) (hnodup.sublist (filter_sublist.map _))
    obtain ⟨hmem, htest⟩ := mem_filter.1 hiv
    exact ⟨hmem, Bool.and_eq_true_iff.1 htest⟩

/-- Spilling the interval that ends last is best. On a machine without registers that a callee gives back, or if no
    interval has a call inside, no places that the check accepts for the intervals spill fewer variables than the scan
    does. If no interval has a call inside and no position is in more intervals than there are registers, it spills
    none: every interval has a register. -/
theorem spills_fewest {config : Config} (hd : config.descriptor = .ok d)
    (hsorted : intervals.Pairwise fun iv jv => iv.before jv) (hnodup : (intervals.map (·.var.id)).Nodup)
    (hproper : ∀ iv ∈ intervals, iv.start ≤ iv.stop)
    (hcalls : d.calleeSaved = [] ∨ ∀ iv ∈ intervals, iv.spansCall = false) :
    (∀ a : Allocation, a.intervals = intervals → a.check d = none →
        (spilledVars (run d intervals)).card ≤ (spilledVars a.locs).card) ∧
      ((∀ iv ∈ intervals, iv.spansCall = false) →
        (∀ pos, intervals.countP (·.covers pos) ≤ d.allocatable.length) →
          spilledVars (run d intervals) = ∅ ∧ ∀ iv ∈ intervals, ∃ r, (run d intervals).lookup iv.var.id = some (.reg r)) := by
  have hregs := (Config.wellFormed_of_descriptor hd).allocatable_nodup
  have hstart : intervals.Pairwise fun iv jv => iv.start ≤ jv.start := hsorted.imp Interval.start_le_of_before
  have hcalls : ∀ iv ∈ intervals, iv.spansCall = true → d.calleeSaved = [] := fun iv hiv hspans =>
    hcalls.resolve_right fun hnone => by simp [hnone iv hiv] at hspans
  have hplaced := countP_keeps_add_countP_spilled (run d intervals) fun iv hiv =>
    ((run_sound hnodup hstart).1 iv hiv).imp fun _ => And.left
  have hknown : ∀ x ∈ run d intervals, ∃ iv ∈ intervals, iv.var.id = x.1 := by
    obtain ⟨pos, s, hlocs, h⟩ := exists_frugal_run (fun _ => false) hstart hnodup hproper hregs hcalls
      ⟨fun _ _ _ => rfl, by simp⟩
    simpa [hlocs] using h.known
  have hspilled := card_spilledVars_le_countP hknown
  constructor
  · rintro a rfl hcheck
    have hplaced' := countP_keeps_add_countP_spilled a.locs fun iv hiv =>
      ((Allocation.check_eq_none_iff hstart hnodup hproper).1 hcheck iv hiv).imp fun _ => And.left
    have hkept := countP_le_countP_run _ hstart hnodup hproper hregs hcalls
      (affordable_of_check hstart hnodup hproper hcalls hcheck)
    have hcard := countP_le_card_spilledVars hnodup a.locs
    omega
  · intro hnone hroom
    have hall := countP_le_countP_run (fun _ => true) hstart hnodup hproper hregs hcalls
      ⟨fun iv hiv hspans => by simp [hnone iv hiv] at hspans, by simpa using hroom⟩
    rw [countP_true] at hall
    refine ⟨Finset.card_eq_zero.1 (by omega), fun iv hiv => keeps_iff.1 ?_⟩
    exact countP_eq_length.1 (Nat.le_antisymm countP_le_length hall) iv hiv

end

def bareConfig : Config := { name := "bare", allocatable := ["r1", "r2"], args := ["r1"] }

def bareTarget : Descriptor := { Allocation.smallTarget with name := "bare", calleeSaved := [] }

/-- Five intervals, four of which have a position in common; one has a call inside. -/
def dense : List Interval :=
  let w := Width.w64
  [⟨⟨0, w⟩, 0, 10, false⟩, ⟨⟨1, w⟩, 0, 8, true⟩, ⟨⟨2, w⟩, 2, 12, false⟩, ⟨⟨3, w⟩, 4, 6, false⟩, ⟨⟨4, w⟩, 5, 9, false⟩]

/-- Places that keep the two intervals which the scan spills because they end last. -/
def otherPlaces : Allocation :=
  { function := "f", intervals := dense, spilled := [], used := [], saved := []
    locs := [(0, .reg ⟨1⟩), (1, .spilled), (2, .reg ⟨2⟩), (3, .spilled), (4, .spilled)] }

/-- Three intervals, no three of which have a position in common. -/
def sparse : List Interval :=
  let w := Width.w64
  [⟨⟨0, w⟩, 0, 4, false⟩, ⟨⟨1, w⟩, 2, 6, false⟩, ⟨⟨2, w⟩, 5, 9, false⟩]

theorem spills_fewest_dense :
    bareConfig.descriptor = .ok bareTarget ∧ (dense.Pairwise fun iv jv => iv.before jv) ∧
      (dense.map (·.var.id)).Nodup ∧ (∀ iv ∈ dense, iv.start ≤ iv.stop) ∧ bareTarget.calleeSaved = [] ∧
      otherPlaces.check bareTarget = none ∧ spilledVars (run bareTarget dense) = {0, 1, 2} ∧
      (spilledVars (run bareTarget dense)).card ≤ (spilledVars otherPlaces.locs).card ∧
      (∀ pos, sparse.countP (·.covers pos) ≤ bareTarget.allocatable.length) ∧ spilledVars (run bareTarget sparse) = ∅ := by
  have hd : bareConfig.descriptor = .ok bareTarget := by cbv
  have hsorted : dense.Pairwise fun iv jv => iv.before jv := by decide
  have hnodup : (dense.map (·.var.id)).Nodup := by decide
  have hproper : ∀ iv ∈ dense, iv.start ≤ iv.stop := by decide
  have hcheck : otherPlaces.check bareTarget = none := by cbv
  have hroom : ∀ pos, sparse.countP (·.covers pos) ≤ bareTarget.allocatable.length := by
    intro pos
    simp only [sparse, Interval.covers, countP_cons, countP_nil, Bool.and_eq_true, decide_eq_true_eq, bareTarget,
      Allocation.smallTarget, length_cons, length_nil]
    split_ifs <;> omega
  refine ⟨hd, hsorted, hnodup, hproper, rfl, hcheck, by decide, ?_, hroom, ?_⟩
  · exact (spills_fewest hd hsorted hnodup hproper (.inl rfl)).1 otherPlaces rfl hcheck
  · exact ((spills_fewest hd (by decide) (by decide) (by decide) (.inl rfl)).2 (by decide) hroom).1

end Scan

end RegisterCompiler
