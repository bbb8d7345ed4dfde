import RegisterCompiler.Proofs.Place

/-!
# Moves that happen all at once

The code for simultaneous moves makes one move after the other. What carries the proof is that at any time a pending
move still finds the value that its source had at the beginning (`Move.Pending`): a move is made only when no pending
move reads its destination. When none can be made, the sources of the pending moves are their destinations in another
order. So each of them is read by one move only, no move is waiting for the spare register, and it is free for one of
the sources.
-/

namespace RegisterCompiler

open List
open Machine (View)
open Machine.View (Changes)

namespace Move

/-- Moves that can be made all at once with the help of the registers `temp` and `carry`. -/
structure Movable (base : Int) (size : Nat) (temp carry : Reg) (ms : List Move) : Prop where
  temp_usable : temp.num.toNat < Reg.count ∧ temp ≠ .fp
  carry_usable : carry.num.toNat < Reg.count ∧ carry ≠ .fp
  temp_ne_carry : temp ≠ carry
  dest : ∀ m ∈ ms, m.dest.Fits base size m.width
  source : ∀ m ∈ ms, m.source.Fits base size m.width
  dest_free : ∀ m ∈ ms, m.dest ≠ .reg temp ∧ m.dest ≠ .reg carry
  source_free : ∀ m ∈ ms, m.source ≠ .place (.reg temp) ∧ m.source ≠ .place (.reg carry)
  dests : ms.Pairwise fun m n => m.dest.Disjoint m.width n.width n.dest
  /-- What is read is overwritten as a whole or not at all. -/
  sources : ∀ m ∈ ms, ∀ n ∈ ms, ∀ p, m.source = .place p → p = n.dest ∨ p.Disjoint m.width n.width n.dest

/-- The moves `pending` of the moves `ms`, which began at `v`, are still to be made at `w`. -/
structure Pending (base : Int) (size : Nat) (temp carry : Reg) (ms : List Move) (v : View) (pending : List Move)
    (w : View) : Prop where
  stands : w.Stands base size
  /-- A pending move is one of the moves, unless its source has been put aside, and finds the value that it had. -/
  origin : ∀ m ∈ pending, ∃ n ∈ ms, m.dest = n.dest ∧ m.width = n.width ∧
    (m.source = n.source ∨ m.source = .place (.reg temp)) ∧ w.value base m.width m.source = v.value base n.width n.source
  dests : pending.Pairwise fun m n => m.dest.Disjoint m.width n.width n.dest
  /-- A move that is no longer pending has been made. -/
  done : ∀ n ∈ ms, (∃ m ∈ pending, m.dest = n.dest) ∨ w.held base n.width n.dest = v.value base n.width n.source
  changes : Changes (fun r => r = temp ∨ r = carry ∨ ∃ m ∈ ms, m.dest = .reg r)
    (fun a => ∃ m ∈ ms, m.dest.Covers base m.width a) v w

variable {base : Int} {size : Nat} {temp carry : Reg} {ms pending : List Move} {u v w : View} {m : Move}

theorem reads_eq_false {p : Place} : reads pending p = false ↔ ∀ m ∈ pending, m.source ≠ .place p := by
  simp [reads]

theorem not_disjoint_self {p : Place} {wd wd' : Width} (hp : p.Fits base size wd) (hp' : p.Fits base size wd') :
    ¬p.Disjoint wd wd' p := by
  rcases p with r | offset
  · exact fun h => h rfl
  · have := (Width.size_of_isValid hp.1).2.1
    have := (Width.size_of_isValid hp'.1).2.1
    simp only [Place.Disjoint]
    omega

namespace Movable

theorem eq_or_disjoint (h : Movable base size temp carry ms) {m n : Move} (hm : m ∈ ms) (hn : n ∈ ms) :
    m = n ∨ m.dest.Disjoint m.width n.width n.dest := by
  by_cases hne : m = n
  · exact .inl hne
  · have : Std.Symm fun m n : Move => m.dest.Disjoint m.width n.width n.dest := ⟨fun _ _ => Place.Disjoint.symm⟩
    exact .inr (h.dests.forall hm hn hne)

theorem held_eq (h : Movable base size temp carry ms) {n : Move} (hn : n ∈ ms) {p : Place} {wd : Width}
    (hp : p.Fits base size wd) (hcarry : p ≠ .reg carry) (hdisj : p.Disjoint wd n.width n.dest)
    (hchanges : Changes (fun r => n.dest = .reg r ∨ r = carry) (n.dest.Covers base n.width) v w) :
    w.held base wd p = v.held base wd p := by
  refine hchanges.held_eq ?_ fun a ha => hdisj.not_covers hp (h.dest n hn) ha
  rintro r rfl (hdest | rfl)
  · rw [hdest] at hdisj
    exact hdisj rfl
  · exact hcarry rfl

end Movable

namespace Pending

variable {before after : List Move}

/-- A move that no pending move stands against is made, and the others stay pending. -/
theorem step (h : Movable base size temp carry ms) (hp : Pending base size temp carry ms u (before ++ m :: after) v)
    (hfree : ∀ n ∈ before ++ m :: after, n.source ≠ .place m.dest) :
    ∃ w, v.run (m.code carry) = .ok w ∧ Pending base size temp carry ms u (before ++ after) w := by
  have hmem : m ∈ before ++ m :: after := mem_append_right _ mem_cons_self
  have hsub : (before ++ after).Sublist (before ++ m :: after) := (sublist_cons_self m after).append_left before
  obtain ⟨m₀, hm₀, hdest, hwidth, hsource, hvalue⟩ := hp.origin m hmem
  have hreads : m.source.Fits base size m.width := by
    rcases hsource with hsource | hsource <;> rw [hsource]
    · rw [hwidth]
      exact h.source m₀ hm₀
    · exact h.temp_usable
  obtain ⟨w, hrun, hheld, hchanges⟩ := hp.stands.run_code h.carry_usable (hdest ▸ hwidth ▸ h.dest m₀ hm₀) hreads
  rw [hdest, hwidth] at hchanges
  refine ⟨w, hrun, ?_, ?_, hp.dests.sublist hsub, ?_, ?_⟩
  · refine hp.stands.of_changes hchanges ?_
    rintro (hfp | hfp)
    · have := h.dest m₀ hm₀
      rw [hfp] at this
      exact this.2 rfl
    · exact h.carry_usable.2 hfp.symm
  · intro n hn
    obtain ⟨n₀, hn₀, hndest, hnwidth, hnsource, hnvalue⟩ := hp.origin n (hsub.subset hn)
    refine ⟨n₀, hn₀, hndest, hnwidth, hnsource, ?_⟩
    rw [← hnvalue]
    rcases hs : n.source with p | x
    · -- The source is not the destination of the move that was made, so it has nothing in common with it.
      refine congrArg n.width.canonical ?_
      have hpdest : p ≠ m₀.dest := fun hpd => hfree n (hsub.subset hn) (by rw [hs, hpd, hdest])
      rcases hnsource with hnsource | hnsource
      · have hn₀p : n₀.source = .place p := hnsource.symm.trans hs
        refine h.held_eq hm₀ ?_ ?_ ?_ hchanges
        · have := h.source n₀ hn₀
          rwa [hn₀p, ← hnwidth] at this
        · exact fun hpc => (h.source_free n₀ hn₀).2 (hn₀p.trans (by rw [hpc]))
        · rw [hnwidth]
          exact (h.sources n₀ hn₀ m₀ hm₀ p hn₀p).resolve_left hpdest
      · have hpt : p = .reg temp := by
          rw [hs] at hnsource
          exact Source.place.inj hnsource
        subst hpt
        refine hchanges.regs temp ?_
        rintro (hd | hc)
        · exact (h.dest_free m₀ hm₀).1 hd
        · exact h.temp_ne_carry hc
    · rfl
  · intro n hn
    by_cases hpending : ∃ k ∈ before ++ after, k.dest = n.dest
    · exact .inl hpending
    refine .inr ?_
    rcases h.eq_or_disjoint hn hm₀ with rfl | hdisj
    · rw [← hdest, ← hwidth, hheld, hwidth, ← hvalue, hwidth]
    · have hheldn : w.held base n.width n.dest = v.held base n.width n.dest :=
        h.held_eq hm₀ (h.dest n hn) (h.dest_free n hn).2 hdisj hchanges
      rw [hheldn]
      refine (hp.done n hn).resolve_left ?_
      rintro ⟨k, hk, hkn⟩
      rcases mem_append.1 hk with hk | hk
      · exact hpending ⟨k, mem_append_left _ hk, hkn⟩
      rcases mem_cons.1 hk with rfl | hk
      · rw [← hkn, hdest] at hdisj
        exact not_disjoint_self (hdest ▸ hkn ▸ h.dest n hn) (h.dest m₀ hm₀) hdisj
      · exact hpending ⟨k, mem_append_right _ hk, hkn⟩
  · refine hp.changes.trans (hchanges.mono ?_ fun a ha => ⟨m₀, hm₀, ha⟩)
    rintro r (hr | rfl)
    · exact .inr (.inr ⟨m₀, hm₀, hr⟩)
    · exact .inr (.inl rfl)

theorem sweep (kept moves : List Move) (h : Movable base size temp carry ms)
    (hp : Pending base size temp carry ms u (kept ++ moves) v) :
    ∃ w, v.run (sweep carry kept moves).1 = .ok w ∧ Pending base size temp carry ms u (sweep carry kept moves).2 w := by
  induction moves generalizing kept v with
  | nil =>
    rw [append_nil] at hp
    exact ⟨v, rfl, hp⟩
  | cons m moves ih =>
    rw [Move.sweep]
    by_cases hread : reads (kept ++ m :: moves) m.dest
    · rw [if_pos hread]
      exact ih (kept ++ [m]) (by rwa [append_assoc, singleton_append])
    · rw [if_neg hread]
      obtain ⟨w, hrun, hpending⟩ := hp.step h (reads_eq_false.1 (by simpa using hread))
      obtain ⟨w', hrun', hpending'⟩ := ih kept hpending
      refine ⟨w', ?_, hpending'⟩
      rw [View.run_append, hrun]
      exact hrun'

end Pending

/-! ## Rounds -/

theorem length_sweep_le (carry : Reg) (kept moves : List Move) :
    (sweep carry kept moves).2.length ≤ kept.length + moves.length := by
  induction moves generalizing kept with
  | nil => exact Nat.le_refl _
  | cons m moves ih =>
    rw [sweep]
    split
    · have := ih (kept ++ [m])
      simp only [length_append, length_cons, length_nil] at this ⊢
      omega
    · have := ih kept
      simp only [length_cons]
      omega

/-- A sweep gets on if no pending move reads one of the destinations. -/
theorem length_sweep_lt (carry : Reg) (kept : List Move) {moves : List Move} (hm : m ∈ moves) (hfree : reads (kept ++ moves) m.dest = false) :
    (sweep carry kept moves).2.length < kept.length + moves.length := by
  induction moves generalizing kept with
  | nil => cases hm
  | cons n moves ih =>
    rw [sweep]
    by_cases hread : reads (kept ++ n :: moves) n.dest
    · rw [if_pos hread]
      rcases mem_cons.1 hm with rfl | hm
      · rw [hfree] at hread
        cases hread
      · have := ih (kept ++ [n]) hm (by rwa [append_assoc, singleton_append])
        simp only [length_append, length_cons, length_nil] at this ⊢
        omega
    · rw [if_neg hread]
      have := length_sweep_le carry kept moves
      simp only [length_cons]
      omega

theorem sweep_sublist (carry : Reg) (kept moves : List Move) : (sweep carry kept moves).2.Sublist (kept ++ moves) := by
  induction moves generalizing kept with
  | nil => exact (append_nil kept).symm ▸ List.Sublist.refl _
  | cons m moves ih =>
    rw [sweep]
    split
    · have := ih (kept ++ [m])
      rwa [append_assoc, singleton_append] at this
    · exact (ih kept).trans ((sublist_cons_self m moves).append_left kept)

/-- If a sweep does not get on, the sources of the moves are their destinations in another order. -/
theorem sources_perm_of_stuck (hdests : (pending.map dest).Nodup)
    (hstuck : ¬(sweep carry [] pending).2.length < pending.length) :
    (pending.map source).Perm (pending.map fun n => .place n.dest) := by
  have hread : ∀ n ∈ pending, ∃ k ∈ pending, k.source = .place n.dest := by
    intro n hn
    by_contra hnone
    push Not at hnone
    have := length_sweep_lt carry [] hn (reads_eq_false.2 hnone)
    simp only [length_nil, Nat.zero_add] at this
    exact hstuck this
  have hnodup : (pending.map fun n => Source.place n.dest).Nodup := by
    have := hdests.map fun _ _ => Source.place.inj
    rwa [map_map] at this
  have hsub : (pending.map fun n => Source.place n.dest) ⊆ pending.map source := by
    intro s hs
    obtain ⟨n, hn, rfl⟩ := mem_map.1 hs
    obtain ⟨k, hk, hkn⟩ := hread n hn
    exact mem_map.2 ⟨k, hk, hkn⟩
  exact ((hnodup.subperm hsub).perm_of_length_le (by simp)).symm

section

variable (h : (pending.map source).Perm (pending.map fun n => .place n.dest))
include h

/-- Where only cycles are left, every source is a destination. -/
theorem mem_dests_of_perm (hm : m ∈ pending) : ∃ n ∈ pending, m.source = .place n.dest := by
  obtain ⟨n, hn, hnm⟩ := mem_map.1 (h.mem_iff.1 (mem_map_of_mem hm))
  exact ⟨n, hn, hnm.symm⟩

/-- Where only cycles are left, a source has one reader. -/
theorem eq_of_source_eq (hdests : (pending.map dest).Nodup) {n : Move} (hm : m ∈ pending) (hn : n ∈ pending)
    (heq : m.source = n.source) : m = n := by
  have hnodup : (pending.map source).Nodup := by
    have := hdests.map fun _ _ => Source.place.inj
    rw [map_map] at this
    exact h.nodup_iff.2 this
  exact inj_on_of_nodup_map hnodup hm hn heq

end

/-- Where only cycles are left, one of the sources is found to be put aside. -/
theorem exists_blocked? (hstuck : (pending.map source).Perm (pending.map fun n => .place n.dest)) (hne : pending ≠ []) :
    ∃ m ∈ pending, ∃ n ∈ pending, m.source = .place n.dest ∧ blocked? pending = some (n.dest, m.width) := by
  have hsome : (blocked? pending).isSome := by
    obtain ⟨m, hm⟩ := exists_mem_of_ne_nil pending hne
    obtain ⟨n, hn, hmn⟩ := mem_dests_of_perm hstuck hm
    rw [blocked?, isSome_findSome?, any_eq_true]
    refine ⟨m, hm, ?_⟩
    have hwrites : writes pending n.dest = true := by
      simp only [writes, any_eq_true, decide_eq_true_eq]
      exact ⟨n, hn, rfl⟩
    simp [hmn, hwrites]
  obtain ⟨⟨p, w⟩, hb⟩ := Option.isSome_iff_exists.1 hsome
  obtain ⟨m, hm, hfound⟩ := exists_of_findSome?_eq_some hb
  obtain ⟨n, hn, hmn⟩ := mem_dests_of_perm hstuck hm
  simp only [hmn] at hfound
  split at hfound
  · cases hfound
    exact ⟨m, hm, n, hn, hmn, hb⟩
  · cases hfound

theorem map_dest_redirect (p : Place) (temp : Reg) (pending : List Move) :
    (redirect p temp pending).map dest = pending.map dest := by
  rw [redirect, map_map]
  refine map_congr_left fun m _ => ?_
  simp only [Function.comp_apply]
  split <;> rfl

/-- Nothing reads a destination any more whose value was put aside, so a sweep gets on. -/
theorem length_sweep_redirect_lt (carry : Reg) {k : Move} (hk : k ∈ pending) (htemp : k.dest ≠ .reg temp) :
    (sweep carry [] (redirect k.dest temp pending)).2.length < pending.length := by
  have hdest : k.dest ∈ (redirect k.dest temp pending).map dest := by
    rw [map_dest_redirect]
    exact mem_map_of_mem hk
  obtain ⟨k', hk', hdest⟩ := mem_map.1 hdest
  have hlt := length_sweep_lt carry [] hk' (reads_eq_false.2 ?_)
  · simpa [redirect] using hlt
  · intro n' hn'
    obtain ⟨n, -, rfl⟩ := mem_map.1 hn'
    rw [hdest]
    split
    · exact fun heq => htemp (Source.place.inj heq).symm
    · assumption

namespace Pending

variable {p : Place}

section

variable (h : Movable base size temp carry ms) (hp : Pending base size temp carry ms u pending v)
include h hp

theorem nodup_dests : (pending.map dest).Nodup := by
  have hfits : ∀ m ∈ pending, m.dest.Fits base size m.width := fun m hm => by
    obtain ⟨n, hn, hdest, hwidth, -⟩ := hp.origin m hm
    exact hdest ▸ hwidth ▸ h.dest n hn
  refine pairwise_map.2 (hp.dests.imp_of_mem fun {m n} hm hn hdisj heq => ?_)
  rw [heq] at hdisj
  exact not_disjoint_self (heq ▸ hfits m hm) (hfits n hn) hdisj

theorem dest_ne_temp (hm : m ∈ pending) : m.dest ≠ .reg temp := by
  obtain ⟨n, hn, hdest, -⟩ := hp.origin m hm
  exact hdest ▸ (h.dest_free n hn).1

/-- If no move can be made, a source is put aside, and its readers take it from there. -/
theorem redirect (hstuck : (pending.map Move.source).Perm (pending.map fun n => .place n.dest)) (hm : m ∈ pending)
    (hs : m.source = .place p) :
    ∃ w, v.run (Move.code carry ⟨.reg temp, .place p, m.width⟩) = .ok w ∧
      Pending base size temp carry ms u (redirect p temp pending) w := by
  -- The spare register is no destination, so no pending move reads it.
  have hfree : ∀ n ∈ pending, n.source ≠ .place (.reg temp) := by
    intro n hn hn'
    obtain ⟨k, hk, hnk⟩ := mem_dests_of_perm hstuck hn
    exact hp.dest_ne_temp h hk (Source.place.inj (hnk.symm.trans hn'))
  obtain ⟨m₀, hm₀, hdest, hwidth, hsource, -⟩ := hp.origin m hm
  have hsource := hsource.resolve_right (hfree m hm)
  have hfits : (Source.place p).Fits base size m.width := by
    rw [← hs, hsource, hwidth]
    exact h.source m₀ hm₀
  have hchanges := View.changes_set (fun _ => False) v temp (v.value base m.width (.place p))
  refine ⟨v.set temp (v.value base m.width (.place p)), ?_, ?_, ?_, ?_, ?_, ?_⟩
  · simp only [Move.code, View.run_singleton]
    exact hp.stands.exec_load h.temp_usable.1 hfits
  · exact hp.stands.of_changes hchanges h.temp_usable.2.symm
  · intro n' hn'
    obtain ⟨n, hn, rfl⟩ := mem_map.1 hn'
    obtain ⟨n₀, hn₀, hndest, hnwidth, hnsource, hnvalue⟩ := hp.origin n hn
    have hnsource := hnsource.resolve_right (hfree n hn)
    by_cases hread : n.source = .place p
    · rw [if_pos hread]
      refine ⟨n₀, hn₀, hndest, hnwidth, .inr rfl, ?_⟩
      -- The source has no other reader, so it was put aside at the width at which it is read.
      obtain rfl := eq_of_source_eq hstuck (hp.nodup_dests h) hn hm (hread.trans hs.symm)
      rw [← hnvalue, hread, View.value, View.held, View.regs_set_self]
      exact View.canonical_value v (.place p)
    · rw [if_neg hread]
      refine ⟨n₀, hn₀, hndest, hnwidth, .inl hnsource, ?_⟩
      rw [← hnvalue]
      rcases hq : n.source with q | x
      · refine congrArg n.width.canonical (hchanges.held_eq ?_ fun _ _ => id)
        rintro r rfl rfl
        exact hfree n hn hq
      · rfl
  · refine pairwise_map.2 (hp.dests.imp fun {m n} hdisj => ?_)
    split <;> split <;> exact hdisj
  · intro n hn
    refine (hp.done n hn).imp ?_ fun hheld => ?_
    · rintro ⟨k, hk, hkn⟩
      refine ⟨_, mem_map_of_mem hk, ?_⟩
      split <;> exact hkn
    · rw [← hheld]
      refine hchanges.held_eq ?_ fun _ _ => id
      rintro r hr rfl
      exact (h.dest_free n hn).1 hr
  · exact hp.changes.trans (hchanges.mono (fun _ => .inl) fun _ => False.elim)

end

/-- As many rounds as there are pending moves make them all. -/
theorem sequence (h : Movable base size temp carry ms) {n : Nat} (hn : pending.length ≤ n)
    (hp : Pending base size temp carry ms u pending v) :
    ∃ w, v.run (sequence temp carry n pending) = .ok w ∧ Pending base size temp carry ms u [] w := by
  induction n generalizing pending v with
  | zero =>
    rw [eq_nil_of_length_eq_zero (Nat.le_zero.1 hn)] at hp
    exact ⟨v, rfl, hp⟩
  | succ n ih =>
    rw [Move.sequence]
    by_cases hprogress : (Move.sweep carry [] pending).2.length < pending.length
    · obtain ⟨w, hrun, hw⟩ := Pending.sweep [] _ h hp
      obtain ⟨w', hrun', hw'⟩ := ih (by omega) hw
      refine ⟨w', ?_, hw'⟩
      simp only [if_pos hprogress, View.run_append, hrun]
      exact hrun'
    · have hstuck := sources_perm_of_stuck (hp.nodup_dests h) hprogress
      simp only [if_neg hprogress]
      by_cases hnil : pending = []
      · subst hnil
        exact ⟨v, rfl, hp⟩
      obtain ⟨m, hm, k, hk, hmk, hblocked⟩ := exists_blocked? hstuck hnil
      simp only [hblocked]
      obtain ⟨v₁, hrun₁, hp₁⟩ := hp.redirect h hstuck hm hmk
      obtain ⟨v₂, hrun₂, hp₂⟩ := Pending.sweep [] (Move.redirect k.dest temp pending) h hp₁
      have hless := length_sweep_redirect_lt carry hk (hp.dest_ne_temp h hk)
      obtain ⟨w, hrun, hw⟩ := ih (by omega) hp₂
      refine ⟨w, ?_, hw⟩
      simp only [View.run_append, hrun₁, bind, Except.bind, hrun₂]
      exact hrun

end Pending

/-- Every destination gets what its source had before the code. -/
theorem Movable.run_simultaneous (h : Movable base size temp carry ms) (hv : v.Stands base size)
    (hcanonical : ∀ m ∈ ms, m.isIdentity → m.width.IsCanonical (v.held base m.width m.dest)) :
    ∃ w, v.run (simultaneous temp carry ms) = .ok w ∧
      (∀ m ∈ ms, w.held base m.width m.dest = v.value base m.width m.source) ∧
      Changes (fun r => r = temp ∨ r = carry ∨ ∃ m ∈ ms, m.dest = .reg r)
        (fun a => ∃ m ∈ ms, m.dest.Covers base m.width a) v w := by
  have hpending : Pending base size temp carry ms v (ms.filter (!·.isIdentity)) v := by
    refine ⟨hv, fun m hm => ?_, h.dests.filter _, fun n hn => ?_, .refl v⟩
    · exact ⟨m, mem_of_mem_filter hm, rfl, rfl, .inl rfl, rfl⟩
    · by_cases hid : n.isIdentity
      · have hsource : n.source = .place n.dest := by simpa [isIdentity] using hid
        rw [hsource]
        exact .inr (hcanonical n hn hid).symm
      · exact .inl ⟨n, mem_filter.2 ⟨hn, by simpa using hid⟩, rfl⟩
  obtain ⟨w, hrun, hw⟩ := hpending.sequence h (Nat.le_refl _)
  refine ⟨w, hrun, fun m hm => ?_, hw.changes⟩
  exact (hw.done m hm).resolve_left fun ⟨_, hk, _⟩ => not_mem_nil hk

end Move

end RegisterCompiler
