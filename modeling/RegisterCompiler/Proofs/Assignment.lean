import RegisterCompiler.Proofs.Moves

/-!
# Simultaneous assignment

A list of moves is an assignment of all destinations at once. That the code for it comes to an end is a matter of the
moves alone and is said without a bound on the rounds (`Move.Settles`); what the code does is said about the machine
that executes it.
-/

namespace RegisterCompiler

open List
open Machine (Image State View)
open Machine.View (Changes)

namespace Place

/-- A place that moves at a width may name: a register other than the frame pointer, or a word of the frame. -/
def Admits (w : Width) : Place → Prop
  | .reg r => r.num.toNat < Reg.count ∧ r ≠ .fp
  | .frame _ => w.isValid

/-- A place that lies in the memory, if it lies in the frame. -/
def Inside (base : Int) (size : Nat) (w : Width) : Place → Prop
  | .reg _ => True
  | .frame offset => 0 ≤ base + offset.toInt ∧ base + offset.toInt + w.size ≤ size

instance (w : Width) : (p : Place) → Decidable (p.Admits w)
  | .reg r => inferInstanceAs (Decidable (r.num.toNat < Reg.count ∧ r ≠ .fp))
  | .frame _ => inferInstanceAs (Decidable (w.isValid = true))

instance (base : Int) (size : Nat) (w : Width) : (p : Place) → Decidable (p.Inside base size w)
  | .reg _ => isTrue trivial
  | .frame offset => inferInstanceAs (Decidable (0 ≤ base + offset.toInt ∧ base + offset.toInt + w.size ≤ size))

theorem fits_iff {base : Int} {size : Nat} {w : Width} {p : Place} :
    p.Fits base size w ↔ p.Admits w ∧ p.Inside base size w := by
  cases p with
  | reg r => exact (and_iff_left trivial).symm
  | frame offset => exact Iff.rfl

end Place

namespace Move

/-! ## The end of the rounds -/

/-- The rounds for the pending moves come to an end, and this is their code: a round makes the moves that can be made,
    and if there is none, it puts aside a source that a pending move overwrites. -/
inductive Settles (temp carry : Reg) : List Move → List Asm.Instr → Prop where
  | done : Settles temp carry [] []
  | sweep {moves : List Move} {rest : List Asm.Instr} (progress : (sweep carry [] moves).2.length < moves.length)
      (left : Settles temp carry (Move.sweep carry [] moves).2 rest) :
      Settles temp carry moves ((Move.sweep carry [] moves).1 ++ rest)
  | aside {moves : List Move} {p : Place} {w : Width} {rest : List Asm.Instr}
      (stuck : ¬(Move.sweep carry [] moves).2.length < moves.length) (blocked : blocked? moves = some (p, w))
      (left : Settles temp carry (redirect p temp moves) rest) :
      Settles temp carry moves (Move.code carry ⟨.reg temp, .place p, w⟩ ++ rest)

variable {temp carry : Reg} {ms pending : List Move} {base : Int} {size : Nat} {m : Move} {v : View}

/-- As many rounds as there are pending moves come to the end. -/
theorem settles_sequence {n : Nat} (hn : pending.length ≤ n) (hdests : (pending.map dest).Nodup)
    (htemp : .reg temp ∉ pending.map dest) : Settles temp carry pending (sequence temp carry n pending) := by
  induction n generalizing pending with
  | zero =>
    rw [eq_nil_of_length_eq_zero (Nat.le_zero.1 hn)]
    exact .done
  | succ n ih =>
    -- A sweep only takes moves away, so what holds of the destinations goes on to hold.
    have hleft : ∀ moves, moves.map dest = pending.map dest → (sweep carry [] moves).2.length < pending.length →
        Settles temp carry (sweep carry [] moves).2 (sequence temp carry n (sweep carry [] moves).2) := by
      intro moves hmoves hlt
      have hsub : ((sweep carry [] moves).2.map dest).Sublist (pending.map dest) :=
        hmoves ▸ (sweep_sublist carry [] moves).map dest
      exact ih (by omega) (hdests.sublist hsub) fun hmem => htemp (hsub.subset hmem)
    rw [sequence]
    by_cases hprogress : (sweep carry [] pending).2.length < pending.length
    · simp only [if_pos hprogress]
      exact .sweep hprogress (hleft pending rfl hprogress)
    · have hstuck := sources_perm_of_stuck hdests hprogress
      simp only [if_neg hprogress]
      by_cases hnil : pending = []
      · subst hnil
        exact .done
      obtain ⟨m, hm, k, hk, -, hblocked⟩ := exists_blocked? hstuck hnil
      have hkt : k.dest ≠ .reg temp := fun heq => htemp (heq ▸ mem_map_of_mem hk)
      have hless := length_sweep_redirect_lt carry hk hkt
      simp only [hblocked, append_assoc]
      refine .aside hprogress hblocked (.sweep ?_ (hleft _ (map_dest_redirect _ temp pending) hless))
      rwa [redirect, length_map]

/-! ## The instructions -/

theorem loud_load (w : Width) (r : Reg) (s : Source) : (s.load w r).isSilent = false := by
  rcases s with (_ | _) | _ <;> rfl

theorem loud_code (carry : Reg) (m : Move) : ∀ i ∈ m.code carry, i.isSilent = false := by
  obtain ⟨dest, source, w⟩ := m
  rcases dest with r | offset
  · exact forall_mem_singleton.2 (loud_load w r source)
  · rcases source with (s | _) | _
    · exact forall_mem_singleton.2 rfl
    all_goals exact forall_mem_cons.2 ⟨rfl, forall_mem_singleton.2 rfl⟩

theorem loud_sweep (carry : Reg) (kept moves : List Move) : ∀ i ∈ (sweep carry kept moves).1, i.isSilent = false := by
  induction moves generalizing kept with
  | nil => exact forall_mem_nil _
  | cons m moves ih =>
    rw [sweep]
    split
    · exact ih (kept ++ [m])
    · exact forall_mem_append.2 ⟨loud_code carry m, ih kept⟩

theorem Settles.loud {code : List Asm.Instr} (h : Settles temp carry pending code) : ∀ i ∈ code, i.isSilent = false := by
  induction h with
  | done => exact forall_mem_nil _
  | sweep _ _ ih => exact forall_mem_append.2 ⟨loud_sweep carry [] _, ih⟩
  | aside _ _ _ ih => exact forall_mem_append.2 ⟨loud_code carry _, ih⟩

/-! ## Assignments -/

def places (m : Move) : List Place :=
  m.dest :: match m.source with
    | .place p => [p]
    | .imm _ => []

theorem dest_mem_places (m : Move) : m.dest ∈ m.places := mem_cons_self

theorem mem_places_of_source {p : Place} (h : m.source = .place p) : p ∈ m.places := by
  rw [places, h]
  exact mem_cons_of_mem _ mem_cons_self

/-- Moves that are an assignment, with two registers to spare. -/
structure Assigns (temp carry : Reg) (ms : List Move) : Prop where
  dests : (ms.map dest).Nodup
  temp_admits : (Place.reg temp).Admits .w64
  carry_admits : (Place.reg carry).Admits .w64
  temp_ne_carry : temp ≠ carry
  spare : ∀ m ∈ ms, .reg temp ∉ m.places ∧ .reg carry ∉ m.places
  admits : ∀ m ∈ ms, ∀ p ∈ m.places, p.Admits m.width
  apart : ∀ m ∈ ms, ∀ n ∈ ms, ∀ p ∈ m.places, ∀ q ∈ n.places, p ≠ q → p.Disjoint m.width n.width q

namespace Assigns

theorem sublist (h : Assigns temp carry ms) (hsub : pending.Sublist ms) : Assigns temp carry pending :=
  { h with
    dests := h.dests.sublist (hsub.map dest)
    spare := fun m hm => h.spare m (hsub.subset hm)
    admits := fun m hm => h.admits m (hsub.subset hm)
    apart := fun m hm n hn => h.apart m (hsub.subset hm) n (hsub.subset hn) }

theorem movable (h : Assigns temp carry ms) (hinside : ∀ m ∈ ms, ∀ p ∈ m.places, p.Inside base size m.width) :
    Movable base size temp carry ms := by
  have hfits : ∀ m ∈ ms, ∀ p ∈ m.places, p.Fits base size m.width := fun m hm p hp =>
    Place.fits_iff.2 ⟨h.admits m hm p hp, hinside m hm p hp⟩
  refine
    { temp_usable := h.temp_admits, carry_usable := h.carry_admits, temp_ne_carry := h.temp_ne_carry,
      dest := fun m hm => hfits m hm _ m.dest_mem_places, source := fun m hm => ?_, dest_free := fun m hm => ?_,
      source_free := fun m hm => ?_, dests := ?_, sources := fun m hm n hn p hp => ?_ }
  · rcases hs : m.source with p | x
    · exact hfits m hm p (mem_places_of_source hs)
    · trivial
  · exact ⟨fun hd => (h.spare m hm).1 (hd ▸ m.dest_mem_places), fun hd => (h.spare m hm).2 (hd ▸ m.dest_mem_places)⟩
  · exact ⟨fun hs => (h.spare m hm).1 (mem_places_of_source hs), fun hs => (h.spare m hm).2 (mem_places_of_source hs)⟩
  · refine (pairwise_map.1 h.dests).imp_of_mem fun {m n} hm hn hne => ?_
    exact h.apart m hm n hn _ m.dest_mem_places _ n.dest_mem_places hne
  · by_cases hpn : p = n.dest
    · exact .inl hpn
    · exact .inr (h.apart m hm n hn p (mem_places_of_source hp) _ n.dest_mem_places hpn)

end Assigns

abbrev proper (ms : List Move) : List Move := ms.filter (!·.isIdentity)

theorem simultaneous_proper (temp carry : Reg) (ms : List Move) :
    simultaneous temp carry (proper ms) = simultaneous temp carry ms := by
  simp only [simultaneous, filter_filter, Bool.and_self]

theorem Movable.sublist (h : Movable base size temp carry ms) (hsub : pending.Sublist ms) :
    Movable base size temp carry pending :=
  { h with
    dest := fun m hm => h.dest m (hsub.subset hm)
    source := fun m hm => h.source m (hsub.subset hm)
    dest_free := fun m hm => h.dest_free m (hsub.subset hm)
    source_free := fun m hm => h.source_free m (hsub.subset hm)
    dests := h.dests.sublist hsub
    sources := fun m hm n hn => h.sources m (hsub.subset hm) n (hsub.subset hn) }

/-- What the destination of a move has when all moves are made: what its source had, cut to the width of the move. A move
    from a place to itself has no code, and what is there stays as it is. -/
def outcome (m : Move) (base : Int) (v : View) : Int64 :=
  if m.isIdentity then v.held base m.width m.dest else v.value base m.width m.source

theorem outcome_of_isIdentity (h : m.isIdentity) (base : Int) (v : View) :
    m.outcome base v = v.held base m.width m.dest := if_pos h

theorem outcome_eq_value (h : ∀ p, m.source = .place p → m.width.IsCanonical (v.held base m.width p)) :
    m.outcome base v = v.value base m.width m.source := by
  by_cases hid : m.isIdentity
  · have hsource : m.source = .place m.dest := by simpa [isIdentity] using hid
    rw [outcome_of_isIdentity hid, hsource]
    exact (h _ hsource).symm
  · exact if_neg hid

/-- Every destination has its outcome after the code, whatever its source had before. -/
theorem Movable.run_outcomes (h : Movable base size temp carry ms) (hv : v.Stands base size) :
    ∃ w, v.run (simultaneous temp carry ms) = .ok w ∧ (∀ m ∈ ms, w.held base m.width m.dest = m.outcome base v) ∧
      Changes (fun r => r = temp ∨ r = carry ∨ ∃ m ∈ ms, m.dest = .reg r)
        (fun a => ∃ m ∈ ms, m.dest.Covers base m.width a) v w := by
  have hproper : ∀ {m}, m ∈ proper ms → m ∈ ms ∧ m.isIdentity = false := fun hm =>
    (mem_filter.1 hm).imp_right fun hid => by simpa using hid
  obtain ⟨w, hrun, hheld, hc⟩ := (h.sublist filter_sublist).run_simultaneous hv fun m hm hid =>
    absurd hid (by simp [(hproper hm).2])
  rw [simultaneous_proper] at hrun
  refine ⟨w, hrun, fun m hm => ?_, hc.mono ?_ ?_⟩
  · by_cases hid : m.isIdentity
    · -- No other move has this destination.
      have hapart : ∀ n ∈ proper ms, m.dest.Disjoint m.width n.width n.dest := fun n hn =>
        (h.eq_or_disjoint hm (hproper hn).1).resolve_left fun heq => by
          rw [heq, (hproper hn).2] at hid
          cases hid
      rw [outcome_of_isIdentity hid]
      refine hc.held_eq (fun r hr => ?_) fun a ha => ?_
      · rintro (rfl | rfl | ⟨n, hn, hdest⟩)
        · exact (h.dest_free m hm).1 hr
        · exact (h.dest_free m hm).2 hr
        · have := hapart n hn
          rw [hr, hdest] at this
          exact this rfl
      · rintro ⟨n, hn, hcovers⟩
        exact (hapart n hn).not_covers (h.dest m hm) (h.dest n (hproper hn).1) ha hcovers
    · rw [hheld m (mem_filter.2 ⟨hm, by simpa using hid⟩), outcome, if_neg hid]
  · rintro r (hr | hr | ⟨m, hm, hdest⟩)
    · exact .inl hr
    · exact .inr (.inl hr)
    · exact .inr (.inr ⟨m, (hproper hm).1, hdest⟩)
  · rintro a ⟨m, hm, hcovers⟩
    exact ⟨m, (hproper hm).1, hcovers⟩

/-- The code for an assignment comes to an end. Executed from any state whose memory holds the places in the frame, it
    gives every destination the value that its source had there, cut to the width of the move, and changes no register
    other than destinations and the two to spare, and no byte outside the destinations. -/
theorem simultaneous_assigns (h : Assigns temp carry ms) :
    Settles temp carry (proper ms) (simultaneous temp carry ms) ∧
      ∀ (img : Image) (p : Nat) (s : State) (base : Int), img.CodeAt p (simultaneous temp carry ms) → s.pc = p →
        s.halted = false → base = (s.view.regs .fp).toInt → s.memory.size < 2 ^ 63 →
        (∀ m ∈ ms, ∀ q ∈ m.places, q.Inside base s.memory.size m.width) →
        ∃ t : State, (∀ n, img.loop ((simultaneous temp carry ms).length + n) s = img.loop n t) ∧
          t.pc = (p + (simultaneous temp carry ms).length : Nat) ∧ t.halted = false ∧
          (∀ m ∈ proper ms, t.view.held base m.width m.dest = s.view.value base m.width m.source) ∧
          Changes (fun r => r = temp ∨ r = carry ∨ ∃ m ∈ proper ms, m.dest = .reg r)
            (fun a => ∃ m ∈ proper ms, m.dest.Covers base m.width a) s.view t.view := by
  have hproper : Assigns temp carry (proper ms) := h.sublist filter_sublist
  have hsettles : Settles temp carry (proper ms) (simultaneous temp carry ms) :=
    settles_sequence (Nat.le_refl _) hproper.dests fun hmem => by
      obtain ⟨m, hm, hdest⟩ := mem_map.1 hmem
      exact (hproper.spare m hm).1 (hdest ▸ m.dest_mem_places)
  refine ⟨hsettles, fun img p s base hcode hpc hrun hbase hsize hinside => ?_⟩
  have hmovable : Movable base s.memory.size temp carry (proper ms) :=
    hproper.movable fun m hm => hinside m (mem_of_mem_filter hm)
  have hstands : s.view.Stands base s.memory.size := ⟨hbase.symm, rfl, hsize⟩
  -- None of these moves leaves everything as it is, so nothing is asked of what they find.
  obtain ⟨w, hw, hheld, hchanges⟩ := hmovable.run_simultaneous hstands fun m hm hid => by
    have := (mem_filter.1 hm).2
    rw [hid] at this
    exact absurd this Bool.false_ne_true
  rw [simultaneous_proper] at hw
  obtain ⟨t, htpc, rfl, hthalted, hloop⟩ := Image.loop_of_run hcode hsettles.loud hw hpc rfl hrun
  exact ⟨t, hloop, htpc, hthalted, hheld, hchanges⟩

namespace Exchange

/-- Two cycles of different widths, one of them through the frame, with a second reader of a place in a cycle, a word
    that nothing is read from, and a move that leaves everything as it is. -/
def moves : List Move :=
  [⟨.reg ⟨0⟩, .place (.reg ⟨1⟩), .w32⟩, ⟨.reg ⟨1⟩, .place (.frame (-8)), .w8⟩,
    ⟨.frame (-8), .place (.reg ⟨0⟩), .w64⟩, ⟨.reg ⟨2⟩, .place (.reg ⟨3⟩), .w16⟩, ⟨.reg ⟨3⟩, .place (.reg ⟨2⟩), .w64⟩,
    ⟨.reg ⟨4⟩, .place (.reg ⟨2⟩), .w8⟩, ⟨.frame (-16), .imm 5, .w32⟩, ⟨.reg ⟨5⟩, .place (.reg ⟨5⟩), .w64⟩]

def image : Image := ⟨(simultaneous ⟨14⟩ ⟨15⟩ moves).toArray, []⟩

def start : State :=
  { memory := { size := 64 }, regs := (Vector.replicate Reg.count 7).set Reg.fp.num.toNat 64 (by decide) }

theorem simultaneous_assigns_moves :
    Assigns ⟨14⟩ ⟨15⟩ moves ∧ ∃ t : State,
      (∀ n, image.loop ((simultaneous ⟨14⟩ ⟨15⟩ moves).length + n) start = image.loop n t) ∧
        t.view.memory.value .w64 56 = 7 ∧ t.view.regs ⟨9⟩ = 7 := by
  have hassigns : Assigns ⟨14⟩ ⟨15⟩ moves :=
    ⟨by decide, by decide, by decide, by decide, by decide, by decide, by decide⟩
  refine ⟨hassigns, ?_⟩
  obtain ⟨t, hloop, -, -, hheld, hchanges⟩ := (simultaneous_assigns hassigns).2 image 0 start 64
    (fun k i hi => by rw [Nat.zero_add, image, getElem?_toArray, hi]) rfl rfl (by decide) (by decide) (by decide)
  refine ⟨t, hloop, ?_, ?_⟩
  · exact hheld ⟨.frame (-8), .place (.reg ⟨0⟩), .w64⟩ (by decide)
  · exact hchanges.regs ⟨9⟩ (by decide)

end Exchange

end Move

end RegisterCompiler
