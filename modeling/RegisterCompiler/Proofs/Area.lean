import RegisterCompiler.Proofs.Budget
import RegisterCompiler.Proofs.Descriptor
import RegisterCompiler.Proofs.Scalar

/-!
# The areas of a frame

The layout of a frame is computed in words, and a frame that is too large can wrap around and pass as a small one.
`Layout.extent` is the size of the frame in exact numbers. Where it is within the limit of the machine nothing wraps
around, since sizes are rounded to powers of two.
-/

namespace RegisterCompiler

open List
open IR (Function Slot Var)

/-- The bytes of a frame variable, as an exact number. -/
def IR.Slot.extent (s : Slot) : Nat := s.count.toInt.toNat * s.element.size

def AreaUse.extent : AreaUse → Nat
  | save _ => 8
  | slot s => s.extent
  | spill v => v.width.size

theorem IR.Slot.toInt_size (s : Slot) (hcount : 0 < s.count) (h : s.extent < 2 ^ 63) : s.size.toInt = s.extent := by
  have hcount : 0 ≤ s.count.toInt := Int.le_of_lt (by simpa using Int64.lt_iff_toInt_lt.1 hcount)
  have hprod : s.count.toInt * s.element.bytes.toInt = (s.extent : Int) := by
    rw [Width.toInt_bytes, Slot.extent, Int.natCast_mul, Int.toNat_of_nonneg hcount]
  rw [Slot.size, toInt_mul_of_bounds] <;> rw [hprod] <;> omega

namespace Layout

variable {depth offset : Int64} {k n : Nat} {e : Nat × Nat} {r : Reg} {v : Var}

/-- The multiple of `align` that `n` is rounded up to, as an exact number. -/
def roundUp (n align : Nat) : Nat := (n + align - 1) / align * align

/-- The sizes and alignments of the areas of a frame, as exact numbers. -/
def extents (d : Descriptor) (slots : List Slot) (spilled : List Var) (saved : List Reg) : List (Nat × Nat) :=
  saved.map (fun _ => (8, 8)) ++
    slots.map (fun s => (roundUp s.extent d.slotAlign.toInt.toNat, max d.slotAlign.toInt.toNat s.element.size)) ++
    spilled.map fun v => (v.width.size, v.width.size)

/-- The depth at which areas end that are placed one below the other from `depth` on. -/
def bottom : (depth : Nat) → List (Nat × Nat) → Nat
  | depth, [] => depth
  | depth, (size, align) :: rest => bottom (roundUp (depth + size) align) rest

def extent (d : Descriptor) (f : Function) (spilled : List Var) (saved : List Reg) : Nat :=
  roundUp (bottom 0 (extents d f.slots spilled saved)) d.stackAlign.toInt.toNat

/-! ## Rounding -/

theorem le_roundUp {n align : Nat} (h : 0 < align) : n ≤ roundUp n align := by
  have hdiv := Nat.div_add_mod (n + align - 1) align
  have hmod := Nat.mod_lt (n + align - 1) h
  rw [Nat.mul_comm] at hdiv
  unfold roundUp
  omega

theorem le_bottom {extents : List (Nat × Nat)} (depth : Nat) (h : ∀ e ∈ extents, 0 < e.2) :
    depth ≤ bottom depth extents := by
  induction extents generalizing depth with
  | nil => exact Nat.le_refl _
  | cons e rest ih =>
    obtain ⟨hpos, hrest⟩ := forall_mem_cons.1 h
    have hle := le_roundUp (n := depth + e.1) hpos
    have := ih (roundUp (depth + e.1) e.2) hrest
    simp only [bottom]
    omega

/-- Rounding up to a power of two does not wrap around if the result is a word. -/
theorem toInt_alignUp {n align : Int64} (hk : k < 63) (halign : align.toInt = (2 ^ k : Nat)) (hn : 0 ≤ n.toInt)
    (hfits : roundUp n.toInt.toNat (2 ^ k) < 2 ^ 63) : (alignUp n align).toInt = roundUp n.toInt.toNat (2 ^ k) := by
  have hpos : 0 < 2 ^ k := Nat.two_pow_pos k
  -- The largest multiple below the end of the words leaves room for the addition of the alignment.
  have hroom : roundUp n.toInt.toNat (2 ^ k) + 2 ^ k ≤ 2 ^ 63 := by
    have hsplit : 2 ^ 63 = 2 ^ (63 - k) * 2 ^ k := by rw [← Nat.pow_add]; congr 1; omega
    rw [hsplit] at hfits ⊢
    unfold roundUp at hfits ⊢
    rw [← Nat.succ_mul]
    exact Nat.mul_le_mul_right _ (Nat.lt_of_mul_lt_mul_right hfits)
  have hle := le_roundUp (n := n.toInt.toNat) hpos
  generalize hpow : 2 ^ k = a at *
  have hne : align ≠ 0 := by
    rintro rfl
    have : (0 : Int64).toInt = 0 := by decide
    omega
  have hsum : (n + align - 1).toInt = ((n.toInt.toNat + a - 1 : Nat) : Int) := by
    have hone : (1 : Int64).toInt = 1 := by decide
    have hsub : (align - 1).toInt = align.toInt - 1 := by
      rw [toInt_sub_of_bounds] <;> rw [hone] <;> omega
    rw [Int64.sub_eq_add_neg, Int64.add_assoc, ← Int64.sub_eq_add_neg, toInt_add_of_bounds] <;> rw [hsub] <;> omega
  have hquot : ((n + align - 1) / align).toInt = ((n.toInt.toNat + a - 1) / a : Nat) := by
    have hlt : (n.toInt.toNat + a - 1) / a ≤ n.toInt.toNat + a - 1 := Nat.div_le_self _ _
    rw [Int64.toInt_div, hsum, halign, ← Int.ofNat_tdiv]
    generalize (n.toInt.toNat + a - 1) / a = q at *
    rw [Int.bmod_eq_of_le] <;> omega
  have hprod : ((n + align - 1) / align).toInt * align.toInt = roundUp n.toInt.toNat a := by
    rw [hquot, halign, ← Int.natCast_mul]
    rfl
  unfold alignUp
  rw [if_neg hne, toInt_mul_of_bounds] <;> rw [hprod] <;> omega

/-! ## Areas one below the other -/

/-- The size and the alignment of a request, as exact numbers. -/
structure Exact (r : AreaRequest) (e : Nat × Nat) : Prop where
  size : r.size.toInt = e.1
  covers : r.use.extent ≤ e.1
  align : ∃ k, k < 63 ∧ e.2 = 2 ^ k ∧ r.align.toInt = e.2

theorem Exact.pos {requests : List AreaRequest} {extents : List (Nat × Nat)} (h : List.Forall₂ Exact requests extents) :
    ∀ e ∈ extents, 0 < e.2 := by
  induction h with
  | nil => nofun
  | cons hr _ ih =>
    obtain ⟨-, -, k, -, hpow, -⟩ := hr
    exact forall_mem_cons.2 ⟨hpow ▸ Nat.two_pow_pos k, ih⟩

theorem Exact.toInt_bottom {r : AreaRequest} (h : Exact r e) (hdepth : depth.toInt = n)
    (hfits : roundUp (n + e.1) e.2 < 2 ^ 63) : (alignUp (depth + r.size) r.align).toInt = roundUp (n + e.1) e.2 := by
  obtain ⟨hsize, -, k, hk, hpow, halign⟩ := h
  have hle := le_roundUp (n := n + e.1) (hpow ▸ Nat.two_pow_pos k)
  have hsum : (depth + r.size).toInt = (n + e.1 : Nat) := by
    rw [toInt_add_of_bounds] <;> rw [hdepth, hsize] <;> omega
  have := toInt_alignUp (n := depth + r.size) hk (hpow ▸ halign) (by omega)
  rw [hsum, Int.toNat_natCast, ← hpow] at this
  exact this hfits

/-- Areas lie between the depth at which they begin and that at which they end, each below those before it. -/
theorem place_exact {requests : List AreaRequest} {extents : List (Nat × Nat)}
    (hexact : List.Forall₂ Exact requests extents) (hdepth : depth.toInt = n) (hfits : bottom n extents < 2 ^ 63) :
    (place depth requests).2.toInt = bottom n extents ∧
      (∀ a ∈ (place depth requests).1, (a.use.extent : Int) ≤ a.size.toInt ∧
        -(bottom n extents : Int) ≤ a.offset.toInt ∧ a.offset.toInt + a.size.toInt ≤ -n) ∧
      (place depth requests).1.Pairwise fun a b => b.offset.toInt + b.size.toInt ≤ a.offset.toInt := by
  induction hexact generalizing depth n with
  | nil => exact ⟨hdepth, nofun, .nil⟩
  | @cons r e requests extents hr hrest ih =>
    have hlast := le_bottom (roundUp (n + e.1) e.2) (Exact.pos hrest)
    have hbottom := hr.toInt_bottom hdepth (hlast.trans_lt hfits)
    obtain ⟨hsize, hcovers, k, -, hpow, -⟩ := hr
    have hle := le_roundUp (n := n + e.1) (hpow ▸ Nat.two_pow_pos k)
    have hoffset : (-(alignUp (depth + r.size) r.align)).toInt = -(roundUp (n + e.1) e.2 : Int) := by
      rw [toInt_neg_of_bounds (by omega), hbottom]
    obtain ⟨hfinal, hareas, hpairwise⟩ := ih hbottom hfits
    simp only [place, bottom] at *
    refine ⟨hfinal, forall_mem_cons.2 ⟨?_, ?_⟩, pairwise_cons.2 ⟨?_, hpairwise⟩⟩
    · dsimp only
      omega
    · intro a ha
      obtain ⟨huse, hlow, hhigh⟩ := hareas a ha
      exact ⟨huse, hlow, by omega⟩
    · intro a ha
      obtain ⟨-, -, hhigh⟩ := hareas a ha
      dsimp only
      omega

theorem le_bottom_of_mem {extents : List (Nat × Nat)} (depth : Nat) (h : ∀ e ∈ extents, 0 < e.2) (he : e ∈ extents) :
    e.1 ≤ bottom depth extents := by
  induction extents generalizing depth with
  | nil => cases he
  | cons e' rest ih =>
    obtain ⟨hpos, hrest⟩ := forall_mem_cons.1 h
    rcases mem_cons.1 he with rfl | he
    · have hle := le_roundUp (n := depth + e.1) hpos
      have := le_bottom (roundUp (depth + e.1) e.2) hrest
      simp only [bottom]
      omega
    · exact ih (roundUp (depth + e'.1) e'.2) hrest he

theorem size_eq_two_pow {w : Width} (hw : w.isValid) : ∃ k, k < 63 ∧ w.size = 2 ^ k := by
  rcases Width.isValid_iff.1 hw with rfl | rfl | rfl | rfl
  · exact ⟨0, by decide, rfl⟩
  · exact ⟨1, by decide, rfl⟩
  · exact ⟨2, by decide, rfl⟩
  · exact ⟨3, by decide, rfl⟩

theorem exact_save (r : Reg) : Exact (.save r) (8, 8) := ⟨rfl, Nat.le_refl 8, 3, by decide, rfl, rfl⟩

theorem exact_spill (hv : v.width.isValid) : Exact (.spill v) (v.width.size, v.width.size) := by
  obtain ⟨k, hk, hpow⟩ := size_eq_two_pow hv
  exact ⟨v.width.toInt_bytes, Nat.le_refl _, k, hk, hpow, v.width.toInt_bytes⟩

theorem exact_slot {d : Descriptor} (hd : d.WellFormed) {s : Slot} (hcount : 0 < s.count) (helement : s.element.isValid)
    (hfits : roundUp s.extent d.slotAlign.toInt.toNat < 2 ^ 63) :
    Exact (.slot d s)
      (roundUp s.extent d.slotAlign.toInt.toNat, max d.slotAlign.toInt.toNat s.element.size) := by
  obtain ⟨k, hk, halign⟩ := hd.slotAlign
  obtain ⟨j, hj, hpow⟩ := size_eq_two_pow helement
  have halign' : d.slotAlign.toInt = (2 ^ k : Nat) := by rw [halign]; norm_cast
  have hnat : d.slotAlign.toInt.toNat = 2 ^ k := by rw [halign', Int.toNat_natCast]
  have hbytes := s.element.toInt_bytes
  rw [hnat] at hfits ⊢
  have hle := le_roundUp (n := s.extent) (Nat.two_pow_pos k)
  have hsize := s.toInt_size hcount (by omega)
  refine ⟨?_, hle, ?_⟩
  · have := toInt_alignUp (n := s.size) hk halign' (by omega)
    rw [hsize, Int.toNat_natCast] at this
    exact this hfits
  · -- The larger of the two alignments is a power of two as both of them are.
    have hless : s.element.bytes < d.slotAlign ↔ s.element.size < 2 ^ k := by
      rw [Int64.lt_iff_toInt_lt, hbytes, halign']
      norm_cast
    simp only [AreaRequest.slot]
    by_cases hlt : s.element.size < 2 ^ k
    · rw [if_pos (hless.2 hlt), max_eq_left hlt.le]
      exact ⟨k, hk, rfl, halign'⟩
    · rw [if_neg (mt hless.1 hlt), max_eq_right (Nat.le_of_not_lt hlt)]
      exact ⟨j, hj, hpow, hbytes⟩

section

variable {d : Descriptor} {f : Function} {spilled : List Var} {saved : List Reg} {l : Layout}

theorem extents_pos (d : Descriptor) (saved : List Reg) (hf : f.WellFormed) (hwidths : ∀ v ∈ spilled, v.width.isValid) :
    ∀ e ∈ extents d f.slots spilled saved, 0 < e.2 := by
  intro e he
  simp only [extents, mem_append, mem_map] at he
  rcases he with (⟨r, -, rfl⟩ | ⟨s, hs, rfl⟩) | ⟨v, hv, rfl⟩
  · decide
  · obtain ⟨k, hk⟩ := getElem?_of_mem hs
    have := (Width.size_of_isValid (hf.slot k s hk).2.2).2.1
    dsimp only
    omega
  · have := (Width.size_of_isValid (hwidths v hv)).2.1
    dsimp only
    omega

theorem requests_exact (hd : d.WellFormed) (hf : f.WellFormed) (hwidths : ∀ v ∈ spilled, v.width.isValid)
    (hfits : bottom 0 (extents d f.slots spilled saved) < 2 ^ 63) :
    List.Forall₂ Exact (requests d f.slots spilled saved) (extents d f.slots spilled saved) := by
  have hpos := extents_pos d saved hf hwidths
  unfold requests extents
  refine rel_append (rel_append ?_ ?_) ?_
  · exact forall₂_map_left_iff.2 (forall₂_map_right_iff.2 (forall₂_same.2 fun r _ => exact_save r))
  · refine forall₂_map_left_iff.2 (forall₂_map_right_iff.2 (forall₂_same.2 fun s hs => ?_))
    obtain ⟨k, hk⟩ := getElem?_of_mem hs
    obtain ⟨-, hcount, helement⟩ := hf.slot k s hk
    refine exact_slot hd hcount helement (Nat.lt_of_le_of_lt ?_ hfits)
    exact le_bottom_of_mem 0 hpos (mem_append_left _ (mem_append_right _ (mem_map_of_mem hs)))
  · exact forall₂_map_left_iff.2 (forall₂_map_right_iff.2 (forall₂_same.2 fun v hv =>
      exact_spill (hwidths v hv)))

theorem bottom_le_extent (hd : d.WellFormed) :
    bottom 0 (extents d f.slots spilled saved) ≤ extent d f spilled saved := by
  obtain ⟨k, -, -, halign⟩ := hd.stackAlign
  refine le_roundUp ?_
  have := Nat.two_pow_pos k
  rw [halign]
  exact_mod_cast this

section

variable (hd : d.WellFormed) (hf : f.WellFormed) (hwidths : ∀ v ∈ spilled, v.width.isValid)
  (hword : extent d f spilled saved < 2 ^ 63)
include hd hf hwidths hword

theorem toInt_size :
    (alignUp (place 0 (requests d f.slots spilled saved)).2 d.stackAlign).toInt = extent d f spilled saved := by
  obtain ⟨k, -, hk, halign⟩ := hd.stackAlign
  have halign' : d.stackAlign.toInt = (2 ^ k : Nat) := by rw [halign]; norm_cast
  have hbottom := (bottom_le_extent hd).trans_lt hword
  obtain ⟨hdepth, -⟩ := @place_exact 0 0 _ _ (requests_exact hd hf hwidths hbottom) rfl hbottom
  unfold extent at hword ⊢
  rw [halign', Int.toNat_natCast] at hword ⊢
  have := toInt_alignUp (n := (place 0 (requests d f.slots spilled saved)).2) hk halign' (by omega)
  rw [hdepth, Int.toNat_natCast] at this
  exact this hword

/-- The areas of a frame, if its exact size is a word: each has room for what it is used for, within the frame and below
    all areas before it. -/
theorem areas_exact (h : ofFunction d f spilled saved = .ok l) :
    l.size.toInt = extent d f spilled saved ∧
      (∀ a ∈ l.areas, (a.use.extent : Int) ≤ a.size.toInt ∧
        -l.size.toInt ≤ a.offset.toInt ∧ a.offset.toInt + a.size.toInt ≤ 0) ∧
      l.areas.Pairwise fun a b => b.offset.toInt + b.size.toInt ≤ a.offset.toInt := by
  obtain ⟨hareas, hsize, -⟩ := ofFunction_eq_ok h
  have hle : bottom 0 (extents d f.slots spilled saved) ≤ extent d f spilled saved := bottom_le_extent hd
  have hbottom := hle.trans_lt hword
  obtain ⟨-, hplaced, hbelow⟩ := @place_exact 0 0 _ _ (requests_exact hd hf hwidths hbottom) rfl hbottom
  have htotal : l.size.toInt = extent d f spilled saved := hsize ▸ toInt_size hd hf hwidths hword
  rw [← hareas] at hplaced hbelow
  refine ⟨htotal, fun a ha => ?_, hbelow⟩
  obtain ⟨hroom, hlow, hhigh⟩ := hplaced a ha
  exact ⟨hroom, by omega, hhigh⟩

end

def At (l : Layout) (u : AreaUse) (offset : Int64) : Prop := ∃ a ∈ l.areas, a.use = u ∧ a.offset = offset

/-- Areas lie within the frame and have no byte in common. -/
structure Tidy (l : Layout) : Prop where
  size : 0 ≤ l.size.toInt
  inside : ∀ u offset, l.At u offset → -l.size.toInt ≤ offset.toInt ∧ offset.toInt + u.extent ≤ 0
  disjoint : ∀ u u' offset offset', l.At u offset → l.At u' offset' → u ≠ u' →
    offset.toInt + u.extent ≤ offset'.toInt ∨ offset'.toInt + u'.extent ≤ offset.toInt

theorem apart_of_pairwise {areas : List Area} {size : Area → Int}
    (h : areas.Pairwise fun a b => b.offset.toInt + size b ≤ a.offset.toInt) {a b : Area} (ha : a ∈ areas) (hb : b ∈ areas)
    (hne : a.use ≠ b.use) : a.offset.toInt + size a ≤ b.offset.toInt ∨ b.offset.toInt + size b ≤ a.offset.toInt := by
  have hsymm : Std.Symm fun a b : Area => a.offset.toInt + size a ≤ b.offset.toInt ∨
      b.offset.toInt + size b ≤ a.offset.toInt := ⟨fun _ _ => Or.symm⟩
  have heither : areas.Pairwise fun a b => a.offset.toInt + size a ≤ b.offset.toInt ∨
      b.offset.toInt + size b ≤ a.offset.toInt := h.imp Or.inr
  exact heither.forall ha hb fun hab => hne (congrArg Area.use hab)

/-- A frame that is within the limit of the machine in exact numbers is laid out as it should. -/
theorem tidy_of_ofFunction (h : ofFunction d f spilled saved = .ok l) (hd : d.WellFormed) (hf : f.WellFormed)
    (hspilled : ∀ v ∈ spilled, v ∈ f.vars) (hfits : extent d f spilled saved ≤ d.maxFrame.toInt) : l.Tidy := by
  have hwidths : ∀ v ∈ spilled, v.width.isValid := fun v hv => hf.width v (hspilled v hv)
  have hword : extent d f spilled saved < 2 ^ 63 := by
    have := d.maxFrame.toInt_lt
    omega
  obtain ⟨hsize, hareas, hbelow⟩ := areas_exact hd hf hwidths hword h
  refine ⟨by omega, ?_, ?_⟩
  · rintro u offset ⟨a, ha, rfl, rfl⟩
    obtain ⟨hroom, hlow, hhigh⟩ := hareas a ha
    omega
  · rintro u u' offset offset' ⟨a, ha, rfl, rfl⟩ ⟨b, hb, rfl, rfl⟩ hne
    have := apart_of_pairwise hbelow ha hb hne
    have := (hareas a ha).1
    have := (hareas b hb).1
    omega

/-! ## Where areas are found -/

theorem at_of_offset? {p : AreaUse → Bool} (h : l.offset? p = some offset) : ∃ u, p u ∧ l.At u offset := by
  obtain ⟨a, ha, rfl⟩ := Option.map_eq_some_iff.1 h
  have hp := find?_some ha
  exact ⟨a.use, hp, a, mem_reverse.1 (mem_of_find?_eq_some ha), rfl, rfl⟩

section

variable (h : ofFunction d f spilled saved = .ok l)
include h

theorem mem_requests_of_at {u : AreaUse} (hat : l.At u offset) :
    u ∈ (requests d f.slots spilled saved).map AreaRequest.use := by
  obtain ⟨a, ha, rfl, -⟩ := hat
  rw [← map_use_areas h]
  exact mem_map_of_mem ha

theorem at_of_spillOffset? (hf : f.WellFormed) (hspilled : ∀ v ∈ spilled, v ∈ f.vars) (hv : v ∈ f.vars)
    (hoffset : l.spillOffset? v.id = some offset) : l.At (.spill v) offset := by
  obtain ⟨u, hu, hat⟩ := at_of_offset? hoffset
  cases u with
  | save | slot => cases hu
  | spill w =>
    have hid : w.id = v.id := by simpa using hu
    have hw : w ∈ spilled := by
      simpa [requests, AreaRequest.save, AreaRequest.slot, AreaRequest.spill] using mem_requests_of_at h hat
    rwa [inj_on_of_nodup_map hf.nodup (hspilled w hw) hv hid] at hat

theorem at_of_slotOffset? (hf : f.WellFormed) (hoffset : l.slotOffset? k = some offset) :
    ∃ s, f.slots[k]? = some s ∧ l.At (.slot s) offset := by
  obtain ⟨u, hu, hat⟩ := at_of_offset? hoffset
  cases u with
  | save | spill => cases hu
  | slot s =>
    have hid : s.id = k := by simpa using hu
    have hs : s ∈ f.slots := by
      simpa [requests, AreaRequest.save, AreaRequest.slot, AreaRequest.spill] using mem_requests_of_at h hat
    obtain ⟨j, hj⟩ := getElem?_of_mem hs
    have hjk : j = k := by
      have := (hf.slot j s hj).1.symm.trans hid
      exact_mod_cast this
    exact ⟨s, hjk ▸ hj, hat⟩

end

theorem at_of_saveOffset? (h : l.saveOffset? r = some offset) : l.At (.save r) offset := by
  obtain ⟨u, hu, hat⟩ := at_of_offset? h
  rwa [of_decide_eq_true hu] at hat

/-- The register that an area keeps for the caller. -/
def savedReg? : AreaUse → Option Reg
  | .save r => some r
  | _ => none

theorem saved_eq (h : ofFunction d f spilled saved = .ok l) : l.saved = saved := by
  have huse := map_use_areas h
  have hsaved : l.saved = (l.areas.map Area.use).filterMap savedReg? := by
    rw [filterMap_map]
    rfl
  rw [hsaved, huse]
  simp [savedReg?, requests, filterMap_map, Function.comp_def, AreaRequest.save, AreaRequest.slot, AreaRequest.spill]

theorem mem_saves_iff {address : Asm.Addr} :
    (r, address) ∈ l.saves ↔ r ∈ l.saved ∧ ∃ offset, l.saveOffset? r = some offset ∧ address = { base := .fp, offset } := by
  simp only [saves, mem_filterMap, Option.map_eq_some_iff, Prod.mk.injEq]
  constructor
  · rintro ⟨q, hq, offset, hoffset, rfl, rfl⟩
    exact ⟨hq, offset, hoffset, rfl⟩
  · rintro ⟨hr, offset, hoffset, rfl⟩
    exact ⟨r, hr, offset, hoffset, rfl, rfl⟩

theorem exists_saveOffset? (hr : r ∈ l.saved) : ∃ offset, l.saveOffset? r = some offset := by
  simp only [Layout.saved, mem_filterMap] at hr
  obtain ⟨a, ha, hsome⟩ := hr
  refine exists_offset? (u := a.use) (mem_map_of_mem ha) ?_
  split at hsome
  · next heq =>
    cases hsome
    exact decide_eq_true heq
  · cases hsome

end

end Layout

end RegisterCompiler
