import RegisterCompiler.Proofs.Area

/-!
# Well-formed frames

The areas of a frame are placed one below the other, with one running depth for saved registers, frame variables and
variables without a register. The depth is a word, and what can be said of a frame is said for frames whose size, as an
exact number, is a word, too; nothing is rounded to the wrong side then.
-/

namespace RegisterCompiler

open List hiding Disjoint disjoint_comm
open IR (Function Slot Var)

/-- The bytes of an area, counted from the frame pointer. -/
def Area.bytes (a : Area) : Set Int := Set.Ico a.offset.toInt (a.offset.toInt + a.size.toInt)

/-- The bytes of a value that an area holds: a register, an element of a frame variable or a variable. -/
def AreaUse.unit : AreaUse → Nat
  | save _ => 8
  | slot s => s.element.size
  | spill v => v.width.size

variable {d : Descriptor} {f : Function} {spilled : List Var} {saved : List Reg} {l : Layout}

namespace Layout

/-- What the frame of a function should be. -/
structure Orderly (l : Layout) (d : Descriptor) (f : Function) (spilled : List Var) (saved : List Reg) : Prop where
  uses : l.areas.map Area.use = saved.map .save ++ f.slots.map .slot ++ spilled.map .spill
  disjoint : l.areas.Pairwise fun a b => Disjoint a.bytes b.bytes
  inside : ∀ a ∈ l.areas, a.bytes ⊆ Set.Ico (-l.size.toInt) 0
  aligned : ∀ a ∈ l.areas, a.align.toInt ∣ a.offset.toInt
  /-- The alignment of an area suits the values in it. -/
  natural : ∀ a ∈ l.areas, (a.use.unit : Int) ∣ a.align.toInt
  /-- There is room for a saved register, all elements of a frame variable or a value of the width of a variable. -/
  room : ∀ a ∈ l.areas, (a.use.extent : Int) ≤ a.size.toInt
  decreasing : l.areas.Pairwise fun a b => b.offset < a.offset
  size_dvd : d.stackAlign.toInt ∣ l.size.toInt
  size_le : l.size ≤ d.maxFrame
  /-- What is looked up is the offset of the area of a frame variable, a variable or a register, and of no other. -/
  slotOffset : ∀ id offset, l.slotOffset? id = some offset ↔ ∃ s, s.id = id ∧ l.At (.slot s) offset
  spillOffset : ∀ id offset, l.spillOffset? id = some offset ↔ ∃ v, v.id = id ∧ l.At (.spill v) offset
  saveOffset : ∀ r offset, l.saveOffset? r = some offset ↔ l.At (.save r) offset

/-! ## Alignment -/

theorem dvd_roundUp (n align : Nat) : align ∣ roundUp n align := Dvd.intro_left _ rfl

theorem place_aligned {requests : List AreaRequest} {extents : List (Nat × Nat)} {depth : Int64} {n : Nat}
    (hexact : List.Forall₂ Exact requests extents) (hdepth : depth.toInt = n) (hfits : bottom n extents < 2 ^ 63) :
    ∀ a ∈ (place depth requests).1, a.align.toInt ∣ a.offset.toInt := by
  induction hexact generalizing depth n with
  | nil => exact forall_mem_nil _
  | @cons r e requests extents hr hrest ih =>
    have hlast := (le_bottom (roundUp (n + e.1) e.2) (Exact.pos hrest)).trans_lt hfits
    have hbottom := hr.toInt_bottom hdepth hlast
    obtain ⟨-, -, -, -, -, halign⟩ := hr
    refine forall_mem_cons.2 ⟨?_, ih hbottom hfits⟩
    have hoffset : (-(alignUp (depth + r.size) r.align)).toInt = -(roundUp (n + e.1) e.2 : Int) := by
      rw [toInt_neg_of_bounds (by omega), hbottom]
    dsimp only
    rw [hoffset, halign, dvd_neg]
    exact_mod_cast dvd_roundUp (n + e.1) e.2

theorem exists_request_of_mem_place {depth : Int64} {requests : List AreaRequest} {a : Area}
    (ha : a ∈ (place depth requests).1) : ∃ r ∈ requests, r.use = a.use ∧ r.align = a.align := by
  induction requests generalizing depth with
  | nil => cases ha
  | cons r rest ih =>
    rcases mem_cons.1 ha with rfl | ha
    · exact ⟨r, mem_cons_self, rfl, rfl⟩
    · obtain ⟨r', hr', heq⟩ := ih ha
      exact ⟨r', mem_cons_of_mem _ hr', heq⟩

theorem unit_dvd_align_slot (hd : d.WellFormed) {s : Slot} (hs : s.element.isValid) :
    (s.element.size : Int) ∣ (AreaRequest.slot d s).align.toInt := by
  obtain ⟨k, -, halign⟩ := hd.slotAlign
  obtain ⟨j, -, hpow⟩ := size_eq_two_pow hs
  simp only [AreaRequest.slot]
  split
  · next hlt =>
    -- Of two powers of two the smaller divides the larger.
    rw [Int64.lt_iff_toInt_lt, s.element.toInt_bytes, halign, hpow] at hlt
    have hjk : j < k := (Nat.pow_lt_pow_iff_right Nat.one_lt_two).1 (by exact_mod_cast hlt)
    rw [halign, hpow]
    exact_mod_cast pow_dvd_pow 2 hjk.le
  · rw [s.element.toInt_bytes]

theorem unit_dvd_align (hd : d.WellFormed) (hf : f.WellFormed) :
    ∀ r ∈ requests d f.slots spilled saved, (r.use.unit : Int) ∣ r.align.toInt := by
  simp only [requests, mem_append, mem_map]
  rintro r ((⟨q, -, rfl⟩ | ⟨s, hs, rfl⟩) | ⟨v, -, rfl⟩)
  · exact dvd_refl 8
  · obtain ⟨k, hk⟩ := getElem?_of_mem hs
    exact unit_dvd_align_slot hd (hf.slot k s hk).2.2
  · exact v.width.toInt_bytes.symm.dvd

/-! ## Uses -/

theorem map_use_requests (d : Descriptor) (slots : List Slot) (spilled : List Var) (saved : List Reg) :
    (requests d slots spilled saved).map AreaRequest.use = saved.map .save ++ slots.map .slot ++ spilled.map .spill := by
  simp [requests, AreaRequest.save, AreaRequest.slot, AreaRequest.spill, Function.comp_def]

theorem extent_pos (hf : f.WellFormed) (hwidths : ∀ v ∈ spilled, v.width.isValid) :
    ∀ u ∈ saved.map AreaUse.save ++ f.slots.map AreaUse.slot ++ spilled.map AreaUse.spill, 0 < u.extent := by
  simp only [mem_append, mem_map]
  rintro u ((⟨r, -, rfl⟩ | ⟨s, hs, rfl⟩) | ⟨v, hv, rfl⟩)
  · exact Nat.succ_pos 7
  · obtain ⟨k, hk⟩ := getElem?_of_mem hs
    obtain ⟨-, hcount, helement⟩ := hf.slot k s hk
    have hcount : 0 < s.count.toInt := by simpa using Int64.lt_iff_toInt_lt.1 hcount
    exact Nat.mul_pos (by omega) (Width.size_of_isValid helement).2.1
  · exact (Width.size_of_isValid (hwidths v hv)).2.1

theorem nodup_slot_ids (hf : f.WellFormed) : (f.slots.map Slot.id).Nodup := by
  have hids : f.slots.map Slot.id = (List.range f.slots.length).map Int.ofNat := by
    refine ext_getElem (by simp) fun k hk _ => ?_
    simpa using (hf.slot k _ (getElem?_eq_getElem (by simpa using hk))).1
  rw [hids]
  exact nodup_range.map fun _ _ => Int.ofNat.inj

theorem nodup_uses (hf : f.WellFormed) (hids : (spilled.map Var.id).Nodup) (hsaved : saved.Nodup) :
    (saved.map AreaUse.save ++ f.slots.map AreaUse.slot ++ spilled.map AreaUse.spill).Nodup := by
  have hsaves : (saved.map AreaUse.save).Nodup := hsaved.map fun _ _ => AreaUse.save.inj
  have hslots : (f.slots.map AreaUse.slot).Nodup := (nodup_slot_ids hf).of_map.map fun _ _ => AreaUse.slot.inj
  have hspills : (spilled.map AreaUse.spill).Nodup := hids.of_map.map fun _ _ => AreaUse.spill.inj
  refine (hsaves.append hslots ?_).append hspills ?_
  · intro u hsave hslot
    obtain ⟨r, -, rfl⟩ := mem_map.1 hsave
    simp at hslot
  · intro u hother hspill
    obtain ⟨v, -, rfl⟩ := mem_map.1 hspill
    simp at hother

/-! ## Looking up -/

/-- If uses of a kind have different keys, the offset that is found for a key is that of the only area of the kind whose
    use has the key. -/
theorem offset?_eq_some_iff {α κ : Type} {p : AreaUse → Bool} (kind : α → AreaUse) (key : α → κ) {k : κ}
    (hp : ∀ u, p u ↔ ∃ x, key x = k ∧ kind x = u) (huses : (l.areas.map Area.use).Nodup)
    (hkeys : ∀ x y, kind x ∈ l.areas.map Area.use → kind y ∈ l.areas.map Area.use → key x = key y → x = y)
    {offset : Int64} : l.offset? p = some offset ↔ ∃ x, key x = k ∧ l.At (kind x) offset := by
  constructor
  · intro hfound
    obtain ⟨u, hu, hat⟩ := at_of_offset? hfound
    obtain ⟨x, hx, rfl⟩ := (hp u).1 hu
    exact ⟨x, hx, hat⟩
  · rintro ⟨x, hx, a, ha, hax, rfl⟩
    have hmem : kind x ∈ l.areas.map Area.use := hax ▸ mem_map_of_mem ha
    obtain ⟨found, hfound⟩ := exists_offset? hmem ((hp _).2 ⟨x, hx, rfl⟩)
    obtain ⟨u, hu, b, hb, hbu, rfl⟩ := at_of_offset? hfound
    obtain ⟨y, hy, rfl⟩ := (hp u).1 hu
    have hyx : y = x := hkeys y x (hbu ▸ mem_map_of_mem hb) hmem (hy.trans hx.symm)
    have hba : b = a := inj_on_of_nodup_map huses hb ha (by rw [hbu, hax, hyx])
    rw [hfound, hba]

/-! ## Frames -/

theorem orderly_of_ofFunction {config : Config} (hd : config.descriptor = .ok d) (hf : f.verify = .ok ())
    (hids : (spilled.map Var.id).Nodup) (hwidths : ∀ v ∈ spilled, v.width.isValid) (hsaved : saved.Nodup)
    (hword : extent d f spilled saved < 2 ^ 63) (h : ofFunction d f spilled saved = .ok l) :
    l.Orderly d f spilled saved := by
  have hd := Config.wellFormed_of_descriptor hd
  have hf := IR.Function.verify_eq_ok.1 hf
  obtain ⟨hsize, hareas, hbelow⟩ := areas_exact hd hf hwidths hword h
  have huses : l.areas.map Area.use = saved.map .save ++ f.slots.map .slot ++ spilled.map .spill :=
    (map_use_areas h).trans (map_use_requests d f.slots spilled saved)
  have hnodup : (l.areas.map Area.use).Nodup := huses ▸ nodup_uses hf hids hsaved
  have hpos : ∀ a ∈ l.areas, 0 < a.size.toInt := by
    intro a ha
    have hroom := (hareas a ha).1
    have hextent := extent_pos hf hwidths a.use (huses ▸ mem_map_of_mem ha)
    omega
  exact {
    uses := huses
    disjoint := hbelow.imp fun hab => by
      rw [Area.bytes, Area.bytes, disjoint_comm, Set.Ico_disjoint_Ico]
      omega
    inside := fun a ha => Set.Ico_subset_Ico (hareas a ha).2.1 (hareas a ha).2.2
    aligned := by
      have hbottom := (bottom_le_extent hd).trans_lt hword
      rw [(ofFunction_eq_ok h).1]
      exact @place_aligned _ _ 0 0 (requests_exact hd hf hwidths hbottom) rfl hbottom
    natural := fun a ha => by
      rw [(ofFunction_eq_ok h).1] at ha
      obtain ⟨r, hr, huse, halign⟩ := exists_request_of_mem_place ha
      exact huse ▸ halign ▸ unit_dvd_align hd hf r hr
    room := fun a ha => (hareas a ha).1
    decreasing := hbelow.imp_of_mem fun _ hb hab => by
      have := hpos _ hb
      exact Int64.lt_iff_toInt_lt.2 (by omega)
    size_dvd := by
      obtain ⟨k, -, -, halign⟩ := hd.stackAlign
      have hdvd := Int.natCast_dvd_natCast.2
        (dvd_roundUp (bottom 0 (extents d f.slots spilled saved)) d.stackAlign.toInt.toNat)
      rwa [Int.toNat_of_nonneg (by rw [halign]; positivity), ← extent, ← hsize] at hdvd
    size_le := (ofFunction_eq_ok h).2.2
    slotOffset := fun id offset => by
      refine offset?_eq_some_iff .slot Slot.id (fun u => by cases u <;> simp) hnodup fun s t hs ht hst => ?_
      rw [huses] at hs ht
      exact inj_on_of_nodup_map (nodup_slot_ids hf) (by simpa using hs) (by simpa using ht) hst
    spillOffset := fun id offset => by
      refine offset?_eq_some_iff .spill Var.id (fun u => by cases u <;> simp) hnodup fun v w hv hw hvw => ?_
      rw [huses] at hv hw
      exact inj_on_of_nodup_map hids (by simpa using hv) (by simpa using hw) hvw
    saveOffset := fun r offset => by
      refine (offset?_eq_some_iff .save id (k := r) (fun u => ?_) hnodup fun _ _ _ _ => id).trans ?_
      · cases u <;> simp [eq_comm]
      · simp only [id, exists_eq_left] }

end Layout

namespace Placement

/-- A machine with small alignments for frame variables and large ones for frames. -/
def packedConfig : Config :=
  { name := "packed", allocatable := ["r1", "r2"], args := ["r1"], calleeSaved := ["r2"], stackAlign := 32
    slotAlign := 2 }

def packed : Descriptor := { Allocation.smallTarget with name := "packed", stackAlign := 32, slotAlign := 2 }

def mixed : Function :=
  { name := "mixed", params := [⟨0, .w8⟩, ⟨1, .w64⟩], result := .none, entry := 0
    slots := [⟨0, "bytes", 5, .w8⟩, ⟨1, "ints", 3, .w32⟩], blocks := [⟨0, "entry", [.ret none]⟩] }

def mixedFrame : Layout :=
  { function := "mixed", size := 64, argSize := 8
    areas := [⟨.save ⟨2⟩, -8, 8, 8⟩, ⟨.slot ⟨0, "bytes", 5, .w8⟩, -14, 6, 2⟩, ⟨.slot ⟨1, "ints", 3, .w32⟩, -28, 12, 4⟩,
      ⟨.spill ⟨0, .w8⟩, -29, 1, 1⟩, ⟨.spill ⟨1, .w64⟩, -40, 8, 8⟩] }

theorem orderly_mixed :
    packedConfig.descriptor = .ok packed ∧ mixed.verify = .ok () ∧
      Layout.extent packed mixed mixed.params [⟨2⟩] = 64 ∧
      Layout.ofFunction packed mixed mixed.params [⟨2⟩] = .ok mixedFrame ∧
      mixedFrame.Orderly packed mixed mixed.params [⟨2⟩] := by
  have hd : packedConfig.descriptor = .ok packed := by cbv
  have hf : mixed.verify = .ok () := by cbv
  have hextent : Layout.extent packed mixed mixed.params [⟨2⟩] = 64 := by decide
  have hframe : Layout.ofFunction packed mixed mixed.params [⟨2⟩] = .ok mixedFrame := by decide
  exact ⟨hd, hf, hextent, hframe,
    Layout.orderly_of_ofFunction hd hf (by decide) (by decide) (by decide) (by rw [hextent]; decide) hframe⟩

end Placement

namespace Layout

/-- A frame whose exact size is a word is refused exactly if that is beyond the limit of the machine; either way it is the
    size that is given. -/
theorem overflow_iff_extent {config : Config} (hd : config.descriptor = .ok d) (hf : f.verify = .ok ())
    (hwidths : ∀ v ∈ spilled, v.width.isValid) (hword : extent d f spilled saved < 2 ^ 63) :
    ((∃ e, ofFunction d f spilled saved = .error e) ↔ d.maxFrame.toInt < extent d f spilled saved) ∧
      (∀ e, ofFunction d f spilled saved = .error e →
        e.function = f.name ∧ e.size.toInt = extent d f spilled saved ∧ e.limit = d.maxFrame) ∧
      ∀ l, ofFunction d f spilled saved = .ok l → l.size.toInt = extent d f spilled saved := by
  have hd := Config.wellFormed_of_descriptor hd
  have hf := IR.Function.verify_eq_ok.1 hf
  have hsize := toInt_size hd hf hwidths hword
  have hlt : d.maxFrame < alignUp (place 0 (requests d f.slots spilled saved)).2 d.stackAlign ↔
      d.maxFrame.toInt < extent d f spilled saved := by
    rw [Int64.lt_iff_toInt_lt, hsize]
  unfold ofFunction
  simp only
  split
  · next hover =>
    refine ⟨iff_of_true ⟨_, rfl⟩ (hlt.1 hover), ?_, nofun⟩
    rintro e ⟨⟩
    exact ⟨rfl, hsize, rfl⟩
  · next hfits =>
    refine ⟨iff_of_false nofun (mt hlt.2 hfits), nofun, ?_⟩
    rintro l ⟨⟩
    exact hsize

end Layout

namespace Placement

/-- A function with a single frame variable, of words. -/
def large (count : Nat) : Function :=
  { name := "large", params := [], result := .none, slots := [⟨0, "words", .ofNat count, .w64⟩], entry := 0
    blocks := [⟨0, "entry", [.ret none]⟩] }

theorem overflow_iff_extent_large :
    packedConfig.descriptor = .ok packed ∧ (large (2 ^ 60 - 4)).verify = .ok () ∧
      Layout.extent packed (large (2 ^ 60 - 4)) [] [] = 2 ^ 63 - 32 ∧
      ∃ e, Layout.ofFunction packed (large (2 ^ 60 - 4)) [] [] = .error e ∧ e.size.toInt = 2 ^ 63 - 32 := by
  have hd : packedConfig.descriptor = .ok packed := by cbv
  have hf : (large (2 ^ 60 - 4)).verify = .ok () := by cbv
  have hextent : Layout.extent packed (large (2 ^ 60 - 4)) [] [] = 2 ^ 63 - 32 := by decide
  obtain ⟨hiff, herror, -⟩ := Layout.overflow_iff_extent hd hf (forall_mem_nil _) (hextent.trans_lt (by decide))
  obtain ⟨e, he⟩ := hiff.2 (by rw [hextent]; decide)
  refine ⟨hd, hf, hextent, e, he, ?_⟩
  rw [(herror e he).2.1, hextent]
  rfl

theorem ofFunction_wrapped :
    packedConfig.descriptor = .ok packed ∧ (large (2 ^ 60)).verify = .ok () ∧
      packed.maxFrame.toInt < Layout.extent packed (large (2 ^ 60)) [] [] ∧
      Layout.extent packed (large (2 ^ 60)) [] [] = 2 ^ 63 ∧
      ∃ l, Layout.ofFunction packed (large (2 ^ 60)) [] [] = .ok l ∧ l.size < 0 := by
  exact ⟨by cbv, by cbv, by decide, by decide, _, rfl, by decide⟩

end Placement

end RegisterCompiler
