import RegisterCompiler.Proofs.Frames
import RegisterCompiler.Proofs.Linkage

/-!
# Frames are unwound

The code at the end of a function undoes the code at its beginning, whatever the function did in between, as long as it left
alone what the frame keeps for the caller (`Layout.Spares`). The registers that a frame saves come first in it, so this holds
of every frame that is laid out, also of one whose size is none.
-/

namespace RegisterCompiler

open List
open IR (Function Var)
open Machine (Image View finalReturn)
open Machine.View (cell)

namespace Layout

variable {d : Descriptor} {f : Function} {spilled : List Var} {saved : List Reg} {l : Layout}

/-! ## The areas of saved registers -/

theorem bottom_saves (n : Nat) (saved : List Reg) :
    bottom (8 * n) (saved.map fun _ => (8, 8)) = 8 * (n + saved.length) := by
  induction saved generalizing n with
  | nil => rfl
  | cons r saved ih =>
    have hround : roundUp (8 * n + 8) 8 = 8 * (n + 1) := by
      unfold roundUp
      omega
    rw [map_cons, bottom, hround, ih, length_cons]
    omega

theorem mem_place_of_at_save (h : ofFunction d f spilled saved = .ok l) {r : Reg} {offset : Int64}
    (hat : l.At (.save r) offset) : ∃ a ∈ (place 0 (saved.map .save)).1, a.use = .save r ∧ a.offset = offset := by
  obtain ⟨a, ha, huse, hoffset⟩ := hat
  rw [(ofFunction_eq_ok h).1, requests, append_assoc, place_append] at ha
  rcases mem_append.1 ha with ha | ha
  · exact ⟨a, ha, huse, hoffset⟩
  · have hmem := mem_map_of_mem (f := Area.use) ha
    rw [map_use_place, huse] at hmem
    simp [AreaRequest.slot, AreaRequest.spill] at hmem

/-- The areas of saved registers lie directly below the frame pointer and have no byte in common. -/
theorem save_exact (h : ofFunction d f spilled saved = .ok l) (hlength : 8 * saved.length < 2 ^ 63) :
    (∀ r offset, l.At (.save r) offset → -(8 * saved.length : Int) ≤ offset.toInt ∧ offset.toInt + 8 ≤ 0) ∧
      ∀ r r' offset offset', l.At (.save r) offset → l.At (.save r') offset' → r ≠ r' →
        offset.toInt + 8 ≤ offset'.toInt ∨ offset'.toInt + 8 ≤ offset.toInt := by
  have hexact : List.Forall₂ Exact (saved.map .save) (saved.map fun _ => (8, 8)) :=
    forall₂_map_left_iff.2 (forall₂_map_right_iff.2 (forall₂_same.2 fun r _ => exact_save r))
  have hbottom : bottom 0 (saved.map fun _ => (8, 8)) = 8 * saved.length := by
    simpa using bottom_saves 0 saved
  obtain ⟨-, hplaced, hbelow⟩ := @place_exact 0 0 _ _ hexact rfl (hbottom ▸ hlength)
  rw [hbottom] at hplaced
  have hextent : ∀ a : Area, ∀ r, a.use = .save r → (a.use.extent : Int) = 8 := fun a r huse => by rw [huse]; rfl
  refine ⟨fun r offset hat => ?_, fun r r' offset offset' hat hat' hne => ?_⟩
  · obtain ⟨a, ha, huse, rfl⟩ := mem_place_of_at_save h hat
    have := hplaced a ha
    have := hextent a r huse
    omega
  · obtain ⟨a, ha, huse, rfl⟩ := mem_place_of_at_save h hat
    obtain ⟨b, hb, huse', rfl⟩ := mem_place_of_at_save h hat'
    have := apart_of_pairwise hbelow ha hb fun heq => hne (AreaUse.save.inj (huse.symm.trans (heq.trans huse')))
    have := (hplaced a ha).1
    have := (hplaced b hb).1
    have := hextent a r huse
    have := hextent b r' huse'
    omega

end Layout

/-! ## Returns -/

/-- From the index `p` with the view `v` the machine returns to an address, where it goes on with the view `w`. It comes to
    its end if that is the address to which nothing but the first call returns. -/
def Machine.Image.Returns (img : Image) (p : Nat) (v : View) (address : Int64) (w : View) : Prop :=
  ∀ s : Machine.State, s.pc = p → s.view = v → s.halted = false →
    ∃ t t', Relation.ReflTransGen img.Advances s t ∧ img.instr? t.pc = some .ret ∧
      step img .ret { t with pc := t.pc + 1 } = (.ok (), t') ∧ t'.view = w ∧
      if address = finalReturn then t'.halted = true else t'.halted = false ∧ t'.pc = address.toInt

theorem Machine.Image.returns_of_run {img : Image} {p : Nat} {code : List Asm.Instr} {v w : View} {address : Int64}
    (hcode : img.CodeAt p (code ++ [.ret])) (hrun : v.run code = .ok w) (hread : w.read .w64 (w.regs .sp) = .ok address) :
    img.Returns p v address (w.set .sp (w.regs .sp + 8)) := by
  obtain ⟨hcode, hret⟩ := codeAt_append.1 hcode
  intro s hpc hview hhalted
  obtain ⟨t, hst, htpc, rfl, hthalted⟩ := goes_of_run hcode hrun s hpc hview hhalted
  have hstep : step img .ret { t with pc := t.pc + 1 } = _ :=
    run_ret (s := { t with pc := t.pc + 1, steps := t.steps + 1 }) hread
  refine ⟨t, _, hst, instr?_of_code htpc (codeAt_singleton.1 hret), hstep, ?_, ?_⟩
  · split
    · exact View.view_setSp t _
    · exact View.view_setSp t _
  · split
    · rfl
    · exact ⟨hthalted, rfl⟩

/-! ## Around the body of a function -/

namespace Layout

/-- The second view has what the frame keeps for the caller as it is in the first: the saved registers, the caller's frame
    pointer and the address to return to. All else may differ. -/
structure Spares (l : Layout) (w z : View) : Prop where
  fp : z.regs .fp = w.regs .fp
  saved : ∀ r ∈ l.saved, ∀ offset, l.saveOffset? r = some offset →
    z.memory.value .w64 (cell (w.regs .fp).toInt offset) = w.memory.value .w64 (cell (w.regs .fp).toInt offset)
  link : z.memory.value .w64 (w.regs .fp).toInt.toNat = w.memory.value .w64 (w.regs .fp).toInt.toNat
  address : z.memory.value .w64 ((w.regs .fp).toInt + 8).toNat = w.memory.value .w64 ((w.regs .fp).toInt + 8).toNat
  size : z.memory.size = w.memory.size

variable {d : Descriptor} {f : Function} {spilled : List Var} {saved : List Reg} {l : Layout}

/-- The end of a function undoes its beginning, around anything that spares the frame. The function was called with its
    return address on top of the stack, and there is room below it for the caller's frame pointer, for the frame, and for
    the registers that it saves (which is more only if the size of the frame is not the exact one). The code at the end
    returns to that address with the frame pointer and the saved registers as they were, and with the stack as it was before
    the call; neither code writes to the memory above. -/
theorem returns_of_spares (h : ofFunction d f spilled saved = .ok l) (hnodup : saved.Nodup)
    (hgeneral : ∀ r ∈ saved, r.num < 16) {img : Image} {p q : Nat} (hp : img.CodeAt p l.prologue)
    (hq : img.CodeAt q l.epilogue) {u : View} (hbound : u.memory.size < 2 ^ 63)
    (hhigh : (u.regs .sp).toInt + 8 ≤ u.memory.size) (hroom : 8 + l.size.toInt ≤ (u.regs .sp).toInt)
    (hsaves : 8 + 8 * saved.length ≤ (u.regs .sp).toInt) :
    ∃ w, img.Goes p u (p + l.prologue.length) w ∧ (w.regs .fp).toInt = (u.regs .sp).toInt - 8 ∧
      (∀ a : Nat, (u.regs .sp).toInt ≤ a → w.memory.get a = u.memory.get a) ∧
      ∀ z, l.Spares w z → ∃ t, img.Returns q z (u.memory.value .w64 (u.regs .sp).toInt.toNat) t ∧
        t.regs .fp = u.regs .fp ∧ (∀ r ∈ saved, t.regs r = u.regs r) ∧ t.regs .sp = u.regs .sp + 8 ∧
        t.memory = z.memory := by
  obtain rfl := saved_eq h
  obtain ⟨hbelow, hapart⟩ := save_exact h (by omega)
  have hlist := saveList hnodup hgeneral
  have hlies : ∀ x ∈ l.saves, 0 ≤ (u.regs .sp).toInt - 8 + x.2.offset.toInt ∧ x.2.offset.toInt + 8 ≤ 0 := fun x hx => by
    have := hbelow x.1 _ (hlist.2 x hx).2.2.2
    omega
  have hfits : ∀ x ∈ l.saves, (Place.frame x.2.offset).Fits ((u.regs .sp).toInt - 8) u.memory.size .w64 := fun x hx => by
    have := hlies x hx
    rw [Place.Fits, Width.size_w64]
    exact ⟨Width.isValid_w64, by omega, by omega⟩
  obtain ⟨w, hrun, hentered, hheld⟩ := run_prologue hlist (by omega) hlies (by omega) (by omega) hbound
  have hfp := hentered.stands.fp
  refine ⟨w, Image.goes_of_run hp hrun, hfp, hentered.above, fun z hz => ?_⟩
  have hstands : z.Stands ((u.regs .sp).toInt - 8) u.memory.size :=
    ⟨(congrArg Int64.toInt hz.fp).trans hfp, hz.size.trans hentered.stands.memory, hbound⟩
  obtain ⟨t, code, hcode, hrun', hback⟩ := run_epilogue hlist hfits hstands (by omega) (by omega)
  have hsp : t.regs .sp = u.regs .sp := Int64.toInt_inj.1 (by rw [hback.sp]; omega)
  have hread : t.read .w64 (t.regs .sp) = .ok (u.memory.value .w64 (u.regs .sp).toInt.toNat) := by
    have haddress := hz.address
    rw [hfp, Int.sub_add_cancel] at haddress
    rw [hsp, View.read_of_bounds Width.isValid_w64 (by rw [hback.memory, hstands.memory]; exact hbound) (by omega)
      (by rw [hback.memory, hstands.memory, Width.size_w64]; omega), hback.memory, haddress]
    exact congrArg _ (Memory.value_congr fun k _ => hentered.above _ (by omega))
  refine ⟨_, Image.returns_of_run (hcode ▸ hq) hrun' hread, ?_, fun r hr => ?_, ?_, hback.memory⟩
  · rw [View.regs_set_of_ne _ _ (by decide), hback.fp, ← hentered.link, ← hfp]
    exact hz.link
  · obtain ⟨offset, hoffset⟩ := exists_saveOffset? hr
    have hx : (r, { base := .fp, offset }) ∈ l.saves := mem_saves_iff.2 ⟨hr, offset, hoffset, rfl⟩
    have hkept := hz.saved r hr offset hoffset
    have hstored := hheld _ hx fun y hy hne => by
      rw [Place.Disjoint, Width.size_w64]
      exact hapart _ _ _ _ (hlist.2 y hy).2.2.2 (at_of_saveOffset? hoffset) hne
    rw [hfp] at hkept
    rw [View.regs_set_of_ne _ _ (Reg.ne_sp (hgeneral r hr)), hback.saved _ hx, hkept, hstored]
  · rw [View.regs_set_self, hsp]

end Layout

namespace Unwinding

def buffer : Function :=
  { name := "buffer", params := [], result := .none, entry := 0, slots := [⟨0, "bytes", 3, .w8⟩]
    blocks := [⟨0, "entry", [.ret none]⟩] }

def bufferFrame : Layout :=
  { function := "buffer", size := 32, argSize := 8
    areas := [⟨.save ⟨2⟩, -8, 8, 8⟩, ⟨.save ⟨5⟩, -16, 8, 8⟩, ⟨.slot ⟨0, "bytes", 3, .w8⟩, -24, 8, 8⟩] }

/-- A program that builds the frame and unwinds it at once. -/
def bufferImage : Image := ⟨(bufferFrame.prologue ++ bufferFrame.epilogue).toArray, []⟩

/-- The function is called with `41` to return to. -/
def bufferCall : View :=
  { regs := fun r => if r = .fp then 72 else if r = .sp then 64 else if r = ⟨2⟩ then 3 else if r = ⟨5⟩ then 9 else 0
    memory := Memory.store ⟨80, ∅⟩ 64 (41 : Int64).toUInt64 8 }

theorem returns_of_spares_buffer :
    Layout.ofFunction Allocation.smallTarget buffer [] [⟨2⟩, ⟨5⟩] = .ok bufferFrame ∧
      bufferImage.CodeAt 0 bufferFrame.prologue ∧ bufferImage.CodeAt 5 bufferFrame.epilogue ∧
      ∃ w z t, bufferImage.Goes 0 bufferCall 5 w ∧ bufferFrame.Spares w z ∧ z.regs .sp = 0 ∧ z.regs ⟨2⟩ = 0 ∧
        bufferImage.Returns 5 z 41 t ∧ t.regs .fp = 72 ∧ t.regs ⟨2⟩ = 3 ∧ t.regs ⟨5⟩ = 9 ∧ t.regs .sp = 72 := by
  have hframe : Layout.ofFunction Allocation.smallTarget buffer [] [⟨2⟩, ⟨5⟩] = .ok bufferFrame := by decide
  have hsize : bufferCall.memory.size = 80 := Memory.size_store _ _ _ _
  have haddress : bufferCall.memory.value .w64 (bufferCall.regs .sp).toInt.toNat = 41 :=
    Memory.value_store_of_le _ Width.isValid_w64 (Nat.le_refl 8) (Nat.le_refl 8) 64 41
  have hcode : bufferImage.CodeAt 0 (bufferFrame.prologue ++ bufferFrame.epilogue) := fun k i hk => by
    rwa [Nat.zero_add, bufferImage, getElem?_toArray]
  obtain ⟨hbegin, hend⟩ := Image.codeAt_append.1 hcode
  have hend : bufferImage.CodeAt 5 bufferFrame.epilogue := hend
  obtain ⟨w, hgoes, -, -, hreturns⟩ := Layout.returns_of_spares hframe (by decide) (by decide) hbegin hend (u := bufferCall)
    (by rw [hsize]; decide) (by rw [hsize]; decide) (by decide) (by decide)
  have hspares : bufferFrame.Spares w ((w.set .sp 0).set ⟨2⟩ 0) := ⟨rfl, fun _ _ _ _ => rfl, rfl, rfl, rfl⟩
  obtain ⟨t, hreturn, hfp, hsaved, hsp, -⟩ := hreturns _ hspares
  rw [haddress] at hreturn
  exact ⟨hframe, hbegin, hend, w, _, t, hgoes, hspares, rfl, rfl, hreturn, hfp, hsaved ⟨2⟩ (by decide),
    hsaved ⟨5⟩ (by decide), hsp⟩

end Unwinding

end RegisterCompiler
