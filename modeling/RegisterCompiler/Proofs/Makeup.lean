import RegisterCompiler.Proofs.Kinds
import RegisterCompiler.Proofs.Rereading

/-!
# What the code of a function is made of

The code generator puts a function together from a few kinds of instructions. Their registers are in the file, they work
at machine widths, and their operators are those of the function. Labels stand only at the beginning of blocks and of the
code on edges, and jumps lead only there.
-/

namespace RegisterCompiler

open List
open IR (Block BlockId Operand Var)
open Success

namespace Emission

variable {label : Asm.Label} {id : BlockId}

/-- The function is well formed, and all registers at hand are in the file. -/
structure Grounded (e : Emission) : Prop where
  wellFormed : e.function.WellFormed
  home : ∀ v ∈ e.function.vars, ∀ r, e.allocation.loc? v.id = some (.reg r) → r.num < 18
  scratch : ∀ r ∈ e.target.scratch, r.num < 18
  args : ∀ r ∈ e.target.args, r.num < 18
  result : e.target.result.num < 18
  saved : ∀ r ∈ e.layout.saved, r.num < 18

/-- What holds of every instruction in the code of a function. -/
structure Fits (e : Emission) (i : Asm.Instr) : Prop where
  regs : ∀ r ∈ i.regs, r.num < 18
  width : ∀ w ∈ i.width?, w.isValid
  op : ∀ op ∈ i.op?, op = .add ∨ e.function.Computes op
  cond : ∀ c ∈ i.cond?, e.function.Compares c
  comment : i.isComment = false

/-- What holds of the instructions that neither are nor mention labels. -/
structure Straight (e : Emission) (i : Asm.Instr) : Prop extends e.Fits i where
  label : i.label? = none
  target : i.target? = none

/-! ## Single instructions -/

section

variable {e : Emission} {w : Width} {d x y r : Reg} {v : Int64} {a : Asm.Addr} {op : BinOp} {c : Cond}

theorem straight_iff {i : Asm.Instr} : e.Straight i ↔
    (∀ r ∈ i.regs, r.num < 18) ∧ (∀ w ∈ i.width?, w.isValid) ∧ (∀ op ∈ i.op?, op = .add ∨ e.function.Computes op) ∧
      (∀ c ∈ i.cond?, e.function.Compares c) ∧ i.isComment = false ∧ i.label? = none ∧ i.target? = none :=
  ⟨fun h => ⟨h.regs, h.width, h.op, h.cond, h.comment, h.label, h.target⟩,
    fun ⟨hregs, hwidth, hop, hcond, hcomment, hlabel, htarget⟩ => ⟨⟨hregs, hwidth, hop, hcond, hcomment⟩, hlabel, htarget⟩⟩

attribute [local simp] straight_iff Asm.Instr.regs Asm.Instr.width? Asm.Instr.op? Asm.Instr.cond? Asm.Instr.isComment
  Asm.Instr.label? Asm.Instr.target?

@[simp] theorem straight_mov : e.Straight (.mov w d x) ↔ (d.num < 18 ∧ x.num < 18) ∧ w.isValid := by simp

@[simp] theorem straight_movImm : e.Straight (.movImm w d v) ↔ d.num < 18 ∧ w.isValid := by simp

@[simp] theorem straight_sext : e.Straight (.sext w d x) ↔ (d.num < 18 ∧ x.num < 18) ∧ w.isValid := by simp

@[simp] theorem straight_zext : e.Straight (.zext w d x) ↔ (d.num < 18 ∧ x.num < 18) ∧ w.isValid := by simp

@[simp] theorem straight_alu : e.Straight (.alu op w d x y) ↔
    (d.num < 18 ∧ x.num < 18 ∧ y.num < 18) ∧ w.isValid ∧ (op = .add ∨ e.function.Computes op) := by simp

@[simp] theorem straight_aluImm : e.Straight (.aluImm op w d x v) ↔
    (d.num < 18 ∧ x.num < 18) ∧ w.isValid ∧ (op = .add ∨ e.function.Computes op) := by simp

@[simp] theorem straight_cmp : e.Straight (.cmp c w d x y) ↔
    (d.num < 18 ∧ x.num < 18 ∧ y.num < 18) ∧ w.isValid ∧ e.function.Compares c := by simp

@[simp] theorem straight_cmpImm : e.Straight (.cmpImm c w d x v) ↔
    (d.num < 18 ∧ x.num < 18) ∧ w.isValid ∧ e.function.Compares c := by simp

@[simp] theorem straight_load : e.Straight (.load w r a) ↔ (r.num < 18 ∧ ∀ s ∈ a.regs, s.num < 18) ∧ w.isValid := by simp

@[simp] theorem straight_store : e.Straight (.store w r a) ↔ (r.num < 18 ∧ ∀ s ∈ a.regs, s.num < 18) ∧ w.isValid := by simp

@[simp] theorem straight_lea : e.Straight (.lea r a) ↔ r.num < 18 ∧ ∀ s ∈ a.regs, s.num < 18 := by simp

@[simp] theorem straight_push : e.Straight (.push r) ↔ r.num < 18 := by simp

@[simp] theorem straight_pop : e.Straight (.pop r) ↔ r.num < 18 := by simp

@[simp] theorem straight_ret : e.Straight .ret := by simp

end

/-! ## Moves and computations -/

theorem regs_frame (offset : Int64) : ∀ s ∈ Asm.Addr.regs { base := .fp, offset }, s.num < 18 :=
  forall_mem_singleton.2 (show Reg.fp.num < 18 by decide)

theorem regs_element {index : Reg} (scale offset : Int64) (h : index.num < 18) :
    ∀ s ∈ Asm.Addr.regs { base := .fp, index := some ⟨index, scale⟩, offset }, s.num < 18 :=
  forall_mem_cons.2 ⟨show Reg.fp.num < 18 by decide, forall_mem_singleton.2 h⟩

/-- The instructions that neither are nor mention labels, with registers in the file and the operators of the function. -/
def straight (e : Emission) : Kind where
  Has := e.Straight
  Uses r := r.num < 18
  Reads _ _ := True
  Writes _ _ := True
  Computes := e.function.Computes
  Compares := e.function.Compares
  first := by decide
  mov hw hd hr := straight_mov.2 ⟨⟨hd, hr⟩, hw⟩
  movImm _ hw hd := straight_movImm.2 ⟨hd, hw⟩
  load hw hd _ := straight_load.2 ⟨⟨hd, regs_frame _⟩, hw⟩
  store hw hr _ := straight_store.2 ⟨⟨hr, regs_frame _⟩, hw⟩
  sext hw hd hr := straight_sext.2 ⟨⟨hd, hr⟩, hw⟩
  zext hw hd hr := straight_zext.2 ⟨⟨hd, hr⟩, hw⟩
  alu hop hw hd hr hq := straight_alu.2 ⟨⟨hd, hr, hq⟩, hw, .inr hop⟩
  aluImm _ hop hw hd hr := straight_aluImm.2 ⟨⟨hd, hr⟩, hw, .inr hop⟩
  cmp hc hw hd hr hq := straight_cmp.2 ⟨⟨hd, hr, hq⟩, hw, hc⟩
  cmpImm _ hc hw hd hr := straight_cmpImm.2 ⟨⟨hd, hr⟩, hw, hc⟩

variable {e : Emission}

namespace Grounded

variable {dest : Var} {n : Nat}

variable (h : e.Grounded)
include h

theorem serves : e.Serves e.straight where
  wellFormed := h.wellFormed
  home v hv p hp := by
    have hreg : ∀ r, e.home v = .ok (.reg r) → r.num < 18 := fun r hr => by
      unfold Emission.home at hr
      split at hr
      · cases hr
      · next hloc =>
        cases hr
        exact h.home v hv r hloc
      · obtain ⟨_, -, ⟨⟩⟩ := map_eq_ok.1 hr
    cases p with
    | reg r => exact ⟨hreg r hp, hreg r hp⟩
    | frame offset => exact ⟨trivial, trivial⟩
  param _ _ _ _ := trivial
  saved r hr _ _ := ⟨h.saved r hr, trivial, trivial⟩
  scratch := h.scratch
  args := h.args
  result := h.result
  computes _ hop := hop
  compares _ hc := hc

/-! ## Addresses -/

theorem address {m : IR.MemRef} (hm : ∀ o ∈ m.uses, e.function.Readable o) {x : FetchedAddr}
    (hx : e.address n m = .ok x) : (∀ i ∈ x.code, e.Straight i) ∧ ∀ r ∈ x.addr.regs, r.num < 18 := by
  unfold Emission.address at hx
  cases m with
  | slot ref =>
    obtain ⟨offset, -, hx⟩ := bind_eq_ok.1 hx
    match hindex : ref.index, hx with
    | none, hx =>
      cases hx
      exact ⟨forall_mem_nil _, regs_frame _⟩
    | some (.imm value w), hx =>
      cases hx
      exact ⟨forall_mem_nil _, regs_frame _⟩
    | some (.var v), hx =>
      -- The address is computed in a scratch register, which also takes an index that is kept in the frame.
      have hv : v ∈ e.function.vars := hm (some (.var v)) (by simp [IR.MemRef.uses, hindex])
      obtain ⟨r, hr, hx⟩ := bind_eq_ok.1 hx
      obtain ⟨p, hp, hx⟩ := bind_eq_ok.1 hx
      have hr := h.serves.uses_scratch hr
      have hp := (h.serves.home v hv p hp).2
      cases p with
      | reg index =>
        cases hx
        exact ⟨forall_mem_singleton.2 (straight_lea.2 ⟨hr, regs_element _ _ hp⟩), forall_mem_singleton.2 hr⟩
      | frame k =>
        cases hx
        refine ⟨forall_mem_cons.2 ⟨?_, forall_mem_singleton.2 (straight_lea.2 ⟨hr, regs_element _ _ hr⟩)⟩,
          forall_mem_singleton.2 hr⟩
        exact Kind.has_load hp hr (h.wellFormed.width v hv)
  | pointer base offset =>
    obtain ⟨o, ho, hx⟩ := bind_eq_ok.1 hx
    obtain ⟨p, hp, ⟨⟩⟩ := bind_eq_ok.1 hx
    cases present_eq_ok ho
    obtain ⟨hcode, hreg⟩ := h.serves.fetch (hm _ mem_cons_self) hp
    exact ⟨hcode, forall_mem_singleton.2 hreg⟩

theorem slotAddr (hdest : dest ∈ e.function.vars) {ref : IR.SlotRef}
    (href : ∀ o ∈ ref.index, e.function.Readable (some o)) {code : List Asm.Instr}
    (hcode : e.slotAddr dest ref = .ok code) : ∀ i ∈ code, e.Straight i := by
  unfold Emission.slotAddr at hcode
  obtain ⟨offset, -, hcode⟩ := bind_eq_ok.1 hcode
  match hindex : ref.index, hcode with
  | none, hcode | some (.imm value w), hcode =>
    exact h.serves.produce hdest (fun r hr => forall_mem_singleton.2 (straight_lea.2 ⟨hr, regs_frame _⟩)) hcode
  | some (.var v), hcode =>
    obtain ⟨index, hfetch, hcode⟩ := bind_eq_ok.1 hcode
    obtain ⟨last, hlast, ⟨⟩⟩ := bind_eq_ok.1 hcode
    obtain ⟨hfirst, hreg⟩ := h.serves.fetch (href _ hindex) hfetch
    refine forall_mem_append.2 ⟨hfirst, h.serves.produce hdest (fun r hr => ?_) hlast⟩
    exact forall_mem_singleton.2 (straight_lea.2 ⟨hr, regs_element _ _ hreg⟩)

/-! ## Entering, leaving and calling -/

theorem prologue : ∀ i ∈ e.layout.prologue, e.Straight i := by
  refine forall_mem_append.2 ⟨forall_mem_append.2 ⟨?_, ?_⟩,
    forall_mem_map.2 fun k hk => (h.serves.saves k hk).1⟩
  · exact forall_mem_cons.2 ⟨straight_push.2 (by decide), forall_mem_singleton.2 (straight_mov.2 (by decide))⟩
  · split
    · exact forall_mem_singleton.2 (straight_aluImm.2 ⟨by decide, by decide, .inl rfl⟩)
    · exact forall_mem_nil _

theorem epilogue : ∀ i ∈ e.layout.epilogue, e.Straight i := by
  refine forall_mem_append.2 ⟨forall_mem_map.2 fun k hk => (h.serves.saves k hk).2, ?_⟩
  exact forall_mem_cons.2 ⟨straight_mov.2 (by decide),
    forall_mem_cons.2 ⟨straight_pop.2 (by decide), forall_mem_singleton.2 straight_ret⟩⟩

theorem callCode {dest : Option Var} (hdest : ∀ d ∈ dest, d ∈ e.function.vars) {callee : String} {args : List Operand}
    (hargs : ∀ o ∈ args, e.function.Readable (some o)) {code : List Asm.Instr}
    (hcode : e.callCode dest callee args = .ok code) :
    ∃ before after, code = before ++ [.call callee] ++ after ∧ (∀ i ∈ before, e.Straight i) ∧
      ∀ i ∈ after, e.Straight i := by
  obtain ⟨pushes, ms, result, hpushes, hms, hresult, rfl⟩ := callCode_eq_ok hcode
  -- Before the call stand the pushes and moves of the arguments, after it the stack is cleared and the result is moved.
  refine ⟨_, _, rfl, forall_mem_append.2 ⟨fun i hi => ?_, h.serves.moves (h.serves.argMoves hargs hms)⟩,
    forall_mem_append.2 ⟨?_, h.serves.resultCode hdest hresult⟩⟩
  · obtain ⟨code, hcode, hi⟩ := List.mem_flatten.1 hi
    obtain ⟨o, ho, hpush⟩ := exists_of_mem_right (mapM_eq_ok.1 hpushes) hcode
    obtain ⟨before, r, rfl, hbefore, hr⟩ := h.serves.pushArg (hargs o (mem_of_mem_drop (mem_reverse.1 ho))) hpush
    exact forall_mem_append.2 ⟨hbefore, forall_mem_singleton.2 (straight_push.2 hr)⟩ i hi
  · unfold clearCode
    split
    · exact forall_mem_singleton.2 (straight_aluImm.2 ⟨by decide, by decide, .inl rfl⟩)
    · exact forall_mem_nil _

end Grounded

/-! ## Stretches of code -/

def blockName (e : Emission) (b : Block) : Asm.Label := ".L" ++ e.function.name ++ "." ++ b.label

def blockNames (e : Emission) : List Asm.Label := e.function.blocks.map e.blockName

/-- A stretch of code in which the `labels` stand, and from which control goes only to the `targets` and to functions that
    are called. -/
structure Stretch (e : Emission) (targets labels : List Asm.Label) (code : List Asm.Instr) : Prop where
  fits : ∀ i ∈ code, e.Fits i
  label : code.filterMap Asm.Instr.label? = labels
  target : ∀ i ∈ code, ∀ t ∈ i.target?, t ∈ targets ∨ e.function.Calls t

theorem blockLabel_eq_ok (h : e.function.WellFormed) (hlabel : e.blockLabel id = .ok label) :
    ∃ b ∈ e.function.blocks, b.id = id ∧ label = e.blockName b := by
  unfold blockLabel at hlabel
  split at hlabel
  · next b hb =>
    cases hlabel
    obtain ⟨hb, hid⟩ := h.block?_eq_some_iff.1 hb
    exact ⟨b, hb, hid, rfl⟩
  · cases hlabel

theorem mem_blockNames_of_blockLabel (h : e.function.WellFormed) (hlabel : e.blockLabel id = .ok label) :
    label ∈ e.blockNames := by
  obtain ⟨b, hb, -, rfl⟩ := blockLabel_eq_ok h hlabel
  exact mem_map_of_mem hb

namespace Stretch

variable {targets labels labels' : List Asm.Label} {code code' : List Asm.Instr} {l : Asm.Label}

theorem of_straight (h : ∀ i ∈ code, e.Straight i) : e.Stretch targets [] code where
  fits := fun i hi => (h i hi).toFits
  label := filterMap_eq_nil_iff.2 fun i hi => (h i hi).label
  target := fun i hi _ ht => nomatch (h i hi).target.symm.trans ht

theorem of_label (l : Asm.Label) : e.Stretch targets [l] [.label l] where
  fits := forall_mem_singleton.2 ⟨nofun, nofun, nofun, nofun, rfl⟩
  label := rfl
  target := forall_mem_singleton.2 nofun

theorem of_target {i : Asm.Instr} (hregs : ∀ r ∈ i.regs, r.num < 18) (htarget : i.target? = some l)
    (h : l ∈ targets ∨ e.function.Calls l) : e.Stretch targets [] [i] := by
  have hplain : i.width? = none ∧ i.op? = none ∧ i.cond? = none ∧ i.isComment = false ∧ i.label? = none := by
    cases i with
    | jump | jumpZero | jumpNonzero | call => exact ⟨rfl, rfl, rfl, rfl, rfl⟩
    | _ => cases htarget
  obtain ⟨hwidth, hop, hcond, hcomment, hlabel⟩ := hplain
  exact
    { fits := forall_mem_singleton.2 ⟨hregs, by simp [hwidth], by simp [hop], by simp [hcond], hcomment⟩
      label := by simp [hlabel]
      target := forall_mem_singleton.2 fun t ht => Option.some.inj (htarget.symm.trans ht) ▸ h }

theorem of_jump (h : l ∈ targets) : e.Stretch targets [] [.jump l] := of_target nofun rfl (.inl h)

theorem append (h : e.Stretch targets labels code) (h' : e.Stretch targets labels' code') :
    e.Stretch targets (labels ++ labels') (code ++ code') where
  fits := forall_mem_append.2 ⟨h.fits, h'.fits⟩
  label := by rw [filterMap_append, h.label, h'.label]
  target := forall_mem_append.2 ⟨h.target, h'.target⟩

theorem mono {targets' : List Asm.Label} (h : e.Stretch targets labels code) (hsub : targets ⊆ targets') :
    e.Stretch targets' labels code where
  fits := h.fits
  label := h.label
  target := fun i hi t ht => (h.target i hi t ht).imp_left (@hsub t)

theorem edges {edges : List EdgeBlock} (h : ∀ edge ∈ edges, e.Stretch targets [] edge.code) :
    e.Stretch targets (edges.map EdgeBlock.label) (edges.flatMap fun edge => .label edge.label :: edge.code) := by
  induction edges with
  | nil => exact of_straight (forall_mem_nil _)
  | cons edge edges ih =>
    obtain ⟨hedge, hedges⟩ := forall_mem_cons.1 h
    exact ((of_label edge.label).append hedge).append (ih hedges)

end Stretch

/-- A part of the code of a function, in which the `labels` stand. The labels of its edges are numbered from `n` on, and
    the code on the edges goes back to blocks. -/
structure Part (e : Emission) (n : Nat) (labels : List Asm.Label) (part : Emitted) : Prop where
  code : e.Stretch (e.blockNames ++ part.edges.map EdgeBlock.label) labels part.code
  edgeLabels : part.edges.map EdgeBlock.label = (List.range' n part.edges.length).map e.edgeLabel
  edges : ∀ edge ∈ part.edges, e.Stretch e.blockNames [] edge.code

namespace Part

variable {n : Nat} {labels labels' : List Asm.Label} {part part' : Emitted} {code : List Asm.Instr}

theorem of_stretch (h : e.Stretch e.blockNames labels code) : e.Part n labels ⟨code, []⟩ where
  code := h.mono (subset_append_left _ _)
  edgeLabels := rfl
  edges := nofun

theorem of_straight (h : ∀ i ∈ part.code, e.Straight i) (hedges : part.edges = []) : e.Part n [] part := by
  obtain ⟨code, _⟩ := part
  cases hedges
  exact of_stretch (.of_straight h)

theorem append (h : e.Part n labels part) (h' : e.Part (n + part.edges.length) labels' part') :
    e.Part n (labels ++ labels') (part ++ part') := by
  have hedges : (part ++ part').edges = part.edges ++ part'.edges := rfl
  -- Jumps of the one part may lead to edges of that part only, so the targets of both have to be widened.
  refine ⟨?_, ?_, ?_⟩
  · rw [hedges, map_append, ← append_assoc]
    refine (h.code.mono (subset_append_left _ _)).append (h'.code.mono ?_)
    exact append_subset.2 ⟨subset_append_of_subset_left _ (subset_append_left _ _), subset_append_right _ _⟩
  · rw [hedges, map_append, h.edgeLabels, h'.edgeLabels, length_append, ← range'_append_1, map_append]
  · rw [hedges]
    exact forall_mem_append.2 ⟨h.edges, h'.edges⟩

end Part

/-! ## Jumps -/

namespace Grounded

variable {site : BlockSite} {succ t f : BlockId} {n : Nat} {code : List Asm.Instr} {o : Operand} {part : Emitted}

variable (h : e.Grounded)
include h

theorem jumpTo (hcode : e.jumpTo site succ = .ok code) : e.Stretch e.blockNames [] code := by
  obtain ⟨moves, hmoves, hcode⟩ := bind_eq_ok.1 hcode
  have hmoves : e.Stretch e.blockNames [] moves := .of_straight (h.serves.phiCode hmoves)
  split at hcode
  · cases hcode
    exact hmoves
  · obtain ⟨label, hlabel, ⟨⟩⟩ := bind_eq_ok.1 hcode
    exact hmoves.append (.of_jump (mem_blockNames_of_blockLabel h.wellFormed hlabel))

theorem branchTo {way : Asm.Label × List EdgeBlock} (hway : e.branchTo site n succ = .ok way) :
    way.1 ∈ e.blockNames ++ way.2.map EdgeBlock.label ∧
      way.2.map EdgeBlock.label = (List.range' n way.2.length).map e.edgeLabel ∧
      ∀ edge ∈ way.2, e.Stretch e.blockNames [] edge.code := by
  obtain ⟨moves, hmoves, hway⟩ := bind_eq_ok.1 hway
  obtain ⟨label, hlabel, hway⟩ := bind_eq_ok.1 hway
  have hmem := mem_blockNames_of_blockLabel h.wellFormed hlabel
  split at hway
  · cases hway
    exact ⟨mem_append_left _ hmem, rfl, nofun⟩
  · cases hway
    refine ⟨mem_append_right _ mem_cons_self, rfl, forall_mem_singleton.2 ?_⟩
    exact (Stretch.of_straight (h.serves.phiCode hmoves)).append (.of_jump hmem)

theorem branchCode (ho : e.function.Readable (some o)) (hpart : e.branchCode site n o t f = .ok part) :
    e.Part n [] part := by
  obtain ⟨c, hc, hpart⟩ := bind_eq_ok.1 hpart
  obtain ⟨hfetch, hreg⟩ := h.serves.fetch ho hc
  -- If the first of the two blocks follows, the test is turned around and control falls through to it.
  split at hpart
  · obtain ⟨way, hway, hpart⟩ := bind_eq_ok.1 hpart
    obtain ⟨rest, hrest, ⟨⟩⟩ := bind_eq_ok.1 hpart
    obtain ⟨hmem, hlabels, hedges⟩ := h.branchTo hway
    have hjump : e.Stretch (e.blockNames ++ way.2.map EdgeBlock.label) [] [.jumpZero c.reg way.1] :=
      .of_target (forall_mem_singleton.2 hreg) rfl (.inl hmem)
    exact ⟨((Stretch.of_straight hfetch).append hjump).append (.of_straight (h.serves.phiCode hrest)), hlabels, hedges⟩
  · obtain ⟨way, hway, hpart⟩ := bind_eq_ok.1 hpart
    obtain ⟨rest, hrest, ⟨⟩⟩ := bind_eq_ok.1 hpart
    obtain ⟨hmem, hlabels, hedges⟩ := h.branchTo hway
    have hjump : e.Stretch (e.blockNames ++ way.2.map EdgeBlock.label) [] [.jumpNonzero c.reg way.1] :=
      .of_target (forall_mem_singleton.2 hreg) rfl (.inl hmem)
    have hrest := (h.jumpTo hrest).mono (subset_append_left _ (way.2.map EdgeBlock.label))
    exact ⟨((Stretch.of_straight hfetch).append hjump).append hrest, hlabels, hedges⟩

/-! ## Instructions, blocks and functions -/

theorem instr (hsite : site.block ∈ e.function.blocks) {i : IR.Instr} (hi : i ∈ site.block.code)
    (hpart : e.instr site n i = .ok part) : e.Part n [] part := by
  have hread := h.wellFormed.readable _ hsite i hi
  have hdest : ∀ d, i.dest? = some d → d ∈ e.function.vars :=
    fun d hd => IR.Function.WellFormed.mem_vars_of_dest hsite hi hd
  -- Only calls, jumps and branches are not straight, and only branches have edges.
  cases i with
  | binop | cmp | cast =>
    obtain ⟨hcode, hedges⟩ := h.serves.computed hsite hi (by simp) hpart
    exact .of_straight hcode hedges
  | load dest address =>
    obtain ⟨_, -, hpart⟩ := bind_eq_ok.1 hpart
    obtain ⟨m, hm, hpart⟩ := bind_eq_ok.1 hpart
    obtain ⟨a, ha, hpart⟩ := bind_eq_ok.1 hpart
    obtain ⟨last, hlast, ⟨⟩⟩ := bind_eq_ok.1 hpart
    cases present_eq_ok hm
    obtain ⟨hfetch, hregs⟩ := h.address hread ha
    have hwidth := h.wellFormed.width dest (hdest dest rfl)
    refine .of_straight (forall_mem_append.2 ⟨hfetch, h.serves.produce (hdest dest rfl) (fun r hr => ?_) hlast⟩) rfl
    exact forall_mem_singleton.2 (straight_load.2 ⟨⟨hr, hregs⟩, hwidth⟩)
  | store source address =>
    obtain ⟨o, ho, hpart⟩ := bind_eq_ok.1 hpart
    obtain ⟨_, -, hpart⟩ := bind_eq_ok.1 hpart
    obtain ⟨x, hx, hpart⟩ := bind_eq_ok.1 hpart
    obtain ⟨m, hm, hpart⟩ := bind_eq_ok.1 hpart
    obtain ⟨a, ha, ⟨⟩⟩ := bind_eq_ok.1 hpart
    cases present_eq_ok ho
    cases present_eq_ok hm
    have ho := hread _ mem_cons_self
    obtain ⟨hfetch, hreg⟩ := h.serves.fetch ho hx
    obtain ⟨haddress, hregs⟩ := h.address (fun o ho => hread o (mem_cons_of_mem _ ho)) ha
    refine .of_straight (forall_mem_append.2 ⟨forall_mem_append.2 ⟨hfetch, haddress⟩, ?_⟩) rfl
    exact forall_mem_singleton.2 (straight_store.2 ⟨⟨hreg, hregs⟩, h.wellFormed.width_readable ho⟩)
  | slotAddr dest ref =>
    obtain ⟨code, hcode, ⟨⟩⟩ := bind_eq_ok.1 hpart
    refine .of_straight (h.slotAddr (hdest dest rfl) (fun o ho => hread _ ?_) hcode) rfl
    rw [Option.mem_def] at ho
    simp [IR.Instr.uses, IR.MemRef.uses, ho]
  | phi dest edges =>
    cases hpart
    exact .of_straight (forall_mem_nil _) rfl
  | call dest callee args =>
    obtain ⟨os, rfl, hos⟩ := Ready.mapM_present hread
    obtain ⟨os', hos', hpart⟩ := bind_eq_ok.1 hpart
    cases hos.symm.trans hos'
    obtain ⟨code, hcode, ⟨⟩⟩ := bind_eq_ok.1 hpart
    obtain ⟨before, after, rfl, hbefore, hafter⟩ := h.callCode hdest (fun o ho => hread _ (mem_map_of_mem ho)) hcode
    have hcall : e.Stretch e.blockNames [] [.call callee] := .of_target (forall_mem_nil _) rfl (.inr ⟨_, hsite, dest, _, hi⟩)
    exact .of_stretch (((Stretch.of_straight hbefore).append hcall).append (.of_straight hafter))
  | jump target =>
    obtain ⟨code, hcode, ⟨⟩⟩ := bind_eq_ok.1 hpart
    exact .of_stretch (h.jumpTo hcode)
  | branch condition t f =>
    obtain ⟨o, ho, hways⟩ := bind_eq_ok.1 hpart
    cases present_eq_ok ho
    cases o with
    | imm value w =>
      obtain ⟨code, hcode, ⟨⟩⟩ := bind_eq_ok.1 hways
      exact .of_stretch (h.jumpTo hcode)
    | var v =>
      dsimp only at hways
      split at hways
      · obtain ⟨code, hcode, ⟨⟩⟩ := bind_eq_ok.1 hways
        exact .of_stretch (h.jumpTo hcode)
      · exact h.branchCode (hread _ mem_cons_self) hways
  | ret value =>
    cases value with
    | none =>
      cases hpart
      exact .of_straight h.epilogue rfl
    | some o =>
      obtain ⟨s, hs, ⟨⟩⟩ := bind_eq_ok.1 hpart
      have ho := hread _ mem_cons_self
      refine .of_straight (forall_mem_cons.2 ⟨?_, h.epilogue⟩) rfl
      exact Kind.has_load (h.serves.gives_source ho hs) h.result (h.wellFormed.width_readable ho)

theorem instrs (hsite : site.block ∈ e.function.blocks) {code : List IR.Instr} (hcode : ∀ i ∈ code, i ∈ site.block.code)
    (hpart : e.instrs site n code = .ok part) : e.Part n [] part := by
  induction code generalizing n part with
  | nil =>
    cases hpart
    exact .of_straight (forall_mem_nil _) rfl
  | cons i rest ih =>
    obtain ⟨here, hhere, hpart⟩ := bind_eq_ok.1 hpart
    obtain ⟨after, hafter, ⟨⟩⟩ := bind_eq_ok.1 hpart
    obtain ⟨hi, hrest⟩ := forall_mem_cons.1 hcode
    exact (h.instr hsite hi hhere).append (ih hrest hafter)

theorem blockCode (hsite : site.block ∈ e.function.blocks) (hpart : e.blockCode site n = .ok part) :
    e.Part n [e.blockName site.block] part := by
  obtain ⟨label, hlabel, hpart⟩ := bind_eq_ok.1 hpart
  obtain ⟨body, hbody, ⟨⟩⟩ := bind_eq_ok.1 hpart
  obtain ⟨b, hb, hid, rfl⟩ := blockLabel_eq_ok h.wellFormed hlabel
  rw [h.wellFormed.eq_of_id_eq hb hsite hid]
  exact (Part.of_stretch (.of_label _)).append (h.instrs hsite (fun _ hi => hi) hbody)

theorem blocksCode {blocks : List Block} (hblocks : ∀ b ∈ blocks, b ∈ e.function.blocks)
    (hpart : e.blocksCode n blocks = .ok part) : e.Part n (blocks.map e.blockName) part := by
  induction blocks generalizing n part with
  | nil =>
    cases hpart
    exact .of_straight (forall_mem_nil _) rfl
  | cons b rest ih =>
    obtain ⟨here, hhere, hpart⟩ := bind_eq_ok.1 hpart
    obtain ⟨after, hafter, ⟨⟩⟩ := bind_eq_ok.1 hpart
    obtain ⟨hb, hrest⟩ := forall_mem_cons.1 hblocks
    have hpart := h.blockCode hb hhere
    exact hpart.append (ih hrest hafter)

theorem entryCode (hcode : e.entryCode = .ok code) : e.Stretch e.blockNames [] code := by
  obtain ⟨ms, start, hms, rfl, hstart⟩ := entryCode_eq_ok hcode
  have hbuild : e.Stretch e.blockNames [] (e.layout.prologue ++ e.moves ms) :=
    .of_straight (forall_mem_append.2 ⟨h.prologue, h.serves.moves (h.serves.paramMoves hms)⟩)
  refine hbuild.append ?_
  rcases hstart with ⟨-, rfl⟩ | ⟨label, hlabel, rfl⟩
  · exact .of_straight (forall_mem_nil _)
  · exact .of_jump (mem_blockNames_of_blockLabel h.wellFormed hlabel)

end Grounded

/-- The labels in the code of a function: those of its blocks, and those of the first so many edges. -/
def labels (e : Emission) (edges : Nat) : List Asm.Label := e.blockNames ++ (List.range edges).map e.edgeLabel

/-- The code of a function has the name of the function. In it stand the labels of the blocks and those of some edges, and
    jumps lead only to these. -/
structure Makeup (e : Emission) (edges : Nat) (fn : Asm.Function) : Prop where
  name : fn.name = e.function.name
  code : e.Stretch (e.labels edges) (e.labels edges) fn.code

theorem makeup_of_code (h : e.Grounded) {fn : Asm.Function} (hfn : e.code = .ok fn) : ∃ edges, e.Makeup edges fn := by
  obtain ⟨entry, hentry, hfn⟩ := bind_eq_ok.1 hfn
  obtain ⟨body, hbody, ⟨⟩⟩ := bind_eq_ok.1 hfn
  have hpart := h.blocksCode (fun _ hb => hb) hbody
  have hlabels : e.blockNames ++ body.edges.map EdgeBlock.label = e.labels body.edges.length := by
    rw [hpart.edgeLabels, labels, range_eq_range']
  have hsub : e.blockNames ⊆ e.labels body.edges.length := subset_append_left _ _
  refine ⟨body.edges.length, rfl, ?_⟩
  -- The code of the edges stands behind that of the blocks, and goes back to blocks.
  have hcode := ((h.entryCode hentry).mono hsub).append (hlabels ▸ hpart.code)
  have hcode := hcode.append ((Stretch.edges hpart.edges).mono hsub)
  rwa [nil_append, show e.function.blocks.map e.blockName = e.blockNames from rfl, hlabels] at hcode

theorem grounded {d : Descriptor} {f : IR.Function} {a : Allocation} {l : Layout} (hd : d.WellFormed) (hf : f.WellFormed)
    (ha : Allocation.ofFunction d f = .ok a) (hl : Layout.ofFunction d f a.spilled a.saved = .ok l) :
    Grounded ⟨f, a, l, d⟩ := by
  obtain rfl := Allocation.eq_assignment_of_ofFunction ha
  have hgeneral : ∀ r : Reg, r.num < 16 → r.num < 18 := fun r hr => UInt8.lt_trans hr (by decide)
  exact
    { wellFormed := hf
      home := fun v hv r hloc =>
        hgeneral r (hd.allocatable_general r ((Allocation.assignment_sound hf).allocatable v hv r hloc))
      scratch := fun r hr => hgeneral r (hd.scratch_general r hr)
      args := fun r hr => hgeneral r (hd.args_general r hr)
      result := hgeneral _ hd.result_general
      saved := by
        rw [Layout.saved_eq hl]
        exact fun r hr => hgeneral r (hd.allocatable_general r (hd.saved_allocatable r ((Allocation.mem_saved_iff hf).1 hr).1)) }

end Emission

end RegisterCompiler
