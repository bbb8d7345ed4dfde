import RegisterCompiler.Proofs.Compilation

/-!
# Kinds of instructions

Most of the code of a function moves values between registers and the frame, or computes with values in registers. To know
that all instructions there are of some kind, it is enough to know which registers and which places in the frame they use.
-/

namespace RegisterCompiler

open List
open IR (BlockId Operand Var)
open Success

namespace IR.Function

/-- An operator occurs in a function. -/
def Computes (f : Function) (op : BinOp) : Prop := ∃ b ∈ f.blocks, ∃ dest x y, .binop op dest x y ∈ b.code

/-- A comparison occurs in a function. -/
def Compares (f : Function) (cond : Cond) : Prop := ∃ b ∈ f.blocks, ∃ dest x y, .cmp cond dest x y ∈ b.code

end IR.Function

/-- A kind of instructions, to which moves and computations belong if what they use is allowed. -/
structure Kind where
  Has : Asm.Instr → Prop
  Uses : Reg → Prop
  Reads : Width → Int64 → Prop
  Writes : Width → Int64 → Prop
  Computes : BinOp → Prop
  Compares : Cond → Prop
  first : Uses ⟨0⟩
  mov : ∀ {w d r}, w.isValid → Uses d → Uses r → Has (.mov w d r)
  movImm : ∀ {w d} x, w.isValid → Uses d → Has (.movImm w d x)
  load : ∀ {w d offset}, w.isValid → Uses d → Reads w offset → Has (.load w d { base := .fp, offset })
  store : ∀ {w r offset}, w.isValid → Uses r → Writes w offset → Has (.store w r { base := .fp, offset })
  sext : ∀ {w d r}, w.isValid → Uses d → Uses r → Has (.sext w d r)
  zext : ∀ {w d r}, w.isValid → Uses d → Uses r → Has (.zext w d r)
  alu : ∀ {op w d r q}, Computes op → w.isValid → Uses d → Uses r → Uses q → Has (.alu op w d r q)
  aluImm : ∀ {op w d r} x, Computes op → w.isValid → Uses d → Uses r → Has (.aluImm op w d r x)
  cmp : ∀ {c w d r q}, Compares c → w.isValid → Uses d → Uses r → Uses q → Has (.cmp c w d r q)
  cmpImm : ∀ {c w d r} x, Compares c → w.isValid → Uses d → Uses r → Has (.cmpImm c w d r x)

namespace Kind

variable (K : Kind)

def Takes (w : Width) : Place → Prop
  | .reg r => K.Uses r
  | .frame offset => K.Writes w offset

def Gives (w : Width) : Source → Prop
  | .place (.reg r) => K.Uses r
  | .place (.frame offset) => K.Reads w offset
  | .imm _ => True

/-- A move between places that may be used, of a machine width. -/
structure Makes (m : Move) : Prop where
  dest : K.Takes m.width m.dest
  source : K.Gives m.width m.source
  width : m.width.isValid

variable {K} {w : Width} {temp carry r : Reg} {m : Move} {moves kept : List Move} {s : Source} {offset : Int64}

/-! ## Moves -/

theorem has_load (hs : K.Gives w s) (hr : K.Uses r) (hw : w.isValid) : K.Has (s.load w r) := by
  match s, hs with
  | .place (.reg _), hs => exact K.mov hw hr hs
  | .place (.frame _), hs => exact K.load hw hr hs
  | .imm x, _ => exact K.movImm x hw hr

theorem has_code (h : K.Makes m) (hcarry : K.Uses carry) : ∀ i ∈ m.code carry, K.Has i := by
  have hload : ∀ q : Reg, K.Uses q → K.Has (m.source.load m.width q) := fun q hq => has_load h.source hq h.width
  obtain ⟨dest, source, width⟩ := m
  cases dest with
  | reg r => exact forall_mem_singleton.2 (hload r h.dest)
  | frame offset =>
    have hstore : ∀ q : Reg, K.Uses q → K.Has (.store width q { base := .fp, offset }) :=
      fun q hq => K.store h.width hq h.dest
    match source, h.source with
    | .place (.reg r), hr => exact forall_mem_singleton.2 (hstore r hr)
    | .place (.frame _), _ | .imm _, _ =>
      exact forall_mem_cons.2 ⟨hload carry hcarry, forall_mem_singleton.2 (hstore carry hcarry)⟩

theorem has_sweep (hcarry : K.Uses carry) (hkept : ∀ m ∈ kept, K.Makes m) (hmoves : ∀ m ∈ moves, K.Makes m) :
    (∀ i ∈ (Move.sweep carry kept moves).1, K.Has i) ∧ ∀ m ∈ (Move.sweep carry kept moves).2, K.Makes m := by
  induction moves generalizing kept with
  | nil => exact ⟨forall_mem_nil _, hkept⟩
  | cons m moves ih =>
    obtain ⟨hm, hmoves⟩ := forall_mem_cons.1 hmoves
    unfold Move.sweep
    split
    · exact ih (forall_mem_append.2 ⟨hkept, forall_mem_singleton.2 hm⟩) hmoves
    · obtain ⟨hrest, hleft⟩ := ih hkept hmoves
      exact ⟨forall_mem_append.2 ⟨has_code hm hcarry, hrest⟩, hleft⟩

theorem has_sequence (htemp : K.Uses temp) (hcarry : K.Uses carry) (n : Nat) (hmoves : ∀ m ∈ moves, K.Makes m) :
    ∀ i ∈ Move.sequence temp carry n moves, K.Has i := by
  induction n generalizing moves with
  | zero => exact forall_mem_nil _
  | succ n ih =>
    obtain ⟨hfirst, hleft⟩ := has_sweep hcarry (forall_mem_nil _) hmoves
    unfold Move.sequence
    dsimp only
    split
    · exact forall_mem_append.2 ⟨hfirst, ih hleft⟩
    · cases hblocked : Move.blocked? moves with
      | none => exact forall_mem_nil _
      | some found =>
        -- The value that is put aside comes from a source that is read anyway.
        obtain ⟨p, w⟩ := found
        obtain ⟨m, hm, hfound⟩ := exists_of_findSome?_eq_some hblocked
        have haside : K.Makes ⟨.reg temp, .place p, w⟩ := by
          split at hfound
          · next q hq =>
            split at hfound
            · cases hfound
              have hsource := (hmoves m hm).source
              rw [hq] at hsource
              exact ⟨htemp, hsource, (hmoves m hm).width⟩
            · cases hfound
          · cases hfound
        have hothers : ∀ m ∈ Move.redirect p temp moves, K.Makes m := by
          intro m hm
          obtain ⟨m', hm', rfl⟩ := mem_map.1 hm
          split
          · exact ⟨(hmoves m' hm').dest, htemp, (hmoves m' hm').width⟩
          · exact hmoves m' hm'
        obtain ⟨hrest, hleft⟩ := has_sweep hcarry (forall_mem_nil _) hothers
        exact forall_mem_append.2 ⟨forall_mem_append.2 ⟨has_code haside hcarry, hrest⟩, ih hleft⟩

end Kind

namespace Emission

variable {e : Emission} {K : Kind}

/-- What a function uses is allowed. -/
structure Serves (e : Emission) (K : Kind) : Prop where
  wellFormed : e.function.WellFormed
  home : ∀ v ∈ e.function.vars, ∀ p, e.home v = .ok p → K.Takes v.width p ∧ K.Gives v.width (.place p)
  param : ∀ k p, e.function.params[k]? = some p → e.target.args[k]? = none →
    K.Reads p.width (e.layout.argOffset (Int64.ofNat (k - e.target.args.length)))
  saved : ∀ r ∈ e.layout.saved, ∀ offset, e.layout.saveOffset? r = some offset →
    K.Uses r ∧ K.Reads .w64 offset ∧ K.Writes .w64 offset
  scratch : ∀ r ∈ e.target.scratch, K.Uses r
  args : ∀ r ∈ e.target.args, K.Uses r
  result : K.Uses e.target.result
  computes : ∀ op, e.function.Computes op → K.Computes op
  compares : ∀ c, e.function.Compares c → K.Compares c

theorem present_eq_ok {α : Type} {o : Option α} {a : α} (h : present o = .ok a) : o = some a := by
  cases o with
  | none => cases h
  | some _ => rw [Except.ok.inj h]

namespace Serves

variable {v dest : Var} {o x y : Operand} {n : Nat} {r : Reg} {code : List Asm.Instr} {ms : List Move}

variable (h : e.Serves K)
include h

theorem moves (hms : ∀ m ∈ ms, K.Makes m) : ∀ i ∈ e.moves ms, K.Has i := by
  have hscratch : ∀ k, K.Uses (e.target.scratch.getD k ⟨0⟩) := fun k => by
    rw [getD_eq_getElem?_getD]
    cases hk : e.target.scratch[k]? with
    | none => exact K.first
    | some r => exact h.scratch r (mem_of_getElem? hk)
  exact Kind.has_sequence (hscratch 0) (hscratch 1) _ fun m hm => hms m (mem_filter.1 hm).1

/-! ## Operands -/

theorem gives_source (ho : e.function.Readable (some o)) {s : Source} (hs : e.source o = .ok s) :
    K.Gives o.width s := by
  cases o with
  | imm x w =>
    cases hs
    exact trivial
  | var v =>
    obtain ⟨p, hp, rfl⟩ := map_eq_ok.1 hs
    exact (h.home v ho p hp).2

theorem uses_scratch (hr : e.scratch n = .ok r) : K.Uses r := by
  unfold Emission.scratch at hr
  split at hr
  · next hget =>
    cases hr
    exact h.scratch _ (mem_of_getElem? hget)
  · cases hr

theorem uses_firstScratch (hr : e.firstScratch = .ok r) : K.Uses r := by
  unfold Emission.firstScratch at hr
  split at hr
  · next hscratch =>
    cases hr
    exact h.scratch _ (hscratch ▸ mem_cons_self)
  · cases hr

theorem fetch (ho : e.function.Readable (some o)) {x : Fetched} (hx : e.fetch n o = .ok x) :
    (∀ i ∈ x.code, K.Has i) ∧ K.Uses x.reg := by
  unfold Emission.fetch at hx
  obtain ⟨s, hs, hx⟩ := bind_eq_ok.1 hx
  have hsource := h.gives_source ho hs
  split at hx
  · cases hx
    exact ⟨forall_mem_nil _, hsource⟩
  · obtain ⟨r, hr, ⟨⟩⟩ := bind_eq_ok.1 hx
    have hr := h.uses_scratch hr
    exact ⟨forall_mem_singleton.2 (Kind.has_load hsource hr (h.wellFormed.width_readable ho)), hr⟩

theorem produce (hdest : dest ∈ e.function.vars) {make : Reg → List Asm.Instr}
    (hmake : ∀ r, K.Uses r → ∀ i ∈ make r, K.Has i) (hcode : e.produce dest make = .ok code) : ∀ i ∈ code, K.Has i := by
  unfold Emission.produce at hcode
  obtain ⟨r, hr, hcode⟩ := bind_eq_ok.1 hcode
  obtain ⟨last, hlast, ⟨⟩⟩ := bind_eq_ok.1 hcode
  have hr : K.Uses r := by
    unfold Emission.resultReg at hr
    split at hr
    · cases hr
    · next hloc =>
      cases hr
      exact (h.home dest hdest (.reg r) (by rw [Emission.home, hloc])).1
    · exact h.uses_firstScratch hr
  refine forall_mem_append.2 ⟨hmake r hr, ?_⟩
  unfold Emission.writeBack at hlast
  split at hlast
  · next hspilled =>
    obtain ⟨offset, hoffset, ⟨⟩⟩ := bind_eq_ok.1 hlast
    have hhome : e.home dest = .ok (.frame offset) := by
      have hloc : e.allocation.loc? dest.id = some .spilled := by simpa [Allocation.isSpilled] using hspilled
      rw [Emission.home, hloc, hoffset]
      rfl
    exact forall_mem_singleton.2 (K.store (h.wellFormed.width dest hdest) hr (h.home dest hdest _ hhome).1)
  · cases hlast
    exact forall_mem_nil _

theorem binary (hdest : dest ∈ e.function.vars) (hx : e.function.Readable (some x)) (hy : e.function.Readable (some y))
    {ofReg : Reg → Reg → Reg → Asm.Instr} {ofImm : Reg → Reg → Int64 → Asm.Instr}
    (hreg : ∀ d a b, K.Uses d → K.Uses a → K.Uses b → K.Has (ofReg d a b))
    (himm : ∀ d a k, K.Uses d → K.Uses a → K.Has (ofImm d a k)) (hcode : e.binary dest x y ofReg ofImm = .ok code) :
    ∀ i ∈ code, K.Has i := by
  unfold Emission.binary at hcode
  obtain ⟨a, ha, hcode⟩ := bind_eq_ok.1 hcode
  obtain ⟨hfirst, ha⟩ := h.fetch hx ha
  cases y with
  | imm value w =>
    obtain ⟨last, hlast, ⟨⟩⟩ := bind_eq_ok.1 hcode
    exact forall_mem_append.2 ⟨hfirst,
      h.produce hdest (fun r hr => forall_mem_singleton.2 (himm r a.reg value hr ha)) hlast⟩
  | var v =>
    obtain ⟨b, hb, hcode⟩ := bind_eq_ok.1 hcode
    obtain ⟨hsecond, hb⟩ := h.fetch hy hb
    obtain ⟨last, hlast, ⟨⟩⟩ := bind_eq_ok.1 hcode
    exact forall_mem_append.2 ⟨forall_mem_append.2 ⟨hfirst, hsecond⟩,
      h.produce hdest (fun r hr => forall_mem_singleton.2 (hreg r a.reg b.reg hr ha hb)) hlast⟩

/-! ## Computations -/

theorem computed {site : BlockSite} (hsite : site.block ∈ e.function.blocks) {i : IR.Instr} (hi : i ∈ site.block.code)
    (hcomputes : (∃ op dest x y, i = .binop op dest x y) ∨ (∃ c dest x y, i = .cmp c dest x y) ∨
      ∃ op dest x, i = .cast op dest x)
    {part : Emitted} (hpart : e.instr site n i = .ok part) : (∀ j ∈ part.code, K.Has j) ∧ part.edges = [] := by
  have hread := h.wellFormed.readable _ hsite i hi
  have hdest : ∀ d, i.dest? = some d → d ∈ e.function.vars :=
    fun d hd => IR.Function.WellFormed.mem_vars_of_dest hsite hi hd
  obtain ⟨op, dest, x, y, rfl⟩ | ⟨c, dest, x, y, rfl⟩ | ⟨op, dest, source, rfl⟩ := hcomputes
  · obtain ⟨_, -, hpart⟩ := bind_eq_ok.1 hpart
    obtain ⟨x', hx, hpart⟩ := bind_eq_ok.1 hpart
    obtain ⟨y', hy, hpart⟩ := bind_eq_ok.1 hpart
    obtain ⟨code, hcode, ⟨⟩⟩ := bind_eq_ok.1 hpart
    cases present_eq_ok hx
    cases present_eq_ok hy
    have hwidth := h.wellFormed.width dest (hdest dest rfl)
    have hop : K.Computes op := h.computes op ⟨_, hsite, dest, _, _, hi⟩
    exact ⟨h.binary (hdest dest rfl) (hread _ mem_cons_self) (hread _ (mem_cons_of_mem _ mem_cons_self))
      (fun _ _ _ => K.alu hop hwidth) (fun _ _ k => K.aluImm k hop hwidth) hcode, rfl⟩
  · obtain ⟨x', hx, hpart⟩ := bind_eq_ok.1 hpart
    obtain ⟨_, -, hpart⟩ := bind_eq_ok.1 hpart
    obtain ⟨y', hy, hpart⟩ := bind_eq_ok.1 hpart
    obtain ⟨code, hcode, ⟨⟩⟩ := bind_eq_ok.1 hpart
    cases present_eq_ok hx
    cases present_eq_ok hy
    have hx := hread _ mem_cons_self
    have hwidth := h.wellFormed.width_readable hx
    have hcond : K.Compares c := h.compares c ⟨_, hsite, dest, _, _, hi⟩
    exact ⟨h.binary (hdest dest rfl) hx (hread _ (mem_cons_of_mem _ mem_cons_self))
      (fun _ _ _ => K.cmp hcond hwidth) (fun _ _ k => K.cmpImm k hcond hwidth) hcode, rfl⟩
  · obtain ⟨o, ho, hpart⟩ := bind_eq_ok.1 hpart
    obtain ⟨_, -, hpart⟩ := bind_eq_ok.1 hpart
    obtain ⟨x, hx, hpart⟩ := bind_eq_ok.1 hpart
    obtain ⟨last, hlast, ⟨⟩⟩ := bind_eq_ok.1 hpart
    cases present_eq_ok ho
    have ho := hread _ mem_cons_self
    obtain ⟨hfetch, hreg⟩ := h.fetch ho hx
    have hsource := h.wellFormed.width_readable ho
    have hwidth := h.wellFormed.width dest (hdest dest rfl)
    refine ⟨forall_mem_append.2 ⟨hfetch, h.produce (hdest dest rfl) (fun r hr => ?_) hlast⟩, rfl⟩
    cases op with
    | sext => exact forall_mem_singleton.2 (K.sext hsource hr hreg)
    | zext => exact forall_mem_singleton.2 (K.zext hsource hr hreg)
    | trunc => exact forall_mem_singleton.2 (K.mov hwidth hr hreg)
    | other name => exact forall_mem_nil _

/-! ## Entering, leaving and calling -/

theorem saves : ∀ k ∈ e.layout.saves, K.Has (.store .w64 k.1 k.2) ∧ K.Has (.load .w64 k.1 k.2) := by
  rintro ⟨r, address⟩ hk
  obtain ⟨hr, offset, hoffset, rfl⟩ := Layout.mem_saves_iff.1 hk
  obtain ⟨huses, hreads, hwrites⟩ := h.saved r hr offset hoffset
  exact ⟨K.store Width.isValid_w64 huses hwrites, K.load Width.isValid_w64 huses hreads⟩

theorem paramMoves (hms : e.paramMoves = .ok ms) : ∀ m ∈ ms, K.Makes m := by
  intro m hm
  obtain ⟨⟨p, k⟩, hp, hmove⟩ := exists_of_mem_right (mapM_eq_ok.1 hms) hm
  obtain ⟨dest, hdest, ⟨⟩⟩ := bind_eq_ok.1 hmove
  have hvar : p ∈ e.function.vars := mem_append_left _ (fst_mem_of_mem_zipIdx hp)
  refine ⟨(h.home p hvar dest hdest).1, ?_, h.wellFormed.width p hvar⟩
  dsimp only
  split
  · next r hr => exact h.args r (mem_of_getElem? hr)
  · next hnone => exact h.param k p (mem_zipIdx_iff_getElem?.1 hp) hnone

theorem phiCode {pred succ : BlockId} (hcode : e.phiCode pred succ = .ok code) : ∀ i ∈ code, K.Has i := by
  unfold Emission.phiCode at hcode
  split at hcode
  · cases hcode
  · next b hb =>
    have hb := (h.wellFormed.block?_eq_some_iff.1 hb).1
    obtain ⟨ms, hms, ⟨⟩⟩ := bind_eq_ok.1 hcode
    refine h.moves fun m hm => ?_
    obtain ⟨phi, hphi, hmove⟩ := exists_of_mem_right (mapM_eq_ok.1 hms) hm
    obtain ⟨dest, hdest, hmove⟩ := bind_eq_ok.1 hmove
    obtain ⟨o, ho, hmove⟩ := bind_eq_ok.1 hmove
    obtain ⟨source, hsource, ⟨⟩⟩ := bind_eq_ok.1 hmove
    obtain ⟨hvar, hwidth⟩ := h.wellFormed.width_phiMove hb hphi
    have hread := h.wellFormed.readable_phiMove hb hphi
    rw [present_eq_ok ho] at hread hwidth
    refine ⟨(h.home _ hvar dest hdest).1, ?_, h.wellFormed.width _ hvar⟩
    have hgives := h.gives_source hread hsource
    rwa [Option.some.inj hwidth] at hgives

theorem pushArg (ho : e.function.Readable (some o)) (hcode : e.pushArg o = .ok code) :
    ∃ before r, code = before ++ [.push r] ∧ (∀ i ∈ before, K.Has i) ∧ K.Uses r := by
  unfold Emission.pushArg at hcode
  obtain ⟨s, hs, hcode⟩ := bind_eq_ok.1 hcode
  have hsource := h.gives_source ho hs
  split at hcode
  · cases hcode
    exact ⟨[], _, rfl, forall_mem_nil _, hsource⟩
  · obtain ⟨r, hr, ⟨⟩⟩ := bind_eq_ok.1 hcode
    have hr := h.uses_firstScratch hr
    exact ⟨[_], r, rfl, forall_mem_singleton.2 (Kind.has_load hsource hr (h.wellFormed.width_readable ho)), hr⟩

theorem argMoves {args : List Operand} (hargs : ∀ o ∈ args, e.function.Readable (some o))
    (hms : e.argMoves args = .ok ms) : ∀ m ∈ ms, K.Makes m := by
  intro m hm
  obtain ⟨⟨o, r⟩, hpair, hmove⟩ := exists_of_mem_right (mapM_eq_ok.1 hms) hm
  obtain ⟨source, hsource, ⟨⟩⟩ := bind_eq_ok.1 hmove
  obtain ⟨ho, hr⟩ := of_mem_zip hpair
  exact ⟨h.args r hr, h.gives_source (hargs o ho) hsource, h.wellFormed.width_readable (hargs o ho)⟩

theorem resultCode {dest : Option Var} (hdest : ∀ d ∈ dest, d ∈ e.function.vars) (hcode : e.resultCode dest = .ok code) :
    ∀ i ∈ code, K.Has i := by
  cases dest with
  | none =>
    cases hcode
    exact forall_mem_nil _
  | some d =>
    obtain ⟨p, hp, ⟨⟩⟩ := bind_eq_ok.1 hcode
    have hd := hdest d rfl
    exact h.moves (forall_mem_singleton.2 ⟨(h.home d hd p hp).1, h.result, h.wellFormed.width d hd⟩)

end Serves

end Emission

end RegisterCompiler
