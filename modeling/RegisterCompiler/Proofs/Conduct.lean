import RegisterCompiler.Proofs.Discipline
import RegisterCompiler.Proofs.Kinds

/-!
# Compiled code obeys the discipline of the stack

The code of a function uses the stack for its frame, for the arguments of calls, and for the arguments that came with its
own call. If no instruction of a module accesses the memory, its code does nothing else with it; and if every call passes
the arguments that its callee looks for, the code obeys the discipline.
-/

namespace RegisterCompiler

open List
open IR (Block BlockId Module Operand Var)
open Machine (Image Modest Shape)
open Success

namespace IR

/-- An instruction that accesses the memory, or takes an address in it. -/
def Instr.AccessesMemory : Instr → Prop
  | .load .. | .store .. | .slotAddr .. => True
  | _ => False

instance : (i : Instr) → Decidable i.AccessesMemory
  | .load .. | .store .. | .slotAddr .. => .isTrue trivial
  | .binop .. | .cmp .. | .cast .. | .phi .. | .call .. | .jump _ | .branch .. | .ret _ => .isFalse id

/-- A call passes the arguments that its callee looks for on the stack. -/
def Instr.PassesEnough (m : Module) (d : Descriptor) : Instr → Prop
  | .call _ callee args => ∀ g ∈ m.function? callee, g.params.length ≤ max args.length d.args.length
  | _ => True

instance (m : Module) (d : Descriptor) : (i : Instr) → Decidable (i.PassesEnough m d)
  | .call _ callee args =>
    inferInstanceAs (Decidable (∀ g ∈ m.function? callee, g.params.length ≤ max args.length d.args.length))
  | .binop .. | .cmp .. | .cast .. | .load .. | .store .. | .slotAddr .. | .phi .. | .jump _ | .branch .. | .ret _ =>
    .isTrue trivial

/-- No instruction of a module accesses the memory. -/
def Module.AccessFree (m : Module) : Prop := ∀ f ∈ m.functions, ∀ b ∈ f.blocks, ∀ i ∈ b.code, ¬i.AccessesMemory

instance (m : Module) : Decidable m.AccessFree :=
  inferInstanceAs (Decidable (∀ f ∈ m.functions, ∀ b ∈ f.blocks, ∀ i ∈ b.code, ¬i.AccessesMemory))

/-- Every call in a module passes the arguments that its callee looks for on the stack. -/
def Module.PassesEnough (m : Module) (d : Descriptor) : Prop :=
  ∀ f ∈ m.functions, ∀ b ∈ f.blocks, ∀ i ∈ b.code, i.PassesEnough m d

instance (m : Module) (d : Descriptor) : Decidable (m.PassesEnough d) :=
  inferInstanceAs (Decidable (∀ f ∈ m.functions, ∀ b ∈ f.blocks, ∀ i ∈ b.code, i.PassesEnough m d))

end IR

/-- The modest instructions, with registers for values. -/
def Kind.modest (room : Int) : Kind where
  Has := Modest room
  Uses r := r.num < 16
  Reads w offset := offset.toInt + w.size ≤ 0 ∨ 16 ≤ offset.toInt ∧ offset.toInt + w.size ≤ 16 + room
  Writes w offset := offset.toInt + w.size ≤ 0
  Computes _ := True
  Compares _ := True
  first := by decide
  mov _ hd _ := hd
  movImm _ _ hd := hd
  load hw hd hoffset := ⟨hd, hw, rfl, hoffset⟩
  store hw _ hoffset := ⟨hw, rfl, hoffset⟩
  sext _ hd _ := hd
  zext _ hd _ := hd
  alu _ _ hd _ _ := hd
  aluImm _ _ _ hd _ := hd
  cmp _ _ hd _ _ := hd
  cmpImm _ _ _ hd _ := hd

/-! ## Stretches of code -/

namespace Machine.Image

variable {img : Image} {gate : Nat → Shape → Prop} {F : Shape} {p : Nat} {n : Int} {code : List Asm.Instr}

theorem Obeys.of_modest (hat : img.CodeAt p code) (hcode : ∀ i ∈ code, Modest F.room i)
    (hrest : img.Obeys gate F (.body n) (p + code.length)) : img.Obeys gate F (.body n) p := by
  induction code generalizing p with
  | nil => exact hrest
  | cons i code ih =>
    obtain ⟨hi, hat⟩ := codeAt_cons.1 hat
    obtain ⟨hmodest, hcode⟩ := forall_mem_cons.1 hcode
    refine .modest hi hmodest (ih hat hcode ?_)
    rwa [length_cons, Nat.add_comm code.length, ← Nat.add_assoc] at hrest

theorem Obeys.of_pushes {codes : List (List Asm.Instr)} (hat : img.CodeAt p codes.flatten)
    (hcodes : ∀ code ∈ codes, ∃ before r, code = before ++ [.push r] ∧ ∀ i ∈ before, Modest F.room i)
    (hrest : img.Obeys gate F (.body (n + 8 * codes.length)) (p + codes.flatten.length)) :
    img.Obeys gate F (.body n) p := by
  induction codes generalizing p n with
  | nil => simpa using hrest
  | cons code codes ih =>
    obtain ⟨⟨before, r, rfl, hbefore⟩, hothers⟩ := forall_mem_cons.1 hcodes
    obtain ⟨hfirst, hat⟩ := codeAt_append.1 (flatten_cons ▸ hat)
    obtain ⟨hload, hpush⟩ := codeAt_append.1 hfirst
    refine .of_modest hload hbefore (.push (codeAt_singleton.1 hpush) (ih ?_ hothers ?_))
    · rwa [length_append, length_singleton, ← Nat.add_assoc] at hat
    · rw [flatten_cons, length_append, length_append, length_singleton, length_cons] at hrest
      rw [show n + 8 + 8 * (codes.length : Int) = n + 8 * ((codes.length + 1 : Nat) : Int) by omega]
      rwa [show p + before.length + 1 + codes.flatten.length = p + (before.length + 1 + codes.flatten.length) by omega]

theorem Obeys.of_clear {k : Nat} {pushed : Int64} (hat : img.CodeAt p (Emission.clearCode pushed)) (hn : 0 ≤ n)
    (hpushed : pushed.toInt = 8 * k) (hrest : img.Obeys gate F (.body n) (p + (Emission.clearCode pushed).length)) :
    img.Obeys gate F (.body (n + 8 * k)) p := by
  unfold Emission.clearCode at hat hrest
  split at hat
  · next hpos =>
    rw [if_pos hpos] at hrest
    refine .move (codeAt_singleton.1 hat) (by omega) ?_
    rw [hpushed, Int.add_sub_cancel]
    exact hrest
  · next hpos =>
    rw [if_neg hpos] at hrest
    have hzero : (k : Int) = 0 := by
      have := mt Int64.lt_iff_toInt_lt.2 hpos
      rw [show (0 : Int64).toInt = 0 from rfl] at this
      omega
    rw [hzero]
    exact (Int.add_zero n).symm ▸ hrest

end Machine.Image

/-! ## Functions -/

namespace Emission

variable {e : Emission} {img : Image} {gate : Nat → Shape → Prop} {b : Block} {site : BlockSite} {i : IR.Instr}
  {code : List Asm.Instr} {rest : List IR.Instr} {n p q : Nat} {succ : BlockId}

/-- The bytes of the arguments that a function looks for on the stack. -/
def argRoom (e : Emission) : Int := 8 * (e.function.params.length - e.target.args.length : Nat)

/-- What the activations of a function have in common. -/
def shape (e : Emission) (img : Image) : Shape where
  size := e.layout.size.toInt
  room := e.argRoom
  block p := ∃ id, e.BlockAt img id p

/-- What a function uses is at hand for modest instructions, if the arguments on its stack have offsets at all. -/
theorem Sound.serves_modest (h : e.Sound) (hroom : e.argRoom + 16 < 2 ^ 63) : e.Serves (.modest e.argRoom) where
  wellFormed := h.ready.wellFormed
  home v hv p hp := by
    rcases h.home_cases hv hp with ⟨r, rfl, -, hr⟩ | ⟨offset, rfl, hat⟩
    · have hgeneral := h.target.allocatable_general r hr
      exact ⟨hgeneral, hgeneral⟩
    · have hinside := (h.tidy.inside _ _ hat).2
      exact ⟨hinside, .inl hinside⟩
  param k p hk hnone := by
    have hlt : k < e.function.params.length := (List.getElem?_eq_some_iff.1 hk).1
    have hle : e.target.args.length ≤ k := List.getElem?_eq_none_iff.1 hnone
    have hwidth := Width.size_of_isValid (h.ready.wellFormed.width p (mem_append_left _ (mem_of_getElem? hk)))
    have hroom' : 8 * ((k - e.target.args.length : Nat) : Int) + 8 ≤ e.argRoom := by
      rw [argRoom]
      omega
    refine .inr ?_
    rw [h.toInt_argOffset (by omega)]
    omega
  saved r hr offset hoffset := by
    obtain ⟨u, hu, hat⟩ := Layout.at_of_offset? hoffset
    obtain rfl : u = .save r := of_decide_eq_true hu
    have hinside := (h.tidy.inside _ _ hat).2
    exact ⟨h.target.allocatable_general r (h.target.saved_allocatable r (h.saved r hr)), .inl hinside, hinside⟩
  scratch := h.target.scratch_general
  args := h.target.args_general
  result := h.target.result_general
  computes _ _ := trivial
  compares _ _ := trivial

/-- What the code of a function needs in order to obey the discipline: it lies in the machine and does not access the
    memory, and its calls lead to functions and pass the arguments that these look for. -/
structure Conduct (e : Emission) (img : Image) (gate : Nat → Shape → Prop) : Prop where
  sound : e.Sound
  linked : e.Linked img
  resolves : img.Resolves
  room : e.argRoom + 16 < 2 ^ 63
  still : ∀ b ∈ e.function.blocks, ∀ i ∈ b.code, ¬i.AccessesMemory
  callee : ∀ b ∈ e.function.blocks, ∀ dest callee args, .call dest callee args ∈ b.code →
    ∃ (q : Nat) (G : Shape), img.labels.lookup callee = some q ∧ G.room ≤ 8 * (args.length - e.target.args.length : Nat) ∧
      (G.room + 16 < 2 ^ 63 → gate q G)

/-- From the index `p` on, the code of the body of a function obeys the discipline. -/
abbrev BodyAt (e : Emission) (img : Image) (gate : Nat → Shape → Prop) (p : Nat) : Prop :=
  img.Obeys gate (e.shape img) (.body e.layout.size.toInt) p

namespace Conduct

variable {label : Asm.Label} {id : BlockId} {edges : List EdgeBlock}

theorem serves (h : e.Conduct img gate) : e.Serves (.modest (e.shape img).room) := h.sound.serves_modest h.room

theorem obeys_of_blockAt (hat : e.BlockAt img id q) : e.BodyAt img gate q :=
  .block ⟨id, hat⟩

variable (h : e.Conduct img gate)
include h

theorem exists_of_blockLabel (hlabel : e.blockLabel succ = .ok label) : ∃ b ∈ e.function.blocks, b.id = succ := by
  unfold blockLabel at hlabel
  split at hlabel
  · next hb => exact ⟨_, h.sound.ready.wellFormed.block?_eq_some_iff.1 hb⟩
  · cases hlabel

theorem lookup_label (hlabel : e.blockLabel succ = .ok label) :
    ∃ q, img.labels.lookup label = some q ∧ e.BodyAt img gate q := by
  obtain ⟨b, hb, rfl⟩ := h.exists_of_blockLabel hlabel
  obtain ⟨q, hq, hat⟩ := h.linked.lookup_label h.resolves hb hlabel
  exact ⟨q, hq, obeys_of_blockAt hat⟩

/-! ## The end of a block -/

theorem obeys_jumpTo (hcode : e.jumpTo site succ = .ok code) (hat : img.CodeAt p code)
    (hnext : ∀ id, site.next = some id → e.BlockAt img id (p + code.length)) :
    e.BodyAt img gate p := by
  obtain ⟨moves, hmoves, hcode⟩ := bind_eq_ok.1 hcode
  split at hcode
  · next hsite =>
    cases hcode
    exact .of_modest hat (h.serves.phiCode hmoves) (obeys_of_blockAt (hnext _ hsite))
  · obtain ⟨label, hlabel, ⟨⟩⟩ := bind_eq_ok.1 hcode
    obtain ⟨hat, hjump⟩ := Image.codeAt_append.1 hat
    obtain ⟨q, hq, hthere⟩ := h.lookup_label hlabel
    exact .of_modest hat (h.serves.phiCode hmoves) (.jump (Image.codeAt_singleton.1 hjump) hq hthere)

/-- A branch leads to a block, or to the code on an edge, which leads to one. -/
theorem obeys_branchTo (hcode : e.branchTo site n succ = .ok (label, edges)) (hedges : EdgesAt img edges) :
    ∃ q, img.labels.lookup label = some q ∧ e.BodyAt img gate q := by
  obtain ⟨moves, hmoves, hcode⟩ := bind_eq_ok.1 hcode
  obtain ⟨target, htarget, hcode⟩ := bind_eq_ok.1 hcode
  split at hcode
  · cases hcode
    exact h.lookup_label htarget
  · cases hcode
    obtain ⟨q, hq, hthere⟩ := h.lookup_label htarget
    obtain ⟨r, hat⟩ := hedges _ mem_cons_self
    obtain ⟨hlabel, hat⟩ := Image.codeAt_cons.1 hat
    obtain ⟨hat, hjump⟩ := Image.codeAt_append.1 hat
    refine ⟨r, h.resolves r _ hlabel, .label hlabel ?_⟩
    exact .of_modest hat (h.serves.phiCode hmoves) (.jump (Image.codeAt_singleton.1 hjump) hq hthere)

theorem obeys_test {fetch : List Asm.Instr} {test : Asm.Instr} {r : Reg} {other : BlockId}
    (hfetch : ∀ i ∈ fetch, Modest (e.shape img).room i) (htest : test = .jumpZero r label ∨ test = .jumpNonzero r label)
    (hbranch : e.branchTo site n succ = .ok (label, edges)) (hjump : e.jumpTo site other = .ok code)
    (hat : img.CodeAt p (fetch ++ [test] ++ code)) (hedges : EdgesAt img edges)
    (hnext : ∀ id, site.next = some id → e.BlockAt img id (p + (fetch ++ [test] ++ code).length)) :
    e.BodyAt img gate p := by
  obtain ⟨hat, hrest⟩ := Image.codeAt_append.1 hat
  obtain ⟨hat, htestAt⟩ := Image.codeAt_append.1 hat
  have htestAt := Image.codeAt_singleton.1 htestAt
  obtain ⟨q, hq, hthere⟩ := h.obeys_branchTo hbranch hedges
  have hcode : img.code[p + fetch.length]? = some (.jumpZero r label) ∨
      img.code[p + fetch.length]? = some (.jumpNonzero r label) := by
    rcases htest with rfl | rfl
    · exact .inl htestAt
    · exact .inr htestAt
  refine .of_modest hat hfetch (.branch hcode hq hthere (h.obeys_jumpTo hjump ?_ ?_))
  · simpa [Nat.add_assoc] using hrest
  · simpa [Nat.add_assoc, Nat.add_comm 1] using hnext

theorem obeys_branchCode {o : Operand} (ho : e.function.Readable (some o)) {t f : BlockId} {em : Emitted}
    (hem : e.branchCode site n o t f = .ok em) (hat : img.CodeAt p em.code) (hedges : EdgesAt img em.edges)
    (hnext : ∀ id, site.next = some id → e.BlockAt img id (p + em.code.length)) :
    e.BodyAt img gate p := by
  obtain ⟨c, hc, hem⟩ := bind_eq_ok.1 hem
  obtain ⟨hfetch, -⟩ := h.serves.fetch ho hc
  -- If the first of the two blocks follows, the test is turned around and control falls through to it.
  split at hem
  · next hsite =>
    obtain ⟨⟨label, edges⟩, hbranch, hem⟩ := bind_eq_ok.1 hem
    obtain ⟨moves, hmoves, ⟨⟩⟩ := bind_eq_ok.1 hem
    have hjump : e.jumpTo site t = .ok moves := bind_eq_ok.2 ⟨moves, hmoves, if_pos hsite.2⟩
    exact h.obeys_test hfetch (.inl rfl) hbranch hjump hat hedges hnext
  · obtain ⟨⟨label, edges⟩, hbranch, hem⟩ := bind_eq_ok.1 hem
    obtain ⟨code, hjump, ⟨⟩⟩ := bind_eq_ok.1 hem
    exact h.obeys_test hfetch (.inr rfl) hbranch hjump hat hedges hnext

theorem obeys_epilogue (hat : img.CodeAt p e.layout.epilogue) :
    e.BodyAt img gate p := by
  obtain ⟨hat, hleave⟩ := Image.codeAt_append.1 hat
  obtain ⟨hunwind, hleave⟩ := Image.codeAt_cons.1 hleave
  obtain ⟨hunlink, hret⟩ := Image.codeAt_cons.1 hleave
  refine .of_modest hat (forall_mem_map.2 fun k hk => (h.serves.saves k hk).2) ?_
  exact .unwind hunwind (.unlink hunlink (.ret (Image.codeAt_singleton.1 hret)))

/-- The instruction that ends a block leads to another block or back to the caller. -/
theorem obeys_last (hb : b ∈ e.function.blocks) (hi : i ∈ b.code) (hterm : i.isTerminator)
    (hrest : e.RestAt img b [i] p) : e.BodyAt img gate p := by
  obtain ⟨site, n, em, -, hem, hat, hedges, -, hnext⟩ := hrest.cons
  have hnext := hnext rfl
  have hread := h.sound.ready.wellFormed.readable b hb i hi
  cases i with
  | jump target =>
    obtain ⟨code, hcode, ⟨⟩⟩ := bind_eq_ok.1 hem
    exact h.obeys_jumpTo hcode hat hnext
  | branch condition t f =>
    obtain ⟨o, ho, hways⟩ := bind_eq_ok.1 hem
    cases present_eq_ok ho
    cases o with
    | imm value w =>
      obtain ⟨code, hcode, ⟨⟩⟩ := bind_eq_ok.1 hways
      exact h.obeys_jumpTo hcode hat hnext
    | var v =>
      dsimp only at hways
      split at hways
      · obtain ⟨code, hcode, ⟨⟩⟩ := bind_eq_ok.1 hways
        exact h.obeys_jumpTo hcode hat hnext
      · exact h.obeys_branchCode (hread _ mem_cons_self) hways hat hedges hnext
  | ret value =>
    cases value with
    | none =>
      cases hem
      exact h.obeys_epilogue hat
    | some o =>
      obtain ⟨s, hs, ⟨⟩⟩ := bind_eq_ok.1 hem
      have ho := hread _ mem_cons_self
      obtain ⟨hload, hat⟩ := Image.codeAt_cons.1 hat
      have hwidth := h.serves.wellFormed.width_readable ho
      have hresult := Kind.has_load (h.serves.gives_source ho hs) h.serves.result hwidth
      exact .modest hload hresult (h.obeys_epilogue hat)
  | _ => cases hterm

/-! ## Inside a block -/

theorem obeys_call (hb : b ∈ e.function.blocks) {dest : Option Var} {callee : String} {args : List (Option Operand)}
    (hi : .call dest callee args ∈ b.code) (hat : e.RestAt img b (.call dest callee args :: rest) p)
    (hrest : ∀ q, e.RestAt img b rest q → e.BodyAt img gate q) :
    e.BodyAt img gate p := by
  have hread := h.sound.ready.wellFormed.readable b hb _ hi
  obtain ⟨r, G, hr, hpasses, hgate⟩ := h.callee b hb dest callee args hi
  obtain ⟨os, rfl, -⟩ := Ready.mapM_present hread
  obtain ⟨pushes, ms, result, q, hpushes, hms, hresult, hbefore, rfl, hafter, hat⟩ := hat.call
  have hargs : ∀ o ∈ os, e.function.Readable (some o) := fun o ho => hread _ (mem_map_of_mem ho)
  have hdest : ∀ d ∈ dest, d ∈ e.function.vars := fun d hd => IR.Function.WellFormed.mem_vars_of_dest hb hi hd
  have hlength : pushes.length = os.length - e.target.args.length := by
    rw [← (mapM_eq_ok.1 hpushes).length_eq, length_reverse, length_drop]
  obtain ⟨hbefore, hcall⟩ := Image.codeAt_append.1 hbefore
  obtain ⟨hpush, hmoves⟩ := Image.codeAt_append.1 hbefore
  obtain ⟨hclear, hresultAt⟩ := Image.codeAt_append.1 hafter
  have hsize := h.sound.tidy.size
  refine .of_pushes hpush (fun code hcode => ?_) ?_
  · obtain ⟨o, ho, hpush⟩ := exists_of_mem_right (mapM_eq_ok.1 hpushes) hcode
    have ho := hargs o (mem_of_mem_drop (mem_reverse.1 ho))
    obtain ⟨before, r, hcode, hbefore, -⟩ := h.serves.pushArg ho hpush
    exact ⟨before, r, hcode, hbefore⟩
  rw [hlength]
  rw [length_map] at hpasses
  -- Either the arguments need more stack than there can be, or their size is a word.
  by_cases hdeep : 2 ^ 63 ≤ e.layout.size.toInt + 8 * ((os.length - e.target.args.length : Nat) : Int) + 16
  · exact .deep hdeep
  have hpushed := h.sound.toPlaced.toInt_pushed (n := os.length - e.target.args.length) (by omega)
  refine .of_modest hmoves (h.serves.moves (h.serves.argMoves hargs hms)) ?_
  rw [Nat.add_assoc, ← length_append]
  refine .call (Image.codeAt_singleton.1 hcall) hr (hgate (by omega)) (by omega) ?_
  refine .of_clear hclear hsize hpushed (.of_modest hresultAt (h.serves.resultCode hdest hresult) (hrest _ ?_))
  simpa only [length_append, Nat.add_assoc] using hat

theorem obeys_cons (hb : b ∈ e.function.blocks) (hi : i ∈ b.code) (hterm : i.isTerminator = false)
    (hat : e.RestAt img b (i :: rest) p)
    (hrest : ∀ q, e.RestAt img b rest q → e.BodyAt img gate q) :
    e.BodyAt img gate p := by
  have hstill := h.still b hb i hi
  have hcomputed : (∃ op dest x y, i = .binop op dest x y) ∨ (∃ c dest x y, i = .cmp c dest x y) ∨
      (∃ op dest x, i = .cast op dest x) → e.BodyAt img gate p := by
    intro hcomputes
    obtain ⟨site, n, em, rfl, hem, hat, -, hafter, -⟩ := hat.cons
    exact .of_modest hat (h.serves.computed hb hi hcomputes hem).1 (hrest _ hafter)
  cases i with
  | binop op dest x y => exact hcomputed (.inl ⟨op, dest, x, y, rfl⟩)
  | cmp cond dest x y => exact hcomputed (.inr (.inl ⟨cond, dest, x, y, rfl⟩))
  | cast op dest x => exact hcomputed (.inr (.inr ⟨op, dest, x, rfl⟩))
  | phi dest edges =>
    obtain ⟨site, n, em, -, hem, -, -, hafter, -⟩ := hat.cons
    cases hem
    exact hrest _ hafter
  | call dest callee args => exact h.obeys_call hb hi hat hrest
  | load | store | slotAddr => exact absurd trivial hstill
  | jump | branch | ret => cases hterm

theorem obeys_rest (hb : b ∈ e.function.blocks) {body : List IR.Instr} {last : IR.Instr}
    (hbody : ∀ i ∈ body, i ∈ b.code ∧ i.isTerminator = false) (hlast : last ∈ b.code) (hterm : last.isTerminator)
    (hat : e.RestAt img b (body ++ [last]) p) : e.BodyAt img gate p := by
  induction body generalizing p with
  | nil => exact h.obeys_last hb hlast hterm hat
  | cons i body ih =>
    obtain ⟨⟨hi, hplain⟩, hbody⟩ := forall_mem_cons.1 hbody
    exact h.obeys_cons hb hi hplain hat fun q => ih hbody

theorem obeys_block (hat : e.BlockAt img id p) :
    (∃ l, img.code[p]? = some (.label l)) ∧ e.BodyAt img gate (p + 1) := by
  obtain ⟨label, hlabel, hp⟩ := hat
  obtain ⟨b, hb, rfl⟩ := h.exists_of_blockLabel hlabel
  obtain ⟨q, ⟨label', hlabel', hq⟩, hrest⟩ := h.linked.block b hb
  cases hlabel.symm.trans hlabel'
  cases (h.resolves q label hq).symm.trans (h.resolves p label hp)
  obtain ⟨phis, body, last, hshape⟩ := h.sound.ready.wellFormed.shape b hb
  have hbody : ∀ i ∈ phis ++ body, i ∈ b.code ∧ i.isTerminator = false := fun i hi => by
    refine ⟨by rw [hshape.code]; exact mem_append_left _ hi, ?_⟩
    rcases mem_append.1 hi with hphi | hbody
    · have := hshape.phis i hphi
      cases i <;> first | rfl | cases this
    · exact (hshape.body i hbody).2
  have hlast : last ∈ b.code := by
    rw [hshape.code]
    exact mem_append_right _ mem_cons_self
  exact ⟨⟨label, hp⟩, h.obeys_rest hb hbody hlast hshape.last (hshape.code ▸ hrest)⟩

/-! ## The entry -/

theorem obeys_entry (hp : img.code[p]? = some (.label e.function.name)) : img.Obeys gate (e.shape img) .entry p := by
  obtain ⟨q, code, hq, hcode, hat, hfirst⟩ := h.linked.entry
  cases (h.resolves q _ hq).symm.trans (h.resolves p _ hp)
  obtain ⟨ms, start, hms, rfl, hstart⟩ := entryCode_eq_ok hcode
  have hsize := h.sound.tidy.size
  obtain ⟨hbuild, hstartAt⟩ := Image.codeAt_append.1 hat
  obtain ⟨hbuild, hmoves⟩ := Image.codeAt_append.1 hbuild
  obtain ⟨hbuild, hsaves⟩ := Image.codeAt_append.1 hbuild
  obtain ⟨hlink, hmake⟩ := Image.codeAt_append.1 hbuild
  obtain ⟨hlink, hframe⟩ := Image.codeAt_cons.1 hlink
  -- From where the frame is made on, the stack pointer is below it.
  have hmade : e.BodyAt img gate
      (p + 1 + ([.push .fp, .mov .w64 .fp .sp] ++ (if 0 < e.layout.size then
        [.aluImm .add .w64 .sp .sp (-e.layout.size)] else []) : List Asm.Instr).length) := by
    refine .of_modest hsaves (forall_mem_map.2 fun k hk => (h.serves.saves k hk).1) ?_
    rw [Nat.add_assoc, ← length_append]
    refine .of_modest hmoves (h.serves.moves (h.serves.paramMoves hms)) ?_
    rw [Nat.add_assoc, ← length_append]
    rcases hstart with ⟨hhead, rfl⟩ | ⟨label, hlabel, rfl⟩
    · have := hfirst hhead
      rw [append_nil] at this
      exact obeys_of_blockAt this
    · obtain ⟨q, hq, hthere⟩ := h.lookup_label hlabel
      exact .jump (Image.codeAt_singleton.1 hstartAt) hq hthere
  refine .label hp (.link hlink (.frame (Image.codeAt_singleton.1 hframe) ?_))
  split at hmake
  · next hpos =>
    have hneg : (-e.layout.size).toInt = -e.layout.size.toInt := by
      rw [toInt_neg_of_bounds]
      omega
    refine .move (Image.codeAt_singleton.1 hmake) (by omega) ?_
    rw [if_pos hpos] at hmade
    rw [hneg, Int.zero_sub, Int.neg_neg]
    exact hmade
  · next hpos =>
    have hzero : e.layout.size.toInt = 0 := by
      have := mt Int64.lt_iff_toInt_lt.2 hpos
      rw [show (0 : Int64).toInt = 0 from rfl] at this
      omega
    rw [if_neg hpos, BodyAt, hzero] at hmade
    exact hmade

end Conduct

end Emission

/-! ## Modules -/

namespace Machine.Image

variable {img : Image} {d : Descriptor} {m : Module}

/-- Where the functions of a module begin, and what their activations have in common. -/
def gate (img : Image) (d : Descriptor) (m : Module) (q : Nat) (F : Shape) : Prop :=
  ∃ e : Emission, e.Carried img d m ∧ img.code[q]? = some (.label e.function.name) ∧ F = e.shape img ∧
    F.room + 16 < 2 ^ 63

/-- The code of a compiled module obeys the discipline, if its functions do not access the memory and its calls pass the
    arguments that their callees look for. -/
theorem orderly {options : CompileOptions} {out : Output} (hd : d.WellFormed) (hcompile : m.compile d options = .ok out)
    (hfree : m.AccessFree) (hpasses : m.PassesEnough d) (hfits : m.FitsFrames d)
    (hload : Image.load out.program.flatten = .ok img) (hsmall : out.program.flatten.length < 2 ^ 63) :
    img.Orderly (img.gate d m) := by
  obtain ⟨hcode, hresolves⟩ := load_eq_ok hload
  obtain ⟨-, hcallees, -, -⟩ := IR.Module.compile_eq_ok hcompile
  have hconduct : ∀ e : Emission, e.Carried img d m → e.argRoom + 16 < 2 ^ 63 → e.Conduct img (img.gate d m) :=
    fun e he hroom =>
      { sound := he.sound
        linked := he.linked
        resolves := hresolves
        room := hroom
        still := hfree _ he.member
        callee := fun b hb dest callee args hi => by
          -- The callee is a function of the module as well, so that its code is in the machine.
          obtain ⟨g, hg⟩ := hcallees _ he.member b hb dest callee args hi
          have hname : g.name = callee := by simpa using find?_some hg
          obtain ⟨e', rfl, he'⟩ := Emission.exists_carried hd hcompile hfits hload (mem_of_find?_eq_some hg)
          obtain ⟨q, -, hq, -⟩ := he'.linked.entry
          refine ⟨q, e'.shape img, hname ▸ hresolves q _ hq, ?_, fun hroom => ⟨e', he', hq, rfl, hroom⟩⟩
          have henough := hpasses _ he.member b hb _ hi _ hg
          simp only [Emission.shape, Emission.argRoom, he'.target, he.target]
          omega }
  refine ⟨by simpa [hcode] using hsmall, ?_, ?_⟩
  · rintro q F ⟨e, he, hq, rfl, hroom⟩
    exact (hconduct e he hroom).obeys_entry hq
  · rintro q F ⟨e, he, -, rfl, hroom⟩ p ⟨id, hat⟩
    exact (hconduct e he hroom).obeys_block hat

end Machine.Image

end RegisterCompiler
