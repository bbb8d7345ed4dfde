import RegisterCompiler.Proofs.Counterparts
import RegisterCompiler.Proofs.WellFormed

/-!
# The stages of lowering a function

A function is lowered instruction by instruction, each in the scope that the instructions before it leave behind.
-/

namespace RegisterCompiler.Llvm

open Success List

/-! ## Functions -/

def Scope.start (file : String) (f : Function) : Scope := ⟨file, f.name, [], [], [], [], 1, [], []⟩

/-- The blocks that control can reach. -/
def Function.kept (f : Function) : List Block := f.blocks.filter (·.label ∈ f.reachable)

/-- The labels of the blocks that control cannot reach. -/
def Function.dropped (f : Function) : List String := (f.blocks.filter (·.label ∉ f.reachable)).map Block.label

/-- Declares the parameters, the blocks and the results of a function. -/
def Function.prepare (f : Function) : Lowering (List IR.Var) := do
  let params ← declareParams f.pos f.params
  numberBlocks 0 f.kept
  declare [] (f.kept.flatMap Block.instrs)
  return params

/-- Lowers a function as far as the instructions `before` in the block after the blocks `earlier`. -/
def Function.lowerUpTo (f : Function) (earlier : List Block) (before : List Instr) : Lowering Unit := do
  let _ ← f.prepare
  let _ ← earlier.mapM lowerBlock
  modify fun s => { s with code := [] }
  before.forM lowerInstr

/-- The edges `e.2` of the phi `p` with the variable `e.1`, without those from blocks that were dropped. -/
def Dictionary.Resolves (D : Dictionary) (dropped : List String) (p : PendingPhi) (e : IR.VarId × List IR.PhiEdge) : Prop :=
  e.1 = p.dest.id ∧ List.Forall₂ (D.Supplies p.dest) (p.incoming.filter (·.pred ∉ dropped)) e.2

/-- The function `f` is lowered to `g`: `s₀` is the scope after the declarations, and `s₁` that after the blocks, which
    have the code `codes`. The phis get the edges `edges`. -/
structure Stages (file : String) (f : Function) (g : IR.Function) (s₀ s₁ : Scope) (codes : List (List IR.Instr))
    (edges : List (IR.VarId × List IR.PhiEdge)) : Prop where
  prepared : f.prepare.run (.start file f) = .ok (g.params, s₀)
  lowered : (f.kept.mapM lowerBlock).run s₀ = .ok (codes, s₁)
  resolved : List.Forall₂ (s₁.dictionary.Resolves f.dropped) s₁.phis edges
  name : g.name = f.name
  entry : g.entry = 0
  result : f.result = .void ∧ g.result = .none ∨ f.result.width? = some g.result
  blocks : g.blocks = (f.kept.zip codes).mapIdx fun k (b, code) => (⟨k, b.label, code.map (fillPhi edges)⟩ : IR.Block)
  slots : g.slots = s₁.slots
  wellFormed : g.WellFormed

variable {file : String} {f : Function} {g : IR.Function} {s₀ s₁ s s' s'' : Scope} {codes : List (List IR.Instr)}
  {edges : List (IR.VarId × List IR.PhiEdge)} {earlier later : List Block} {b : Block} {before after : List Instr} {i : Instr}
  {code : List IR.Instr} {dropped : List String} {p : PendingPhi}

theorem exists_run_of_result {β : Type} {c : Prop} [Decidable c] {pos : Pos} {type : Ty} {k : Width → Lowering β} {b : β}
    (h : (if c then Pure.pure Width.none >>= k else widthOf pos type >>= k).run s = .ok (b, s')) :
    ∃ w, (c ∧ w = .none ∨ type.width? = some w) ∧ (k w).run s = .ok (b, s') := by
  split at h
  · next hc => exact ⟨_, .inl ⟨hc, rfl⟩, h⟩
  · obtain ⟨w, s₁, hw, hrun⟩ := run_bind_eq_ok.1 h
    obtain ⟨hwidth, rfl⟩ := run_widthOf_eq_ok.1 hw
    exact ⟨w, .inr hwidth, hrun⟩

section

variable {α β : Type} {x : α → Lowering β} {l : List α} {bs : List β}

theorem length_of_mapM (h : (l.mapM x).run s = .ok (bs, s')) : bs.length = l.length := by
  induction l generalizing s bs with
  | nil =>
    cases h
    rfl
  | cons a l ih =>
    rw [mapM_cons] at h
    obtain ⟨_, _, _, h⟩ := run_bind_eq_ok.1 h
    obtain ⟨_, _, hl, ⟨⟩⟩ := run_bind_eq_ok.1 h
    exact congrArg (· + 1) (ih hl)

theorem forall₂_of_mapM {R : α → β → Prop} (hx : ∀ a b s', (x a).run s = .ok (b, s') → s = s' ∧ R a b)
    (h : (l.mapM x).run s = .ok (bs, s')) : s = s' ∧ List.Forall₂ R l bs := by
  induction l generalizing bs with
  | nil =>
    cases h
    exact ⟨rfl, .nil⟩
  | cons a l ih =>
    rw [mapM_cons] at h
    obtain ⟨b, _, hb, h⟩ := run_bind_eq_ok.1 h
    obtain ⟨rfl, hR⟩ := hx a b _ hb
    obtain ⟨_, _, hl, ⟨⟩⟩ := run_bind_eq_ok.1 h
    obtain ⟨rfl, hothers⟩ := ih hl
    exact ⟨rfl, .cons hR hothers⟩

end

theorem eq_of_resolveEdge {i : Incoming} {e : Option IR.PhiEdge} (h : (resolveEdge dropped p i).run s = .ok (e, s')) :
    s = s' ∧ (i.pred ∈ dropped ∧ e = none ∨
      i.pred ∉ dropped ∧ ∃ edge, e = some edge ∧ s.dictionary.Supplies p.dest i edge) := by
  unfold resolveEdge at h
  split at h
  · next hdropped =>
    cases h
    exact ⟨rfl, .inl ⟨hdropped, rfl⟩⟩
  · next hkept =>
    obtain ⟨id, _, hblock, h⟩ := run_bind_eq_ok.1 h
    obtain ⟨hid, rfl⟩ := run_blockOf_eq_ok.1 hblock
    obtain ⟨value, pred⟩ := i
    cases value with
    | const c =>
      cases h
      exact ⟨rfl, .inr ⟨hkept, _, rfl, .const hid⟩⟩
    | globalName name => cases h
    | localName name =>
      obtain ⟨_, _, ⟨⟩, h⟩ := run_bind_eq_ok.1 h
      split at h
      · next hv =>
        cases h
        exact ⟨rfl, .inr ⟨hkept, _, rfl, .value hid hv⟩⟩
      · cases h

theorem eq_of_resolvePhi {e : IR.VarId × List IR.PhiEdge} (h : (resolvePhi dropped p).run s = .ok (e, s')) :
    s = s' ∧ s.dictionary.Resolves dropped p e := by
  obtain ⟨es, _, hes, ⟨⟩⟩ := run_bind_eq_ok.1 h
  obtain ⟨rfl, hall⟩ := forall₂_of_mapM (fun _ _ _ => eq_of_resolveEdge) hes
  refine ⟨rfl, rfl, ?_⟩
  clear h hes
  generalize p.incoming = incoming at hall ⊢
  induction hall with
  | nil => exact .nil
  | @cons i e incoming es hi _ ih =>
    rcases hi with ⟨hdropped, rfl⟩ | ⟨hkept, edge, rfl, hedge⟩
    · rw [filter_cons_of_neg (by simpa using hdropped)]
      exact ih
    · rw [filter_cons_of_pos (by simpa using hkept)]
      exact .cons hedge ih

theorem exists_stages (h : f.lower file = .ok g) : ∃ s₀ s₁ codes edges, Stages file f g s₀ s₁ codes edges := by
  obtain ⟨code, hcode, h⟩ := Success.bind_eq_ok.1 h
  obtain ⟨⟨_, s⟩, hrun, rfl⟩ := Success.map_eq_ok.1 hcode
  dsimp only at h
  split at h
  · next hverify =>
    cases h
    unfold lowerBody at hrun
    dsimp only at hrun
    obtain ⟨result, hresult, hrun⟩ := exists_run_of_result (run_ite_obstruct_eq_ok.1 hrun).2
    obtain ⟨params, t₁, hparams, hrun⟩ := run_bind_eq_ok.1 hrun
    obtain ⟨_, t₂, hnumber, hrun⟩ := run_bind_eq_ok.1 hrun
    obtain ⟨_, s₀, hdeclare, hrun⟩ := run_bind_eq_ok.1 hrun
    obtain ⟨codes, s₁, hcodes, hrun⟩ := run_bind_eq_ok.1 hrun
    obtain ⟨_, _, ⟨⟩, hrun⟩ := run_bind_eq_ok.1 hrun
    obtain ⟨edges, s₂, hedges, hrun⟩ := run_bind_eq_ok.1 hrun
    obtain ⟨_, _, ⟨⟩, ⟨⟩⟩ := run_bind_eq_ok.1 hrun
    obtain ⟨rfl, hresolved⟩ := forall₂_of_mapM (fun _ _ _ => eq_of_resolvePhi) hedges
    refine ⟨s₀, s₁, codes, edges, ?_, hcodes, hresolved, rfl, rfl, hresult, rfl, rfl, IR.Function.verify_eq_ok.1 hverify⟩
    refine run_bind_eq_ok.2 ⟨params, t₁, hparams, run_bind_eq_ok.2 ⟨(), t₂, hnumber, ?_⟩⟩
    exact run_bind_eq_ok.2 ⟨(), s₀, hdeclare, rfl⟩
  · cases h

/-! ## From place to place -/

theorem run_lowerBlock_eq_ok : (lowerBlock b).run s = .ok (code, s') ↔
    (b.instrs.forM lowerInstr).run { s with code := [] } = .ok ((), s') ∧ code = s'.code := by
  constructor
  · intro h
    obtain ⟨_, _, ⟨⟩, h⟩ := run_bind_eq_ok.1 h
    obtain ⟨_, _, hinstrs, h⟩ := run_bind_eq_ok.1 h
    obtain ⟨_, _, ⟨⟩, ⟨⟩⟩ := run_bind_eq_ok.1 h
    exact ⟨hinstrs, rfl⟩
  · rintro ⟨hinstrs, rfl⟩
    exact run_bind_eq_ok.2 ⟨(), _, rfl, run_bind_eq_ok.2 ⟨(), s', hinstrs, rfl⟩⟩

theorem run_forM_append {instrs instrs' : List Instr} : ((instrs ++ instrs').forM lowerInstr).run s = .ok ((), s'') ↔
    ∃ s', (instrs.forM lowerInstr).run s = .ok ((), s') ∧ (instrs'.forM lowerInstr).run s' = .ok ((), s'') := by
  rw [forM_eq_forM, forM_append, run_bind_eq_ok]
  constructor
  · rintro ⟨_, s', h⟩
    exact ⟨s', h⟩
  · rintro ⟨s', h⟩
    exact ⟨(), s', h⟩

/-- Lowering gets from the scope `s` to another one by some instructions, in one block or in several. -/
inductive Scope.Leads (s : Scope) : List Instr → Scope → Prop
  | refl : Leads s [] s
  | instr {instrs : List Instr} {i : Instr} {s' s'' : Scope} : Leads s instrs s' → (lowerInstr i).run s' = .ok ((), s'') →
      Leads s (instrs ++ [i]) s''
  | block {instrs : List Instr} {s' : Scope} : Leads s instrs s' → Leads s instrs { s' with code := [] }

/-- What comes to the scope `s` by instructions until it is `s'`: addresses with some of their names, and phis. -/
structure Scope.Grows (s : Scope) (instrs : List Instr) (s' : Scope) : Prop where
  dictionary : s'.dictionary = s.dictionary
  nextVar : s.nextVar ≤ s'.nextVar
  slots : s.slots <+: s'.slots
  addresses : ∃ new, s'.addresses = new ++ s.addresses ∧ ∀ p ∈ new, p.1 ∈ pointers instrs
  frame : s'.frame = frameAfter s.frame instrs
  phis : s'.phis = s.phis ++ instrs.filterMap s.dictionary.pending?

theorem Scope.Grows.values {instrs : List Instr} (h : s.Grows instrs s') : s'.values = s.values :=
  congrArg Dictionary.values h.dictionary

namespace Scope.Leads

variable {instrs instrs' : List Instr}

theorem trans (h : s.Leads instrs s') (h' : s'.Leads instrs' s'') : s.Leads (instrs ++ instrs') s'' := by
  induction h' with
  | refl => rwa [append_nil]
  | instr _ hrun ih =>
    rw [← append_assoc]
    exact ih.instr hrun
  | block _ ih => exact ih.block

theorem forM (h : (instrs.forM lowerInstr).run s = .ok ((), s')) : s.Leads instrs s' := by
  induction instrs generalizing s with
  | nil =>
    cases h
    exact .refl
  | cons i rest ih =>
    obtain ⟨_, s₁, hi, h⟩ := run_bind_eq_ok.1 h
    exact trans (.instr .refl hi) (ih h)

theorem lowerBlock {code : List IR.Instr} (h : (lowerBlock b).run s = .ok (code, s')) : s.Leads b.instrs s' := by
  obtain ⟨hinstrs, -⟩ := run_lowerBlock_eq_ok.1 h
  exact trans (.block .refl) (.forM hinstrs)

theorem mapM {blocks : List Block} {codes : List (List IR.Instr)} (h : (blocks.mapM Llvm.lowerBlock).run s = .ok (codes, s')) :
    s.Leads (blocks.flatMap Block.instrs) s' := by
  induction blocks generalizing s codes with
  | nil =>
    cases h
    exact .refl
  | cons b rest ih =>
    rw [mapM_cons] at h
    obtain ⟨code, s₁, hb, h⟩ := run_bind_eq_ok.1 h
    obtain ⟨others, s₂, hrest, ⟨⟩⟩ := run_bind_eq_ok.1 h
    rw [flatMap_cons]
    exact (lowerBlock hb).trans (ih hrest)

theorem grows (h : s.Leads instrs s') : s.Grows instrs s' := by
  induction h with
  | refl => exact ⟨rfl, Int.le_refl _, prefix_rfl, ⟨[], rfl, forall_mem_nil _⟩, rfl, (append_nil _).symm⟩
  | block _ ih => exact ⟨ih.dictionary, ih.nextVar, ih.slots, ih.addresses, ih.frame, ih.phis⟩
  | @instr instrs i s₁ s₂ _ hrun ih =>
    have hi := lowers_lowerInstr hrun
    obtain ⟨new, hnew, hnames⟩ := ih.addresses
    obtain ⟨added, hadded, hframed⟩ := hi.addresses
    refine ⟨hi.dictionary.trans ih.dictionary, Int.le_trans ih.nextVar hi.nextVar, ih.slots.trans hi.slots,
      ⟨added ++ new, by rw [hadded, hnew, append_assoc], ?_⟩, ?_, ?_⟩
    · rw [pointers, filterMap_append]
      refine forall_mem_append.2 ⟨fun p hp => mem_append_right _ ?_, fun p hp => mem_append_left _ (hnames p hp)⟩
      have hp := hframed ▸ mem_map_of_mem hp
      exact mem_filterMap.2 ⟨i, mem_cons_self, pointer?_of_framed? (Option.mem_toList.1 hp)⟩
    · rw [Scope.frame, hadded, map_append, hframed, frameAfter, foldl_append]
      show _ ++ s₁.frame = (framed? (frameAfter s.frame instrs) i.action).toList ++ frameAfter s.frame instrs
      rw [ih.frame]
    · rw [hi.phis, ih.phis, ih.dictionary, filterMap_append, append_assoc]
      cases hpending : s.dictionary.pending? i <;> simp [hpending]

theorem exists_run (h : s.Leads (instrs ++ i :: instrs') s') :
    ∃ t t', s.Leads instrs t ∧ (lowerInstr i).run t = .ok ((), t') ∧ t'.Leads instrs' s' := by
  generalize hall : instrs ++ i :: instrs' = all at h
  induction h generalizing instrs' with
  | refl => cases append_ne_nil_of_right_ne_nil instrs (cons_ne_nil i instrs') hall
  | block _ ih =>
    obtain ⟨t, t', hleads, hrun, hrest⟩ := ih hall
    exact ⟨t, t', hleads, hrun, hrest.block⟩
  | @instr all j s₁ s₂ hleads hrun ih =>
    rcases instrs'.eq_nil_or_concat with rfl | ⟨init, last, rfl⟩
    · obtain ⟨rfl, heq⟩ := append_inj' hall rfl
      cases heq
      exact ⟨s₁, s₂, hleads, hrun, .refl⟩
    · rw [concat_eq_append, ← cons_append, ← append_assoc] at hall
      obtain ⟨hinit, heq⟩ := append_inj' hall rfl
      cases heq
      obtain ⟨t, t', hleads', hrun', hrest⟩ := ih hinit
      rw [concat_eq_append]
      exact ⟨t, t', hleads', hrun', hrest.instr hrun⟩

end Scope.Leads

theorem leads_of_lowerUpTo {params : List IR.Var} (hprepared : f.prepare.run s = .ok (params, s₀))
    (h : (f.lowerUpTo earlier before).run s = .ok ((), s')) : s₀.Leads (earlier.flatMap Block.instrs ++ before) s' := by
  obtain ⟨_, _, hprepared', h⟩ := run_bind_eq_ok.1 h
  cases hprepared.symm.trans hprepared'
  obtain ⟨codes, t, hearlier, h⟩ := run_bind_eq_ok.1 h
  obtain ⟨_, _, ⟨⟩, hbefore⟩ := run_bind_eq_ok.1 h
  exact (Scope.Leads.mapM hearlier).trans (.trans (.block .refl) (.forM hbefore))

theorem dest?_fillPhi (edges : List (IR.VarId × List IR.PhiEdge)) (i : IR.Instr) : (fillPhi edges i).dest? = i.dest? := by
  cases i <;> rfl

theorem map_fillPhi_eq (edges : List (IR.VarId × List IR.PhiEdge)) (h : ∀ i ∈ code, i.isPhi = false) :
    code.map (fillPhi edges) = code := by
  refine (map_congr_left fun i hi => ?_).trans (map_id code)
  have hphi := h i hi
  cases i with
  | phi dest edges => cases hphi
  | _ => rfl

theorem exists_of_forM {instrs : List Instr} (h : (instrs.forM lowerInstr).run s = .ok ((), s')) :
    ∃ code, s'.code = s.code ++ code := by
  induction instrs generalizing s with
  | nil =>
    cases h
    exact ⟨[], (append_nil _).symm⟩
  | cons i rest ih =>
    obtain ⟨_, s₁, hi, h⟩ := run_bind_eq_ok.1 h
    obtain ⟨code, hcode, -⟩ := (lowers_lowerInstr hi).code
    obtain ⟨code', hcode'⟩ := ih h
    exact ⟨code ++ code', by rw [hcode', hcode, append_assoc]⟩

theorem exists_of_mem_code {instrs : List Instr} (h : (instrs.forM lowerInstr).run s = .ok ((), s')) {j : IR.Instr}
    (hj : j ∈ s'.code) : j ∈ s.code ∨ ∃ i ∈ instrs, ∃ n frame code, s.nextVar ≤ n ∧
      s.dictionary.Yields n frame i.action code ∧ j ∈ code := by
  induction instrs generalizing s with
  | nil =>
    cases h
    exact .inl hj
  | cons i rest ih =>
    obtain ⟨_, s₁, hi, h⟩ := run_bind_eq_ok.1 h
    have hi := lowers_lowerInstr hi
    obtain ⟨code, hcode, hyields⟩ := hi.code
    rcases ih h with hmem | ⟨i', hi', n, frame, code', hn, hyields', hmem⟩
    · rcases mem_append.1 (hcode ▸ hmem) with hmem | hmem
      · exact .inl hmem
      · exact .inr ⟨i, mem_cons_self, s.nextVar, s.frame, code, Int.le_refl _, hyields, hmem⟩
    · rw [hi.dictionary] at hyields'
      exact .inr ⟨i', mem_cons_of_mem i hi', n, frame, code', Int.le_trans hi.nextVar hn, hyields', hmem⟩

namespace Stages

variable {target : IR.Block}

/-- What becomes of a block: its instructions are lowered in the scope that the blocks before it leave behind. -/
theorem exists_block (h : Stages file f g s₀ s₁ codes edges) (hkept : f.kept = earlier ++ b :: later) :
    ∃ codes₁ t₁ t₂, (earlier.mapM lowerBlock).run s₀ = .ok (codes₁, t₁) ∧
      (b.instrs.forM lowerInstr).run { t₁ with code := [] } = .ok ((), t₂) ∧ t₂.Leads (later.flatMap Block.instrs) s₁ ∧
      g.blocks[earlier.length]? = some ⟨earlier.length, b.label, t₂.code.map (fillPhi edges)⟩ := by
  have hlowered := h.lowered
  rw [hkept, mapM_append] at hlowered
  obtain ⟨codes₁, t₁, hearlier, hrun⟩ := run_bind_eq_ok.1 hlowered
  rw [mapM_cons] at hrun
  obtain ⟨_, t₃, hrun, ⟨⟩⟩ := run_bind_eq_ok.1 hrun
  obtain ⟨code, t₂, hb, hrun⟩ := run_bind_eq_ok.1 hrun
  obtain ⟨codes₂, _, hlater, ⟨⟩⟩ := run_bind_eq_ok.1 hrun
  obtain ⟨hforM, rfl⟩ := run_lowerBlock_eq_ok.1 hb
  refine ⟨codes₁, t₁, t₂, hearlier, hforM, .mapM hlater, ?_⟩
  have hlength := length_of_mapM hearlier
  rw [h.blocks, hkept, getElem?_mapIdx, zip_append hlength.symm]
  rw [getElem?_append_right (by simp [hlength])]
  simp [hlength]

theorem exists_of_mem_blocks (h : Stages file f g s₀ s₁ codes edges) (htarget : target ∈ g.blocks) :
    ∃ earlier b later t₁ t₂, f.kept = earlier ++ b :: later ∧ s₀.Leads (earlier.flatMap Block.instrs) t₁ ∧
      (b.instrs.forM lowerInstr).run { t₁ with code := [] } = .ok ((), t₂) ∧ g.blocks[earlier.length]? = some target ∧
      target = ⟨earlier.length, b.label, t₂.code.map (fillPhi edges)⟩ := by
  obtain ⟨k, hk⟩ := mem_iff_getElem?.1 htarget
  have hlength : k < f.kept.length := by
    have := (List.getElem?_eq_some_iff.1 hk).1
    rw [h.blocks, length_mapIdx, length_zip] at this
    omega
  have hkept : f.kept = f.kept.take k ++ f.kept[k] :: f.kept.drop (k + 1) := by
    rw [getElem_cons_drop, take_append_drop]
  obtain ⟨codes₁, t₁, t₂, hearlier, hforM, -, hblock⟩ := h.exists_block hkept
  rw [length_take_of_le (Nat.le_of_lt hlength), hk] at hblock
  refine ⟨_, _, _, t₁, t₂, hkept, .mapM hearlier, hforM, ?_⟩
  rw [length_take_of_le (Nat.le_of_lt hlength)]
  exact ⟨hk, Option.some.inj hblock⟩

theorem exists_yields (h : Stages file f g s₀ s₁ codes edges) (htarget : target ∈ g.blocks) {j : IR.Instr}
    (hj : j ∈ target.code) : ∃ b ∈ f.kept, ∃ i ∈ b.instrs, ∃ n frame code k, s₀.nextVar ≤ n ∧
      s₀.dictionary.Yields n frame i.action code ∧ k ∈ code ∧ j = fillPhi edges k := by
  obtain ⟨earlier, b, later, t₁, t₂, hkept, hleads, hforM, -, rfl⟩ := h.exists_of_mem_blocks htarget
  obtain ⟨k, hk, rfl⟩ := mem_map.1 hj
  obtain hmem | ⟨i, hi, n, frame, code, hn, hyields, hmem⟩ := exists_of_mem_code hforM hk
  · cases hmem
  · have hyields : t₁.dictionary.Yields n frame i.action code := hyields
    rw [hleads.grows.dictionary] at hyields
    exact ⟨b, hkept ▸ mem_append_right _ mem_cons_self, i, hi, n, frame, code, k,
      Int.le_trans hleads.grows.nextVar hn, hyields, hmem, rfl⟩

end Stages

/-- What becomes of the instruction `i` behind the instructions `before` in the block after the blocks `earlier` when `f`
    is lowered to `g`: it is lowered in the scope `s` and leaves the scope `s'`, and its code goes into its block. -/
structure Lowered (file : String) (f : Function) (g : IR.Function) (earlier : List Block) (before : List Instr) (i : Instr)
    (s₀ s s' : Scope) : Prop where
  reached : (f.lowerUpTo earlier before).run (.start file f) = .ok ((), s)
  leads : s₀.Leads (earlier.flatMap Block.instrs ++ before) s
  lowered : (lowerInstr i).run s = .ok ((), s')
  slots : s'.slots <+: g.slots
  code : ∃ target edges tail, g.blocks[earlier.length]? = some target ∧ target.code = (s'.code ++ tail).map (fillPhi edges)

theorem Stages.exists_lowered (h : Stages file f g s₀ s₁ codes edges) (hkept : f.kept = earlier ++ b :: later)
    (hinstrs : b.instrs = before ++ i :: after) : ∃ s s', Lowered file f g earlier before i s₀ s s' := by
  obtain ⟨codes₁, t₁, t₂, hearlier, hforM, hlater, hblock⟩ := h.exists_block hkept
  rw [hinstrs] at hforM
  obtain ⟨s, hbefore, hforM⟩ := run_forM_append.1 hforM
  obtain ⟨_, s', hi, hafter⟩ := run_bind_eq_ok.1 hforM
  have hreached : (f.lowerUpTo earlier before).run (.start file f) = .ok ((), s) := by
    refine run_bind_eq_ok.2 ⟨_, s₀, h.prepared, run_bind_eq_ok.2 ⟨codes₁, t₁, hearlier, ?_⟩⟩
    exact run_bind_eq_ok.2 ⟨(), { t₁ with code := [] }, rfl, hbefore⟩
  refine ⟨s, s', hreached, leads_of_lowerUpTo h.prepared hreached, hi, ?_, ?_⟩
  · rw [h.slots]
    exact (Scope.Leads.forM hafter).grows.slots.trans hlater.grows.slots
  · obtain ⟨tail, htail⟩ := exists_of_forM hafter
    exact ⟨_, edges, tail, hblock, by rw [← htail]⟩

end RegisterCompiler.Llvm
