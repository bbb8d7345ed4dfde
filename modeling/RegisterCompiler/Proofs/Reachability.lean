import RegisterCompiler.Proofs.Declarations
import RegisterCompiler.Proofs.Lawful

/-!
# Reachable control flow

Of the blocks of a function those are lowered that control can reach from the first one. They are found label by label,
by the branch that a block ends with; here control goes from a block to another along any branch in it.
-/

namespace RegisterCompiler.Llvm

open Relation Success List

/-! ## Mirrored control flow -/

def Action.branches : Action → List String
  | .br target => [target]
  | .condBr _ t e => [t, e]
  | _ => []

namespace Function

variable (f : Function)

/-- Control may go from the block `b` to the block `c`. -/
def Branches (b c : Block) : Prop := c ∈ f.blocks ∧ ∃ i ∈ b.instrs, c.label ∈ i.action.branches

/-- Control can get from the first block to the block `b`. -/
def Reaches (b : Block) : Prop := ∃ first, f.blocks.head? = some first ∧ ReflTransGen f.Branches first b

def dictionary : Dictionary := ⟨f.valueVars.reverse, numbersFrom 0 f.kept⟩

end Function

/-- The code of instructions: the counterparts of those that have one, in their order, and code that helps, whose
    variables are numbered from `n` on. -/
inductive Dictionary.Renders (D : Dictionary) (n : IR.VarId) : (frame : List String) → List Instr → List IR.Instr → Prop
  | nil {frame : List String} : Renders D n frame [] []
  | silent {frame : List String} {i : Instr} {rest : List Instr} {aux code : List IR.Instr} :
      i.action.Silent frame → (∀ j ∈ aux, j.Helps n) → Renders D n (frameAfter frame [i]) rest code →
      Renders D n frame (i :: rest) (aux ++ code)
  | counterpart {frame : List String} {i : Instr} {rest : List Instr} {aux code : List IR.Instr} {main : IR.Instr} :
      D.Counterpart frame aux i.action main → (∀ j ∈ aux, j.Helps n) → Renders D n (frameAfter frame [i]) rest code →
      Renders D n frame (i :: rest) (aux ++ main :: code)

/-- The function `g` has the control flow of `f`, without what control cannot reach. -/
structure Function.Mirrors (f : Function) (g : IR.Function) : Prop where
  reaches : ∀ b, b ∈ f.kept ↔ f.Reaches b
  first : f.kept.head? = f.blocks.head?
  /-- The blocks are those that control can reach, in their order and with their labels. -/
  blocks : g.blocks.map (fun b => (b.label, b.id)) = numbersFrom 0 f.kept
  entry : g.entry = 0
  /-- A label stands for the block that has it. -/
  label : ∀ label id, f.dictionary.labels.lookup label = some id ↔ ∃ b ∈ g.blocks, b.label = label ∧ b.id = id
  code : ∀ earlier b later, f.kept = earlier ++ b :: later → ∃ code,
    g.blocks[earlier.length]? = some ⟨earlier.length, b.label, code⟩ ∧
      f.dictionary.Renders (1 + f.declarations.length) (frameAfter [] (earlier.flatMap Block.instrs)) b.instrs code
  /-- A phi has one edge for each block that control may come from. -/
  phi : ∀ b ∈ g.blocks, ∀ dest edges, .phi dest edges ∈ b.code → (edges.map IR.PhiEdge.pred).Nodup ∧
    ∀ id, id ∈ edges.map IR.PhiEdge.pred ↔ ∃ p, g.Edge p b ∧ p.id = id
  reached : ∃ first, g.blocks.head? = some first ∧ ∀ b ∈ g.blocks, ReflTransGen g.Edge first b

variable {file : String} {f : Function} {g : IR.Function} {s s' s₀ s₁ : Scope} {codes : List (List IR.Instr)}
  {edges : List (IR.VarId × List IR.PhiEdge)} {D : Dictionary} {n : IR.VarId} {frame : List String} {instrs : List Instr}
  {i : Instr} {code : List IR.Instr} {b : Block} {label : String}

/-! ## The search for labels -/

theorem subset_reachableFrom (fuel : Nat) (seen work : List String) : seen ⊆ reachableFrom f fuel seen work := by
  fun_induction reachableFrom f fuel seen work with
  | case1 | case2 => exact List.Subset.refl _
  | case3 _ _ _ _ _ ih => exact ih
  | case4 _ _ _ _ _ ih => exact List.Subset.trans (subset_cons_self _ _) ih

/-- What is handed on from labels to the targets of their branches is found of all labels only. -/
theorem forall_reachableFrom {P : String → Prop} (hP : ∀ label, P label → ∀ target ∈ f.targets label, P target)
    {fuel : Nat} {seen work : List String} (hseen : ∀ label ∈ seen, P label) (hwork : ∀ label ∈ work, P label) :
    ∀ label ∈ reachableFrom f fuel seen work, P label := by
  fun_induction reachableFrom f fuel seen work with
  | case1 | case2 => exact hseen
  | case3 fuel seen label work _ ih => exact ih hseen (forall_mem_cons.1 hwork).2
  | case4 fuel seen label work _ ih =>
    obtain ⟨hlabel, hwork⟩ := forall_mem_cons.1 hwork
    exact ih (forall_mem_cons.2 ⟨hlabel, hseen⟩) (forall_mem_append.2 ⟨hP label hlabel, hwork⟩)

theorem mem_branches_of_mem_targets (h : label ∈ b.targets) : ∃ i ∈ b.instrs, label ∈ i.action.branches := by
  unfold Block.targets at h
  cases hlast : b.instrs.getLast? with
  | none =>
    rw [hlast] at h
    cases h
  | some i =>
    rw [hlast] at h
    refine ⟨i, mem_of_getLast? hlast, ?_⟩
    obtain ⟨pos, action⟩ := i
    cases action with
    | br | condBr => exact h
    | _ => cases h

theorem mem_kept : b ∈ f.kept ↔ b ∈ f.blocks ∧ b.label ∈ f.reachable := by
  rw [Function.kept, mem_filter, decide_eq_true_iff]

theorem head_mem_kept (h : f.blocks.head? = some b) : b ∈ f.kept := by
  refine mem_kept.2 ⟨mem_of_head? h, ?_⟩
  rw [Function.reachable, h]
  show b.label ∈ reachableFrom f (_ + 1) [] [b.label]
  rw [reachableFrom, if_neg not_mem_nil]
  exact subset_reachableFrom _ _ _ mem_cons_self

theorem head?_kept (f : Function) : f.kept.head? = f.blocks.head? := by
  cases hblocks : f.blocks with
  | nil => rw [Function.kept, hblocks]; rfl
  | cons b rest =>
    have hb := head_mem_kept (f := f) (by rw [hblocks]; rfl)
    rw [Function.kept, hblocks, filter_cons_of_pos (by simpa using (mem_kept.1 hb).2)]
    rfl

theorem reaches_of_mem_kept (hlabels : (f.kept.map Block.label).Nodup) (h : b ∈ f.kept) : f.Reaches b := by
  obtain ⟨hb, hlabel⟩ := mem_kept.1 h
  refine forall_reachableFrom (P := fun label => ∀ b ∈ f.blocks, b.label = label → f.Reaches b) ?_
    (forall_mem_nil _) ?_ b.label hlabel b hb rfl
  · intro label hreaches target htarget c hc rfl
    -- The targets of a label are those of one of the blocks that have it.
    unfold Function.targets at htarget
    cases hfind : f.blocks.reverse.find? fun b => b.label == label && !b.targets.isEmpty with
    | none =>
      rw [hfind] at htarget
      cases htarget
    | some b =>
      rw [hfind] at htarget
      have hb := find?_some hfind
      have hlabel := (Bool.and_eq_true_iff.1 hb).1
      obtain ⟨first, hfirst, hpath⟩ :=
        hreaches b (mem_reverse.1 (mem_of_find?_eq_some hfind)) (eq_of_beq hlabel)
      exact ⟨first, hfirst, hpath.tail ⟨hc, mem_branches_of_mem_targets htarget⟩⟩
  · intro label hlabel c hc hlabel'
    obtain ⟨first, hfirst, rfl⟩ := Option.map_eq_some_iff.1 (Option.mem_toList.1 hlabel)
    have hkept := head_mem_kept hfirst
    have hc : c ∈ f.kept := mem_kept.2 ⟨hc, hlabel' ▸ (mem_kept.1 hkept).2⟩
    cases inj_on_of_nodup_map hlabels hc hkept hlabel'
    exact ⟨c, hfirst, .refl⟩

/-! ## Tables -/

theorem lookup_eq_some_iff_of_nodup {α β : Type} [BEq α] [LawfulBEq α] {l : List (α × β)} (h : (l.map Prod.fst).Nodup)
    {a : α} {b : β} : l.lookup a = some b ↔ (a, b) ∈ l := by
  induction l with
  | nil => simp
  | cons p l ih =>
    obtain ⟨hnew, hl⟩ := nodup_cons.1 h
    rw [lookup_cons, mem_cons]
    split
    · next heq =>
      cases eq_of_beq heq
      constructor
      · exact fun h => .inl (Prod.ext rfl (Option.some.inj h).symm)
      · rintro (hp | hmem)
        · exact congrArg some (congrArg Prod.snd hp).symm
        · exact absurd (mem_map_of_mem hmem) hnew
    · next hne =>
      rw [ih hl]
      refine ⟨.inr, fun h => h.resolve_left ?_⟩
      rintro rfl
      simp at hne

theorem numbersFrom_eq (id : IR.BlockId) (blocks : List Block) :
    numbersFrom id blocks = blocks.mapIdx fun k b => (b.label, id + k) := by
  induction blocks generalizing id with
  | nil => rfl
  | cons b rest ih => simp [numbersFrom, ih, mapIdx_cons, Int.add_assoc, Int.add_comm 1]

theorem map_fst_numbersFrom (id : IR.BlockId) (blocks : List Block) :
    (numbersFrom id blocks).map Prod.fst = blocks.map Block.label := by
  induction blocks generalizing id with
  | nil => rfl
  | cons b rest ih => simp [numbersFrom, ih]

theorem exists_of_mem_resultNames {name : String} (h : name ∈ f.resultNames) :
    ∃ v, f.dictionary.values.lookup name = some v ∧ (name, v) ∈ f.valueVars := by
  have hsome : (f.valueVars.reverse.lookup name).isSome := by
    rw [lookup_isSome_iff]
    have hmem : name ∈ f.valueVars.map Prod.fst := by
      rw [Function.valueVars, map_fst_variablesFrom, Function.declarations, map_append]
      exact mem_append_right _ h
    obtain ⟨p, hp, rfl⟩ := mem_map.1 hmem
    exact ⟨p, mem_reverse.2 hp, beq_self_eq_true _⟩
  obtain ⟨v, hv⟩ := Option.isSome_iff_exists.1 hsome
  obtain ⟨l, l', hall, -⟩ := lookup_eq_some_iff.1 hv
  exact ⟨v, hv, mem_reverse.1 (hall ▸ mem_append_right _ mem_cons_self)⟩

/-! ## Phis -/

/-- The name of the result of a phi. -/
def Action.phiName? : Action → Option String
  | .phi result _ _ => some result
  | _ => none

theorem phiNames_sublist (frame : List String) (instrs : List Instr) :
    (instrs.filterMap (·.action.phiName?)).Sublist ((declaredValues frame instrs).map Prod.fst) := by
  induction instrs generalizing frame with
  | nil => exact List.Sublist.refl _
  | cons i rest ih =>
    rw [declaredValues, map_append]
    cases hphi : i.action.phiName? with
    | none =>
      rw [filterMap_cons, hphi]
      exact (ih _).trans (sublist_append_right _ _)
    | some name =>
      rw [filterMap_cons, hphi]
      obtain ⟨pos, action⟩ := i
      cases action with
      | phi result type incoming =>
        cases hphi
        exact (ih _).cons_cons name
      | _ => cases hphi

theorem map_pending (D : Dictionary) (instrs : List Instr) : (instrs.filterMap D.pending?).map (·.dest.id) =
    (instrs.filterMap (·.action.phiName?)).map fun name => (D.result name).id := by
  rw [map_filterMap, map_filterMap]
  refine filterMap_congr fun i _ => ?_
  obtain ⟨pos, action⟩ := i
  cases action <;> rfl

theorem Function.Declared.nodup_pending (h : f.Declared) : ((f.instrs.filterMap f.dictionary.pending?).map (·.dest.id)).Nodup := by
  have hsub := phiNames_sublist [] f.instrs
  rw [map_pending]
  refine (h.nodup.sublist hsub).map_on fun name hname name' hname' hid => ?_
  obtain ⟨v, hv, hmem⟩ := exists_of_mem_resultNames (hsub.subset hname)
  obtain ⟨v', hv', hmem'⟩ := exists_of_mem_resultNames (hsub.subset hname')
  rw [Dictionary.result, Dictionary.result, hv, hv'] at hid
  exact congrArg Prod.fst (Function.eq_of_mem_valueVars hmem hmem' hid)

theorem exists_of_resolves {dropped : List String} {phis : List PendingPhi} {p : PendingPhi}
    (h : List.Forall₂ (D.Resolves dropped) phis edges) (hnodup : (phis.map (·.dest.id)).Nodup) (hp : p ∈ phis) :
    ∃ es, edges.lookup p.dest.id = some es ∧ List.Forall₂ (D.Supplies p.dest) (p.incoming.filter (·.pred ∉ dropped)) es := by
  induction h with
  | nil => cases hp
  | @cons q e phis edges hq _ ih =>
    obtain ⟨hnew, hnodup⟩ := nodup_cons.1 hnodup
    rw [lookup_cons]
    rcases mem_cons.1 hp with rfl | hp
    · rw [hq.1, beq_self_eq_true]
      exact ⟨e.2, rfl, hq.2⟩
    · have hne : (p.dest.id == e.1) = false :=
        beq_false_of_ne fun heq => hnew (mem_map.2 ⟨p, hp, heq.trans hq.1⟩)
      rw [hne]
      exact ih hnodup hp

/-! ## Instructions -/

theorem Dictionary.Yields.fill {a : Action} (h : D.Yields n frame a code)
    (hphi : ∀ result type incoming, a = .phi result type incoming →
      D.Feeds (D.result result) incoming ((edges.lookup (D.result result).id).getD [])) :
    (a.Silent frame ∧ ∀ j ∈ code.map (fillPhi edges), j.Helps n) ∨
      ∃ aux main, code.map (fillPhi edges) = aux ++ [main] ∧ D.Counterpart frame aux a main ∧ ∀ j ∈ aux, j.Helps n := by
  cases h with
  | silent hsilent hhelps =>
    rw [map_fillPhi_eq edges fun j hj => (hhelps j hj).isPhi]
    exact .inl ⟨hsilent, hhelps⟩
  | phi => exact .inr ⟨[], _, rfl, .phi (hphi _ _ _ rfl), forall_mem_nil _⟩
  | @counterpart _ aux main hhelps hmain hmainPhi =>
    refine .inr ⟨aux, main, map_fillPhi_eq edges ?_, hmain, hhelps⟩
    exact forall_mem_append.2 ⟨fun j hj => (hhelps j hj).isPhi, forall_mem_singleton.2 hmainPhi⟩

theorem exists_renders (h : (instrs.forM lowerInstr).run s = .ok ((), s')) (hn : n ≤ s.nextVar)
    (hphi : ∀ i ∈ instrs, ∀ result type incoming, i.action = .phi result type incoming →
      s.dictionary.Feeds (s.dictionary.result result) incoming ((edges.lookup (s.dictionary.result result).id).getD [])) :
    ∃ code, s'.code = s.code ++ code ∧ s.dictionary.Renders n s.frame instrs (code.map (fillPhi edges)) := by
  induction instrs generalizing s with
  | nil =>
    cases h
    exact ⟨[], (append_nil _).symm, .nil⟩
  | cons i rest ih =>
    obtain ⟨_, s₁, hi, h⟩ := run_bind_eq_ok.1 h
    obtain ⟨hphi, hphis⟩ := forall_mem_cons.1 hphi
    have hframe := (Scope.Leads.instr .refl hi).grows.frame
    have hi := lowers_lowerInstr hi
    rw [← hi.dictionary] at hphis
    obtain ⟨code, hcode, hyields⟩ := hi.code
    obtain ⟨code', hcode', hrest⟩ := ih h (Int.le_trans hn hi.nextVar) hphis
    rw [hi.dictionary, hframe] at hrest
    refine ⟨code ++ code', by rw [hcode', hcode, append_assoc], ?_⟩
    rw [map_append]
    rcases hyields.fill hphi with ⟨hsilent, hhelps⟩ | ⟨aux, main, heq, hmain, hhelps⟩
    · exact .silent hsilent (fun j hj => (hhelps j hj).mono hn) hrest
    · rw [heq, append_assoc]
      exact .counterpart hmain (fun j hj => (hhelps j hj).mono hn) hrest

theorem Dictionary.Renders.exists_successor (h : D.Renders n frame instrs code) (hi : i ∈ instrs)
    (hlabel : label ∈ i.action.branches) : ∃ id, D.labels.lookup label = some id ∧ ∃ j ∈ code, id ∈ j.successors := by
  induction h with
  | nil => cases hi
  | @silent frame k rest aux code hsilent _ _ ih =>
    rcases mem_cons.1 hi with rfl | hi
    · obtain ⟨pos, action⟩ := i
      cases action with
      | br | condBr => exact hsilent.elim
      | _ => cases hlabel
    · obtain ⟨id, hid, j, hj, hsucc⟩ := ih hi
      exact ⟨id, hid, j, mem_append_right _ hj, hsucc⟩
  | @counterpart frame k rest aux code main hmain _ _ ih =>
    rcases mem_cons.1 hi with rfl | hi
    · obtain ⟨pos, action⟩ := i
      cases hmain with
      | br hid =>
        cases mem_singleton.1 hlabel
        exact ⟨_, hid, _, mem_append_right _ mem_cons_self, mem_cons_self⟩
      | condBr _ ht he =>
        rcases mem_pair.1 hlabel with rfl | rfl
        · exact ⟨_, ht, _, mem_append_right _ mem_cons_self, IR.Instr.mem_successors_branch.2 (.inl rfl)⟩
        · exact ⟨_, he, _, mem_append_right _ mem_cons_self, IR.Instr.mem_successors_branch.2 (.inr rfl)⟩
      | _ => cases hlabel
    · obtain ⟨id, hid, j, hj, hsucc⟩ := ih hi
      exact ⟨id, hid, j, mem_append_right _ (mem_cons_of_mem _ hj), hsucc⟩

/-! ## Functions -/

namespace Stages

variable {id : IR.BlockId}

variable (h : Stages file f g s₀ s₁ codes edges)
include h

theorem dictionary_eq : s₀.dictionary = f.dictionary ∧ s₁.dictionary = f.dictionary := by
  have h₀ : s₀.dictionary = f.dictionary := by
    rw [(eq_of_prepare h.prepared).1]
    rfl
  exact ⟨h₀, (Scope.Leads.mapM h.lowered).grows.dictionary.trans h₀⟩

theorem lookup_label : f.dictionary.labels.lookup label = some id ↔ (label, id) ∈ numbersFrom 0 f.kept := by
  refine lookup_eq_some_iff_of_nodup ?_
  rw [Function.dictionary, map_fst_numbersFrom]
  exact (eq_of_prepare h.prepared).2.2.labels

theorem exists_of_lookup_label (hid : f.dictionary.labels.lookup label = some id) : ∃ b ∈ f.kept, b.label = label := by
  have hmem := mem_map_of_mem (f := Prod.fst) (h.lookup_label.1 hid)
  rw [map_fst_numbersFrom] at hmem
  exact mem_map.1 hmem

/-- A phi gets its edges: those from blocks that are kept. -/
theorem feeds (hi : i ∈ f.instrs) {result : String} {type : Ty} {incoming : List Incoming}
    (haction : i.action = .phi result type incoming) :
    f.dictionary.Feeds (f.dictionary.result result) incoming ((edges.lookup (f.dictionary.result result).id).getD []) := by
  obtain ⟨h₀, h₁⟩ := h.dictionary_eq
  have hphis : s₁.phis = f.instrs.filterMap f.dictionary.pending? := by
    rw [(Scope.Leads.mapM h.lowered).grows.phis, h₀, (eq_of_prepare h.prepared).1]
    rfl
  have hresolved := h.resolved
  rw [hphis, h₁] at hresolved
  have hmem : ⟨i.pos, f.dictionary.result result, incoming⟩ ∈ f.instrs.filterMap f.dictionary.pending? :=
    mem_filterMap.2 ⟨i, hi, by rw [Dictionary.pending?, haction]⟩
  obtain ⟨es, hes, hsupplies⟩ := exists_of_resolves hresolved (eq_of_prepare h.prepared).2.2.nodup_pending hmem
  rw [hes, Option.getD_some, Dictionary.Feeds]
  have hfilter : incoming.filter (fun i => (f.dictionary.labels.lookup i.pred).isSome) =
      incoming.filter (·.pred ∉ f.dropped) := by
    refine filter_congr fun i hi => Bool.eq_iff_iff.2 ?_
    rw [decide_eq_true_iff]
    constructor
    · intro hsome hdropped
      -- The label of a block that was dropped would have been found, and that of one that was kept has been.
      obtain ⟨id, hid⟩ := Option.isSome_iff_exists.1 hsome
      obtain ⟨b, hb, hlabel⟩ := h.exists_of_lookup_label hid
      obtain ⟨c, hc, hlabel'⟩ := mem_map.1 hdropped
      have hfound := (mem_kept.1 hb).2
      rw [hlabel, ← hlabel'] at hfound
      simp [hfound] at hc
    · intro hkept
      have hmem : i ∈ incoming.filter (·.pred ∉ f.dropped) := mem_filter.2 ⟨hi, decide_eq_true hkept⟩
      obtain ⟨e, -, he⟩ := Success.exists_of_mem_left hsupplies hmem
      cases he with
      | const hid | value hid => rw [hid]; rfl
  rw [hfilter]
  exact hsupplies

theorem map_blocks : g.blocks.map (fun b => (b.label, b.id)) = numbersFrom 0 f.kept := by
  have hkept : (f.kept.zip codes).map Prod.fst = f.kept := map_fst_zip (length_of_mapM h.lowered).ge
  have hnumbers : numbersFrom 0 f.kept = ((f.kept.zip codes).map Prod.fst).mapIdx fun k b => (b.label, 0 + (k : Int)) := by
    rw [hkept, numbersFrom_eq]
  rw [hnumbers, h.blocks]
  refine ext_getElem? fun k => ?_
  simp [Function.comp_def]

theorem renders {earlier later : List Block} (hkept : f.kept = earlier ++ b :: later) :
    ∃ code, g.blocks[earlier.length]? = some ⟨earlier.length, b.label, code⟩ ∧
      f.dictionary.Renders (1 + f.declarations.length) (frameAfter [] (earlier.flatMap Block.instrs)) b.instrs code := by
  obtain ⟨codes₁, t₁, t₂, hearlier, hforM, -, hblock⟩ := h.exists_block hkept
  have hgrows := (Scope.Leads.mapM hearlier).grows
  have hdictionary : t₁.dictionary = f.dictionary := hgrows.dictionary.trans h.dictionary_eq.1
  obtain ⟨rfl, -, -⟩ := eq_of_prepare h.prepared
  have hphi : ∀ i ∈ b.instrs, ∀ result type incoming, i.action = .phi result type incoming → t₁.dictionary.Feeds
      (t₁.dictionary.result result) incoming ((edges.lookup (t₁.dictionary.result result).id).getD []) := by
    intro i hi result type incoming haction
    rw [hdictionary]
    refine h.feeds (mem_flatMap.2 ⟨b, ?_, hi⟩) haction
    exact hkept ▸ mem_append_right _ mem_cons_self
  obtain ⟨code, hcode, hrenders⟩ := exists_renders hforM hgrows.nextVar hphi
  refine ⟨_, hblock, ?_⟩
  rw [hcode]
  have hrenders : t₁.dictionary.Renders _ t₁.frame b.instrs (code.map (fillPhi edges)) := hrenders
  rwa [hdictionary, hgrows.frame] at hrenders

theorem exists_edge {b c : Block} (hb : b ∈ f.kept) (hbranches : f.Branches b c) :
    c ∈ f.kept ∧ ∀ target ∈ g.blocks, target.label = b.label → ∃ next, g.Edge target next ∧ next.label = c.label := by
  obtain ⟨earlier, later, hkept⟩ := append_of_mem hb
  obtain ⟨hc, i, hi, hlabel⟩ := hbranches
  obtain ⟨code, hblock, hrenders⟩ := h.renders hkept
  obtain ⟨id, hid, j, hj, hsucc⟩ := hrenders.exists_successor hi hlabel
  obtain ⟨c', hc', hlabel'⟩ := h.exists_of_lookup_label hid
  refine ⟨mem_kept.2 ⟨hc, hlabel' ▸ (mem_kept.1 hc').2⟩, fun target htarget heq => ?_⟩
  have hmem := mem_of_getElem? hblock
  cases inj_on_of_nodup_map h.wellFormed.labels htarget hmem heq
  obtain ⟨next, hnext, rfl, hleads⟩ := h.wellFormed.exists_of_mem_successors hmem hj hsucc
  refine ⟨next, IR.Function.edge_iff.2 ⟨hmem, hnext, hleads⟩, ?_⟩
  -- Blocks with the same number have the same label.
  rw [h.lookup_label, ← h.map_blocks] at hid
  obtain ⟨next', hnext', heq'⟩ := mem_map.1 hid
  cases h.wellFormed.eq_of_id_eq hnext hnext' (congrArg Prod.snd heq').symm
  exact congrArg Prod.fst heq'

/-- Where control goes in the function, it goes in the lowered one. -/
theorem exists_path {first c : Block} {entry : IR.Block} (hentry : g.blocks.head? = some entry)
    (hfirst : f.blocks.head? = some first) (hpath : ReflTransGen f.Branches first c) :
    c ∈ f.kept ∧ ∃ target ∈ g.blocks, target.label = c.label ∧ ReflTransGen g.Edge entry target := by
  induction hpath with
  | refl =>
    obtain ⟨later, hkept⟩ := head?_eq_some_iff.1 ((head?_kept f).trans hfirst)
    have hkept : f.kept = [] ++ first :: later := hkept
    obtain ⟨code, hblock, -⟩ := h.renders hkept
    rw [length_nil, ← head?_eq_getElem?, hentry] at hblock
    cases hblock
    exact ⟨head_mem_kept hfirst, _, mem_of_head? hentry, rfl, .refl⟩
  | tail _ hbranches ih =>
    obtain ⟨hb, target, htarget, hlabel, hpath⟩ := ih
    obtain ⟨hc, hedge⟩ := h.exists_edge hb hbranches
    obtain ⟨next, hedge, hlabel⟩ := hedge target htarget hlabel
    exact ⟨hc, next, hedge.target, hlabel, hpath.tail hedge⟩

end Stages

/-- A lowered function has the blocks that control can reach, in their order and with their labels, the first being the
    entry. Their branches lead to the blocks of the same labels, all their instructions that take one have their
    counterparts, and the phis have their values for the blocks that are left. -/
theorem mirrors_of_lower (h : f.lower file = .ok g) : f.Mirrors g := by
  obtain ⟨s₀, s₁, codes, edges, h⟩ := exists_stages h
  obtain ⟨entry, rest, hblocks⟩ := exists_cons_of_ne_nil h.wellFormed.lawful.nonempty
  have hentry : g.blocks.head? = some entry := by
    rw [hblocks]
    rfl
  have hreaches : ∀ b, b ∈ f.kept ↔ f.Reaches b := by
    refine fun b => ⟨reaches_of_mem_kept (eq_of_prepare h.prepared).2.2.labels, ?_⟩
    rintro ⟨first, hfirst, hpath⟩
    exact (h.exists_path hentry hfirst hpath).1
  refine ⟨hreaches, head?_kept f, h.map_blocks, h.entry, fun label id => ?_, fun earlier b later => h.renders,
    h.wellFormed.lawful.phiEdges, entry, hentry, fun b hb => ?_⟩
  · rw [h.lookup_label, ← h.map_blocks]
    simp
  · have hmem : (b.label, b.id) ∈ numbersFrom 0 f.kept := h.map_blocks ▸ mem_map_of_mem hb
    obtain ⟨c, hc, hlabel⟩ := h.exists_of_lookup_label (h.lookup_label.2 hmem)
    obtain ⟨first, hfirst, hpath⟩ := (hreaches c).1 hc
    obtain ⟨-, target, htarget, hlabel', hpath⟩ := h.exists_path hentry hfirst hpath
    rwa [inj_on_of_nodup_map h.wellFormed.labels hb htarget (hlabel.symm.trans hlabel'.symm)]

theorem mirrors_filling : Declarations.filling.lower "" = .ok Declarations.fillingCode ∧
    Declarations.filling.Mirrors Declarations.fillingCode ∧
    Declarations.filling.kept = [Declarations.fillingEntry, Declarations.fillingLoop, Declarations.fillingExit] :=
  ⟨Declarations.lower_filling, mirrors_of_lower Declarations.lower_filling, by decide +kernel⟩

end RegisterCompiler.Llvm
