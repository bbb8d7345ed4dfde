import RegisterCompiler.Proofs.Declarations
import RegisterCompiler.Proofs.Displacement

/-!
# Addresses

An address computation on an address in the frame gives another one. It has room for one index: where there are more, that
of the base among them, code adds them up. On any other address, code adds the displacement to it.
-/

namespace RegisterCompiler.Llvm

open Success List

variable {s s' s'' : Scope} {a a' : IR.Activation} {o x y : IR.Operand} {v dest : IR.Var} {name result : String}
  {ref folded : IR.SlotRef} {pos : Pos} {type element : Ty} {base : Value} {indices : List TypedValue} {offset : Int64}
  {t : Term} {terms : List Term} {z : IR.Operand}

/-! ## In the frame -/

/-- The code from `s` to `s'` makes an offset and terms the offset and the index of `folded`, an address in the same frame
    variable as `ref`. -/
structure Scope.Folds (s s' : Scope) (ref : IR.SlotRef) (offset : Int64) (terms : List Term) (folded : IR.SlotRef) :
    Prop where
  slot : folded.slot = ref.slot
  index : ∀ o, folded.index = some o → s'.Reads o
  runs : ∀ a start, s.Suits a → a.slotBase ref.slot = .ok start → ∃ a', s.Runs s' a a' ∧
    a'.slotAddress folded = .ok (start + ref.offset + offset + (terms.map (Term.word a)).sum)

namespace Scope.Folds

theorem nil (s : Scope) (hindex : ref.index = none) :
    s.Folds s ref offset [] { ref with offset := ref.offset + offset } where
  slot := rfl
  index o ho := absurd (hindex.symm.trans ho) (Option.some_ne_none o).symm
  runs a start _ hstart := by
    refine ⟨a, .refl s a, Eq.trans (slotAddress_of_slotBase hstart) ?_⟩
    simp [termsOf, hindex, Int64.add_assoc]

theorem single (ht : s.Reads t.index) :
    s.Folds s ref offset [t] { ref with offset := ref.offset + offset, index := some t.index, scale := t.scale } where
  slot := rfl
  index _ ho := Option.some.inj ho ▸ ht
  runs a start ha hstart := by
    refine ⟨a, .refl s a, Eq.trans (slotAddress_of_slotBase hstart) ?_⟩
    simp [termsOf, Term.word, ht.canonical ha, Int64.add_assoc]

theorem sum {word : IR.Activation → Int64} (h : s.Computes s' o word) (hword : ∀ a, word a = (terms.map (Term.word a)).sum) :
    s.Folds s' ref offset terms { ref with offset := ref.offset + offset, index := some o, scale := 1 } where
  slot := rfl
  index _ ho := Option.some.inj ho ▸ h.reads
  runs a start ha hstart := by
    obtain ⟨a', hruns, hread⟩ := h.runs a
    have hstart' : a'.slotBase ref.slot = .ok start := by rwa [IR.Activation.slotBase, hruns.agrees.slots]
    refine ⟨a', hruns, Eq.trans (slotAddress_of_slotBase hstart') ?_⟩
    simp [termsOf, hread, hword, Int64.add_assoc]

end Scope.Folds

theorem computes_sum {t : Term} {others : List Term} {sum : IR.Operand} (hterms : ∀ t' ∈ t :: others, s.Reads t'.index)
    (hfirst : (termValue t).run s = .ok (o, s')) (hothers : (addTerms o others).run s' = .ok (sum, s'')) :
    s.Computes s'' sum (fun a => ((t :: others).map (Term.word a)).sum) := by
  obtain ⟨ht, hrest⟩ := forall_mem_cons.1 hterms
  have hterm := computes_termValue ht hfirst
  have hemits := (adding_termValue t).emits hfirst
  refine hterm.trans (computes_addTerms hterm.reads hterm.width (fun t ht => (hrest t ht).mono hemits) hothers)
    hemits.nextVar fun a a' ha hread => ?_
  rw [hread, map_word_eq hrest ha, map_cons, sum_cons]

/-- In the frame, the index of the base is one more term. -/
theorem folds_foldRef (hs : s.Sound) (href : (name, ref) ∈ s.addresses) (hterms : ∀ t ∈ terms, s.Reads t.index)
    (h : (foldRef ref offset terms).run s = .ok (folded, s')) : s.Folds s' ref offset (termsOf ref ++ terms) folded := by
  have hall : ∀ t ∈ termsOf ref ++ terms, s.Reads t.index := by
    refine forall_mem_append.2 ⟨fun t ht => ?_, hterms⟩
    obtain ⟨x, hx, rfl⟩ := Option.map_eq_some_iff.1 (Option.mem_toList.1 ht)
    exact hs.index _ href x hx
  unfold foldRef at h
  split at h
  · next hnil =>
    cases h
    obtain ⟨hindex, rfl⟩ := append_eq_nil_iff.1 hnil
    rw [hnil]
    exact .nil s (by simpa [termsOf] using hindex)
  · next t hsingle =>
    cases h
    rw [hsingle] at hall ⊢
    exact .single (hall t mem_cons_self)
  · next t others _ hmany =>
    obtain ⟨first, s₁, hfirst, h⟩ := run_bind_eq_ok.1 h
    obtain ⟨sum, _, hsum, ⟨⟩⟩ := run_bind_eq_ok.1 h
    rw [hmany] at hall ⊢
    exact .sum (computes_sum hall hfirst hsum) fun a => rfl

/-! ## Outside the frame -/

/-- The code from `s` to `s'` computes two words whose sum is that of the operand `x`, an offset and terms. -/
structure Scope.Totals (s s' : Scope) (x : IR.Operand) (offset : Int64) (terms : List Term) (y z : IR.Operand) : Prop where
  width : y.width = .w64
  runs : ∀ a, ∃ a', s.Runs s' a a' ∧ a'.read y + a'.read z = a.read x + (offset + (terms.map (Term.word a)).sum)

namespace Scope.Totals

variable {delta : IR.Operand}

theorem nil (s : Scope) (hx : x.width = .w64) : s.Totals s x offset [] x (.const offset .w64) :=
  ⟨hx, fun a => ⟨a, .refl s a, by simp [read_const_w64]⟩⟩

variable (hx : x.width = .w64) (hread : ∀ a a' : IR.Activation, a.Agrees s.nextVar a' → a'.read x = a.read x)
  (h : s.Computes s' delta (fun a => (terms.map (Term.word a)).sum))
include hx hread h

theorem of_sum : s.Totals s' x 0 terms x delta := by
  refine ⟨hx, fun a => ?_⟩
  obtain ⟨a', hruns, hdelta⟩ := h.runs a
  refine ⟨a', hruns, ?_⟩
  rw [hdelta, hread a a' hruns.agrees, Int64.zero_add]

theorem of_offset (hnext : s.nextVar ≤ s'.nextVar) (hadd : (emitWide .add x (.const offset .w64)).run s' = .ok (y, s'')) :
    s.Totals s'' x offset terms y delta := by
  have hy := computes_emitWide eval_add_w64 hx hadd
  refine ⟨hy.width, fun a => ?_⟩
  obtain ⟨a', hruns, hdelta⟩ := h.runs a
  obtain ⟨a'', hruns', hsum⟩ := hy.runs a'
  refine ⟨a'', hruns.trans hruns' hnext, ?_⟩
  rw [hsum, h.reads.read_eq hruns'.agrees, hdelta, hread a a' hruns.agrees, read_const_w64]
  exact Int64.add_assoc _ _ _

end Scope.Totals

/-- Outside of the frame, the terms are added up, and the offset goes to the base. -/
theorem totals_totalParts (hx : x.width = .w64)
    (hread : ∀ a a' : IR.Activation, a.Agrees s.nextVar a' → a'.read x = a.read x)
    (hterms : ∀ t ∈ terms, s.Reads t.index) (h : (totalParts x offset terms).run s = .ok ((y, z), s')) :
    s.Totals s' x offset terms y z := by
  cases terms with
  | nil =>
    cases h
    exact .nil s hx
  | cons t others =>
    obtain ⟨first, s₁, hfirst, h⟩ := run_bind_eq_ok.1 h
    obtain ⟨delta, s₂, hdelta, h⟩ := run_bind_eq_ok.1 h
    have hsum := computes_sum hterms hfirst hdelta
    dsimp only at h
    split at h
    · obtain ⟨y, s₃, hy, ⟨⟩⟩ := run_bind_eq_ok.1 h
      have hemits := ((adding_termValue t).emits hfirst).trans ((adding_addTerms _ _).emits hdelta)
      exact .of_offset hx hread hsum hemits.nextVar hy
    · next hoffset =>
      obtain ⟨_, _, ⟨⟩, ⟨⟩⟩ := run_bind_eq_ok.1 h
      cases not_not.1 hoffset
      exact .of_sum hx hread hsum

/-! ## Address computations -/

/-- What an address computation makes of the name of its result: an address in the frame, or a variable. -/
inductive Scope.Binds (s s' : Scope) (result : String) : Carrier → Prop
  | slot {ref : IR.SlotRef} : s'.addresses = (result, ref) :: s.addresses → Binds s s' result (.slot ref)
  | var {v : IR.Var} : s'.addresses = s.addresses → s'.values.lookup result = some v → v.width = .w64 →
      Binds s s' result (.var v)

/-- The code `body` takes the activation `a` to `a'`, in which the address `x` stands for the result, by `k`. Nothing else
    that there was is different. -/
structure Scope.Locates (s : Scope) (base : Value) (indices : List TypedValue) (k : Carrier) (body : List IR.Instr)
    (a a' : IR.Activation) (start : Int64) (counts : List Int64) (x : Int64) : Prop where
  base : s.Denotes a base start
  indices : List.Forall₂ (s.Counts a) indices counts
  performs : a.Performs body a'
  word : k.word a' = .ok x
  eq : a' = { a with env := a'.env }
  env : ∀ id < s.nextVar, (∀ v, k = .var v → v.id ≠ id) → a'.env.getD id 0 = a.env.getD id 0

theorem locates_frame (hs : s.Sound) (hsplits : s.Splits s' element indices (offset, terms)) (hemits : s.Emits s')
    (href : s'.addresses.lookup name = some ref) (hfolds : s'.Folds s'' ref offset (termsOf ref ++ terms) folded)
    (ha : s.Suits a) : ∃ body a' start counts, s''.code = s.code ++ body ∧
      s.Locates (.localName name) indices (.slot folded) body a a' start counts (start + element.words counts) := by
  obtain ⟨a₁, ks, hruns, hcounts, hwords⟩ := hsplits.runs a ha
  have ha₁ := ha.mono hs hruns.agrees hemits
  obtain ⟨start, hstart, hword⟩ := (hs.mono hemits).exists_slotAddress ha₁ (Scope.mem_addresses_of_lookup href)
  have hdenotes := (Scope.Denotes.localName (Scope.carrier?_eq_slot.2 href) hword).of_emits hs hruns.agrees hemits
  obtain ⟨a₂, hruns', hfolded⟩ := hfolds.runs a₁ start ha₁ hstart
  obtain ⟨body, hcode, hperforms, hagrees⟩ := hruns.trans hruns' hemits.nextVar
  refine ⟨body, a₂, _, ks, hcode, hdenotes, hcounts, hperforms, hfolded.trans (congrArg Except.ok ?_), hagrees.eq,
    fun id hid _ => hagrees.env id hid⟩
  rw [← hwords, map_append, sum_append]
  dsimp only
  grind

theorem locates_value {s₁ s₂ s₃ : Scope} (hs : s.Sound) (hsplits : s.Splits s₁ element indices (offset, terms))
    (hemits : s.Emits s₁) (hx : (operand pos base .ptr).run s₁ = .ok (x, s₂))
    (htotals : s₂.Totals s₃ x offset terms y z) (hdest : dest.width = .w64) (ha : s.Suits a) :
    ∃ body a' start counts, s₃.code ++ [.binop .add dest (some y) (some z)] = s.code ++ body ∧
      s.Locates base indices (.var dest) body a a' start counts (start + element.words counts) := by
  have hresolves := resolves_of_operand hx
  have hemits' := (adding_operand _ _ _).emits hx
  obtain ⟨a₁, ks, hruns, hcounts, hwords⟩ := hsplits.runs a ha
  obtain ⟨a₂, start, hruns', hstart, hread⟩ :=
    hresolves.exists_denotes (hs.mono hemits) (ha.mono hs hruns.agrees hemits)
  have hdenotes := hstart.of_emits hs hruns.agrees hemits
  obtain ⟨a₃, hruns'', hsum⟩ := htotals.runs a₂
  have hword : a₃.read y + a₃.read z = start + element.words ks := by
    rw [hsum, hread, ← hwords, map_word_eq hsplits.reads hruns'.agrees]
  have hadd : a₃.Performs [.binop .add dest (some y) (some z)] (a₃.assign dest (a₃.read y + a₃.read z)) := by
    refine .binop ?_
    rw [hdest]
    exact eval_add_w64 _ _
  obtain ⟨body, hcode, hperforms, hagrees⟩ := hruns.trans (hruns'.trans hruns'' hemits'.nextVar) hemits.nextVar
  refine ⟨body ++ [.binop .add dest (some y) (some z)], a₃.assign dest (a₃.read y + a₃.read z), start, ks, ?_, hdenotes,
    hcounts, hperforms.append hadd, ?_, ?_, fun id hid hne => ?_⟩
  · rw [hcode, append_assoc]
  · exact congrArg Except.ok ((IR.Activation.read_assign_self ..).trans hword)
  · exact congrArg (fun b : IR.Activation => { b with env := (a₃.assign dest (a₃.read y + a₃.read z)).env }) hagrees.eq
  · exact (IR.Activation.getD_assign_of_ne (hne dest rfl)).trans (hagrees.env id hid)

theorem totals_of_operand {s₁ s₂ s₃ : Scope} (hs : s.Sound) (hsplits : s.Splits s₁ element indices (offset, terms))
    (hemits : s.Emits s₁) (hx : (operand pos base .ptr).run s₁ = .ok (x, s₂))
    (htotal : (totalParts x offset terms).run s₂ = .ok ((y, z), s₃)) : s₂.Totals s₃ x offset terms y z := by
  have hresolves := resolves_of_operand hx
  exact totals_totalParts hresolves.width_ptr (fun a a' ha => hresolves.read_eq (hs.mono hemits) ha)
    (fun t ht => (hsplits.reads t ht).mono ((adding_operand _ _ _).emits hx)) htotal

/-- The result of an address computation has a place: in the frame, with its base, or in a variable as wide as a word. -/
def Scope.Hosts (s : Scope) (base : Value) (result : String) : Prop :=
  (∃ name ref, base = .localName name ∧ s.addresses.lookup name = some ref) ∨
    ∃ dest, s.values.lookup result = some dest ∧ dest.width = .w64

theorem hosts_of_lowerGep (hs : s.Sound)
    (hfits : ∀ dest y z, .binop .add dest (some y) z ∈ s'.code → y.width = dest.width)
    (h : (lowerGep pos result element base indices).run s = .ok ((), s')) : s.Hosts base result := by
  obtain ⟨offset, terms, s₁, hparts, hcomputed⟩ := exists_of_lowerGep h
  have hemits := (adding_addressParts _ _ _).emits hparts
  rcases hcomputed with ⟨name, ref, folded, s₂, rfl, href, hfold, rfl⟩ | ⟨x, y, z, s₂, s₃, -, hx, htotal, rfl⟩
  · rw [hemits.addresses] at href
    exact .inl ⟨name, ref, rfl, href⟩
  · have hemits' := hemits.trans (((adding_operand _ _ _).emits hx).trans ((adding_totalParts _ _ _).emits htotal))
    have hwidth := hfits _ _ _ (mem_append_right _ mem_cons_self)
    rw [(totals_of_operand hs (splits_addressParts hs hparts) hemits hx htotal).width, hemits'.values] at hwidth
    -- An undeclared result would have no width.
    cases hlookup : s.values.lookup result with
    | none =>
      rw [hlookup] at hwidth
      cases hwidth
    | some dest =>
      rw [hlookup] at hwidth
      exact .inr ⟨dest, hlookup, hwidth.symm⟩

/-- An address computation computes its address, and binds the name of its result to it. -/
theorem exists_locates (hs : s.Sound) (hhosts : s.Hosts base result)
    (h : (lowerGep pos result element base indices).run s = .ok ((), s')) :
    ∃ k body, s.Binds s' result k ∧ s'.code = s.code ++ body ∧
      ∀ a, s.Suits a → ∃ a' start counts,
        s.Locates base indices k body a a' start counts (start + element.words counts) := by
  obtain ⟨offset, terms, s₁, hparts, hcomputed⟩ := exists_of_lowerGep h
  have hsplits := splits_addressParts hs hparts
  have hemits := (adding_addressParts _ _ _).emits hparts
  obtain ⟨body, hbody, -⟩ := (lowers_lowerGep h).code
  -- The code is the same for all activations.
  have huniform : ∀ k a, (∃ body' a' start counts, s'.code = s.code ++ body' ∧
      s.Locates base indices k body' a a' start counts (start + element.words counts)) →
      ∃ a' start counts, s.Locates base indices k body a a' start counts (start + element.words counts) := by
    rintro k a ⟨body', a', start, counts, hcode, hlocates⟩
    obtain rfl := append_cancel_left (hbody.symm.trans hcode)
    exact ⟨a', start, counts, hlocates⟩
  rcases hcomputed with ⟨name, ref, folded, s₂, rfl, href, hfold, rfl⟩ | ⟨x, y, z, s₂, s₃, hnone, hx, htotal, rfl⟩
  · have hfolds := folds_foldRef (hs.mono hemits) (Scope.mem_addresses_of_lookup href) hsplits.reads hfold
    refine ⟨.slot folded, body, .slot ?_, hbody, fun a ha => ?_⟩
    · rw [((adding_foldRef _ _ _).emits hfold).addresses, hemits.addresses]
    · have hlocates := locates_frame hs hsplits hemits href hfolds ha
      exact huniform _ a hlocates
  · have hemits' := hemits.trans (((adding_operand _ _ _).emits hx).trans ((adding_totalParts _ _ _).emits htotal))
    obtain ⟨dest, hlookup, hwidth⟩ : ∃ dest, s₃.values.lookup result = some dest ∧ dest.width = .w64 := by
      rw [hemits'.values]
      refine hhosts.resolve_left ?_
      rintro ⟨name, ref, rfl, href⟩
      rw [← hemits.addresses, hnone name rfl] at href
      cases href
    rw [hlookup, Option.getD_some] at huniform hbody
    refine ⟨.var dest, body, .var hemits'.addresses hlookup hwidth, ?_, fun a ha => ?_⟩
    · rw [hlookup]
      exact hbody
    · exact huniform _ a (locates_value hs hsplits hemits hx (totals_of_operand hs hsplits hemits hx htotal) hwidth ha)

/-! ## Scopes of a function -/

namespace Scope

variable {count : Int64}

theorem exists_of_lowerAlloca (h : (lowerAlloca pos result type count).run s = .ok ((), s')) :
    ∃ w, (flattened count type).2.width? = some w ∧
      s' = { s with
        slots := s.slots ++ [⟨s.slots.length, result, (flattened count type).1, w⟩]
        addresses := (result, ⟨s.slots.length, none, 0, 0⟩) :: s.addresses } := by
  obtain ⟨w, _, hrun, h⟩ := run_bind_eq_ok.1 h
  obtain ⟨hw, rfl⟩ := run_widthOf_eq_ok.1 hrun
  cases (run_ite_obstruct_eq_ok.1 h).2
  exact ⟨w, hw, rfl⟩

theorem Sound.lowerAlloca (hs : s.Sound) (h : (lowerAlloca pos result type count).run s = .ok ((), s')) : s'.Sound := by
  obtain ⟨w, -, rfl⟩ := exists_of_lowerAlloca h
  refine ⟨hs.lt, forall_mem_cons.2 ⟨?_, fun p hp => ?_⟩, forall_mem_cons.2 ⟨fun o ho => ?_, hs.index⟩⟩
  · simp
  · obtain ⟨hnonneg, hlt⟩ := hs.slot p hp
    refine ⟨hnonneg, Int.lt_trans hlt ?_⟩
    simp
  · cases ho

theorem Sound.lowerInstr {i : Instr} (hs : s.Sound) (h : (lowerInstr i).run s = .ok ((), s')) : s'.Sound := by
  have hemits : i.action.pointer? = none → s'.Sound := fun hnone => hs.mono ((lowers_lowerInstr h).emits hnone)
  obtain ⟨pos, action⟩ := i
  cases action with
  | alloca result type count => exact hs.lowerAlloca h
  | gep result element base indices =>
    obtain ⟨offset, terms, s₁, hparts, hcomputed⟩ := exists_of_lowerGep h
    have hs₁ := hs.mono ((adding_addressParts _ _ _).emits hparts)
    rcases hcomputed with ⟨name, ref, folded, s₂, rfl, href, hfold, rfl⟩ | ⟨x, y, z, s₂, s₃, -, hx, htotal, rfl⟩
    · have href := mem_addresses_of_lookup href
      have hfolds := folds_foldRef hs₁ href (splits_addressParts hs hparts).reads hfold
      have hemits := (adding_foldRef _ _ _).emits hfold
      have hs₂ := hs₁.mono hemits
      refine ⟨hs₂.lt, forall_mem_cons.2 ⟨?_, hs₂.slot⟩, forall_mem_cons.2 ⟨hfolds.index, hs₂.index⟩⟩
      dsimp only
      rw [hfolds.slot, hemits.slots]
      exact hs₁.slot _ href
    · have hs₃ := (hs₁.mono ((adding_operand _ _ _).emits hx)).mono ((adding_totalParts _ _ _).emits htotal)
      exact ⟨hs₃.lt, hs₃.slot, hs₃.index⟩
  | _ => exact hemits rfl

theorem Leads.sound {instrs : List Instr} (h : s.Leads instrs s') (hs : s.Sound) : s'.Sound := by
  induction h with
  | refl => exact hs
  | instr _ hrun ih => exact ih.lowerInstr hrun
  | block _ ih => exact ⟨ih.lt, ih.slot, ih.index⟩

end Scope

section

variable {file : String} {f : Function} {g : IR.Function} {s₀ s₁ : Scope} {codes : List (List IR.Instr)}
  {edges : List (IR.VarId × List IR.PhiEdge)}

namespace Stages

variable (h : Stages file f g s₀ s₁ codes edges)
include h

theorem sound : s₀.Sound := by
  obtain ⟨rfl, -, -⟩ := eq_of_prepare h.prepared
  refine ⟨fun v hv => ?_, forall_mem_nil _, forall_mem_nil _⟩
  obtain ⟨p, hp, rfl⟩ := mem_map.1 hv
  exact Function.id_lt_of_mem_valueVars (mem_reverse.1 hp)

/-- In a run, activations of the function have values of the right widths and room for the frame variables. -/
theorem suits {m : IR.Module} {maxDepth : Int} {memory : Memory} {name : String} {args : List Int64} {c : IR.Config}
    {instrs : List Instr} (hleads : s₀.Leads instrs s) (hslots : s.slots <+: g.slots) (hm : m.Verified)
    (hmemory : memory.size < 2 ^ 63) (hvisits : m.Visits maxDepth memory name args c)
    (hfunction : c.active.function = g) : s.Suits c.active := by
  subst hfunction
  have hplace := (hvisits.inPlace hm hmemory).active
  refine ⟨fun v hv => ?_, hplace.slots ▸ hslots.length_le⟩
  rw [Scope.vars, hleads.grows.values, (eq_of_prepare h.prepared).1] at hv
  obtain ⟨p, hp, rfl⟩ := mem_map.1 hv
  refine (hvisits.admits hm hmemory).isCanonical_getD fun u hu hid => ?_
  rw [h.eq_of_id_eq hu (mem_reverse.1 hp) hid]

theorem hosts {earlier : List Block} {before : List Instr}
    (hlowered : Lowered file f g earlier before ⟨pos, .gep result element base indices⟩ s₀ s s') :
    s.Hosts base result := by
  obtain ⟨target, edges', tail, htarget, hcode⟩ := hlowered.code
  refine hosts_of_lowerGep (hlowered.leads.sound h.sound) (fun dest y z hmem => ?_) hlowered.lowered
  have hmem : .binop .add dest (some y) z ∈ target.code := by
    rw [hcode]
    exact mem_map.2 ⟨_, mem_append_left tail hmem, rfl⟩
  exact Option.some.inj (h.wellFormed.fits target (mem_of_getElem? htarget) _ hmem).1

end Stages

end

/-! ## Uses of addresses -/

/-- Every use of a name in the scope `t` means the address `x`: where the name is loaded from or stored to, and where it is
    an operand. -/
structure Scope.Refers (t : Scope) (name : String) (a : IR.Activation) (x : Int64) : Prop where
  reference : ∀ pos, ∃ r, (address pos (.localName name)).run t = .ok (r, t) ∧ a.address (some r) = .ok x
  operand : ∀ pos, ∃ o t' a', (operand pos (.localName name) .ptr).run t = .ok (o, t') ∧ t.Runs t' a a' ∧ a'.read o = x

namespace Scope

theorem refers_of_carrier? {t : Scope} {k : Carrier} {x : Int64} (hk : t.carrier? name = some k)
    (hwidth : ∀ v, k = .var v → v.width = .w64) (hword : k.word a = .ok x) : t.Refers name a x := by
  cases k with
  | slot ref =>
    have href := carrier?_eq_slot.1 hk
    refine ⟨fun pos => ⟨.slot ref, ?_, hword⟩, fun pos => ⟨.var ⟨t.nextVar, .w64⟩, t.adding .w64 (.slotAddr · ref), ?_⟩⟩
    · refine run_bind_eq_ok.2 ⟨some ref, t, ?_, rfl⟩
      exact run_bind_eq_ok.2 ⟨t, t, rfl, congrArg (fun found => Except.ok (found, t)) href⟩
    · refine ⟨_, ?_, .adding (.slotAddr hword), IR.Activation.read_assign_self ..⟩
      refine run_bind_eq_ok.2 ⟨.w64, t, rfl, run_bind_eq_ok.2 ⟨t, t, rfl, ?_⟩⟩
      dsimp only
      rw [href]
      rfl
  | var v =>
    have hoperand : ∀ pos, (Llvm.operand pos (.localName name) .ptr).run t = .ok (.var v, t) := fun pos =>
      run_operand_var hk (congrArg some (hwidth v rfl).symm)
    refine ⟨fun pos => ⟨.pointer (some (.var v)) 0, ?_, ?_⟩, fun pos => ⟨.var v, t, a, hoperand pos, .refl t a, ?_⟩⟩
    · refine run_bind_eq_ok.2 ⟨none, t, ?_, run_bind_eq_ok.2 ⟨.var v, t, hoperand pos, rfl⟩⟩
      exact run_bind_eq_ok.2 ⟨t, t, rfl, congrArg (fun found => Except.ok (found, t)) (carrier?_eq_var.1 hk).1⟩
    · exact congrArg Except.ok ((Int64.add_zero _).trans (Except.ok.inj hword))
    · exact Except.ok.inj hword

theorem Leads.carrier?_eq {instrs : List Instr} (h : s.Leads instrs s') (hname : name ∉ pointers instrs) :
    s'.carrier? name = s.carrier? name := by
  obtain ⟨new, haddresses, hnew⟩ := h.grows.addresses
  have hnone : new.lookup name = none := by
    refine lookup_eq_none_iff.2 fun p hp => bne_iff_ne.2 ?_
    rintro rfl
    exact hname (hnew p hp)
  rw [carrier?, carrier?, h.grows.values, haddresses, lookup_append, hnone, Option.none_or]

/-- The name of a frame variable means its place in the frame, until the name is taken again. -/
theorem Leads.exists_slot {instrs instrs' : List Instr} {count : Int64}
    (h : s.Leads (instrs ++ ⟨pos, .alloca name type count⟩ :: instrs') s') (hname : name ∉ pointers instrs') :
    ∃ slot ∈ s'.slots, slot.name = name ∧ slot.count = (flattened count type).1 ∧
      (flattened count type).2.width? = some slot.element ∧
      ∀ a x, a.slotBase slot.id = .ok x → s'.Denotes a (.localName name) x := by
  obtain ⟨t, t', -, hrun, hleads⟩ := h.exists_run
  obtain ⟨w, hw, rfl⟩ := exists_of_lowerAlloca hrun
  refine ⟨_, hleads.grows.slots.subset (mem_append_right _ mem_cons_self), rfl, rfl, hw, fun a x hx => ?_⟩
  refine .localName ((hleads.carrier?_eq hname).trans (carrier?_eq_slot.2 List.lookup_cons_self)) ?_
  refine Eq.trans (slotAddress_of_slotBase hx) ?_
  simp [termsOf]

namespace Binds

variable {k : Carrier}

theorem width (h : s.Binds s' result k) : ∀ v, k = .var v → v.width = .w64 := by
  rintro v rfl
  cases h with
  | var haddresses hlookup hwidth => exact hwidth

/-- The name of a result means the result, unless an address in the frame has the same name and hides it. -/
theorem carrier?_eq_iff (h : s.Binds s' result k) :
    s'.carrier? result = some k ↔ (∃ ref, k = .slot ref) ∨ s.addresses.lookup result = none := by
  cases h with
  | slot haddresses =>
    refine iff_of_true (carrier?_eq_slot.2 ?_) (.inl ⟨_, rfl⟩)
    rw [haddresses, List.lookup_cons_self]
  | var haddresses hlookup hwidth =>
    rw [carrier?_eq_var, haddresses]
    simp [hlookup]

end Binds

end Scope

/-! ## Functions -/

/-- What becomes of an address computation behind the instructions `before` in the block after the blocks `earlier` of `f`.
    It is lowered in the scope `s` to the code `body`, leaves the scope `s'`, and `k` stands for its result. -/
structure Addressed (file : String) (f : Function) (g : IR.Function) (earlier : List Block) (before : List Instr) (pos : Pos)
    (result : String) (element : Ty) (base : Value) (indices : List TypedValue) (s s' : Scope) (k : Carrier)
    (body : List IR.Instr) : Prop where
  reached : (f.lowerUpTo earlier before).run (.start file f) = .ok ((), s)
  lowered : (lowerInstr ⟨pos, .gep result element base indices⟩).run s = .ok ((), s')
  /-- The code is in the block, at the place of the computation. -/
  placed : ∃ target head tail, g.blocks[earlier.length]? = some target ∧ target.code = head ++ body ++ tail ∧
    head.length = s.code.length
  /-- Every index counts in a type. -/
  length : indices.length ≤ element.levels.length
  /-- The name of a frame variable means its place in the frame, until the name is taken again. -/
  grounded : ∀ (instrs instrs' : List Instr) (p : Pos) (name : String) (type : Ty) (count : Int64),
    earlier.flatMap Block.instrs ++ before = instrs ++ ⟨p, .alloca name type count⟩ :: instrs' → name ∉ pointers instrs' →
    ∃ slot ∈ g.slots, slot.name = name ∧ slot.count = (flattened count type).1 ∧
      (flattened count type).2.width? = some slot.element ∧
      ∀ a x, a.slotBase slot.id = .ok x → s.Denotes a (.localName name) x
  /-- The name of the result means the result, unless an address in the frame has the same name and hides it. -/
  named : s'.carrier? result = some k ↔ (∃ ref, k = .slot ref) ∨ s.addresses.lookup result = none
  /-- It keeps its meaning until it is taken again. -/
  kept : ∀ (instrs : List Instr) (t : Scope), s'.Leads instrs t → result ∉ pointers instrs →
    t.carrier? result = s'.carrier? result
  /-- A result that is a variable has its name all over the function. -/
  declared : ∀ (v : IR.Var) (earlier' : List Block) (before' : List Instr) (t : Scope), k = .var v →
    (f.lowerUpTo earlier' before').run (.start file f) = .ok ((), t) → t.addresses.lookup result = none →
    t.carrier? result = some k
  /-- In every activation of every run the code computes the address of the base plus the displacement by the indices.
      Where the name means the result, its uses mean this address, as long as the operand that it depends on keeps its
      value. -/
  located : ∀ (m : IR.Module) (maxDepth : Int) (memory : Memory) (name : String) (args : List Int64) (c : IR.Config),
    m.Verified → memory.size < 2 ^ 63 → m.Visits maxDepth memory name args c → c.active.function = g →
    ∃ a start counts x, s.Locates base indices k body c.active a start counts x ∧
      x = Int64.ofInt (start.toInt + element.displacement (counts.map Int64.toInt)) ∧
      ∀ (t : Scope) (a' : IR.Activation), t.carrier? result = some k → a'.slots = a.slots →
        (∀ o, k.Mentions o → a'.read o = a.read o) → t.Refers result a' x

section

variable {file : String} {f : Function} {g : IR.Function} {earlier later : List Block} {b : Block} {before after : List Instr}

theorem Scope.exists_suits (s : Scope) : ∃ a, s.Suits a := by
  refine ⟨⟨default, ∅, List.replicate s.slots.length 0, 0, default, default, []⟩, fun v _ => ?_, ?_⟩
  · rw [Std.ExtTreeMap.getD_empty]
    exact v.width.isCanonical_zero
  · rw [length_replicate]

/-- An address computation of a function that can be lowered gives the address of its base plus the displacement by its
    indices, if the bits of the integers that it counts in can be rounded up to bytes. -/
theorem gep_address (hlower : f.lower file = .ok g) (hkept : f.kept = earlier ++ b :: later)
    (hinstrs : b.instrs = before ++ ⟨pos, .gep result element base indices⟩ :: after) (hsized : element.Sized) :
    ∃ s s' k body, Addressed file f g earlier before pos result element base indices s s' k body := by
  obtain ⟨s₀, s₁, codes, edges, hstages⟩ := exists_stages hlower
  obtain ⟨s, s', hlowered⟩ := hstages.exists_lowered hkept hinstrs
  have hs := hlowered.leads.sound hstages.sound
  obtain ⟨target, edges', tail, htarget, hcode⟩ := hlowered.code
  obtain ⟨k, body, hbinds, hbody, hlocates⟩ := exists_locates hs (hstages.hosts hlowered) hlowered.lowered
  have hslots := (Scope.Leads.instr .refl hlowered.lowered).grows.slots.trans hlowered.slots
  refine ⟨s, s', k, body, hlowered.reached, hlowered.lowered, ?_, ?_, ?_, hbinds.carrier?_eq_iff,
    fun instrs t hleads hname => hleads.carrier?_eq hname, ?_, ?_⟩
  · obtain ⟨a, ha⟩ := s.exists_suits
    obtain ⟨_, _, _, hlocated⟩ := hlocates a ha
    refine ⟨target, s.code.map (fillPhi edges'), tail.map (fillPhi edges'), htarget, ?_, length_map _⟩
    rw [hcode, hbody, map_append, map_append, map_fillPhi_eq edges' hlocated.performs.isPhi]
  · obtain ⟨_, _, _, hparts, -⟩ := exists_of_lowerGep hlowered.lowered
    exact (splits_addressParts hs hparts).length
  · intro instrs instrs' p name type count hall hname
    obtain ⟨slot, hslot, hrest⟩ := (hall ▸ hlowered.leads).exists_slot hname
    exact ⟨slot, hslots.subset hslot, hrest⟩
  · rintro v earlier' before' t rfl hreached hnone
    have hvalues := (leads_of_lowerUpTo hstages.prepared hreached).grows.values
    have hvalues' := (hlowered.leads.instr hlowered.lowered).grows.values
    cases hbinds with
    | var haddresses hlookup hwidth =>
      rw [hvalues', ← hvalues] at hlookup
      exact Scope.carrier?_eq_var.2 ⟨hnone, hlookup⟩
  · intro m maxDepth memory name args c hm hmemory hvisits hfunction
    have hsuits := hstages.suits hlowered.leads hslots hm hmemory hvisits hfunction
    obtain ⟨a, start, counts, hlocated⟩ := hlocates c.active hsuits
    refine ⟨a, start, counts, _, hlocated, ?_, fun t a' hk ha' hread => ?_⟩
    · rw [Int64.ofInt_add, Int64.ofInt_toInt, Ty.words_eq_ofInt hsized]
    · exact Scope.refers_of_carrier? hk hbinds.width ((Carrier.word_eq ha' hread).trans hlocated.word)

end

/-! ## An array of arrays, and two addresses that go wrong -/

namespace Addresses

def row : Ty := .array 4 (.int 32)

def nestedBefore : List Instr := [
  ⟨default, .alloca "a" (.array 2 row) 1⟩,
  ⟨default, .gep "p" row (.localName "a") [⟨.int 64, .localName "j"⟩]⟩]

def nestedIndices : List TypedValue := [⟨.int 64, .const 1⟩, ⟨.int 32, .localName "i"⟩]

def nestedBlock : Block := ⟨default, "entry",
  nestedBefore ++ ⟨default, .gep "q" row (.localName "p") nestedIndices⟩ :: [⟨default, .ret (some ⟨.ptr, .localName "q"⟩)⟩]⟩

/-- The address of an element of an array of arrays in the frame, in two steps. -/
def nested : Function where
  pos := default
  name := "f"
  result := .ptr
  params := [⟨.int 64, "j"⟩, ⟨.int 32, "i"⟩]
  blocks := [nestedBlock]

/-- The second step finds an index in its base and adds its own to it. -/
def nestedCode : IR.Function where
  name := "f"
  params := [⟨1, .w64⟩, ⟨2, .w32⟩]
  result := .w64
  blocks := [⟨0, "entry", [
    .binop .mul ⟨3, .w64⟩ (some (.var ⟨1, .w64⟩)) (some (.imm 16 .w64)),
    .cast .sext ⟨4, .w64⟩ (some (.var ⟨2, .w32⟩)),
    .binop .mul ⟨5, .w64⟩ (some (.var ⟨4, .w64⟩)) (some (.imm 4 .w64)),
    .binop .add ⟨6, .w64⟩ (some (.var ⟨3, .w64⟩)) (some (.var ⟨5, .w64⟩)),
    .slotAddr ⟨7, .w64⟩ ⟨0, some (.var ⟨6, .w64⟩), 1, 16⟩,
    .ret (some (.var ⟨7, .w64⟩))]⟩]
  entry := 0
  slots := [⟨0, "a", 8, .w32⟩]

theorem lower_nested : nested.lower "" = .ok nestedCode := by cbv

theorem verified_nested : (⟨[nestedCode]⟩ : IR.Module).Verified := by
  obtain ⟨_, _, _, _, hstages⟩ := exists_stages lower_nested
  refine ⟨forall_mem_singleton.2 hstages.wellFormed, forall_mem_singleton.2 (forall_mem_singleton.2 ?_)⟩
  intro op dest x y hmem
  simp only [mem_cons, IR.Instr.binop.injEq, reduceCtorEq, not_mem_nil, or_false, false_or] at hmem
  rcases hmem with ⟨rfl, -⟩ | ⟨rfl, -⟩ | ⟨rfl, -⟩ <;> decide

theorem gep_address_nested : nested.lower "" = .ok nestedCode ∧ nested.kept = [] ++ nestedBlock :: [] ∧
    nestedBlock.instrs = nestedBefore ++ ⟨default, .gep "q" row (.localName "p") nestedIndices⟩ ::
      [⟨default, .ret (some ⟨.ptr, .localName "q"⟩)⟩] ∧ row.Sized ∧
    ∃ s s' k body, Addressed "" nested nestedCode [] nestedBefore default "q" row (.localName "p") nestedIndices s s' k body ∧
      ∃ c a start counts x, (⟨[nestedCode]⟩ : IR.Module).Visits 9 ⟨64, ∅⟩ "f" [1, -2] c ∧
        s.Locates (.localName "p") nestedIndices k body c.active a start counts x ∧
        x = Int64.ofInt (start.toInt + row.displacement (counts.map Int64.toInt)) := by
  have hkept : nested.kept = [] ++ nestedBlock :: [] := by decide +kernel
  have hinstrs : nestedBlock.instrs = nestedBefore ++ ⟨default, .gep "q" row (.localName "p") nestedIndices⟩ ::
      [⟨default, .ret (some ⟨.ptr, .localName "q"⟩)⟩] := rfl
  have hsized : row.Sized := ⟨by decide, by decide⟩
  obtain ⟨s, s', k, body, haddressed⟩ := gep_address lower_nested hkept hinstrs hsized
  refine ⟨lower_nested, hkept, hinstrs, hsized, s, s', k, body, haddressed, ?_⟩
  obtain ⟨active, henter, hfunction⟩ : ∃ active, (⟨[nestedCode]⟩ : IR.Module).enter 9 0 64 "f" [1, -2] = .ok active ∧
      active.function = nestedCode := ⟨_, rfl, rfl⟩
  have hvisits : (⟨[nestedCode]⟩ : IR.Module).Visits 9 ⟨64, ∅⟩ "f" [1, -2] ⟨active, [], ⟨64, ∅⟩, 0⟩ := .start henter
  obtain ⟨a, start, counts, x, hlocates, hx, -⟩ :=
    haddressed.located _ _ _ _ _ _ verified_nested (by decide) hvisits hfunction
  exact ⟨_, a, start, counts, x, hvisits, hlocates, hx⟩

def second (before : List Instr) (element : Ty) : Function where
  pos := default
  name := "f"
  result := .ptr
  params := [⟨.ptr, "p"⟩]
  blocks := [⟨default, "entry", before ++ [
    ⟨default, .gep "q" element (.localName "p") [⟨.int 64, .const 1⟩]⟩,
    ⟨default, .ret (some ⟨.ptr, .localName "q"⟩)⟩]⟩]

def called (f : Function) (args : List Int64) : Option Int64 := do
  let g ← (f.lower "").toOption
  ((⟨[g]⟩ : IR.Module).eval { maxSteps := 9 } ⟨64, ∅⟩ f.name args).result.toOption

/-- Integers that are too large get a wrong size, and a frame variable with the name of the result is taken for it. -/
theorem called_ne_displacement :
    called (second [] (.int 9223372036854775807)) [0] = some (-1152921504606846975) ∧
      Int64.ofInt (0 + (Ty.int 9223372036854775807).displacement [1]) = 1152921504606846976 ∧
      called (second [⟨default, .alloca "q" (.int 64) 1⟩] (.int 64)) [0] = some 48 ∧
      Int64.ofInt (0 + (Ty.int 64).displacement [1]) = 8 := by
  refine ⟨by decide +kernel, by decide, by decide +kernel, by decide⟩

end Addresses

end RegisterCompiler.Llvm
