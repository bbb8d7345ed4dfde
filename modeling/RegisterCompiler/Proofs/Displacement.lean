import RegisterCompiler.Proofs.Straight

/-!
# Displacements

An address computation starts from an address and adds to it, for each index, the index times the size of the type that
it counts in. Constant indices go into an offset, and of the variable ones there remain terms, each an index and the size
that it is to be multiplied by.
-/

namespace RegisterCompiler.Llvm

open Success List

/-! ## Sizes of types -/

namespace Ty

/-- The bytes that a value of a type takes in memory. -/
def byteSize : Ty → Int
  | void | label => 0
  | int bits => (bits.toInt + 7) / 8
  | ptr => 8
  | array length element => length.toInt * element.byteSize

/-- The types that the indices of an address computation count in, one after the other. -/
def levels : Ty → List Ty
  | array length element => array length element :: element.levels
  | type => [type]

/-- The bits of the integers of a type can be rounded up to bytes without leaving the words. -/
def Sized : Ty → Prop
  | int bits => 0 < bits ∧ bits.toInt + 7 < 2 ^ 63
  | array _ element => element.Sized
  | void | ptr | label => True

/-- How far indices lead away from an address: each by its own value times the bytes of the type that it counts in. -/
def displacement (type : Ty) (indices : List Int) : Int :=
  (List.zipWith (fun k level => k * level.byteSize) indices type.levels).sum

/-- The displacement as it is computed, in words. -/
def words (type : Ty) (indices : List Int64) : Int64 :=
  (List.zipWith (fun k level => k * level.size) indices type.levels).sum

variable {type : Ty}

theorem size_eq_ofInt (h : type.Sized) : type.size = Int64.ofInt type.byteSize := by
  induction type with
  | void | label | ptr => rfl
  | array length element ih => rw [size, byteSize, Int64.ofInt_mul, Int64.ofInt_toInt, ih h]
  | int bits =>
    obtain ⟨hpos, hlt⟩ := h
    have hpos : 0 < bits.toInt := Int64.lt_iff_toInt_lt.1 hpos
    have hsum : (bits + 7).toInt = bits.toInt + 7 := toInt_add_of_bounds (by simp; omega) (by simpa using hlt)
    rw [size, byteSize, ← Int64.toInt_inj, Int64.toInt_div, Int64.toInt_ofInt, hsum,
      Int.tdiv_eq_ediv_of_nonneg (by omega)]
    rfl

theorem sized_of_mem_levels (h : type.Sized) {level : Ty} (hlevel : level ∈ type.levels) : level.Sized := by
  induction type with
  | array length element ih =>
    rcases mem_cons.1 hlevel with rfl | hlevel
    · exact h
    · exact ih h hlevel
  | void | label | ptr | int bits => exact mem_singleton.1 hlevel ▸ h

theorem words_eq_ofInt (h : type.Sized) (indices : List Int64) :
    type.words indices = Int64.ofInt (type.displacement (indices.map Int64.toInt)) := by
  have hall : ∀ level ∈ type.levels, level.Sized := fun level hlevel => sized_of_mem_levels h hlevel
  unfold words displacement
  generalize type.levels = levels at hall
  induction levels generalizing indices with
  | nil => simp
  | cons level levels ih =>
    obtain ⟨hlevel, hall⟩ := forall_mem_cons.1 hall
    cases indices with
    | nil => rfl
    | cons k indices =>
      rw [map_cons, zipWith_cons_cons, zipWith_cons_cons, sum_cons, sum_cons, Int64.ofInt_add,
        Int64.ofInt_mul, Int64.ofInt_toInt, ← size_eq_ofInt hlevel, ih indices hall]

end Ty

/-! ## Meaning of names -/

/-- What a name is worth in an activation. -/
def Carrier.word (a : IR.Activation) : Carrier → Except IR.EvalCause Int64
  | slot ref => a.slotAddress ref
  | var v => .ok (a.env.getD v.id 0)

def Carrier.Mentions (o : IR.Operand) : Carrier → Prop
  | slot ref => ref.index = some o
  | var v => o = .var v

namespace Scope

/-- What an operand is worth as an address. -/
inductive Denotes (s : Scope) (a : IR.Activation) : Value → Int64 → Prop
  | const (c : Int64) : Denotes s a (.const c) c
  | localName {name : String} {k : Carrier} {x : Int64} : s.carrier? name = some k → k.word a = .ok x →
      Denotes s a (.localName name) x

/-- What an index counts: a constant counts as it is written, a variable by its value with the sign of its width. -/
inductive Counts (s : Scope) (a : IR.Activation) : TypedValue → Int64 → Prop
  | const (type : Ty) (c : Int64) : Counts s a ⟨type, .const c⟩ c
  | slot {type : Ty} {name : String} {ref : IR.SlotRef} {x : Int64} : s.carrier? name = some (.slot ref) →
      a.slotAddress ref = .ok x → Counts s a ⟨type, .localName name⟩ x
  | var {type : Ty} {name : String} {v : IR.Var} : s.carrier? name = some (.var v) → type.width? = some v.width →
      Counts s a ⟨type, .localName name⟩ (v.width.canonical (a.env.getD v.id 0))

/-- A variable that code may refer to: it has been handed out, and is that of a value or as wide as a word. -/
def Reads (s : Scope) (o : IR.Operand) : Prop :=
  ∃ v, o = .var v ∧ v.id < s.nextVar ∧ (v ∈ s.vars ∨ v.width = .w64)

/-- The addresses in the frame lead to frame variables, by variables that code may refer to. -/
structure Sound (s : Scope) : Prop where
  lt : ∀ v ∈ s.vars, v.id < s.nextVar
  slot : ∀ p ∈ s.addresses, 0 ≤ p.2.slot ∧ p.2.slot < s.slots.length
  index : ∀ p ∈ s.addresses, ∀ o, p.2.index = some o → s.Reads o

/-- An activation has values of the right widths for the values, and room for the frame variables. -/
structure Suits (s : Scope) (a : IR.Activation) : Prop where
  canonical : ∀ v ∈ s.vars, v.width.IsCanonical (a.env.getD v.id 0)
  slots : s.slots.length ≤ a.slots.length

/-- The code from `s` to `s'` computes the operand `o`, a word that depends on the activation in which it begins. -/
structure Computes (s s' : Scope) (o : IR.Operand) (word : IR.Activation → Int64) : Prop where
  reads : s'.Reads o
  width : o.width = .w64
  runs : ∀ a, ∃ a', s.Runs s' a a' ∧ a'.read o = word a

end Scope

def Term.word (a : IR.Activation) (t : Term) : Int64 := t.index.width.canonical (a.read t.index) * t.scale

variable {s s' s'' : Scope} {a a' : IR.Activation} {o x : IR.Operand} {v : IR.Var} {name : String} {ref : IR.SlotRef}
  {pos : Pos} {type : Ty} {k : Carrier}

namespace Scope

theorem mem_addresses_of_lookup (h : s.addresses.lookup name = some ref) : (name, ref) ∈ s.addresses := by
  obtain ⟨l, l', heq, -⟩ := lookup_eq_some_iff.1 h
  simp [heq]

theorem Reads.mono (h : s.Reads o) (hemits : s.Emits s') : s'.Reads o := by
  obtain ⟨v, rfl, hlt, hv⟩ := h
  refine ⟨v, rfl, Int.lt_of_lt_of_le hlt hemits.nextVar, ?_⟩
  rwa [vars, hemits.values]

/-- Code that is added changes nothing that may be referred to. -/
theorem Reads.read_eq (h : s.Reads o) (ha : a.Agrees s.nextVar a') : a'.read o = a.read o := by
  obtain ⟨v, rfl, hlt, -⟩ := h
  exact ha.env v.id hlt

theorem Reads.canonical (h : s.Reads o) (ha : s.Suits a) : o.width.canonical (a.read o) = a.read o := by
  obtain ⟨v, rfl, -, hv | hv⟩ := h
  · exact ha.canonical v hv
  · show v.width.canonical _ = _
    rw [hv]
    exact Width.canonical_w64 _

theorem Sound.mono (h : s.Sound) (hemits : s.Emits s') : s'.Sound := by
  refine ⟨fun v hv => ?_, fun p hp => ?_, fun p hp o ho => ?_⟩
  · rw [vars, hemits.values] at hv
    exact Int.lt_of_lt_of_le (h.lt v hv) hemits.nextVar
  · rw [hemits.addresses] at hp
    rw [hemits.slots]
    exact h.slot p hp
  · rw [hemits.addresses] at hp
    exact (h.index p hp o ho).mono hemits

theorem Suits.mono (h : s.Suits a) (hs : s.Sound) (ha : a.Agrees s.nextVar a') (hemits : s.Emits s') : s'.Suits a' := by
  refine ⟨fun v hv => ?_, by rw [hemits.slots, ha.slots]; exact h.slots⟩
  rw [vars, hemits.values] at hv
  rw [ha.env v.id (hs.lt v hv)]
  exact h.canonical v hv

end Scope

theorem slotAddress_of_slotBase {base : Int64} (h : a.slotBase ref.slot = .ok base) : a.slotAddress ref =
    .ok (base + ref.offset + ((termsOf ref).map fun t => a.read t.index * t.scale).sum) := by
  unfold IR.Activation.slotAddress termsOf
  rw [h]
  cases ref.index with
  | none =>
    show Except.ok (base + ref.offset) = _
    simp
  | some x =>
    show (a.value (some x) >>= fun y => Pure.pure (base + ref.offset + y * ref.scale)) = _
    rw [IR.Activation.value_some]
    show Except.ok (base + ref.offset + a.read x * ref.scale) = _
    simp

namespace Scope

/-- An address in the frame of an activation is that of a frame variable, plus the offset and the variable part. -/
theorem Sound.exists_slotAddress (hs : s.Sound) (ha : s.Suits a) (href : (name, ref) ∈ s.addresses) :
    ∃ base, a.slotBase ref.slot = .ok base ∧
      a.slotAddress ref = .ok (base + ref.offset + ((termsOf ref).map (Term.word a)).sum) := by
  obtain ⟨hnonneg, hlt⟩ := hs.slot _ href
  have hlength : ref.slot.toNat < a.slots.length :=
    Nat.lt_of_lt_of_le ((Int.toNat_lt hnonneg).2 hlt) ha.slots
  have hbase : a.slotBase ref.slot = .ok a.slots[ref.slot.toNat] := by
    simp [IR.Activation.slotBase, Int.not_lt.2 hnonneg, hlength]
  refine ⟨_, hbase, (slotAddress_of_slotBase hbase).trans ?_⟩
  -- The index is held in the form of its width.
  have hword : ∀ t ∈ termsOf ref, a.read t.index * t.scale = t.word a := fun t ht => by
    obtain ⟨x, hx, rfl⟩ := Option.map_eq_some_iff.1 (Option.mem_toList.1 ht)
    rw [Term.word, (hs.index _ href x hx).canonical ha]
  rw [map_congr_left hword]

end Scope

theorem read_const_w64 (a : IR.Activation) (c : Int64) : a.read (.const c .w64) = c := by
  simp [IR.Activation.read, IR.Operand.const, Width.canonical_w64]

namespace Scope.Resolves

variable {value : Value}

theorem reads (h : s.Resolves (.localName name) type o s') (hs : s.Sound) : s'.Reads o := by
  cases h with
  | slot href => exact ⟨_, rfl, Int.lt_succ _, .inr rfl⟩
  | var hv =>
    have hmem := Scope.mem_vars_of_lookup (Scope.carrier?_eq_var.1 hv).2
    exact ⟨_, rfl, hs.lt _ hmem, .inl hmem⟩

theorem read_eq (h : s.Resolves value type o s') (hs : s.Sound) (ha : a.Agrees s'.nextVar a') :
    a'.read o = a.read o := by
  cases h with
  | const c => rfl
  | slot href => exact ha.env _ (Int.lt_succ _)
  | var hv => exact ha.env _ (hs.lt _ (Scope.mem_vars_of_lookup (Scope.carrier?_eq_var.1 hv).2))

theorem width_ptr (h : s.Resolves value .ptr o s') : o.width = .w64 := by
  cases h with
  | slot href => rfl
  | const _ hw | var _ hw => exact (Option.some.inj hw).symm

theorem exists_denotes (h : s.Resolves value .ptr o s') (hs : s.Sound) (ha : s.Suits a) :
    ∃ a' word, s.Runs s' a a' ∧ s.Denotes a value word ∧ a'.read o = word := by
  cases h with
  | const c hw =>
    cases hw
    exact ⟨a, c, .refl s a, .const c, read_const_w64 a c⟩
  | slot href =>
    obtain ⟨base, -, hword⟩ := hs.exists_slotAddress ha (Scope.mem_addresses_of_lookup (Scope.carrier?_eq_slot.1 href))
    exact ⟨_, _, .adding (.slotAddr hword), .localName href hword, IR.Activation.read_assign_self ..⟩
  | var hv => exact ⟨a, _, .refl s a, .localName hv rfl, rfl⟩

theorem exists_counts (h : s.Resolves (.localName name) type o s') (hs : s.Sound) (ha : s.Suits a) :
    ∃ a' word, s.Runs s' a a' ∧ s.Counts a ⟨type, .localName name⟩ word ∧ o.width.canonical (a'.read o) = word := by
  cases h with
  | slot href =>
    obtain ⟨base, -, hword⟩ := hs.exists_slotAddress ha (Scope.mem_addresses_of_lookup (Scope.carrier?_eq_slot.1 href))
    refine ⟨_, _, .adding (.slotAddr hword), .slot href hword, ?_⟩
    rw [IR.Activation.read_assign_self]
    exact Width.canonical_w64 _
  | var hv hw => exact ⟨a, _, .refl s a, .var hv hw, rfl⟩

end Scope.Resolves

/-! ## Variable parts -/

section

variable {t : Term} {sum : IR.Operand} {terms : List Term} {word word' word'' : IR.Activation → Int64}

theorem Term.word_eq (ht : s.Reads t.index) (ha : a.Agrees s.nextVar a') : t.word a' = t.word a := by
  rw [Term.word, Term.word, ht.read_eq ha]

theorem map_word_eq (hterms : ∀ t ∈ terms, s.Reads t.index) (ha : a.Agrees s.nextVar a') :
    terms.map (Term.word a') = terms.map (Term.word a) :=
  map_congr_left fun t ht => Term.word_eq (hterms t ht) ha

namespace Scope.Computes

theorem refl (hread : s.Reads o) (hwidth : o.width = .w64) (hword : ∀ a : IR.Activation, a.read o = word a) :
    s.Computes s o word :=
  ⟨hread, hwidth, fun a => ⟨a, .refl s a, hword a⟩⟩

theorem trans (h : s.Computes s' x word) (h' : s'.Computes s'' o word') (hnext : s.nextVar ≤ s'.nextVar)
    (hword : ∀ a a' : IR.Activation, a.Agrees s.nextVar a' → a'.read x = word a → word' a' = word'' a) :
    s.Computes s'' o word'' := by
  refine ⟨h'.reads, h'.width, fun a => ?_⟩
  obtain ⟨a', hruns, hx⟩ := h.runs a
  obtain ⟨a'', hruns', ho⟩ := h'.runs a'
  exact ⟨a'', hruns.trans hruns' hnext, ho.trans (hword a a' hruns.agrees hx)⟩

theorem adding {make : IR.Var → IR.Instr}
    (h : ∀ a : IR.Activation, a.Performs [make ⟨s.nextVar, .w64⟩] (a.assign ⟨s.nextVar, .w64⟩ (word a))) :
    s.Computes (s.adding .w64 make) (.var ⟨s.nextVar, .w64⟩) word :=
  ⟨⟨_, rfl, Int.lt_succ _, .inr rfl⟩, rfl, fun a => ⟨_, .adding (h a), IR.Activation.read_assign_self ..⟩⟩

end Scope.Computes

theorem computes_emitWide {op : BinOp} {f : Int64 → Int64 → Int64} {y : IR.Operand}
    (hop : ∀ u v, op.eval .w64 u v = .ok (f u v)) (hx : x.width = .w64) (h : (emitWide op x y).run s = .ok (o, s')) :
    s.Computes s' o (fun a => f (a.read x) (a.read y)) := by
  cases h
  rw [hx]
  show s.Computes (s.adding .w64 fun d => .binop op d (some x) (some y)) (.var ⟨s.nextVar, .w64⟩) _
  exact .adding fun a => .binop (hop _ _)

theorem eval_add_w64 (u v : Int64) : BinOp.add.eval .w64 u v = .ok (u + v) := by
  simp [BinOp.eval, Width.canonical_w64]

theorem eval_mul_w64 (u v : Int64) : BinOp.mul.eval .w64 u v = .ok (u * v) := by
  simp [BinOp.eval, Width.canonical_w64]

theorem computes_termValue (ht : s.Reads t.index) (h : (termValue t).run s = .ok (o, s')) : s.Computes s' o (Term.word · t) := by
  have hscaled : ∀ {v : IR.Operand} {s₁ : Scope}, s₁.Reads v → v.width = .w64 → (do
      let mut v := v
      if t.scale ≠ 1 then v ← emitWide .mul v (.const t.scale Width.w64)
      return v : Lowering IR.Operand).run s₁ = .ok (o, s') → s₁.Computes s' o (fun a => a.read v * t.scale) := by
    intro v s₁ hv hwidth h
    dsimp only at h
    split at h
    · obtain ⟨y, s₂, hmul, ⟨⟩⟩ := run_bind_eq_ok.1 h
      simpa only [read_const_w64] using computes_emitWide eval_mul_w64 hwidth hmul
    · next hscale =>
      cases h
      exact .refl hv hwidth fun a => by rw [not_not.1 hscale, Int64.mul_one]
  unfold termValue at h
  dsimp only at h
  split at h
  · obtain ⟨_, _, ⟨⟩, h⟩ := run_bind_eq_ok.1 h
    obtain ⟨_, _, ⟨⟩, h⟩ := run_bind_eq_ok.1 h
    have hwide : s.Computes (s.adding .w64 (.cast .sext · (some t.index))) (.var ⟨s.nextVar, .w64⟩)
        (fun a => t.index.width.canonical (a.read t.index)) := by
      refine .adding fun a => ?_
      rw [← Width.canonical_w64 (t.index.width.canonical (a.read t.index))]
      exact .cast
    have hscale := hscaled hwide.reads hwide.width h
    exact hwide.trans hscale (Int.le_of_lt (Int.lt_succ _)) fun a a' _ hread => by rw [hread]; rfl
  · next hwidth =>
    have hwidth := not_not.1 hwidth
    have hscale := hscaled ht hwidth h
    refine ⟨hscale.reads, hscale.width, fun a => ?_⟩
    rw [Term.word, hwidth, Width.canonical_w64]
    exact hscale.runs a

theorem computes_addTerms (hsum : s.Reads sum) (hwidth : sum.width = .w64) (hterms : ∀ t ∈ terms, s.Reads t.index)
    (h : (addTerms sum terms).run s = .ok (o, s')) :
    s.Computes s' o (fun a => a.read sum + (terms.map (Term.word a)).sum) := by
  induction terms generalizing s sum with
  | nil =>
    cases h
    exact .refl hsum hwidth fun a => by simp
  | cons t rest ih =>
    obtain ⟨v, s₁, hv, h⟩ := run_bind_eq_ok.1 h
    obtain ⟨sum', s₂, hadd, h⟩ := run_bind_eq_ok.1 h
    obtain ⟨ht, hrest⟩ := forall_mem_cons.1 hterms
    have hterm := computes_termValue ht hv
    have hemits := (adding_termValue t).emits hv
    have hemits' := (adding_emitWide (by decide) _ _).emits hadd
    have hsum' := computes_emitWide eval_add_w64 hwidth hadd
    have hothers := ih hsum'.reads hsum'.width (fun t ht => ((hrest t ht).mono hemits).mono hemits') h
    -- The sum so far and the other terms are worth the same after the code of the first term.
    have hfirst : s.Computes s₂ sum' (fun a => a.read sum + t.word a) :=
      hterm.trans hsum' hemits.nextVar fun a a' ha hread => by rw [hread, hsum.read_eq ha]
    refine hfirst.trans hothers (Int.le_trans hemits.nextVar hemits'.nextVar) fun a a' ha hread => ?_
    rw [hread, map_word_eq hrest ha, map_cons, sum_cons]
    exact Int64.add_assoc _ _ _

end

/-! ## Indices -/

theorem Carrier.word_eq (hslots : a'.slots = a.slots) (hread : ∀ o, k.Mentions o → a'.read o = a.read o) :
    k.word a' = k.word a := by
  cases k with
  | var v => exact congrArg Except.ok (hread (.var v) rfl)
  | slot ref =>
    have hbase : a'.slotBase ref.slot = a.slotBase ref.slot := by
      rw [IR.Activation.slotBase, IR.Activation.slotBase, hslots]
    show a'.slotAddress ref = a.slotAddress ref
    unfold IR.Activation.slotAddress
    rw [hbase]
    cases hindex : ref.index with
    | none => rfl
    | some x => rw [IR.Activation.value_some, IR.Activation.value_some, hread x hindex]

theorem Scope.Sound.word_eq (hs : s.Sound) (hk : s.carrier? name = some k) (ha : a.Agrees s.nextVar a') :
    k.word a' = k.word a := by
  refine Carrier.word_eq ha.slots fun o ho => ?_
  cases k with
  | slot ref => exact (hs.index _ (mem_addresses_of_lookup (carrier?_eq_slot.1 hk)) o ho).read_eq ha
  | var v =>
    subst ho
    exact ha.env v.id (hs.lt v (mem_vars_of_lookup (carrier?_eq_var.1 hk).2))

theorem Scope.Emits.carrier?_eq (h : s.Emits s') (name : String) : s'.carrier? name = s.carrier? name := by
  rw [carrier?, carrier?, h.addresses, h.values]

theorem Scope.Denotes.of_emits {value : Value} {word : Int64} (h : s'.Denotes a' value word) (hs : s.Sound)
    (ha : a.Agrees s.nextVar a') (hemits : s.Emits s') : s.Denotes a value word := by
  cases h with
  | const => exact .const _
  | localName hk hword =>
    rw [hemits.carrier?_eq] at hk
    rw [hs.word_eq hk ha] at hword
    exact .localName hk hword

theorem Scope.Counts.of_emits {index : TypedValue} {k : Int64} (h : s'.Counts a' index k) (hs : s.Sound)
    (ha : a.Agrees s.nextVar a') (hemits : s.Emits s') : s.Counts a index k := by
  cases h with
  | const => exact .const _ _
  | slot href hk =>
    rw [hemits.carrier?_eq] at href
    exact .slot href ((hs.word_eq href ha).symm.trans hk)
  | var hv hw =>
    rw [hemits.carrier?_eq] at hv
    rw [Except.ok.inj (hs.word_eq hv ha)]
    exact .var hv hw

/-- The code from `s` to `s'` splits indices into constant bytes and variable parts, which make up the displacement. -/
structure Scope.Splits (s s' : Scope) (type : Ty) (indices : List TypedValue) (part : Int64 × List Term) : Prop where
  length : indices.length ≤ type.levels.length
  reads : ∀ t ∈ part.2, s'.Reads t.index
  runs : ∀ a, s.Suits a → ∃ a' ks, s.Runs s' a a' ∧ List.Forall₂ (s.Counts a) indices ks ∧
    part.1 + (part.2.map (Term.word a')).sum = type.words ks

theorem Ty.levels_eq_cons (type : Ty) : ∃ deeper, type.levels = type :: deeper := by
  cases type with
  | array length element => exact ⟨element.levels, rfl⟩
  | _ => exact ⟨[], rfl⟩

theorem Ty.words_singleton (type : Ty) (k : Int64) : type.words [k] = k * type.size := by
  obtain ⟨deeper, hlevels⟩ := type.levels_eq_cons
  rw [words, hlevels, zipWith_cons_cons, zipWith_nil_left, sum_cons, sum_nil, Int64.add_zero]

theorem Ty.one_le_length_levels (type : Ty) : 1 ≤ type.levels.length := by
  obtain ⟨deeper, hlevels⟩ := type.levels_eq_cons
  rw [hlevels]
  exact Nat.succ_le_succ (Nat.zero_le _)

namespace Scope.Splits

variable {index : TypedValue} {rest : List TypedValue} {part part' : Int64 × List Term}

theorem nil (s : Scope) (type : Ty) : s.Splits s type [] (0, []) :=
  ⟨Nat.zero_le _, forall_mem_nil _, fun a _ => ⟨a, [], .refl s a, .nil, rfl⟩⟩

theorem const (s : Scope) (type itype : Ty) (c : Int64) : s.Splits s type [⟨itype, .const c⟩] (c * type.size, []) := by
  refine ⟨type.one_le_length_levels, forall_mem_nil _, fun a _ => ?_⟩
  refine ⟨a, [c], .refl s a, .cons (.const itype c) .nil, ?_⟩
  rw [Ty.words_singleton]
  exact Int64.add_zero _

theorem operand {itype : Ty} {value : Value} (hs : s.Sound) (hvalue : ∀ c, value = .const c → False)
    (h : (operand pos value itype).run s = .ok (x, s')) : s.Splits s' type [⟨itype, value⟩] (0, [⟨x, type.size⟩]) := by
  have hresolves := resolves_of_operand h
  cases value with
  | const c => cases hvalue c rfl
  | globalName name => cases hresolves
  | localName name =>
    refine ⟨type.one_le_length_levels, forall_mem_singleton.2 (hresolves.reads hs), fun a ha => ?_⟩
    obtain ⟨a', k, hruns, hcounts, hk⟩ := hresolves.exists_counts hs ha
    refine ⟨a', [k], hruns, .cons hcounts .nil, ?_⟩
    rw [Ty.words_singleton, ← hk]
    simp [Term.word]

theorem cons {length : Int64} {element : Ty} (hs : s.Sound) (hemits : s.Emits s') (hemits' : s'.Emits s'')
    (h : s.Splits s' (.array length element) [index] part) (h' : s'.Splits s'' element rest part') :
    s.Splits s'' (.array length element) (index :: rest) (part.1 + part'.1, part.2 ++ part'.2) := by
  refine ⟨Nat.succ_le_succ h'.length, ?_, fun a ha => ?_⟩
  · exact forall_mem_append.2 ⟨fun t ht => (h.reads t ht).mono hemits', h'.reads⟩
  · obtain ⟨a', ks, hruns, hcounts, hk⟩ := h.runs a ha
    obtain ⟨k, _, hindex, ⟨⟩, rfl⟩ := forall₂_cons_left_iff.1 hcounts
    obtain ⟨a'', ks, hruns', hcounts', hks⟩ := h'.runs a' (ha.mono hs hruns.agrees hemits)
    have hcounts := hcounts'.imp fun _ _ h => h.of_emits hs hruns.agrees hemits
    refine ⟨a'', k :: ks, hruns.trans hruns' hemits.nextVar, .cons hindex hcounts, ?_⟩
    -- The first variable part is worth the same after the code of the others.
    rw [Ty.words_singleton] at hk
    calc part.1 + part'.1 + ((part.2 ++ part'.2).map (Term.word a'')).sum
        = (part.1 + (part.2.map (Term.word a')).sum) + (part'.1 + (part'.2.map (Term.word a'')).sum) := by
          rw [map_append, sum_append, map_word_eq h.reads hruns'.agrees]
          grind
      _ = (Ty.array length element).words (k :: ks) := by rw [hk, hks]; rfl

end Scope.Splits

theorem splits_index {index : TypedValue} {part : Int64 × List Term} (hs : s.Sound)
    (h : (addressParts pos type [index]).run s = .ok (part, s')) : s.Splits s' type [index] part := by
  obtain ⟨itype, value⟩ := index
  unfold addressParts at h
  have h := (run_ite_obstruct_eq_ok.1 h).2
  dsimp only at h
  split at h
  · cases h
    exact .const s type itype _
  · next hvalue =>
    obtain ⟨x, s₁, hx, ⟨⟩⟩ := run_bind_eq_ok.1 h
    exact .operand hs hvalue hx

/-- Indices are split one after the other, each in the scope that the ones before it leave behind. -/
theorem splits_addressParts {indices : List TypedValue} {part : Int64 × List Term} (hs : s.Sound)
    (h : (addressParts pos type indices).run s = .ok (part, s')) : s.Splits s' type indices part := by
  induction indices generalizing s type part with
  | nil =>
    unfold addressParts at h
    cases h
    exact .nil _ _
  | cons index rest ih =>
    cases rest with
    | nil => exact splits_index hs h
    | cons next rest =>
      obtain ⟨length, element, part₁, s₁, part₂, rfl, h₁, h₂, rfl⟩ := run_addressParts_cons.1 h
      have hemits := (adding_addressParts _ _ _).emits h₁
      exact (splits_index hs h₁).cons hs hemits ((adding_addressParts _ _ _).emits h₂) (ih (hs.mono hemits) h₂)

end RegisterCompiler.Llvm
