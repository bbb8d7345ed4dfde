import RegisterCompiler.Proofs.Addresses

/-!
# Constant and variable indices

A constant index of an address computation is multiplied as it is written. A variable that was given the same constant
holds it with the sign of its width, and this is what is multiplied then. The two addresses are the same if the constant
has that form, as literals within the range of their type do.
-/

namespace RegisterCompiler.Llvm

open Success List

variable {s s' : Scope} {a : IR.Activation} {value : Value} {index : TypedValue} {u w x y : Int64}

/-! ## Meanings -/

namespace Scope

theorem Denotes.unique (h : s.Denotes a value x) (h' : s.Denotes a value y) : x = y := by
  cases h with
  | const => cases h' with | const => rfl
  | localName hk hx =>
    cases h' with
    | localName hk' hy =>
      cases hk.symm.trans hk'
      exact Except.ok.inj (hx.symm.trans hy)

theorem Counts.unique (h : s.Counts a index u) (h' : s.Counts a index w) : u = w := by
  cases h with
  | const => cases h' with | const => rfl
  | slot hk hx =>
    cases h' with
    | slot hk' hy =>
      cases hk.symm.trans hk'
      exact Except.ok.inj (hx.symm.trans hy)
    | var hk' => cases hk.symm.trans hk'
  | var hk =>
    cases h' with
    | slot hk' => cases hk.symm.trans hk'
    | var hk' =>
      cases hk.symm.trans hk'
      rfl

end Scope

theorem exists_of_forall₂_append_cons {α β : Type} {r : α → β → Prop} {l l' : List α} {m : List β} {p : α}
    (h : Forall₂ r (l ++ p :: l') m) : ∃ m₁ q m₂, m = m₁ ++ q :: m₂ ∧ Forall₂ r l m₁ ∧ r p q ∧ Forall₂ r l' m₂ := by
  induction l generalizing m with
  | nil =>
    obtain ⟨q, m₂, hq, hm, rfl⟩ := forall₂_cons_left_iff.1 h
    exact ⟨[], q, m₂, rfl, .nil, hq, hm⟩
  | cons head l ih =>
    obtain ⟨q', m', hq', hm, rfl⟩ := forall₂_cons_left_iff.1 h
    obtain ⟨m₁, q, m₂, rfl, hm₁, hq, hm₂⟩ := ih hm
    exact ⟨q' :: m₁, q, m₂, rfl, .cons hq' hm₁, hq, hm₂⟩

/-- An index is multiplied by the size of the type at its place. -/
theorem Ty.words_append_cons (type : Ty) {counts counts' : List Int64} {level : Ty}
    (hlevel : type.levels[counts.length]? = some level) :
    type.words (counts ++ u :: counts') = type.words (counts ++ w :: counts') + (u - w) * level.size := by
  unfold words
  generalize type.levels = levels at hlevel
  induction counts generalizing levels with
  | nil =>
    obtain ⟨levels', rfl⟩ : ∃ levels', levels = level :: levels' := by
      cases levels with
      | nil => cases hlevel
      | cons head rest => exact ⟨rest, congrArg (· :: rest) (Option.some.inj hlevel)⟩
    simp only [nil_append, zipWith_cons_cons, sum_cons]
    grind
  | cons k counts ih =>
    cases levels with
    | nil => cases hlevel
    | cons head rest =>
      rw [cons_append, cons_append, zipWith_cons_cons, zipWith_cons_cons, sum_cons, sum_cons, ih rest hlevel]
      exact (Int64.add_assoc _ _ _).symm

/-! ## Lowering -/

section

variable {pos : Pos} {result name : String} {element type : Ty} {base : Value} {indices indices' front back : List TypedValue}
  {part : Int64 × List Term} {c : Int64} {v : IR.Var}

theorem exists_termValue (t : Term) (s : Scope) : ∃ x s', (termValue t).run s = .ok (x, s') := by
  unfold termValue
  dsimp only
  split <;> split <;> exact ⟨_, _, rfl⟩

theorem exists_addTerms (sum : IR.Operand) (terms : List Term) (s : Scope) :
    ∃ x s', (addTerms sum terms).run s = .ok (x, s') := by
  induction terms generalizing sum s with
  | nil => exact ⟨sum, s, rfl⟩
  | cons t rest ih =>
    obtain ⟨x, s₁, hx⟩ := exists_termValue t s
    obtain ⟨y, s₂, hy⟩ : ∃ y s₂, (emitWide .add sum x).run s₁ = .ok (y, s₂) := ⟨_, _, rfl⟩
    obtain ⟨z, s', hz⟩ := ih y s₂
    exact ⟨z, s', run_bind_eq_ok.2 ⟨x, s₁, hx, run_bind_eq_ok.2 ⟨y, s₂, hy, hz⟩⟩⟩

/-- Where indices can be split with a constant, they can with a variable of its width, which takes no code. -/
theorem exists_addressParts (hname : s.carrier? name = some (.var v)) (hwidth : type.width? = some v.width)
    (h : (addressParts pos element (front ++ ⟨type, .const c⟩ :: back)).run s = .ok (part, s')) :
    ∃ part', (addressParts pos element (front ++ ⟨type, .localName name⟩ :: back)).run s = .ok (part', s') := by
  induction front generalizing s element part with
  | nil =>
    have hfirst : ∀ {s' part}, (addressParts pos element [⟨type, .const c⟩]).run s = .ok (part, s') →
        ∃ part', (addressParts pos element [⟨type, .localName name⟩]).run s = .ok (part', s') := by
      intro s' part h
      unfold addressParts at h ⊢
      obtain ⟨hsize, ⟨⟩⟩ := run_ite_obstruct_eq_ok.1 h
      exact ⟨_, run_ite_obstruct_eq_ok.2 ⟨hsize, run_bind_eq_ok.2 ⟨_, _, run_operand_var hname hwidth, rfl⟩⟩⟩
    cases back with
    | nil => exact hfirst h
    | cons next rest =>
      obtain ⟨_, _, _, _, _, rfl, h₁, h₂, -⟩ := run_addressParts_cons.1 h
      obtain ⟨part₁, h₁⟩ := hfirst h₁
      exact ⟨_, run_addressParts_cons.2 ⟨_, _, part₁, _, _, rfl, h₁, h₂, rfl⟩⟩
  | cons index front ih =>
    have hne : ∀ i : TypedValue, ∃ next rest, front ++ i :: back = next :: rest := fun i => exists_cons_of_ne_nil (by simp)
    obtain ⟨_, _, hconst⟩ := hne ⟨type, .const c⟩
    obtain ⟨_, _, hvariable⟩ := hne ⟨type, .localName name⟩
    rw [cons_append, hconst] at h
    obtain ⟨_, _, _, _, _, rfl, h₁, h₂, -⟩ := run_addressParts_cons.1 h
    have hemits := (adding_addressParts _ _ _).emits h₁
    rw [← hconst] at h₂
    obtain ⟨part₂, h₂⟩ := ih (by rwa [Scope.carrier?, hemits.values, hemits.addresses]) h₂
    rw [hvariable] at h₂
    rw [cons_append, hvariable]
    exact ⟨_, run_addressParts_cons.2 ⟨_, _, _, _, part₂, rfl, h₁, h₂, rfl⟩⟩

/-- Only the splitting of its indices and the base can keep an address computation from being lowered. -/
theorem exists_lowerGep (h : (lowerGep pos result element base indices).run s = .ok ((), s'))
    (hparts : ∀ {part s₁}, (addressParts pos element indices).run s = .ok (part, s₁) →
      ∃ part', (addressParts pos element indices').run s = .ok (part', s₁)) :
    ∃ s'', (lowerGep pos result element base indices').run s = .ok ((), s'') := by
  have hbind {α : Type} {x : Lowering α} {f : α → Lowering Unit} {s s₁ : Scope} {a : α} (hx : x.run s = .ok (a, s₁))
      (hf : ∃ s', (f a).run s₁ = .ok ((), s')) : ∃ s', (x >>= f).run s = .ok ((), s') :=
    hf.imp fun _ hs => run_bind_eq_ok.2 ⟨_, _, hx, hs⟩
  obtain ⟨_, s₁, hpart, h⟩ := run_bind_eq_ok.1 h
  obtain ⟨part, hpart⟩ := hparts hpart
  obtain ⟨found, s₂, hframe, h⟩ := run_bind_eq_ok.1 h
  refine hbind hpart (hbind hframe ?_)
  cases found with
  | some ref =>
    dsimp only
    split
    · exact ⟨_, rfl⟩
    · exact ⟨_, rfl⟩
    · next t others _ _ =>
      obtain ⟨x, s₃, hx⟩ := exists_termValue t s₂
      obtain ⟨y, s₄, hy⟩ := exists_addTerms x others s₃
      exact hbind hx (hbind hy ⟨_, rfl⟩)
  | none =>
    obtain ⟨x, s₃, hx, -⟩ := run_bind_eq_ok.1 h
    refine hbind hx (hbind (a := (s₃.values.lookup result).getD ⟨0, .none⟩) rfl ?_)
    split
    · exact ⟨_, rfl⟩
    · next t others _ =>
      obtain ⟨y, s₄, hy⟩ := exists_termValue t s₃
      obtain ⟨z, s₅, hz⟩ := exists_addTerms y others s₄
      refine hbind hy (hbind hz ?_)
      split <;> exact ⟨_, rfl⟩

variable {file : String} {f : Function} {g : IR.Function} {earlier later : List Block} {b : Block} {before after : List Instr}

/-- In an address computation of a function, let a variable of the type of an index take the place of an index that is the
    constant `c`. The computation is lowered then as before; and in every activation in which the variable holds the
    constant, the address moves by as many elements as the constant in the form of the width is away from the constant as
    it is written. -/
theorem gep_const_index (hlower : f.lower file = .ok g) (hkept : f.kept = earlier ++ b :: later)
    (hinstrs : b.instrs = before ++ ⟨pos, .gep result element base (front ++ ⟨type, .const c⟩ :: back)⟩ :: after)
    (hreached : (f.lowerUpTo earlier before).run (.start file f) = .ok ((), s)) (hname : s.carrier? name = some (.var v))
    (hwidth : type.width? = some v.width) :
    ∃ level s₁ s₂ k k' body body', element.levels[front.length]? = some level ∧
      (lowerInstr ⟨pos, .gep result element base (front ++ ⟨type, .const c⟩ :: back)⟩).run s = .ok ((), s₁) ∧
      (lowerInstr ⟨pos, .gep result element base (front ++ ⟨type, .localName name⟩ :: back)⟩).run s = .ok ((), s₂) ∧
      s.Binds s₁ result k ∧ s₁.code = s.code ++ body ∧ s.Binds s₂ result k' ∧ s₂.code = s.code ++ body' ∧
      ∀ a, s.Suits a → a.env.getD v.id 0 = v.width.canonical c → ∃ a₁ a₂ start counts counts' x,
        s.Locates base (front ++ ⟨type, .const c⟩ :: back) k body a a₁ start counts x ∧
        s.Locates base (front ++ ⟨type, .localName name⟩ :: back) k' body' a a₂ start counts'
          (x + (v.width.canonical c - c) * level.size) := by
  obtain ⟨s₀, _, codes, edges, hstages⟩ := exists_stages hlower
  obtain ⟨t, s₁, hlowered⟩ := hstages.exists_lowered hkept hinstrs
  cases hreached.symm.trans hlowered.reached
  obtain ⟨s₂, hvariable⟩ := exists_lowerGep hlowered.lowered fun h => exists_addressParts hname hwidth h
  have hs := hlowered.leads.sound hstages.sound
  have hhosts := hstages.hosts hlowered
  obtain ⟨k, body, hbinds, hbody, hlocates⟩ := exists_locates hs hhosts hlowered.lowered
  obtain ⟨k', body', hbinds', hbody', hlocates'⟩ := exists_locates hs hhosts hvariable
  obtain ⟨_, _, _, hparts, -⟩ := exists_of_lowerGep hvariable
  have hlength := (splits_addressParts hs hparts).length
  rw [length_append, length_cons] at hlength
  obtain ⟨level, hlevel⟩ : ∃ level, element.levels[front.length]? = some level :=
    ⟨_, getElem?_eq_getElem (by omega)⟩
  refine ⟨level, s₁, s₂, k, k', body, body', hlevel, hlowered.lowered, hvariable, hbinds, hbody, hbinds', hbody',
    fun a ha hv => ?_⟩
  obtain ⟨a₁, start, counts, hlocated⟩ := hlocates a ha
  obtain ⟨a₂, start', counts', hlocated'⟩ := hlocates' a ha
  -- The base and all other indices are worth the same in both computations.
  cases hlocated.base.unique hlocated'.base
  obtain ⟨counts₁, _, counts₂, rfl, hfront, ⟨⟩, hback⟩ := exists_of_forall₂_append_cons hlocated.indices
  obtain ⟨_, u, _, rfl, hfront', hu, hback'⟩ := exists_of_forall₂_append_cons hlocated'.indices
  have hunique : Relator.RightUnique (s.Counts a) := fun _ _ _ => Scope.Counts.unique
  cases right_unique_forall₂' hunique hfront hfront'
  cases right_unique_forall₂' hunique hback hback'
  have hcanonical : u = v.width.canonical c := by
    cases hu with
    | slot hk => cases hname.symm.trans hk
    | var hk =>
      cases hname.symm.trans hk
      rw [hv, Width.canonical_canonical]
  subst hcanonical
  refine ⟨a₁, a₂, start, _, counts₁ ++ v.width.canonical c :: counts₂, _, hlocated, ?_⟩
  rw [Int64.add_assoc, ← Ty.words_append_cons element (hfront.length_eq ▸ hlevel)]
  exact hlocated'

end

namespace Indices

def literal : List Instr := [⟨default, .binop "i" .add (.int 8) (.const 200) (.const 0)⟩]

def block (index : Value) : Block := ⟨default, "entry",
  literal ++ ⟨default, .gep "q" (.int 8) (.localName "p") ([] ++ ⟨.int 8, index⟩ :: [])⟩ ::
    [⟨default, .ret (some ⟨.ptr, .localName "q"⟩)⟩]⟩

def away (index : Value) : Function where
  pos := default
  name := "f"
  result := .ptr
  params := [⟨.ptr, "p"⟩]
  blocks := [block index]

def scope : Scope where
  file := ""
  function := "f"
  values := [("q", ⟨3, .w64⟩), ("i", ⟨2, .w8⟩), ("p", ⟨1, .w64⟩)]
  addresses := []
  labels := [("entry", 0)]
  slots := []
  nextVar := 4
  code := [.binop .add ⟨2, .w8⟩ (some (.imm (-56) .w8)) (some (.imm 0 .w8))]
  phis := []

/-- In a byte 200 is -56, so that the addresses are 256 bytes apart. -/
theorem gep_const_index_away : ∃ a a₁ a₂ k k' body body' start counts counts' x, scope.Suits a ∧
    scope.Locates (.localName "p") [⟨.int 8, .const 200⟩] k body a a₁ start counts x ∧
    scope.Locates (.localName "p") [⟨.int 8, .localName "i"⟩] k' body' a a₂ start counts' (x + -256) := by
  have hkept : (away (.const 200)).kept = [] ++ block (.const 200) :: [] := by decide +kernel
  have hreached : ((away (.const 200)).lowerUpTo [] literal).run (.start "" (away (.const 200))) = .ok ((), scope) := by
    cbv
  have hname : scope.carrier? "i" = some (.var ⟨2, .w8⟩) := rfl
  obtain ⟨g, hlower⟩ : ∃ g, (away (.const 200)).lower "" = .ok g := ⟨_, by cbv⟩
  obtain ⟨level, _, _, k, k', body, body', hlevel, -, -, -, -, -, -, hlocates⟩ :=
    gep_const_index hlower hkept rfl hreached hname rfl
  cases hlevel
  let a : IR.Activation := IR.Activation.assign ⟨default, ∅, [], 0, default, default, []⟩ ⟨2, .w8⟩ (-56)
  have hzero : ∀ id, 2 ≠ id → a.env.getD id 0 = 0 := fun id hid =>
    (IR.Activation.getD_assign_of_ne hid).trans Std.ExtTreeMap.getD_empty
  have hi : a.env.getD 2 0 = -56 := IR.Activation.read_assign_self _ ⟨2, .w8⟩ _
  have ha : scope.Suits a := by
    refine ⟨forall_mem_cons.2 ⟨?_, forall_mem_cons.2 ⟨?_, forall_mem_singleton.2 ?_⟩⟩, Nat.le_refl 0⟩
    · exact (hzero 3 (by decide)).symm ▸ Width.isCanonical_zero _
    · exact hi.symm ▸ (by decide : Width.w8.IsCanonical (-56))
    · exact (hzero 1 (by decide)).symm ▸ Width.isCanonical_zero _
  obtain ⟨a₁, a₂, start, counts, counts', x, hconst, hvar⟩ := hlocates a ha hi
  exact ⟨a, a₁, a₂, k, k', body, body', start, counts, counts', x, ha, hconst, hvar⟩

/-- A constant that is not in the range of its type is an index as it is written. As a variable it wraps around. -/
theorem called_away : Addresses.called (away (.const 200)) [0] = some 200 ∧
    Addresses.called (away (.localName "i")) [0] = some (-56) := by
  decide +kernel

end Indices

end RegisterCompiler.Llvm
