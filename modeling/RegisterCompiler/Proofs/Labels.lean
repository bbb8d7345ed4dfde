import RegisterCompiler.Proofs.Linking

/-!
# Valid programs

The check of a program goes through it twice, first for the places where labels stand and then for the labels that are
mentioned. What it accepts is said here without a table of labels.
-/

namespace RegisterCompiler.Asm

open Success List

namespace LabelTable

variable {definitions : List (String × Label)} {table result : LabelTable}

theorem exists_define (hnodup : (definitions.map Prod.snd).Nodup)
    (hfresh : ∀ l ∈ definitions.map Prod.snd, table.get? l = none) :
    ∃ result, definitions.foldlM define table = .ok result := by
  induction definitions generalizing table with
  | nil => exact ⟨table, rfl⟩
  | cons d rest ih =>
    obtain ⟨hd, hnodup⟩ := nodup_cons.1 hnodup
    obtain ⟨hnew, hfresh⟩ := forall_mem_cons.1 hfresh
    obtain ⟨result, hresult⟩ := @ih (table.insert d.2 d.1) hnodup fun l hl => by
      rw [Std.ExtTreeMap.get?_eq_getElem?, Std.ExtTreeMap.getElem?_insert, if_neg]
      · exact hfresh l hl
      · intro heq
        exact hd (Std.LawfulEqCmp.eq_of_compare heq ▸ hl)
    refine ⟨result, ?_⟩
    rw [foldlM_cons, define, hnew]
    exact hresult

theorem contains_of_define (h : definitions.foldlM define table = .ok result) (l : Label) :
    result.contains l ↔ table.contains l ∨ l ∈ definitions.map Prod.snd := by
  induction definitions generalizing table with
  | nil =>
    cases h
    simp
  | cons d rest ih =>
    rw [foldlM_cons] at h
    obtain ⟨table', hd, hrest⟩ := bind_eq_ok.1 h
    unfold define at hd
    split at hd
    · cases hd
    · cases hd
      rw [ih hrest, Std.ExtTreeMap.contains_insert, Bool.or_eq_true, beq_iff_eq, Std.LawfulEqCmp.compare_eq_iff_eq,
        map_cons, mem_cons, or_assoc, or_left_comm, @eq_comm _ d.2 l]

end LabelTable

namespace Program

def labels (p : Program) : List Label := p.definitions.map Prod.snd

structure Valid (p : Program) : Prop where
  nodup : p.labels.Nodup
  entry : p.entry = "" ∨ p.entry ∈ p.labels
  target : ∀ f ∈ p.functions, ∀ i ∈ f.code, ∀ l ∈ i.target?, l ∈ p.labels
  width : ∀ f ∈ p.functions, ∀ i ∈ f.code, ∀ w ∈ i.width?, w.isValid

end Program

theorem Instr.check_eq_ok {table : LabelTable} {i : Instr} {u : Unit} :
    i.check table = .ok u ↔ (∀ l ∈ i.target?, table.contains l) ∧ ∀ w ∈ i.width?, w.isValid := by
  unfold check
  cases i.target? <;> cases i.width? <;>
    simp only [Option.mem_def, Option.some.injEq, reduceCtorEq, false_imp_iff, forall_eq', forall_const,
      true_and, and_true, ite_pure_throw_eq_ok, ite_bind_throw_eq_ok, pure_eq_ok]

theorem Program.validate_eq_ok {p : Program} : p.validate = .ok () ↔ p.Valid := by
  have hcontains : ∀ table, p.definitions.foldlM LabelTable.define ∅ = .ok table → ∀ l, table.contains l ↔ l ∈ p.labels :=
    fun table htable l => by
      rw [LabelTable.contains_of_define htable l]
      simp [labels]
  unfold validate
  rw [bind_eq_ok]
  constructor
  · rintro ⟨table, htable, hrest⟩
    have hmem := hcontains table htable
    obtain ⟨hentry, hfunctions⟩ := ite_bind_throw_eq_ok.1 hrest
    have hcheck : ∀ f ∈ p.functions, ∀ i ∈ f.code, (∀ l ∈ i.target?, table.contains l) ∧ ∀ w ∈ i.width?, w.isValid :=
      fun f hf i hi => Instr.check_eq_ok.1 (mapError_eq_ok.1
        (forM_eq_ok.1 (forM_eq_ok.1 hfunctions f hf) i hi))
    refine ⟨(LabelTable.nodup_of_define htable).1, ?_, fun f hf i hi l hl => ?_, fun f hf i hi => (hcheck f hf i hi).2⟩
    · simpa [hmem] using hentry
    · exact (hmem l).1 ((hcheck f hf i hi).1 l hl)
  · intro h
    have hempty : ∀ l ∈ p.labels, (∅ : LabelTable).get? l = none := fun l _ => by simp
    obtain ⟨table, htable⟩ := LabelTable.exists_define h.nodup hempty
    have hmem := hcontains table htable
    refine ⟨table, htable, ite_bind_throw_eq_ok.2 ⟨by simpa [hmem] using h.entry, ?_⟩⟩
    refine forM_eq_ok.2 fun f hf => forM_eq_ok.2 fun i hi => ?_
    refine mapError_eq_ok.2 (Instr.check_eq_ok.2 ⟨fun l hl => ?_, h.width f hf i hi⟩)
    exact (hmem l).2 (h.target f hf i hi l hl)

end RegisterCompiler.Asm
