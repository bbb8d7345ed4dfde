import RegisterCompiler.Proofs.Stages

/-!
# Names in lowered functions

Lowering keeps the names of functions and the labels of blocks, and uses only operators and comparisons that have names.
-/

namespace RegisterCompiler

open List
open Asm (isNameChar)

/-- What holds of a function that is read from a text. -/
structure IR.Function.Named (f : IR.Function) : Prop where
  name : f.name ≠ ""
  label : ∀ b ∈ f.blocks, ∀ c ∈ b.label.toList, isNameChar c
  code : ∀ b ∈ f.blocks, ∀ i ∈ b.code, i.Named

namespace Llvm

variable {g : IR.Function} {file : String}

theorem named_fillPhi {edges : List (IR.VarId × List IR.PhiEdge)} {i : IR.Instr} (hi : i.Named) : (fillPhi edges i).Named := by
  cases i with
  | phi dest _ => exact trivial
  | _ => exact hi

theorem named_of_lower {f : Function} (hf : f.Named) (h : f.lower file = .ok g) : g.Named := by
  obtain ⟨s₀, s₁, codes, edges, hstages⟩ := exists_stages h
  have hkept : ∀ b ∈ f.kept, b.Named := fun b hb => hf.block b (mem_filter.1 hb).1
  refine ⟨hstages.name ▸ hf.name, fun target htarget => ?_, fun target htarget i hi => ?_⟩
  · obtain ⟨earlier, b, later, -, -, heq, -, -, -, rfl⟩ := hstages.exists_of_mem_blocks htarget
    exact (hkept b (heq ▸ mem_append_right _ mem_cons_self)).label
  · obtain ⟨b, hb, j, hj, n, frame, code, k, -, hyields, hk, rfl⟩ := hstages.exists_yields htarget hi
    exact named_fillPhi (hyields.named ((hkept b hb).action j hj) k hk)

theorem exists_of_mem_lowerAll {defined : List (String × Pos)} {fs : List Function}
    (h : .ok g ∈ lowerAll file defined fs) : ∃ f ∈ fs, f.lower file = .ok g := by
  induction fs generalizing defined with
  | nil => cases h
  | cons f rest ih =>
    unfold lowerAll at h
    split at h
    · rcases mem_cons.1 h with heq | h
      · cases heq
      · obtain ⟨f', hf', hlower⟩ := ih h
        exact ⟨f', mem_cons_of_mem f hf', hlower⟩
    · rcases mem_cons.1 h with heq | h
      · exact ⟨f, mem_cons_self, heq.symm⟩
      · obtain ⟨f', hf', hlower⟩ := ih h
        exact ⟨f', mem_cons_of_mem f hf', hlower⟩

theorem mem_of_allOk {ε α : Type} {results : List (Except ε α)} {as : List α} (h : allOk results = .ok as) {a : α}
    (ha : a ∈ as) : .ok a ∈ results := by
  unfold allOk at h
  split at h
  · cases h
    obtain ⟨r, hr, hopt⟩ := mem_filterMap.1 ha
    cases r with
    | error e => cases hopt
    | ok a' => exact Option.some.inj hopt ▸ hr
  · cases h

section

variable {source : String} {m : IR.Module} (h : readModule file source = .ok m)

include h

theorem exists_of_readModule : ∀ g ∈ m.functions, ∃ f ∈ (readFunctions file source).1, f.lower file = .ok g := by
  intro g hg
  unfold readModule at h
  split at h
  · next functions heq =>
    obtain ⟨gs, hall, rfl⟩ := Success.map_eq_ok.1 h
    rw [heq]
    exact exists_of_mem_lowerAll (mem_of_allOk hall hg)
  · cases h

theorem named_of_readModule : ∀ f ∈ m.functions, f.Named := by
  intro g hg
  obtain ⟨f, hf, hlower⟩ := exists_of_readModule h g hg
  exact named_of_lower (named_of_readFunctions file source f hf) hlower

end

end Llvm

end RegisterCompiler
