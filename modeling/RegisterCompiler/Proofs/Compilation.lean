import RegisterCompiler.Proofs.Frames
import RegisterCompiler.Proofs.Simulation

/-!
# Compiled modules in the machine

Every function of a module that can be compiled has its code in the program, and the program can be loaded.
-/

namespace RegisterCompiler

open List
open IR (Function Module)
open Machine (Image)
open Success

variable {d : Descriptor} {f : Function} {k : Compiled} {img : Image} {l : Layout}

/-! ## Functions -/

theorem IR.Function.compile_eq_ok (h : f.compile d = .ok k) :
    f.WellFormed ∧ Allocation.ofFunction d f = .ok k.allocation ∧
      Layout.ofFunction d f k.allocation.spilled k.allocation.saved = .ok k.layout ∧
      Emission.code ⟨f, k.allocation, k.layout, d⟩ = .ok k.code := by
  obtain ⟨_, hf, h⟩ := bind_eq_ok.1 h
  obtain ⟨a, ha, h⟩ := bind_eq_ok.1 h
  obtain ⟨l, hl, h⟩ := bind_eq_ok.1 h
  obtain ⟨code, hcode, ⟨⟩⟩ := bind_eq_ok.1 h
  exact ⟨verify_eq_ok.1 (mapError_eq_ok.1 hf), mapError_eq_ok.1 ha, mapError_eq_ok.1 hl,
    mapError_eq_ok.1 hcode⟩

theorem IR.Function.stages_of_compile (h : f.compile d = .ok k)
    (hl : Layout.ofFunction d f (Allocation.assignment d f).spilled (Allocation.assignment d f).saved = .ok l) :
    k.allocation = Allocation.assignment d f ∧ k.layout = l := by
  obtain ⟨-, ha, hl', -⟩ := compile_eq_ok h
  have hallocation := Allocation.eq_assignment_of_ofFunction ha
  rw [hallocation] at hl'
  exact ⟨hallocation, Except.ok.inj (hl'.symm.trans hl)⟩

theorem Emission.linked_of_load {e : Emission} {code : Asm.Function} {prog : Asm.Program} (h : e.code = .ok code)
    (hmem : code ∈ prog.functions) (hload : Image.load prog.flatten = .ok img) : e.Linked img := by
  obtain ⟨before, after, hflatten⟩ := Asm.Program.exists_flatten_eq hmem
  exact linked_of_code h (Image.codeAt_of_append ((Image.load_eq_ok hload).1.trans (congrArg List.toArray hflatten)))

/-- A function whose code has no label twice can be loaded alone. -/
theorem IR.Function.exists_load {labels : List Asm.Label}
    (hlabels : (f.compile d).map (fun k =>
      (Asm.Program.flatten ⟨"", [k.code]⟩).filterMap Asm.Instr.label?) = .ok labels)
    (hnodup : labels.Nodup)
    (hl : Layout.ofFunction d f (Allocation.assignment d f).spilled (Allocation.assignment d f).saved = .ok l) :
    ∃ k img, f.compile d = .ok k ∧ k.allocation = Allocation.assignment d f ∧ k.layout = l ∧
      Image.load (Asm.Program.flatten ⟨"", [k.code]⟩) = .ok img := by
  obtain ⟨k, hk, rfl⟩ := map_eq_ok.1 hlabels
  obtain ⟨hallocation, hlayout⟩ := stages_of_compile hk hl
  obtain ⟨img, hload⟩ := Image.exists_load_iff.2 hnodup
  exact ⟨k, img, hk, hallocation, hlayout, hload⟩

/-! ## Modules -/

def IR.Function.Calls (f : Function) (callee : String) : Prop := ∃ b ∈ f.blocks, ∃ dest args, .call dest callee args ∈ b.code

namespace IR.Module

variable {m : Module} {options : CompileOptions} {compiled : List Compiled} {out : Output} {seen names : List String}
  {α : Type}

theorem nodup_of_repeatedNames (h : repeatedNames seen names = []) : names.Nodup ∧ ∀ n ∈ names, n ∉ seen := by
  induction names generalizing seen with
  | nil => exact ⟨.nil, nofun⟩
  | cons n rest ih =>
    obtain ⟨hn, hrest⟩ := append_eq_nil_iff.1 h
    obtain ⟨hnodup, hfresh⟩ := ih hrest
    have hn : n ∉ seen := by
      intro hmem
      rw [if_pos (contains_iff_mem.2 hmem)] at hn
      cases hn
    refine ⟨nodup_cons.2 ⟨fun hmem => hfresh n hmem mem_cons_self, hnodup⟩, ?_⟩
    exact forall_mem_cons.2 ⟨hn, fun x hx hmem => hfresh x hx (mem_cons_of_mem _ hmem)⟩

theorem eq_map_some_of_mapM_id {l : List (Option α)} {r : List α} (h : l.mapM id = some r) : l = r.map some := by
  induction l generalizing r with
  | nil =>
    cases h
    rfl
  | cons x l ih =>
    rw [mapM_cons] at h
    obtain ⟨a, ha, h⟩ := Option.bind_eq_some_iff.1 h
    obtain ⟨r', hr', ⟨⟩⟩ := Option.bind_eq_some_iff.1 h
    rw [ih hr', map_cons]
    exact congrArg (· :: _) ha

theorem repeatedNames_eq_nil (hnodup : names.Nodup) (hfresh : ∀ n ∈ names, n ∉ seen) :
    repeatedNames seen names = [] := by
  induction names generalizing seen with
  | nil => rfl
  | cons n rest ih =>
    obtain ⟨hn, hnodup⟩ := nodup_cons.1 hnodup
    obtain ⟨hseen, hfresh⟩ := forall_mem_cons.1 hfresh
    have hrest : ∀ x ∈ rest, x ∉ n :: seen := fun x hx hmem => by
      rcases mem_cons.1 hmem with rfl | hmem
      · exact hn hx
      · exact hfresh x hx hmem
    rw [repeatedNames, ih hnodup hrest, if_neg (mt contains_iff_mem.1 hseen)]
    rfl

theorem mapM_id_map_some (l : List α) : (l.map some).mapM id = some l := by
  induction l with
  | nil => rfl
  | cons x l ih =>
    rw [map_cons, mapM_cons, ih]
    rfl

def failure? : Except FunctionError Compiled → Option FunctionError
  | .error e => some e
  | .ok _ => none

theorem failure?_eq_some {r : Except FunctionError Compiled} {e : FunctionError} : failure? r = some e ↔ r = .error e := by
  cases r <;> simp [failure?]

theorem collect_map_some (results : List (Except FunctionError Compiled)) :
    (∃ compiled, collect (results.map some) = .ok compiled ∧ results = compiled.map .ok) ∨
      results.filterMap failure? ≠ [] ∧
        collect (results.map some) = .error (.functions (results.filterMap failure?)) := by
  have hcollect : collect (results.map some) = if (results.filterMap failure?).isEmpty then
      .ok (results.filterMap Except.toOption) else .error (.functions (results.filterMap failure?)) := by
    unfold collect
    rw [mapM_id_map_some]
    rfl
  rw [hcollect]
  by_cases hnone : results.filterMap failure? = []
  · rw [hnone]
    refine .inl ⟨_, rfl, ?_⟩
    -- without failures, the values are all there is
    clear hcollect
    induction results with
    | nil => rfl
    | cons r results ih =>
      obtain ⟨hr, hrest⟩ := forall_mem_cons.1 (filterMap_eq_nil_iff.1 hnone)
      cases r with
      | error e => cases hr
      | ok k => exact congrArg (.ok k :: ·) (ih (filterMap_eq_nil_iff.2 hrest))
  · exact .inr ⟨hnone, if_neg (mt List.isEmpty_iff.1 hnone)⟩

theorem collect_eq_ok {tasks : List (Option (Except FunctionError Compiled))} (h : collect tasks = .ok compiled) :
    tasks = compiled.map fun k => some (.ok k) := by
  cases hresults : tasks.mapM id with
  | none =>
    rw [collect, hresults] at h
    cases h
  | some results =>
    obtain rfl := eq_map_some_of_mapM_id hresults
    rcases collect_map_some results with ⟨compiled', hcompiled, rfl⟩ | ⟨-, herrors⟩
    · cases hcompiled.symm.trans h
      rw [map_map]
      rfl
    · cases herrors.symm.trans h

/-- The functions pass the check and have different names, and what is called is in the module, as is the entry. -/
structure InOrder (m : Module) (entry : String) : Prop where
  verify : ∀ f ∈ m.functions, f.verify = .ok ()
  names : (m.functions.map Function.name).Nodup
  callees : ∀ f ∈ m.functions, ∀ callee, f.Calls callee → (m.function? callee).isSome
  entry : entry = "" ∨ (m.function? entry).isSome

variable {entry : String}

theorem symbolErrors_eq_nil (h : m.InOrder entry) : m.symbolErrors entry = [] := by
  refine append_eq_nil_iff.2 ⟨append_eq_nil_iff.2 ⟨?_, ?_⟩, ?_⟩
  · rw [repeatedNames_eq_nil h.names fun _ _ => not_mem_nil]
    rfl
  · refine if_neg fun ⟨hne, hnone⟩ => ?_
    rw [Option.isNone_iff_eq_none] at hnone
    rcases h.entry with rfl | hsome
    · exact hne rfl
    · rw [hnone] at hsome
      cases hsome
  · refine flatMap_eq_nil_iff.2 fun f hf => flatMap_eq_nil_iff.2 fun b hb => filterMap_eq_nil_iff.2 fun i hi => ?_
    split
    · next dest callee args =>
      obtain ⟨g, hg⟩ := Option.isSome_iff_exists.1 (h.callees f hf callee ⟨b, hb, dest, args, hi⟩)
      rw [hg]
      rfl
    · rfl

theorem inOrder_iff : m.InOrder entry ↔ (∀ f ∈ m.functions, f.verify = .ok ()) ∧ m.symbolErrors entry = [] := by
  refine ⟨fun h => ⟨h.verify, symbolErrors_eq_nil h⟩, fun ⟨hverify, hsymbols⟩ => ?_⟩
  obtain ⟨hsymbols, hcallees⟩ := append_eq_nil_iff.1 hsymbols
  obtain ⟨hnames, hentry⟩ := append_eq_nil_iff.1 hsymbols
  refine ⟨hverify, (nodup_of_repeatedNames (map_eq_nil_iff.1 hnames)).1, ?_, ?_⟩
  · rintro f hf callee ⟨b, hb, dest, args, hi⟩
    have hdefined := filterMap_eq_nil_iff.1 (flatMap_eq_nil_iff.1 (flatMap_eq_nil_iff.1 hcallees f hf) b hb) _ hi
    simpa [Option.isSome_iff_ne_none] using hdefined
  · rw [ite_eq_right_iff] at hentry
    simpa [or_iff_not_imp_left, Option.isSome_iff_ne_none] using hentry

theorem compileFunctions_eq_collect (hsymbols : m.symbolErrors options.entry = []) (hrun : options.cancelled = false) :
    m.compileFunctions d options = collect ((m.functions.map (Function.compile d)).map some) := by
  rw [compileFunctions, hsymbols, hrun, map_map]
  rfl

theorem compileFunctions_eq_ok (h : m.compileFunctions d options = .ok compiled) :
    m.InOrder options.entry ∧ List.Forall₂ (fun f k => f.compile d = .ok k) m.functions compiled := by
  unfold compileFunctions at h
  dsimp only at h
  split at h
  · next hempty =>
    have htasks := collect_eq_ok h
    rw [← forall₂_eq_eq_eq, forall₂_map_left_iff, forall₂_map_right_iff] at htasks
    have hall : List.Forall₂ (fun f k => f.compile d = .ok k) m.functions compiled := htasks.imp fun f k htask => by
      split at htask
      · cases htask
      · exact Option.some.inj htask
    refine ⟨inOrder_iff.2 ⟨fun f hf => ?_, List.isEmpty_iff.1 hempty⟩, hall⟩
    obtain ⟨k, -, hk⟩ := exists_of_mem_left hall hf
    obtain ⟨hwell, -⟩ := IR.Function.compile_eq_ok hk
    exact Function.verify_eq_ok.2 hwell
  · cases h

/-- In a module that can be compiled the names are in order, and each function has its code in the program. -/
theorem compile_eq_ok (h : m.compile d options = .ok out) :
    (m.functions.map Function.name).Nodup ∧
      (∀ f ∈ m.functions, ∀ b ∈ f.blocks, ∀ dest callee args, .call dest callee args ∈ b.code →
        ∃ g, m.function? callee = some g) ∧
      (∀ f ∈ m.functions, ∃ k, f.compile d = .ok k ∧ k.code ∈ out.program.functions) ∧
      out.program.validate = .ok () := by
  obtain ⟨compiled, hcompiled, hlink⟩ := bind_eq_ok.1 h
  obtain ⟨horder, hall⟩ := compileFunctions_eq_ok hcompiled
  unfold link at hlink
  dsimp only at hlink
  split at hlink
  · next hvalid =>
    cases hlink
    refine ⟨horder.names, fun f hf b hb dest callee args hcall => ?_, fun f hf => ?_, hvalid⟩
    · exact Option.isSome_iff_exists.1 (horder.callees f hf callee ⟨b, hb, dest, args, hcall⟩)
    · obtain ⟨k, hk, hcompile⟩ := exists_of_mem_left hall hf
      exact ⟨k, hcompile, mem_map_of_mem hk⟩
  · cases hlink

theorem function?_name (hnames : (m.functions.map Function.name).Nodup) (hf : f ∈ m.functions) :
    m.function? f.name = some f := by
  unfold function?
  cases hfind : m.functions.find? (·.name == f.name) with
  | none => simpa using find?_eq_none.1 hfind f hf
  | some g =>
    have hname : g.name = f.name := by simpa using find?_some hfind
    exact congrArg some (inj_on_of_nodup_map hnames (mem_of_find?_eq_some hfind) hf hname)

/-- The size of the frame of every function is within its bound, not only as a word. -/
def FitsFrames (m : Module) (d : Descriptor) : Prop :=
  ∀ f ∈ m.functions, ∀ a, Allocation.ofFunction d f = .ok a → Layout.extent d f a.spilled a.saved ≤ d.maxFrame.toInt

end IR.Module

theorem Emission.exists_carried {m : Module} {options : CompileOptions} {out : Output} (hd : d.WellFormed)
    (h : m.compile d options = .ok out) (hfits : m.FitsFrames d) (hload : Image.load out.program.flatten = .ok img)
    (hf : f ∈ m.functions) : ∃ e : Emission, e.function = f ∧ e.Carried img d m := by
  obtain ⟨-, -, hfunctions, -⟩ := IR.Module.compile_eq_ok h
  obtain ⟨k, hk, hmem⟩ := hfunctions f hf
  obtain ⟨hwell, ha, hl, hemit⟩ := IR.Function.compile_eq_ok hk
  exact ⟨⟨f, k.allocation, k.layout, d⟩, rfl, Emission.sound hd hwell ha hl (hfits f hf _ ha),
    Emission.linked_of_load hemit hmem hload, rfl, hf⟩

/-- The program of a compiled module can be loaded, and then the machine has its functions. -/
theorem Machine.Image.exists_carries {m : Module} {options : CompileOptions} {out : Output} (hd : d.WellFormed)
    (h : m.compile d options = .ok out) (hregular : m.Regular) (hfits : m.FitsFrames d)
    (hsmall : out.program.flatten.length < 2 ^ 63) :
    ∃ img, Image.load out.program.flatten = .ok img ∧ img.Carries d m := by
  obtain ⟨-, hcallees, -, hvalid⟩ := IR.Module.compile_eq_ok h
  obtain ⟨img, hload, hcode, hresolves⟩ := Image.exists_load hvalid
  exact ⟨img, hload, hresolves, hregular, by simpa [hcode] using hsmall,
    fun f hf => Emission.exists_carried hd h hfits hload hf, hcallees⟩

end RegisterCompiler
