import RegisterCompiler.Proofs.Makeup
import RegisterCompiler.Proofs.Meaning

/-!
# Labels of a module

The labels in the code of a function are made from its name: the block `b` of the function `f` has the label `.Lf.b`, and
the code on the `n`-th edge the label `.Lf.edgen`. Two of the texts may be equal although they are made from different
names, and then the program is not valid. This is the only way in which the compilation of a module in order can go wrong
inside the compiler.
-/

namespace RegisterCompiler

open List
open IR (Block Function Module)
open Success

/-! ## Failures -/

/-- Whether the code generator failed for other reasons than a lack of instructions of the machine. -/
def FunctionError.isInternal : FunctionError → Bool
  | emit _ (.unsupported ..) => false
  | emit .. => true
  | verify _ | capacity _ | frame _ => false

/-- Whether the compiler is to blame for a failure. -/
def ModuleError.isInternal : ModuleError → Bool
  | functions errors => errors.any FunctionError.isInternal
  | invalid _ => true
  | symbols _ | cancelled => false

/-- The code generator makes no mistakes in functions that the check accepts. -/
theorem FunctionError.isInternal_of_compile {d : Descriptor} {f : Function} (hf : f.verify = .ok ()) {e : FunctionError}
    (he : f.compile d = .error e) : e.isInternal = false := by
  -- The stages in turn. What the check refuses is excluded, and what the code generator lacks is an instruction.
  rcases bind_eq_error.1 he with he | ⟨_, -, he⟩
  · rw [hf] at he
    cases he
  rcases bind_eq_error.1 he with he | ⟨a, ha, he⟩
  · obtain ⟨_, -, rfl⟩ := mapError_eq_error.1 he
    rfl
  rcases bind_eq_error.1 he with he | ⟨l, hl, he⟩
  · obtain ⟨_, -, rfl⟩ := mapError_eq_error.1 he
    rfl
  rcases bind_eq_error.1 he with he | ⟨code, -, he⟩
  · obtain ⟨cause, hcause, rfl⟩ := mapError_eq_error.1 he
    have hready := Emission.ready (IR.Function.verify_eq_ok.1 hf) (mapError_eq_ok.1 ha) (mapError_eq_ok.1 hl)
    rcases hready.code [] with ⟨code, hcode, -⟩ | ⟨-, _, _, _, _, _, _, herror⟩
    · cases hcode.symm.trans hcause
    · cases herror.symm.trans hcause
      rfl
  · cases he

/-! ## Names in labels -/

/-- The names that stand in the labels of a function: those of its blocks, and those of the first so many edges. -/
def IR.Function.localNames (f : Function) (edges : Nat) : List String :=
  f.blocks.map Block.label ++ (List.range edges).map fun n => "edge" ++ toString n

theorem Emission.labels_eq (e : Emission) (edges : Nat) :
    e.labels edges = (e.function.localNames edges).map fun x => ".L" ++ (e.function.name ++ "." ++ x) := by
  have hblock : ∀ b, e.blockName b = ".L" ++ (e.function.name ++ "." ++ b.label) := fun b => by
    rw [blockName, String.append_assoc, String.append_assoc, String.append_assoc]
  have hedge : ∀ n, e.edgeLabel n = ".L" ++ (e.function.name ++ "." ++ ("edge" ++ toString n)) := fun n => by
    rw [edgeLabel, show ".edge" = "." ++ "edge" from rfl]
    simp only [String.append_assoc]
  rw [labels, blockNames, IR.Function.localNames, map_append, map_map, map_map]
  exact congrArg₂ _ (map_congr_left fun b _ => hblock b) (map_congr_left fun n _ => hedge n)

theorem edge_inj {n k : Nat} (h : "edge" ++ toString n = "edge" ++ toString k) : n = k := by
  have htext := (String.append_right_inj _).1 h
  rw [Nat.toString_eq_ofList_toDigits, Nat.toString_eq_ofList_toDigits] at htext
  have hdigits := String.ofList_injective htext
  rw [← Nat.ofDigitChars_ten_toDigits (n := n), hdigits, Nat.ofDigitChars_ten_toDigits]

theorem notMem_edge (n : Nat) : '.' ∉ ("edge" ++ toString n).toList := by
  rw [String.toList_append, Nat.toString_eq_ofList_toDigits, mem_append, not_or]
  refine ⟨by decide, fun hdot => ?_⟩
  rw [String.toList_ofList] at hdot
  have hdigit : '.'.isDigit := Nat.isDigit_of_mem_toDigits (by decide) (by decide) hdot
  exact absurd hdigit (by decide)

theorem toList_append_dot (a x : String) : (a ++ "." ++ x).toList = a.toList ++ '.' :: x.toList := by simp

theorem suffix_of_append_dot {a b x y : List Char} (hy : '.' ∉ y) (h : a ++ '.' :: x = b ++ '.' :: y) :
    '.' :: y <:+ '.' :: x := by
  -- Both stand at the end of one text. Were it `x` that is shorter, its dot would stand in `y`.
  have hx : '.' :: x <:+ b ++ '.' :: y := h ▸ suffix_append a _
  rcases suffix_or_suffix_of_suffix (suffix_append b _) hx with hsuffix | hsuffix
  · exact hsuffix
  · rcases suffix_cons_iff.1 hsuffix with heq | hsuffix
    · exact heq ▸ suffix_refl _
    · exact absurd (hsuffix.mem mem_cons_self) hy

namespace IR.Module

/-- A condition on the names of a module under which the labels that are made from them are different. -/
structure PlainlyNamed (m : Module) (entry : String) : Prop where
  /-- The names of functions do not begin like labels. -/
  function : ∀ f ∈ m.functions, ¬".L".toList <+: f.name.toList
  /-- No function has the name of the start of the program. -/
  start : entry ≠ "" → ∀ f ∈ m.functions, f.name ≠ Asm.startLabel
  /-- Blocks of different functions have different names, if the names of the functions are put before them. -/
  block : ∀ f ∈ m.functions, ∀ g ∈ m.functions, ∀ b ∈ f.blocks, ∀ c ∈ g.blocks,
    f.name ++ "." ++ b.label = g.name ++ "." ++ c.label → f.name = g.name
  /-- The names of blocks are not those of edges, and do not end with a dot and one of those. -/
  edge : ∀ f ∈ m.functions, ∀ b ∈ f.blocks, ∀ n : Nat, ¬ '.' :: ("edge" ++ toString n).toList <:+ '.' :: b.label.toList

variable {m : Module} {entry x y : String} {f g : Function} {j k : Nat}

namespace PlainlyNamed

variable (h : m.PlainlyNamed entry) (hf : f ∈ m.functions)
include h hf

theorem block_ne_edge {b : Block} (hb : b ∈ f.blocks) (x y : String) (n : Nat) :
    x ++ "." ++ b.label ≠ y ++ "." ++ ("edge" ++ toString n) := by
  intro heq
  have hlist := congrArg String.toList heq
  rw [toList_append_dot, toList_append_dot] at hlist
  exact h.edge f hf b hb n (suffix_of_append_dot (notMem_edge n) hlist)

theorem name_eq (hg : g ∈ m.functions) (hx : x ∈ f.localNames j) (hy : y ∈ g.localNames k)
    (heq : f.name ++ "." ++ x = g.name ++ "." ++ y) : f.name = g.name := by
  -- Two blocks are told apart by the condition on names. In the other cases there is an edge, whose name has no dot, so
  -- that it begins behind the last one.
  rcases mem_append.1 hx with hx | hx <;> rcases mem_append.1 hy with hy | hy
  · obtain ⟨b, hb, rfl⟩ := mem_map.1 hx
    obtain ⟨c, hc, rfl⟩ := mem_map.1 hy
    exact h.block f hf g hg b hb c hc heq
  · obtain ⟨b, hb, rfl⟩ := mem_map.1 hx
    obtain ⟨n, -, rfl⟩ := mem_map.1 hy
    exact absurd heq (h.block_ne_edge hf hb _ _ n)
  · obtain ⟨n, -, rfl⟩ := mem_map.1 hx
    obtain ⟨c, hc, rfl⟩ := mem_map.1 hy
    exact absurd heq.symm (h.block_ne_edge hg hc _ _ n)
  · obtain ⟨n, -, rfl⟩ := mem_map.1 hx
    obtain ⟨i, -, rfl⟩ := mem_map.1 hy
    have hlist := congrArg String.toList heq
    rw [toList_append_dot, toList_append_dot] at hlist
    rcases suffix_cons_iff.1 (suffix_of_append_dot (notMem_edge i) hlist) with hsame | hsuffix
    · rw [hsame] at hlist
      exact String.toList_inj.1 (append_cancel_right hlist)
    · exact absurd (hsuffix.mem mem_cons_self) (notMem_edge n)

theorem nodup_localNames (hwell : f.WellFormed) : (f.localNames k).Nodup := by
  refine nodup_append.2 ⟨hwell.labels, ?_, ?_⟩
  · exact nodup_range.map fun _ _ => edge_inj
  · rintro _ hx _ hy rfl
    obtain ⟨b, hb, rfl⟩ := mem_map.1 hx
    obtain ⟨n, -, hn⟩ := mem_map.1 hy
    exact h.block_ne_edge hf hb "" "" n (by rw [hn])

end PlainlyNamed

/-! ## Labels of a program -/

/-- The program of a module before it is checked. -/
def Drafts (m : Module) (d : Descriptor) (options : CompileOptions) (p : Asm.Program) : Prop :=
  ∃ compiled, m.compileFunctions d options = .ok compiled ∧ p = ⟨options.entry, compiled.map Compiled.code⟩

variable {d : Descriptor} {options : CompileOptions} {p : Asm.Program}

theorem compileFunctions_cases (h : m.InOrder options.entry) (hrun : options.cancelled = false) :
    (∃ compiled, m.compileFunctions d options = .ok compiled) ∨
      ∃ e, m.compileFunctions d options = .error e ∧ e.isInternal = false := by
  rw [compileFunctions_eq_collect (symbolErrors_eq_nil h) hrun]
  rcases collect_map_some (m.functions.map (Function.compile d)) with ⟨compiled, hok, -⟩ | ⟨-, herrors⟩
  · exact .inl ⟨compiled, hok⟩
  · refine .inr ⟨_, herrors, any_eq_false.2 fun e he => ?_⟩
    obtain ⟨r, hr, hfailure⟩ := mem_filterMap.1 he
    obtain ⟨f, hf, hcompile⟩ := mem_map.1 hr
    rw [failure?_eq_some.1 hfailure] at hcompile
    rw [FunctionError.isInternal_of_compile (h.verify f hf) hcompile]
    exact Bool.false_ne_true

namespace Drafts

variable {fn : Asm.Function}

theorem inOrder (hp : m.Drafts d options p) : m.InOrder options.entry := by
  obtain ⟨compiled, hcompiled, rfl⟩ := hp
  exact (compileFunctions_eq_ok hcompiled).1

theorem entry_eq (hp : m.Drafts d options p) : p.entry = options.entry := by
  obtain ⟨compiled, hcompiled, rfl⟩ := hp
  rfl

variable (hd : d.WellFormed) (hp : m.Drafts d options p)
include hd hp

theorem forall₂ :
    List.Forall₂ (fun f fn => f.WellFormed ∧ ∃ e : Emission, e.function = f ∧ ∃ edges, e.Makeup edges fn)
      m.functions p.functions := by
  obtain ⟨compiled, hcompiled, rfl⟩ := hp
  rw [forall₂_map_right_iff]
  refine (compileFunctions_eq_ok hcompiled).2.imp fun f k hk => ?_
  obtain ⟨hf, ha, hl, hcode⟩ := IR.Function.compile_eq_ok hk
  exact ⟨hf, _, rfl, Emission.makeup_of_code (Emission.grounded hd hf ha hl) hcode⟩

theorem exists_of_mem (hfn : fn ∈ p.functions) :
    ∃ f ∈ m.functions, f.WellFormed ∧ ∃ e : Emission, e.function = f ∧ ∃ edges, e.Makeup edges fn :=
  exists_of_mem_right (hp.forall₂ hd) hfn

theorem map_name : p.functions.map Asm.Function.name = m.functions.map Function.name := by
  refine forall₂_eq_eq_eq ▸ forall₂_map_left_iff.2 (forall₂_map_right_iff.2 ?_)
  refine (hp.forall₂ hd).flip.imp ?_
  rintro fn f ⟨-, e, rfl, edges, hfn⟩
  exact hfn.name

theorem mem_labels_of_function? {name : String} (hname : (m.function? name).isSome) : name ∈ p.labels := by
  obtain ⟨f, hf⟩ := Option.isSome_iff_exists.1 hname
  have hmem : name ∈ m.functions.map Function.name :=
    mem_map.2 ⟨f, mem_of_find?_eq_some hf, by simpa using find?_some hf⟩
  rw [← hp.map_name hd] at hmem
  obtain ⟨fn, hfn, rfl⟩ := mem_map.1 hmem
  exact Asm.Program.mem_labels_iff.2 (.inr ⟨fn, hfn, .inl rfl⟩)

theorem mem_labels_of_target (hfn : fn ∈ p.functions) {i : Asm.Instr} (hi : i ∈ fn.code) {l : Asm.Label}
    (hl : l ∈ i.target?) : l ∈ p.labels := by
  obtain ⟨f, hf, -, e, rfl, edges, hmakeup⟩ := hp.exists_of_mem hd hfn
  -- A jump stays in the function, while a call leads to a function of the module.
  rcases hmakeup.code.target i hi l hl with hlabel | hcalls
  · rw [← hmakeup.code.label] at hlabel
    obtain ⟨i, hi, hl⟩ := mem_filterMap.1 hlabel
    cases i <;> cases hl
    exact Asm.Program.mem_labels_iff.2 (.inr ⟨fn, hfn, .inr hi⟩)
  · exact hp.mem_labels_of_function? hd (hp.inOrder.callees _ hf l hcalls)

/-- Nothing but a clash of labels makes the program of a module invalid. -/
theorem valid_iff : p.Valid ↔ p.labels.Nodup := by
  refine ⟨Asm.Program.Valid.nodup, fun hnodup => ⟨hnodup, ?_, fun fn hfn i hi l hl => ?_, fun fn hfn i hi => ?_⟩⟩
  · rw [hp.entry_eq]
    exact hp.inOrder.entry.imp_right fun hentry => hp.mem_labels_of_function? hd hentry
  · exact hp.mem_labels_of_target hd hfn hi hl
  · obtain ⟨f, hf, -, e, rfl, edges, hmakeup⟩ := hp.exists_of_mem hd hfn
    exact (hmakeup.code.fits i hi).width

end Drafts

theorem mem_labels_of_makeup {e : Emission} {edges : Nat} {fn : Asm.Function} (hfn : e.Makeup edges fn) {l : Asm.Label}
    (hl : l ∈ fn.name :: fn.code.filterMap Asm.Instr.label?) :
    l = e.function.name ∨ ∃ x ∈ e.function.localNames edges, l = ".L" ++ (e.function.name ++ "." ++ x) := by
  rw [hfn.name, hfn.code.label, Emission.labels_eq] at hl
  refine (mem_cons.1 hl).imp_right fun hl => ?_
  obtain ⟨x, hx, rfl⟩ := mem_map.1 hl
  exact ⟨x, hx, rfl⟩

namespace PlainlyNamed

theorem name_ne (h : m.PlainlyNamed entry) (hf : f ∈ m.functions) (x : String) : f.name ≠ ".L" ++ x := by
  intro heq
  refine h.function f hf ?_
  rw [heq, String.toList_append]
  exact prefix_append _ _

theorem nodup_labels (h : m.PlainlyNamed options.entry) (hd : d.WellFormed) (hp : m.Drafts d options p) : p.labels.Nodup := by
  have hlabels : p.labels = (if p.entry = "" then [] else [Asm.startLabel]) ++
      p.functions.flatMap fun fn => fn.name :: fn.code.filterMap Asm.Instr.label? := by
    unfold Asm.Program.labels Asm.Program.definitions
    rw [map_append, map_flatMap, apply_ite (List.map Prod.snd)]
    simp [Function.comp_def]
  rw [hlabels]
  refine nodup_append.2 ⟨by split <;> simp, nodup_flatMap.2 ⟨fun fn hfn => ?_, ?_⟩, ?_⟩
  · -- the labels of one function
    obtain ⟨f, hf, hwell, e, rfl, edges, hmakeup⟩ := hp.exists_of_mem hd hfn
    rw [hmakeup.name, hmakeup.code.label, Emission.labels_eq]
    refine nodup_cons.2 ⟨fun hmem => ?_, (h.nodup_localNames hf hwell).map fun x y hxy => ?_⟩
    · obtain ⟨x, -, heq⟩ := mem_map.1 hmem
      exact h.name_ne hf _ heq.symm
    · exact (String.append_right_inj _).1 ((String.append_right_inj _).1 hxy)
  · -- the labels of two functions
    have hnames : (p.functions.map Asm.Function.name).Nodup := (hp.map_name hd).symm ▸ hp.inOrder.names
    refine (pairwise_map.1 hnames).imp_of_mem fun {fn fn'} hfn hfn' hne l hl hl' => hne ?_
    obtain ⟨f, hf, -, e, rfl, edges, hmakeup⟩ := hp.exists_of_mem hd hfn
    obtain ⟨f', hf', -, e', rfl, edges', hmakeup'⟩ := hp.exists_of_mem hd hfn'
    rw [hmakeup.name, hmakeup'.name]
    rcases mem_labels_of_makeup hmakeup hl with rfl | ⟨x, hx, rfl⟩
    · rcases mem_labels_of_makeup hmakeup' hl' with heq | ⟨y, hy, heq⟩
      · exact heq
      · exact absurd heq (h.name_ne hf _)
    · rcases mem_labels_of_makeup hmakeup' hl' with heq | ⟨y, hy, heq⟩
      · exact absurd heq.symm (h.name_ne hf' _)
      · exact h.name_eq hf hf' hx hy ((String.append_right_inj _).1 heq)
  · -- the start of the program
    intro l hl l' hl' heq
    subst heq
    split at hl
    · cases hl
    · next hentry =>
      rw [hp.entry_eq] at hentry
      rw [mem_singleton] at hl
      subst hl
      obtain ⟨fn, hfn, hl⟩ := mem_flatMap.1 hl'
      obtain ⟨f, hf, -, e, rfl, edges, hmakeup⟩ := hp.exists_of_mem hd hfn
      rcases mem_labels_of_makeup hmakeup hl with heq | ⟨x, -, heq⟩
      · exact h.start hentry _ hf heq.symm
      · have hlist := congrArg String.toList heq
        rw [String.toList_append] at hlist
        cases hlist

end PlainlyNamed

/-- The compiler is to blame for a failure exactly if the program that it made is not valid. -/
theorem isInternal_iff_not_valid (h : m.InOrder options.entry) (hrun : options.cancelled = false) :
    (∃ e, m.compile d options = .error e ∧ e.isInternal) ↔ ∃ p, m.Drafts d options p ∧ ¬p.Valid := by
  constructor
  · rintro ⟨e, he, hinternal⟩
    -- No failure in a single function is internal, so the functions are compiled and it is the program that fails.
    rcases bind_eq_error.1 he with he | ⟨compiled, hcompiled, he⟩
    · rcases compileFunctions_cases (d := d) h hrun with ⟨compiled, hcompiled⟩ | ⟨e', he', hfalse⟩
      · cases hcompiled.symm.trans he
      · cases he'.symm.trans he
        rw [hfalse] at hinternal
        cases hinternal
    · refine ⟨_, ⟨compiled, hcompiled, rfl⟩, fun hvalid => ?_⟩
      rw [link, Asm.Program.validate_eq_ok.2 hvalid] at he
      cases he
  · rintro ⟨_, ⟨compiled, hcompiled, rfl⟩, hinvalid⟩
    cases hvalidate : Asm.Program.validate ⟨options.entry, compiled.map Compiled.code⟩ with
    | ok _ => exact absurd (Asm.Program.validate_eq_ok.1 hvalidate) hinvalid
    | error e =>
      refine ⟨.invalid e, bind_eq_error.2 (.inr ⟨compiled, hcompiled, ?_⟩), rfl⟩
      rw [link, hvalidate]

/-- The compiler is to blame for a failure to compile a module in order exactly if two labels of the program are equal.
    All jumps and calls of the program lead to labels. The labels are different, and the compiler is not to blame for any
    failure, if the names of the module are plain. -/
theorem isInternal_iff_not_nodup_labels {config : RegisterCompiler.Config} (hd : config.descriptor = .ok d)
    (h : m.InOrder options.entry) (hrun : options.cancelled = false) :
    ((∃ e, m.compile d options = .error e ∧ e.isInternal) ↔ ∃ p, m.Drafts d options p ∧ ¬p.labels.Nodup) ∧
      (∀ p, m.Drafts d options p → ∀ fn ∈ p.functions, ∀ i ∈ fn.code, ∀ l ∈ i.target?, l ∈ p.labels) ∧
      (m.PlainlyNamed options.entry → (∀ p, m.Drafts d options p → p.labels.Nodup) ∧
        ∀ e, m.compile d options = .error e → e.isInternal = false) := by
  have hwell := Config.wellFormed_of_descriptor hd
  have hiff : (∃ e, m.compile d options = .error e ∧ e.isInternal) ↔ ∃ p, m.Drafts d options p ∧ ¬p.labels.Nodup := by
    rw [isInternal_iff_not_valid h hrun]
    exact exists_congr fun p => and_congr_right fun hp => not_congr (hp.valid_iff hwell)
  refine ⟨hiff, fun p hp fn hfn i hi l hl => hp.mem_labels_of_target hwell hfn hi hl, fun hplain => ?_⟩
  have hnodup : ∀ p, m.Drafts d options p → p.labels.Nodup := fun p hp => hplain.nodup_labels hwell hp
  refine ⟨hnodup, fun e he => Bool.eq_false_iff.2 fun hinternal => ?_⟩
  obtain ⟨p, hp, hclash⟩ := hiff.1 ⟨e, he, hinternal⟩
  exact hclash (hnodup p hp)

namespace Naming

/-- Two versions of a loop around a call. The name of the one begins with the name of the other and a dot. -/
def versions : Module :=
  { functions := Meaning.counting.functions ++ [{ Allocation.countdown with name := "countdown.1" }] }

/-- Names of blocks in which `.edge` does not occur are not those of edges. -/
theorem not_edge_suffix {label : String} (h : ¬".edge".toList <:+: '.' :: label.toList) (n : Nat) :
    ¬ '.' :: ("edge" ++ toString n).toList <:+ '.' :: label.toList := by
  intro hsuffix
  refine h (.trans ?_ hsuffix.isInfix)
  rw [String.toList_append]
  exact (prefix_append ".edge".toList _).isInfix

theorem isInternal_versions :
    Meaning.smallConfig.descriptor = .ok Allocation.smallTarget ∧ versions.InOrder "countdown" ∧
      versions.PlainlyNamed "countdown" ∧
      (∃ p, versions.Drafts Allocation.smallTarget { entry := "countdown" } p ∧ p.labels.length = 13 ∧ p.labels.Nodup) ∧
      ∀ e, versions.compile Allocation.smallTarget { entry := "countdown" } = .error e → e.isInternal = false := by
  have hd := Meaning.descriptor_smallConfig
  have horder : versions.InOrder "countdown" := inOrder_iff.2 ⟨by decide +kernel, by decide +kernel⟩
  have hplain : versions.PlainlyNamed "countdown" :=
    { function := by decide +kernel
      start := by decide +kernel
      block := by decide +kernel
      edge := by
        have hoccurs : ∀ f ∈ versions.functions, ∀ b ∈ f.blocks, ¬".edge".toList <:+: '.' :: b.label.toList := by decide +kernel
        exact fun f hf b hb => not_edge_suffix (hoccurs f hf b hb) }
  have hlength : (versions.compileFunctions Allocation.smallTarget { entry := "countdown" }).toOption.map
      (fun compiled => (Asm.Program.labels ⟨"countdown", compiled.map Compiled.code⟩).length) = some 13 := by cbv
  have hrun : ({ entry := "countdown" } : CompileOptions).cancelled = false := rfl
  obtain ⟨hnodup, hfails⟩ := (isInternal_iff_not_nodup_labels hd horder hrun).2.2 hplain
  refine ⟨hd, horder, hplain, ?_, hfails⟩
  cases hcompiled : versions.compileFunctions Allocation.smallTarget { entry := "countdown" } with
  | error e =>
    rw [hcompiled] at hlength
    cases hlength
  | ok compiled =>
    rw [hcompiled] at hlength
    exact ⟨_, ⟨compiled, hcompiled, rfl⟩, Option.some.inj hlength, hnodup _ ⟨compiled, hcompiled, rfl⟩⟩

/-- Two functions whose blocks get the same label. -/
def clashing : Module :=
  { functions := [
      { name := "a", params := [], result := .none, blocks := [⟨0, "b.c", [.ret none]⟩], entry := 0, slots := [] },
      { name := "a.b", params := [], result := .none, blocks := [⟨0, "c", [.ret none]⟩], entry := 0, slots := [] }] }

/-- Names that are different and in order do not make different labels. -/
theorem compile_clashing :
    Meaning.smallConfig.descriptor = .ok Allocation.smallTarget ∧ clashing.InOrder "" ∧
      clashing.compile Allocation.smallTarget {} = .error (.invalid ⟨"a.b", .repeatedLabel ".La.b.c" "a"⟩) ∧
      (ModuleError.invalid ⟨"a.b", .repeatedLabel ".La.b.c" "a"⟩).isInternal := by
  refine ⟨by cbv, inOrder_iff.2 ⟨by decide +kernel, by decide +kernel⟩, by cbv, rfl⟩

end Naming

end IR.Module

end RegisterCompiler
