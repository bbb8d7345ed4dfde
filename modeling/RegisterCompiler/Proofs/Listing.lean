import RegisterCompiler.Proofs.Acceptance
import RegisterCompiler.Proofs.Lowering
import RegisterCompiler.Proofs.Naming

/-!
# From LLVM text to a listing and back

A program that was compiled from LLVM text is printed and read again. Its labels are made from the names of functions,
which may be any text if they are quoted. They stand the reading if they have no blanks, commas and semicolons, while
those with spaces, tabs, line breaks or semicolons never do.
-/

namespace RegisterCompiler

open Success List

namespace Asm

variable {l : Label} {code : List Instr}

/-! ## Labels that can be read -/

/-- The labels that are read from a text hold no character that would end them. -/
theorem label_of_read {s : String} (h : read s = .ok code) (hl : .label l ∈ code) :
    ∀ c ∈ l.toList, endsLabel c = false := by
  rcases read_cases h hl with ⟨_, ⟨⟩, hlabel⟩ | ⟨cs, -, hread⟩
  · exact hlabel.all
  · cases (taken_of_readLine hread).isSilent

theorem Program.isComment_of_mem_flatten {p : Program} (h : ∀ f ∈ p.functions, ∀ i ∈ f.code, i.isComment = false) :
    ∀ i ∈ p.flatten, i.isComment = false := by
  refine forall_mem_append.2 ⟨?_, fun i hi => ?_⟩
  · unfold start
    split
    · exact forall_mem_nil _
    · exact forall_mem_cons.2 ⟨rfl, forall_mem_cons.2 ⟨rfl, forall_mem_singleton.2 rfl⟩⟩
  · obtain ⟨f, hf, hi⟩ := mem_flatMap.1 hi
    rcases mem_cons.1 hi with rfl | hi
    · rfl
    · exact h f hf i hi

end Asm

/-! ## Programs from LLVM text -/

namespace IR

open Asm (IsName IsWord isNameChar)
open Text (isBlank)

variable {m : Module} {d : Descriptor} {options : CompileOptions} {p : Asm.Program}

theorem isNameChar_of_mem_localNames {f : Function} (hf : f.Named) {edges : Nat} {x : String} (hx : x ∈ f.localNames edges) :
    ∀ c ∈ x.toList, isNameChar c := by
  rcases mem_append.1 hx with hx | hx
  · obtain ⟨b, hb, rfl⟩ := mem_map.1 hx
    exact hf.label b hb
  · obtain ⟨n, -, rfl⟩ := mem_map.1 hx
    rw [String.toList_append, Nat.toString_eq_ofList_toDigits]
    refine forall_mem_append.2 ⟨(show IsName "edge".toList by decide).all, fun c hc => ?_⟩
    rw [String.toList_ofList] at hc
    exact Asm.isNameChar_of_isDigit (Nat.isDigit_of_mem_toDigits (by decide) (by decide) hc)

/-- A program can be compiled if it can be drafted and the draft is valid. -/
theorem Module.drafts_of_compile {out : Output} (h : m.compile d options = .ok out) :
    m.Drafts d options out.program ∧ out.program.Valid := by
  obtain ⟨compiled, hcompiled, hlink⟩ := bind_eq_ok.1 h
  unfold Module.link at hlink
  dsimp only at hlink
  split at hlink
  · next hvalid =>
    cases hlink
    exact ⟨⟨compiled, hcompiled, rfl⟩, Asm.Program.validate_eq_ok.1 hvalid⟩
  · cases hlink

namespace Module.Drafts

theorem standard (hd : d.WellFormed) (hp : m.Drafts d options p) (hnamed : ∀ f ∈ m.functions, f.Named)
    {fn : Asm.Function} (hfn : fn ∈ p.functions) {i : Asm.Instr} (hi : i ∈ fn.code) : i.Standard ∧ i.isComment = false := by
  obtain ⟨f, hf, -, e, rfl, edges, hmakeup⟩ := hp.exists_of_mem hd hfn
  have hfits := hmakeup.code.fits i hi
  have hcode := (hnamed _ hf).code
  refine ⟨⟨hfits.regs, fun op hop => ?_, fun c hc => ?_⟩, hfits.comment⟩
  · rcases hfits.op op hop with rfl | ⟨b, hb, dest, x, y, hbinop⟩
    · decide
    · exact hcode b hb _ hbinop
  · obtain ⟨b, hb, dest, x, y, hcmp⟩ := hfits.cond c hc
    exact hcode b hb _ hcmp

theorem isWord (hd : d.WellFormed) (hp : m.Drafts d options p) (hnamed : ∀ f ∈ m.functions, f.Named)
    (hwords : ∀ f ∈ m.functions, ∀ c ∈ f.name.toList, isBlank c = false ∧ c ≠ ',' ∧ c ≠ ';') :
    ∀ l ∈ p.labels, IsWord l.toList := by
  intro l hl
  rcases Asm.Program.mem_labels_iff.1 hl with ⟨-, rfl⟩ | ⟨fn, hfn, hl⟩
  · exact IsName.isWord (by decide)
  obtain ⟨f, hf, -, e, rfl, edges, hmakeup⟩ := hp.exists_of_mem hd hfn
  have hl : l ∈ fn.name :: fn.code.filterMap Asm.Instr.label? := by
    rcases hl with rfl | hl
    · exact mem_cons_self
    · exact mem_cons_of_mem _ (mem_filterMap.2 ⟨_, hl, rfl⟩)
  rcases mem_labels_of_makeup hmakeup hl with rfl | ⟨x, hx, rfl⟩
  · exact ⟨fun hnil => (hnamed _ hf).name (String.toList_eq_nil_iff.1 hnil), hwords _ hf⟩
  · have hx : ∀ c ∈ x.toList, isBlank c = false ∧ c ≠ ',' ∧ c ≠ ';' := fun c hc => by
      have hchar := isNameChar_of_mem_localNames (hnamed _ hf) hx c hc
      exact (IsName.isWord ⟨cons_ne_nil c [], forall_mem_singleton.2 hchar⟩).all c mem_cons_self
    refine ⟨by simp, ?_⟩
    simp only [String.toList_append]
    have hopening : IsWord ".L".toList := by decide
    have hdot : IsWord ".".toList := by decide
    exact forall_mem_append.2 ⟨hopening.all,
      forall_mem_append.2 ⟨forall_mem_append.2 ⟨hwords _ hf, hdot.all⟩, hx⟩⟩

end Module.Drafts

end IR

namespace Llvm

open Asm (lines lineLimit endsLabel)
open Text (isBlank)

/-- A program that is compiled from LLVM text is printed. If the names of its functions hold no blanks, commas and
    semicolons, its text is read as its listing, as long as no line is too long to be looked at. If the names of its
    functions hold spaces, tabs, line breaks or semicolons, its text is not read as its listing. -/
theorem read_print_compile {file source : String} {m : IR.Module} (hread : readModule file source = .ok m)
    {config : RegisterCompiler.Config} {d : Descriptor} (hd : config.descriptor = .ok d) {options : CompileOptions} {out : Output}
    (hcompile : m.compile d options = .ok out)
    (hlines : ∀ l ∈ lines out.program.text, (String.ofList l).utf8ByteSize < lineLimit) :
    out.program.print = .ok out.program.text ∧
      ((∀ f ∈ m.functions, ∀ c ∈ f.name.toList, isBlank c = false ∧ c ≠ ',' ∧ c ≠ ';') →
        Asm.read out.program.text = .ok out.program.flatten) ∧
      (Asm.read out.program.text = .ok out.program.flatten →
        ∀ f ∈ m.functions, ∀ c ∈ f.name.toList, endsLabel c = false) := by
  have hwell := Config.wellFormed_of_descriptor hd
  have hnamed := named_of_readModule hread
  obtain ⟨hdraft, hvalid⟩ := IR.Module.drafts_of_compile hcompile
  have hstandard : ∀ fn ∈ out.program.functions, ∀ i ∈ fn.code, i.Standard := fun fn hfn i hi =>
    (hdraft.standard hwell hnamed hfn hi).1
  have hcomment : ∀ fn ∈ out.program.functions, ∀ i ∈ fn.code, i.isComment = false := fun fn hfn i hi =>
    (hdraft.standard hwell hnamed hfn hi).2
  refine ⟨Asm.Program.print_eq_ok hvalid hstandard, fun hwords => ?_, fun hsame f hf => ?_⟩
  · have hlabels := hdraft.isWord hwell hnamed hwords
    have htext : ∀ fn ∈ out.program.functions, ∀ text, .comment text ∈ fn.code → '\n' ∉ text.toList :=
      fun fn hfn text hmem => nomatch hcomment fn hfn _ hmem
    -- The instructions that reading leaves out are comments, and there are none.
    rw [Asm.Program.read_text_of_words hvalid hlabels hstandard htext hlines, filter_eq_self.2]
    intro i hi
    rw [Asm.Program.isComment_of_mem_flatten hcomment i hi]
    rfl
  · -- The name of every function is a label of the listing.
    have hname : f.name ∈ out.program.functions.map Asm.Function.name := by
      rw [hdraft.map_name hwell]
      exact mem_map_of_mem hf
    obtain ⟨fn, hfn, hname⟩ := mem_map.1 hname
    rw [← hname]
    refine Asm.label_of_read hsame (mem_append_right _ (mem_flatMap.2 ⟨fn, hfn, mem_cons_self⟩))

namespace Listing

def looping : String :=
  "define i64 @\"to:[0]\"(i64 %n) \x7b\n" ++
  "entry:\n" ++
  "  br label %loop\n" ++
  "loop:\n" ++
  "  %i = phi i64 [ %n, %entry ], [ %j, %loop ]\n" ++
  "  %j = sub i64 %i, 1\n" ++
  "  %c = icmp ne i64 %j, 0\n" ++
  "  br i1 %c, label %loop, label %done\n" ++
  "done:\n" ++
  "  ret i64 %j\n" ++
  "\x7d\n"

def loopModule : IR.Module :=
  let w := Width.w64
  { functions := [
      { name := "to:[0]", params := [⟨1, w⟩], result := w, entry := 0, slots := []
        blocks := [
          ⟨0, "entry", [.jump 1]⟩,
          ⟨1, "loop", [
            .phi ⟨2, w⟩ [⟨0, some (.var ⟨1, w⟩)⟩, ⟨1, some (.var ⟨3, w⟩)⟩],
            .binop .sub ⟨3, w⟩ (some (.var ⟨2, w⟩)) (some (.imm 1 w)),
            .cmp .ne ⟨4, .w8⟩ (some (.var ⟨3, w⟩)) (some (.imm 0 w)),
            .branch (some (.var ⟨4, .w8⟩)) 1 2]⟩,
          ⟨2, "done", [.ret (some (.var ⟨3, w⟩))]⟩] }] }

def loopProgram : Asm.Program :=
  let w := Width.w64
  { entry := "to:[0]"
    functions := [
      { name := "to:[0]", frameSize := 16
        code := [
          .push .fp, .mov w .fp .sp, .aluImm .add w .sp .sp (-16), .store w ⟨2⟩ { base := .fp, offset := -8 },
          .label ".Lto:[0].entry", .mov w ⟨2⟩ ⟨1⟩,
          .label ".Lto:[0].loop", .aluImm .sub w ⟨13⟩ ⟨2⟩ 1, .store w ⟨13⟩ { base := .fp, offset := -16 },
          .load w ⟨13⟩ { base := .fp, offset := -16 }, .cmpImm .ne w ⟨1⟩ ⟨13⟩ 0, .jumpNonzero ⟨1⟩ ".Lto:[0].edge0",
          .label ".Lto:[0].done", .load w ⟨0⟩ { base := .fp, offset := -16 }, .load w ⟨2⟩ { base := .fp, offset := -8 },
          .mov w .sp .fp, .pop .fp, .ret,
          .label ".Lto:[0].edge0", .load w ⟨2⟩ { base := .fp, offset := -16 }, .jump ".Lto:[0].loop"] }] }

theorem read_print_looping :
    readModule "t.ll" looping = .ok loopModule ∧ Meaning.smallConfig.descriptor = .ok Allocation.smallTarget ∧
      (∃ out, loopModule.compile Allocation.smallTarget { entry := "to:[0]" } = .ok out ∧ out.program = loopProgram) ∧
      loopProgram.print = .ok loopProgram.text ∧ Asm.read loopProgram.text = .ok loopProgram.flatten := by
  have hread : readModule "t.ll" looping = .ok loopModule := by decide +kernel
  have hd := Meaning.descriptor_smallConfig
  have hprogram : (loopModule.compile Allocation.smallTarget { entry := "to:[0]" }).toOption.map Output.program =
      some loopProgram := by cbv
  have hsize : loopProgram.text.utf8ByteSize < lineLimit := by decide +kernel
  cases hcompile : loopModule.compile Allocation.smallTarget { entry := "to:[0]" } with
  | error e =>
    rw [hcompile] at hprogram
    cases hprogram
  | ok out =>
    rw [hcompile] at hprogram
    have hprogram : out.program = loopProgram := Option.some.inj hprogram
    have hlines : ∀ l ∈ lines out.program.text, (String.ofList l).utf8ByteSize < lineLimit := fun l hl =>
      Nat.lt_of_le_of_lt (Asm.utf8ByteSize_le_of_mem_lines hl) (hprogram ▸ hsize)
    obtain ⟨hprint, hsame, -⟩ := read_print_compile hread hd hcompile hlines
    rw [hprogram] at hprint hsame
    have hname : Asm.IsWord "to:[0]".toList := by decide
    exact ⟨hread, hd, ⟨out, rfl, hprogram⟩, hprint, hsame (forall_mem_singleton.2 hname.all)⟩

def spaced : String := "define void @\"a b\"() \x7b\n  ret void\n\x7d\n"

def spacedModule : IR.Module :=
  { functions := [
      { name := "a b", params := [], result := .none, blocks := [⟨0, "0", [.ret none]⟩], entry := 0, slots := [] }] }

def spacedProgram : Asm.Program :=
  { entry := ""
    functions := [
      { name := "a b", code := [.push .fp, .mov .w64 .fp .sp, .label ".La b.0", .mov .w64 .sp .fp, .pop .fp, .ret] }] }

theorem read_print_spaced :
    readModule "t.ll" spaced = .ok spacedModule ∧ Meaning.smallConfig.descriptor = .ok Allocation.smallTarget ∧
      (spacedModule.compile Allocation.smallTarget {}).toOption.map Output.program = some spacedProgram ∧
      spacedProgram.print = .ok spacedProgram.text ∧
      Asm.read spacedProgram.text = .error (.line 2 (.unknownMnemonic "a")) := by
  have hvalid : spacedProgram.validate = .ok () := by cbv
  have hprint : spacedProgram.print = .ok spacedProgram.text :=
    Asm.Program.print_eq_ok (Asm.Program.validate_eq_ok.1 hvalid) (by decide)
  exact ⟨by decide +kernel, by cbv, by cbv, hprint, by decide +kernel⟩

end Listing

end Llvm

end RegisterCompiler
