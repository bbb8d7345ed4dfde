import RegisterCompiler.Proofs.Spelling

/-!
# Assembly text is read again

The text of a program is a line for each of its instructions, with some lines between them that say nothing. Every line is
read as what was written in it, as long as names hold no character that ends them.
-/

namespace RegisterCompiler.Asm

open List
open Text (trimChars isBlank)

variable {l : Label}

/-! ## Lines -/

/-- A carriage return at the end of a line makes no difference. -/
theorem readText_dropLast (cs : List Char) :
    readText (if cs.getLast? = some '\r' then cs.dropLast else cs) = readText cs := by
  split
  · next hlast =>
    obtain ⟨us, rfl⟩ := getLast?_eq_some_iff.1 hlast
    have htrim : trimChars (cut ';' us).1 = trimChars (cut ';' (us ++ ['\r'])).1 := by
      by_cases hmem : ';' ∈ us
      · obtain ⟨before, after, rfl, hbefore⟩ := eq_append_cons_of_mem hmem
        rw [append_assoc, cons_append, cut_append hbefore, cut_append hbefore]
      · rw [cut_of_notMem hmem, cut_of_notMem (by simpa using hmem), Text.trimChars_concat rfl]
    rw [dropLast_concat, readText, readText, htrim]
  · rfl

/-- Nor does a tab at its beginning. -/
theorem readText_tab (cs : List Char) : readText ('\t' :: cs) = readText cs := by
  have htrim : trimChars (cut ';' ('\t' :: cs)).1 = trimChars (cut ';' cs).1 := by
    by_cases hmem : ';' ∈ cs
    · obtain ⟨before, after, rfl, hbefore⟩ := eq_append_cons_of_mem hmem
      rw [← cons_append, cut_append (by simpa using hbefore), cut_append hbefore, Text.trimChars_cons rfl]
    · rw [cut_of_notMem hmem, cut_of_notMem (by simpa using hmem), Text.trimChars_cons rfl]
  rw [readText, readText, htrim]

/-- A line of assembly, with the instruction that stands in it. -/
structure Line where
  text : String
  holds : Option Instr

/-- A line is read as what it holds. -/
structure Line.Reads (l : Line) : Prop where
  unbroken : '\n' ∉ l.text.toList
  read : readText l.text.toList = .ok l.holds

theorem readText_comment (cs : List Char) : readText ('\t' :: ';' :: cs) = .ok none := by
  have hcut : cut ';' ('\t' :: ';' :: cs) = (['\t'], some cs) := cut_append (u := ['\t']) (by decide) cs
  rw [readText, hcut]
  rfl

theorem readText_label (h : IsLabel l.toList) : readText (l ++ ":").toList = .ok (some (.label l)) := by
  have hall : ∀ c ∈ l.toList, c ≠ ';' ∧ c ≠ ' ' ∧ c ≠ '\t' := fun c hc => by
    have := h.all c hc
    simp only [endsLabel, Bool.or_eq_false_iff, beq_eq_false_iff_ne] at this
    exact ⟨this.2, this.1.1⟩
  have hcut : cut ';' (l ++ ":").toList = ((l ++ ":").toList, none) :=
    cut_of_notMem (by simpa using fun hmem => (hall _ hmem).1 rfl)
  have htrim : trimChars (l ++ ":").toList = (l ++ ":").toList := by
    rw [String.toList_append]
    refine Text.trimChars_eq_self (fun c hc => ?_) (by simp [isBlank])
    cases hl : l.toList with
    | nil =>
      rw [hl] at hc
      cases hc
      rfl
    | cons d ds =>
      rw [hl] at hc
      exact h.first c (hl ▸ hc)
  have hlabel : isLabelLine (l ++ ":").toList := by
    have hnoblank : ∀ c ∈ (l ++ ":").toList, (c != ' ' && c != '\t') = true := by
      rw [String.toList_append]
      refine forall_mem_append.2 ⟨fun c hc => ?_, forall_mem_singleton.2 (by decide)⟩
      simpa using (hall c hc).2
    exact Bool.and_eq_true_iff.2 ⟨by simp, all_eq_true.2 hnoblank⟩
  rw [readText, hcut]
  dsimp only
  rw [htrim, if_neg (by simp), if_pos hlabel]
  simp

theorem readText_global (h : IsWord l.toList) : readText ("\t.global\t" ++ l).toList = .ok none := by
  have hlist : ("\t.global\t" ++ l).toList = '\t' :: (".global\t".toList ++ l.toList) := by simp
  have hcut : cut ';' ("\t.global\t" ++ l).toList = (("\t.global\t" ++ l).toList, none) :=
    cut_of_notMem (by simpa using fun hmem => (h.all _ hmem).2.2 rfl)
  have htrim : trimChars ("\t.global\t" ++ l).toList = ".global\t".toList ++ l.toList := by
    rw [hlist, Text.trimChars_cons rfl]
    refine Text.trimChars_eq_self ?_ ?_
    · rintro c ⟨⟩
      rfl
    · rw [getLast?_append_of_ne_nil _ h.ne_nil]
      exact h.isOperand.last
  rw [readText, hcut]
  dsimp only
  have hlabel : isLabelLine (".global\t".toList ++ l.toList) = false := by simp [isLabelLine]
  rw [htrim, if_neg (by simp), hlabel, if_neg (by decide), if_pos (by simp)]

namespace Instr

def isComment : Instr → Bool
  | comment _ => true
  | _ => false

def written (i : Instr) : Line where
  text := match i with
    | label l => l ++ ":"
    | i => "\t" ++ i.shown
  holds := if i.isComment then none else some i

theorem line_eq (i : Instr) : i.line = i.written.text ++ "\n" := by
  cases i <;> simp [line, written, String.append_assoc]

variable {i : Instr}

theorem toList_shown (hops : i.operands ≠ []) :
    i.shown.toList = i.mnemonic.toList ++ '\t' :: [',', ' '].intercalate (i.operands.map String.toList) := by
  have hshown : i.shown = i.mnemonic ++ "\t" ++ ", ".intercalate i.operands := by
    cases i <;> first | rfl | exact absurd rfl hops
  simp [hshown, String.toList_intercalate]

theorem reads_shown (hi : i.Standard) (hw : ∀ w ∈ i.width?, w.isValid) (ht : ∀ l ∈ i.target?, IsOperand l.toList)
    (hops : i.operands ≠ []) : Line.Reads ⟨i.shown, some i⟩ := by
  have hsilent : i.isSilent = false := by
    cases i <;> first | rfl | exact absurd rfl hops
  have hm := isMnemonic_mnemonic hi hsilent
  obtain ⟨r, hread, hrun⟩ := exists_reader hi hsilent
  obtain ⟨us, v, huv, hus, hv⟩ := exists_operands hi ht hops
  have hlist := toList_shown hops
  rw [huv] at hlist hrun
  refine ⟨?_, by rw [hlist, readText_operands hm hus hv (hread _ (spelled_mnemonic hw)) hrun]⟩
  have hoperands : '\n' ∉ [',', ' '].intercalate (us ++ [v]) := fun hmem => (ne_of_mem_operands hus hv _ hmem).2 rfl
  simp [hlist, hm.toIsName.notMem (d := '\n') rfl, hoperands]

theorem reads_label (h : IsLabel l.toList) : Line.Reads ⟨l ++ ":", some (.label l)⟩ := by
  refine ⟨?_, readText_label h⟩
  simpa using fun hmem => nomatch h.all _ hmem

theorem reads_written (hi : i.Standard) (hw : ∀ w ∈ i.width?, w.isValid) (ht : ∀ l ∈ i.target?, IsWord l.toList)
    (hl : ∀ l ∈ i.label?, IsWord l.toList) (hc : ∀ text, i = comment text → '\n' ∉ text.toList) : i.written.Reads := by
  -- Labels and comments have no mnemonic, and two instructions no operands; all others are read in one way.
  by_cases hops : i.operands = []
  · cases i with
    | label l => exact reads_label (hl l rfl).isLabel
    | comment text =>
      have hlist : (comment text).written.text.toList = '\t' :: ';' :: ' ' :: text.toList := by simp [written, shown]
      exact ⟨by simpa [hlist] using hc text rfl, by rw [hlist, readText_comment]; rfl⟩
    | ret | halt => exact ⟨by decide, rfl⟩
    | _ => exact absurd hops (by simp [operands])
  · have hwritten : i.written = ⟨"\t" ++ i.shown, some i⟩ := by
      cases i <;> first | rfl | exact absurd rfl hops
    obtain ⟨hunbroken, hread⟩ := reads_shown hi hw (fun l hl => (ht l hl).isOperand) hops
    have hlist : ("\t" ++ i.shown).toList = '\t' :: i.shown.toList := by simp
    rw [hwritten]
    exact ⟨by simpa [hlist] using hunbroken, by rw [hlist, readText_tab, hread]⟩

end Instr

namespace Function

def written (f : Function) : List Line :=
  ⟨"\t.global\t" ++ f.name, none⟩ :: ⟨f.name ++ ":", some (.label f.name)⟩ ::
    ⟨"\t; frame size " ++ Text.decimal f.frameSize, none⟩ :: f.code.map Instr.written

theorem text_eq (f : Function) : f.text = String.join (f.written.map (·.text ++ "\n")) := by
  have hcode : f.code.map Instr.line = f.code.map (·.written.text ++ "\n") := map_congr_left fun i _ => i.line_eq
  delta text
  rw [hcode, show ":\n" = ":" ++ "\n" from rfl]
  simp only [written, map_cons, map_map, String.join_cons, String.append_assoc, Function.comp_def]

theorem holds_written (f : Function) : f.written.filterMap Line.holds = .label f.name :: f.code.filter (!·.isComment) := by
  have hcode : (f.code.map Instr.written).filterMap Line.holds = f.code.filter (!·.isComment) := by
    rw [filterMap_map, ← filterMap_eq_filter]
    congr 1
    funext i
    cases i <;> rfl
  simp [written, hcode]

end Function

namespace Program

def written (p : Program) : List Line :=
  (if p.entry = "" then []
    else ⟨"\t.global\t" ++ startLabel, none⟩ :: p.start.map Instr.written ++ [⟨"", none⟩]) ++
    [⟨"", none⟩].intercalate (p.functions.map Function.written)

theorem text_eq (p : Program) : p.text = String.join (p.written.map (·.text ++ "\n")) := by
  -- Functions are separated by empty lines, so the induction needs the case of a single one.
  have hfunctions : ∀ fs : List Function, "\n".intercalate (fs.map Function.text) =
      String.join (([⟨"", none⟩].intercalate (fs.map Function.written)).map (·.text ++ "\n")) := by
    intro fs
    induction fs with
    | nil => rfl
    | cons f fs ih =>
      cases fs with
      | nil => simp [f.text_eq]
      | cons g fs =>
        rw [map_cons, map_cons] at ih ⊢
        rw [map_cons, String.intercalate_cons_cons, ih, map_cons, intercalate_cons_cons]
        simp [f.text_eq, String.join_append, String.append_assoc]
  rw [text, hfunctions, written, map_append, String.join_append]
  congr 1
  unfold startText
  split
  · rfl
  · have hstart : p.start.map Instr.line = p.start.map (·.written.text ++ "\n") := map_congr_left fun i _ => i.line_eq
    simp [hstart, String.append_assoc, String.join_append, Function.comp_def]

/-- The lines of a program hold its listing, without the comments. -/
theorem holds_written (p : Program) : p.written.filterMap Line.holds = p.flatten.filter (!·.isComment) := by
  have hfunctions : ∀ fs : List Function, ([⟨"", none⟩].intercalate (fs.map Function.written)).filterMap Line.holds =
      (fs.flatMap fun f => .label f.name :: f.code).filter (!·.isComment) := by
    intro fs
    induction fs with
    | nil => rfl
    | cons f fs ih =>
      cases fs with
      | nil => simp [f.holds_written, Instr.isComment]
      | cons g fs =>
        rw [map_cons] at ih ⊢
        rw [map_cons, intercalate_cons_cons, filterMap_append, ih]
        simp [f.holds_written, Instr.isComment]
  rw [written, filterMap_append, hfunctions, flatten, filter_append]
  congr 1
  unfold start
  split <;> rfl

end Program

theorem readLines_eq_ok {ls : List Line} (h : ∀ l ∈ ls, l.Reads) (hsize : ∀ l ∈ ls, l.text.utf8ByteSize < lineLimit)
    (n : Nat) : readLines n (ls.map (·.text.toList)) = .ok (ls.filterMap Line.holds) := by
  induction ls generalizing n with
  | nil => rfl
  | cons l ls ih =>
    obtain ⟨hl, hls⟩ := forall_mem_cons.1 h
    obtain ⟨hshort, hshorts⟩ := forall_mem_cons.1 hsize
    rw [map_cons, readLines, String.ofList_toList, if_neg (Nat.not_le.2 hshort)]
    dsimp only
    rw [readText_dropLast, hl.read, ih hls hshorts, filterMap_cons]
    cases l.holds <;> rfl

namespace Program

variable {p : Program}

theorem mem_labels_iff {l : Label} :
    l ∈ p.labels ↔ (p.entry ≠ "" ∧ l = startLabel) ∨ ∃ f ∈ p.functions, l = f.name ∨ .label l ∈ f.code := by
  have hcode : ∀ code : List Instr, l ∈ code.filterMap Instr.label? ↔ .label l ∈ code := fun code => by
    rw [mem_filterMap]
    constructor
    · rintro ⟨i, hi, hl⟩
      cases i <;> cases hl
      exact hi
    · exact fun h => ⟨_, h, rfl⟩
  have hfunctions : l ∈ (p.functions.flatMap fun f => (f.name, f.name) ::
      (f.code.filterMap Instr.label?).map (f.name, ·)).map Prod.snd ↔
      ∃ f ∈ p.functions, l = f.name ∨ .label l ∈ f.code := by
    simp only [map_flatMap, mem_flatMap, map_cons, map_map, mem_cons, Function.comp_def,
      map_id', hcode]
  rw [labels, definitions, map_append, mem_append, hfunctions]
  split <;> simp [*]

section

variable (hvalid : p.Valid) (hwords : ∀ l ∈ p.labels, IsWord l.toList)
  (hcode : ∀ f ∈ p.functions, ∀ i ∈ f.code, i.Standard)
  (hcomments : ∀ f ∈ p.functions, ∀ text, .comment text ∈ f.code → '\n' ∉ text.toList)
include hvalid hwords hcode hcomments

theorem reads_written : ∀ l ∈ p.written, l.Reads := by
  have hdirective : ∀ l ∈ p.labels, Line.Reads ⟨"\t.global\t" ++ l, none⟩ := fun l hl =>
    ⟨by simpa using fun hmem => ((hwords l hl).isOperand.all _ hmem).2 rfl, readText_global (hwords l hl)⟩
  have hlabel : ∀ l ∈ p.labels, (Instr.label l).written.Reads := fun l hl =>
    Instr.reads_written ⟨nofun, nofun, nofun⟩ nofun nofun (fun _ heq => Option.some.inj heq ▸ hwords l hl) nofun
  have hempty : Line.Reads ⟨"", none⟩ := ⟨nofun, rfl⟩
  -- Every target is a label of the program, because the program is valid, and so it is a word.
  have hfunction : ∀ f ∈ p.functions, ∀ l ∈ f.written, l.Reads := by
    intro f hf
    have hname : f.name ∈ p.labels := mem_labels_iff.2 (.inr ⟨f, hf, .inl rfl⟩)
    refine forall_mem_cons.2 ⟨hdirective _ hname, forall_mem_cons.2 ⟨hlabel _ hname,
      forall_mem_cons.2 ⟨⟨?_, ?_⟩, ?_⟩⟩⟩
    · simpa using (isName_decimal f.frameSize).notMem rfl
    · rw [String.toList_append]
      exact readText_comment _
    · intro l hl
      obtain ⟨i, hi, rfl⟩ := mem_map.1 hl
      refine Instr.reads_written (hcode f hf i hi) (hvalid.width f hf i hi)
        (fun l hl => hwords l (hvalid.target f hf i hi l hl)) (fun l hl => ?_) fun text heq => hcomments f hf text (heq ▸ hi)
      cases i <;> cases hl
      exact hwords l (mem_labels_iff.2 (.inr ⟨f, hf, .inr hi⟩))
  intro l hl
  rcases mem_append.1 hl with hl | hl
  · split at hl
    · cases hl
    · next hentry =>
      have hstart : startLabel ∈ p.labels := mem_labels_iff.2 (.inl ⟨hentry, rfl⟩)
      have hcall : (Instr.call p.entry).written.Reads :=
        Instr.reads_written ⟨nofun, nofun, nofun⟩ nofun
          (fun _ heq => Option.some.inj heq ▸ hwords _ (hvalid.entry.resolve_left hentry)) nofun nofun
      have hhalt : Instr.halt.written.Reads := Instr.reads_written ⟨nofun, nofun, nofun⟩ nofun nofun nofun nofun
      rw [start, if_neg hentry] at hl
      simp only [map_cons, map_nil, cons_append, nil_append, mem_cons, not_mem_nil,
        or_false] at hl
      rcases hl with rfl | rfl | rfl | rfl | rfl
      exacts [hdirective _ hstart, hlabel _ hstart, hcall, hhalt, hempty]
  · rcases mem_of_mem_intercalate hl with hl | ⟨ls, hls, hl⟩
    · exact mem_singleton.1 hl ▸ hempty
    · obtain ⟨f, hf, rfl⟩ := mem_map.1 hls
      exact hfunction f hf l hl

/-- The text of a valid program whose labels are words is read as its listing, without the comments. -/
theorem read_text_of_words (hlines : ∀ l ∈ lines p.text, (String.ofList l).utf8ByteSize < lineLimit) :
    read p.text = .ok (p.flatten.filter (!·.isComment)) := by
  have hreads := reads_written hvalid hwords hcode hcomments
  have heq : lines p.text = p.written.map (·.text.toList) := by
    have hunbroken : ∀ s ∈ p.written.map Line.text, '\n' ∉ s.toList := forall_mem_map.2 fun l hl => (hreads l hl).unbroken
    have hlines := lines_join hunbroken
    rw [map_map, map_map] at hlines
    rw [text_eq]
    exact hlines
  have hshort : ∀ l ∈ p.written, l.text.utf8ByteSize < lineLimit := fun l hl => by
    have := hlines l.text.toList (heq ▸ mem_map_of_mem hl)
    rwa [String.ofList_toList] at this
  rw [read, heq, readLines_eq_ok hreads hshort, holds_written]

end

/-- Operators that there are have names, so that a valid program is printed. -/
theorem print_eq_ok (hvalid : p.Valid) (hcode : ∀ f ∈ p.functions, ∀ i ∈ f.code, i.Standard) : p.print = .ok p.text := by
  have hop : ∀ op ∈ BinOp.all, op.name?.isSome := by decide
  have hcond : ∀ c ∈ Cond.all, c.name?.isSome := by decide
  have hnamed : p.isNamed := all_eq_true.2 fun f hf => all_eq_true.2 fun i hi => by
    have hi := hcode f hf i hi
    cases i with
    | alu op | aluImm op => exact hop op (hi.op op rfl)
    | cmp c | cmpImm c => exact hcond c (hi.cond c rfl)
    | _ => rfl
  rw [print, validate_eq_ok.2 hvalid, if_pos hnamed]
  rfl

/-- Printing and reading loses nothing but comments. A program that passes the check is printed and its text is read as
    its listing, if its labels are plain names, if its registers, operators and comparisons are those that there are, if
    no comment is broken into lines, and if no line is too long to be looked at. -/
theorem read_print (hvalid : p.validate = .ok ())
    (hnames : ∀ f ∈ p.functions, IsName f.name.toList ∧ ∀ l, .label l ∈ f.code → IsName l.toList)
    (hcode : ∀ f ∈ p.functions, ∀ i ∈ f.code, i.Standard)
    (hcomments : ∀ f ∈ p.functions, ∀ text, .comment text ∈ f.code → '\n' ∉ text.toList)
    (hlines : ∀ l ∈ lines p.text, (String.ofList l).utf8ByteSize < lineLimit) :
    p.print = .ok p.text ∧ read p.text = .ok (p.flatten.filter (!·.isComment)) := by
  have hvalid := validate_eq_ok.1 hvalid
  have hwords : ∀ l ∈ p.labels, IsWord l.toList := by
    intro l hl
    rcases mem_labels_iff.1 hl with ⟨-, rfl⟩ | ⟨f, hf, rfl | hl⟩
    · exact IsName.isWord (by decide)
    · exact (hnames f hf).1.isWord
    · exact ((hnames f hf).2 l hl).isWord
  exact ⟨print_eq_ok hvalid hcode, read_text_of_words hvalid hwords hcode hcomments hlines⟩

end Program

def summing : Program :=
  { entry := "$main"
    functions := [
      { name := "$main", frameSize := 16
        code := [
          .push .fp, .mov .w64 .fp .sp, .movImm .w32 ⟨1⟩ (-5), .comment "the loop; all of it",
          .label ".L$main.loop-1",
          .load .w32 ⟨2⟩ { base := .fp, index := some ⟨⟨1⟩, 4⟩, offset := -80 },
          .alu .add .w32 ⟨0⟩ ⟨0⟩ ⟨2⟩, .aluImm .add .w32 ⟨1⟩ ⟨1⟩ 1, .cmpImm .slt .w32 ⟨3⟩ ⟨1⟩ 0,
          .jumpNonzero ⟨3⟩ ".L$main.loop-1",
          .lea ⟨15⟩ { base := .sp }, .pop .fp, .ret] }] }

theorem read_print_summing :
    summing.validate = .ok () ∧ summing.print = .ok summing.text ∧
      read summing.text = .ok (summing.flatten.filter (!·.isComment)) := by
  have hvalid : summing.validate = .ok () := by cbv
  have hnames : ∀ f ∈ summing.functions, IsName f.name.toList ∧ ∀ l, .label l ∈ f.code → IsName l.toList := by
    simp only [summing, forall_mem_singleton]
    refine ⟨by decide, fun l hl => ?_⟩
    simp only [mem_cons, Instr.label.injEq, reduceCtorEq, not_mem_nil, or_false, false_or] at hl
    subst hl
    decide
  have hshort : summing.text.utf8ByteSize < lineLimit := by decide +kernel
  have hlines : ∀ l ∈ lines summing.text, (String.ofList l).utf8ByteSize < lineLimit := fun l hl =>
    Nat.lt_of_le_of_lt (utf8ByteSize_le_of_mem_lines hl) hshort
  refine ⟨hvalid, Program.read_print hvalid hnames (by decide) (fun f hf text htext => ?_) hlines⟩
  cases mem_singleton.1 hf
  simp only [mem_cons, Instr.comment.injEq, reduceCtorEq, not_mem_nil, or_false, false_or] at htext
  subst htext
  decide

end RegisterCompiler.Asm
