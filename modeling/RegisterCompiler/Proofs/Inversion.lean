import RegisterCompiler.Proofs.Taking

/-!
# Functions that are written and read

A function is read from its text as it was, except for the places where its parts stand. What is read of a line depends
on the next one as well: a token that would go on with the line must not stand there.
-/

namespace RegisterCompiler.Llvm

open Glyph List

variable {a : Action}

/-- An instruction without its place. -/
def Instr.erase (i : Instr) : Instr := { i with pos := ⟨0, 0⟩ }

def Block.erase (b : Block) : Block := { b with pos := ⟨0, 0⟩, instrs := b.instrs.map Instr.erase }

def Function.erase (f : Function) : Function := { f with pos := ⟨0, 0⟩, blocks := f.blocks.map Block.erase }

/-! ## Lines -/

section

variable {P Q : Shape → Prop} {n : Nat} {ts rest : List Token} {lines lines' : List (List Shape)}

/-- The next token is as `P` says, and it does not stand before line `n`. -/
def Behind (P : Shape → Prop) (n : Nat) (ts : List Token) : Prop := ∃ t ∈ ts.head?, P t.shape ∧ n ≤ t.pos.line

/-- A token that ends the instructions of a block. -/
def EndsBlock (s : Shape) : Prop := s.kind = .label ∨ s.kind = .rightBrace

theorem EndsBlock.noComma {s : Shape} (h : EndsBlock s) : NoComma s := by
  intro hcomma
  rcases h with h | h <;> cases hcomma.symm.trans h

theorem Behind.imp (h : Behind P n ts) (himp : ∀ s, P s → Q s) : Behind Q n ts := by
  obtain ⟨t, ht, hP, hline⟩ := h
  exact ⟨t, ht, himp _ hP, hline⟩

theorem Behind.ahead (h : Behind P n ts) : Ahead P ts := by
  obtain ⟨t, ht, hP, -⟩ := h
  exact ⟨t, ht, hP⟩

theorem Laid.behind (h : Laid n lines ts) (hfirst : ∀ line ∈ lines.head?, ∃ s ∈ line.head?, P s)
    (hrest : Behind P (n + lines.length) rest) : Behind P n (ts ++ rest) := by
  cases lines with
  | nil =>
    cases h
    exact hrest
  | cons line lines =>
    obtain ⟨us, vs, rfl, hus, hline, -⟩ := h
    obtain ⟨s, hs, hP⟩ := hfirst line rfl
    obtain ⟨ss, rfl⟩ := head?_eq_some_iff.1 hs
    obtain ⟨t, us, rfl, rfl, -⟩ := map_eq_cons_iff.1 hus
    exact ⟨t, rfl, hP, (hline t mem_cons_self).ge⟩

theorem Laid.exists_append (h : Laid n (lines ++ lines') ts) :
    ∃ us vs, ts = us ++ vs ∧ Laid n lines us ∧ Laid (n + lines.length) lines' vs := by
  induction lines generalizing n ts with
  | nil => exact ⟨[], ts, rfl, rfl, h⟩
  | cons line lines ih =>
    obtain ⟨us, vs, rfl, hus, hline, hvs⟩ := h
    obtain ⟨vs, ws, rfl, hvs, hws⟩ := ih hvs
    refine ⟨us ++ vs, ws, (append_assoc us vs ws).symm, ⟨us, vs, rfl, hus, hline, hvs⟩, ?_⟩
    rwa [length_cons, Nat.add_comm lines.length, ← Nat.add_assoc]

end

/-! ## Blocks -/

section

variable {style : CountStyle} {n : Nat} {ts rest : List Token}

theorem Action.exists_first (hbits : 0 < style.bits) (ha : a.isPlain) :
    ∃ s ss, shapes (a.glyphs style) = s :: ss ∧ (s.kind = .localName ∨ s.kind = .word) := by
  obtain ⟨result, op, operands, hform⟩ := exists_form hbits ha
  rw [hform.shapes, lead]
  split
  · exact ⟨_, _, rfl, .inr rfl⟩
  · exact ⟨_, _, rfl, .inl rfl⟩

theorem exists_gives_readLine (hbits : 0 < style.bits) (ha : a.isPlain)
    (hts : ts.map Token.shape = shapes (a.glyphs style)) (hline : ∀ t ∈ ts, t.pos.line = n)
    (hrest : Behind NoComma (n + 1) rest) : ∃ pos, Gives readLine (ts ++ rest) (some (some ⟨pos, a⟩)) rest := by
  obtain ⟨pos, hinstr⟩ := a.exists_gives hbits ha hts hrest.ahead
  obtain ⟨s, ss, hs, hkind⟩ := a.exists_first hbits ha
  obtain ⟨t, us, rfl, ht, -⟩ := map_eq_cons_iff.1 (hts.trans hs)
  have hends : endsBlock t = false := by
    subst ht
    have hkind : t.kind = .localName ∨ t.kind = .word := hkind
    rcases hkind with hkind | hkind <;> simp [endsBlock, hkind]
  -- the tokens that are left stand in later lines, so none of them is skipped
  have hskip : rest.dropWhile (·.pos.line == t.pos.line) = rest := by
    obtain ⟨u, hu, -, hlater⟩ := hrest
    obtain ⟨rest, rfl⟩ := head?_eq_some_iff.1 hu
    have hne : (u.pos.line == t.pos.line) = false := by
      rw [hline t mem_cons_self, beq_eq_false_iff_ne]
      exact (Nat.lt_of_succ_le hlater).ne'
    exact dropWhile_cons_of_neg (Bool.eq_false_iff.1 hne)
  have hskipped : Gives (skipLine t.pos.line) rest () _ := .skipTo _
  rw [hskip] at hskipped
  exact ⟨pos, .current_cons (.ite_neg (Bool.eq_false_iff.1 hends) (.bind hinstr.attempt (.bind hskipped .pure)))⟩

theorem gives_readLine_none (hrest : Behind EndsBlock n rest) : Gives readLine rest none rest := by
  obtain ⟨t, ht, hends, -⟩ := hrest
  obtain ⟨rest, rfl⟩ := head?_eq_some_iff.1 ht
  have hends : endsBlock t := by
    rcases hends with h | h <;> simp [endsBlock, show t.kind = _ from h]
  exact .current_cons (.ite_pos hends .pure)

theorem exists_givesAll_readLine (hbits : 0 < style.bits) {instrs : List Instr} (hplain : ∀ i ∈ instrs, i.action.isPlain)
    (hlaid : Laid n (instrs.map fun i => shapes (i.action.glyphs style)) ts)
    (hrest : Behind EndsBlock (n + instrs.length) rest) :
    ∃ js : List Instr, GivesAll readLine (ts ++ rest) (js.map some) rest ∧ js.map Instr.erase = instrs.map Instr.erase := by
  induction instrs generalizing n ts with
  | nil =>
    cases hlaid
    exact ⟨[], .nil (gives_readLine_none hrest), rfl⟩
  | cons i instrs ih =>
    obtain ⟨hi, hplain⟩ := forall_mem_cons.1 hplain
    obtain ⟨us, vs, rfl, hus, hline, hvs⟩ := hlaid
    rw [length_cons, Nat.add_comm instrs.length, ← Nat.add_assoc] at hrest
    -- no list of this line goes on in the next one, which begins with a name or a word, or ends the block
    have hnext : Behind NoComma (n + 1) (vs ++ rest) := by
      refine hvs.behind (fun line hline => ?_) ?_
      · obtain ⟨j, hj, rfl⟩ := mem_map.1 (mem_of_mem_head? hline)
        obtain ⟨s, ss, hs, hkind⟩ := j.action.exists_first hbits (hplain j hj)
        refine ⟨s, by rw [hs]; rfl, fun hcomma => ?_⟩
        rcases hkind with hkind | hkind <;> cases hkind.symm.trans hcomma
      · rw [length_map]
        exact hrest.imp fun _ => EndsBlock.noComma
    obtain ⟨pos, hfirst⟩ := exists_gives_readLine hbits hi hus hline hnext
    obtain ⟨js, hjs, herase⟩ := ih hplain hvs hrest
    obtain ⟨s, ss, hs, -⟩ := i.action.exists_first hbits hi
    obtain ⟨t, us, rfl, -, -⟩ := map_eq_cons_iff.1 (hus.trans hs)
    rw [append_assoc]
    exact ⟨⟨pos, i.action⟩ :: js, .cons_append (cons_ne_nil t us) hfirst hjs, congrArg (i.erase :: ·) herase⟩

theorem exists_gives_readBlock (hbits : 0 < style.bits) {b : Block} (hb : b.isPlain)
    (hlaid : Laid n ((b.lines style).map shapes) ts) (hrest : Behind EndsBlock (n + (b.lines style).length) rest) :
    ∃ b' : Block, Gives readBlock (ts ++ rest) (some b') rest ∧ b'.erase = b.erase := by
  simp only [Block.isPlain, Bool.and_eq_true, all_eq_true] at hb
  obtain ⟨us, vs, rfl, hus, -, hvs⟩ := hlaid
  obtain ⟨t, ws, rfl, ht, hws⟩ := map_eq_cons_iff.1 hus
  cases map_eq_nil_iff.1 hws
  have hkind : t.kind = .label := congrArg Shape.kind ht
  have hliteral : t.literal = b.label := congrArg Shape.literal ht
  rw [Block.lines, length_cons, length_map, Nat.add_comm b.instrs.length, ← Nat.add_assoc] at hrest
  rw [map_map] at hvs
  obtain ⟨js, hjs, herase⟩ := exists_givesAll_readLine hbits hb.2 hvs hrest
  refine ⟨⟨t.pos, t.literal, (js.map some).filterMap id⟩, .current_cons (.ite_neg ?_ (.ite_pos hkind ?_)), ?_⟩
  · simp [hkind]
  · exact .bind .next (.bind hjs.many .pure)
  · simp [Block.erase, hliteral, herase]

theorem exists_givesAll_readBlock (hbits : 0 < style.bits) {blocks : List Block} (hplain : ∀ b ∈ blocks, b.isPlain)
    (hlaid : Laid n ((blocks.flatMap (Block.lines style)).map shapes) ts)
    (hrest : Behind (·.kind = .rightBrace) (n + (blocks.flatMap (Block.lines style)).length) rest) :
    ∃ bs : List Block, GivesAll readBlock (ts ++ rest) bs rest ∧ bs.map Block.erase = blocks.map Block.erase := by
  induction blocks generalizing n ts with
  | nil =>
    cases hlaid
    obtain ⟨t, ht, hkind, -⟩ := hrest
    obtain ⟨rest, rfl⟩ := head?_eq_some_iff.1 ht
    exact ⟨[], .nil (.current_cons (.ite_pos (.inl hkind) .pure)), rfl⟩
  | cons b blocks ih =>
    obtain ⟨hb, hplain⟩ := forall_mem_cons.1 hplain
    rw [flatMap_cons, map_append] at hlaid
    rw [flatMap_cons, length_append, ← Nat.add_assoc] at hrest
    obtain ⟨us, vs, rfl, hus, hvs⟩ := hlaid.exists_append
    rw [length_map] at hvs
    -- the instructions of this block end at the label of the next one, or at the brace
    have hnext : Behind EndsBlock (n + (b.lines style).length) (vs ++ rest) := by
      refine hvs.behind (fun line hline => ?_) ?_
      · cases blocks with
        | nil => cases hline
        | cons c blocks =>
          cases hline
          exact ⟨⟨.label, c.label⟩, rfl, .inl rfl⟩
      · rw [length_map]
        exact hrest.imp fun _ => .inr
    obtain ⟨b', hfirst, hb'⟩ := exists_gives_readBlock hbits hb hus hnext
    obtain ⟨bs, hbs, hbs'⟩ := ih hplain hvs hrest
    obtain ⟨ws, xs, rfl, hws, -⟩ := hus
    obtain ⟨t, ws, rfl, -⟩ := map_eq_cons_iff.1 hws
    rw [append_assoc]
    refine ⟨b' :: bs, .cons_append (cons_ne_nil t (ws ++ xs)) hfirst hbs, ?_⟩
    rw [map_cons, map_cons, hb', hbs']

/-! ## Functions -/

theorem Function.shapes_head (f : Function) : shapes f.head = ⟨.word, "define"⟩ ::
    (shapes (f.result.glyphs ++ ([space, globalName f.name, mark .leftParen] ++
      (commas (f.params.map Param.glyphs) ++ [mark .rightParen]))) ++ [⟨.leftBrace, "\x7b"⟩]) := by
  simp [head, TokenKind.name]

theorem exists_gives_readFunction (hbits : 0 < style.bits) {f : Function} (hf : f.isPlain)
    (hlaid : Laid n ((f.lines style).map shapes) ts) :
    ∃ t us, ∃ g : Function, ts = t :: us ∧ t.shape = ⟨.word, "define"⟩ ∧ Gives readFunction (t :: us) g [] ∧
      g.erase = f.erase := by
  have hblocks : ∀ b ∈ f.blocks, b.isPlain := by
    simp only [Function.isPlain, Bool.and_eq_true, all_eq_true] at hf
    exact hf.2
  -- the tokens of the head, of the blocks and the brace at the end
  rw [Function.lines, List.cons_append, map_cons, map_append, Function.shapes_head] at hlaid
  obtain ⟨us, vs, rfl, hus, -, hlaid⟩ := hlaid
  obtain ⟨t, us, rfl, ht, hus⟩ := map_eq_cons_iff.1 hus
  obtain ⟨us, bs, rfl, hhead, hbs⟩ := map_eq_append_iff.1 hus
  obtain ⟨first, rfl, hfirst⟩ := map_eq_singleton_iff.1 hbs
  obtain ⟨vs, ws, rfl, hvs, ws, xs, rfl, hws, hline, rfl⟩ := hlaid.exists_append
  obtain ⟨last, rfl, hlast⟩ := map_eq_singleton_iff.1 hws
  have hopen : first.kind = .leftBrace := congrArg Shape.kind hfirst
  have hclose : last.kind = .rightBrace := congrArg Shape.kind hlast
  have hrest : Behind (·.kind = .rightBrace) (n + 1 + (f.blocks.flatMap (Block.lines style)).length) [last] := by
    refine ⟨last, rfl, hclose, ?_⟩
    rw [hline last mem_cons_self, length_map]
  obtain ⟨bs, hbs, herase⟩ := exists_givesAll_readBlock hbits hblocks hvs hrest
  have hskip : (first :: (vs ++ [last])).dropWhile (·.kind != .leftBrace) = first :: (vs ++ [last]) :=
    dropWhile_cons_of_neg (by simp [hopen])
  have hskipped : Gives (skipTo (·.dropWhile (·.kind != .leftBrace))) (first :: (vs ++ [last])) () _ := .skipTo _
  rw [hskip] at hskipped
  have htaken := takes_readHead (P := Anything) hf us (first :: (vs ++ [last])) hhead ⟨first, rfl, trivial⟩
  refine ⟨t, us ++ first :: (vs ++ [last]), ⟨t.pos, f.name, f.result, f.params, bs⟩, by simp, ht, .current_cons ?_, ?_⟩
  · refine .bind (.modify (fun c hc => hc) fun _ => rfl) (.bind .next (.bind htaken.attempt (.bind hskipped ?_)))
    exact .bind (.expect hopen) (.bind hbs.many (.bind (.expect hclose) .pure))
  · simp [Function.erase, herase]

/-- Reading inverts writing: a plain function is read from its text, without a mistake, up to the places of its parts. -/
theorem readFunctions_written (file : String) {style : CountStyle} (hbits : 0 < style.bits) {f : Function} (hf : f.isPlain) :
    ∃ g, readFunctions file (f.written style) = ([g], []) ∧ g.erase = f.erase := by
  have hlaid := laid_scan (f.toList_written style) (f.legible_of_mem_lines hbits hf)
  obtain ⟨t, us, g, hts, ht, hgives, herase⟩ := exists_gives_readFunction hbits hf hlaid
  have hkind : t.kind ≠ .eof := fun h => by cases h.symm.trans (congrArg Shape.kind ht)
  have hfirst : Gives readTopLevel (t :: us) (some (some g)) [] :=
    .current_cons (.ite_neg hkind (.ite_pos (Token.isWord_of_shape ht) (.bind hgives.attempt .pure)))
  have hlast : Gives readTopLevel [] none [] := .current fun _ => .ite_pos rfl .pure
  have hall : GivesAll readTopLevel (t :: us) [some g] [] := .cons hfirst (Nat.succ_pos _) (.nil hlast)
  obtain ⟨c, hrun, -, herrors⟩ := hall.many ⟨file, scan (f.written style), [], 0⟩ hts
  refine ⟨g, ?_, herase⟩
  rw [readFunctions, hrun]
  exact congrArg (Prod.mk [g]) herrors

end

namespace Folding

def style : CountStyle := ⟨32, false⟩

def fold : Function where
  pos := ⟨1, 1⟩
  name := "fold"
  result := .int 32
  params := [⟨.ptr, "p"⟩, ⟨.int 32, "n.0"⟩]
  blocks := [
    ⟨⟨0, 0⟩, "entry", [
      ⟨⟨0, 0⟩, .alloca "s" (.array 4 (.array 2 (.int 8))) 1⟩,
      ⟨⟨0, 0⟩, .alloca "t" .ptr 3⟩,
      ⟨⟨0, 0⟩, .store (.int 32) (.const (-7)) (.localName "t")⟩,
      ⟨⟨0, 0⟩, .br "loop"⟩]⟩,
    ⟨⟨0, 0⟩, "loop", [
      ⟨⟨0, 0⟩, .phi "i" (.int 32) [⟨.const 0, "entry"⟩, ⟨.localName "j", "loop"⟩]⟩,
      ⟨⟨0, 0⟩, .load "a" (.int 32) (.globalName "g")⟩,
      ⟨⟨0, 0⟩, .binop "j" .add (.int 32) (.localName "i") (.localName "a")⟩,
      ⟨⟨0, 0⟩, .cast "w" .sext (.int 32) (.localName "j") (.int 64)⟩,
      ⟨⟨0, 0⟩, .gep "q" (.array 2 (.int 8)) (.localName "s") [⟨.int 64, .const 0⟩, ⟨.int 64, .localName "w"⟩]⟩,
      ⟨⟨0, 0⟩, .call "" .void "note" [⟨.int 32, .localName "j"⟩, ⟨.ptr, .localName "q"⟩]⟩,
      ⟨⟨0, 0⟩, .call "_m" (.int 32) "limit" []⟩,
      ⟨⟨0, 0⟩, .icmp "c" "slt" (.int 32) (.localName "j") (.localName "_m")⟩,
      ⟨⟨0, 0⟩, .condBr (.localName "c") "loop" "exit"⟩]⟩,
    ⟨⟨0, 0⟩, "exit", [⟨⟨0, 0⟩, .ret (some ⟨.int 32, .localName "j"⟩)⟩]⟩,
    ⟨⟨0, 0⟩, "dead-end", [⟨⟨0, 0⟩, .ret none⟩]⟩]

example : (fold.blocks.getD 1 default).written style = "loop:
  %i = phi i32 [ 0, %entry ], [ %j, %loop ]
  %a = load i32, ptr @g
  %j = add i32 %i, %a
  %w = sext i32 %j to i64
  %q = getelementptr [2 x i8], ptr %s, i64 0, i64 %w
  call void @note(i32 %j, ptr %q)
  %_m = call i32 @limit()
  %c = icmp slt i32 %j, %_m
  br i1 %c, label %loop, label %exit
" := by decide +kernel

theorem readFunctions_written_fold : 0 < style.bits ∧ fold.isPlain ∧
    ∃ g, readFunctions "fold.ll" (fold.written style) = ([g], []) ∧ g.erase = fold.erase :=
  ⟨by decide, by decide, readFunctions_written "fold.ll" (by decide) (by decide)⟩

end Folding

end RegisterCompiler.Llvm
