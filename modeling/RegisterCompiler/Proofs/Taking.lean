import RegisterCompiler.Proofs.Writing

/-!
# Readings that take what is written

What is written of a type, an operand or an instruction is read as that again, whatever follows it, or whatever follows
that is no comma.
-/

namespace RegisterCompiler.Llvm

open Glyph List

variable {label result : String} {type : Ty} {v : TypedValue} {x y : Value}

/-! ## Readings of tokens -/

/-- A reading of the tokens `ts` that finds no mistake: it gives `a` and leaves `us`. -/
def Gives {α : Type} (r : Reading α) (ts : List Token) (a : α) (us : List Token) : Prop :=
  ∀ c : Cursor, c.stream.tokens = ts → ∃ c', r.run c = (some a, c') ∧ c'.stream.tokens = us ∧ c'.errors = c.errors

/-- Rounds of a loop, the last of which has nothing to read. -/
inductive GivesAll {α : Type} (round : Reading (Option α)) : List Token → List α → List Token → Prop
  | nil {ts us : List Token} (last : Gives round ts none us) : GivesAll round ts [] us
  | cons {ts us vs : List Token} {a : α} {as : List α} (first : Gives round ts (some a) us)
    (shrinks : us.length < ts.length) (others : GivesAll round us as vs) : GivesAll round ts (a :: as) vs

section

variable {α β : Type} {r : Reading α} {k : α → Reading β} {a : α} {b : β} {t : Token} {ts us vs : List Token}

namespace Gives

variable {c : Prop} {r' : Reading α}

theorem pure : Gives (Pure.pure a) ts a ts := fun c hc => ⟨c, rfl, hc, rfl⟩

theorem bind (h : Gives r ts a us) (hk : Gives (k a) us b vs) : Gives (r >>= k) ts b vs := by
  intro c hc
  obtain ⟨c', hrun, htokens, herrors⟩ := h c hc
  obtain ⟨c'', hrun', htokens', herrors'⟩ := hk c' htokens
  refine ⟨c'', ?_, htokens', herrors'.trans herrors⟩
  rw [run_bind, hrun]
  exact hrun'

theorem attempt (h : Gives r ts a us) : Gives (attempt r) ts (some a) us := by
  intro c hc
  obtain ⟨c', hrun, hc'⟩ := h c hc
  exact ⟨c', congrArg (fun p : Option α × Cursor => (some p.1, p.2)) hrun, hc'⟩

theorem modify {f : Cursor → Cursor} (htokens : ∀ c, c.stream.tokens = ts → (f c).stream.tokens = us)
    (herrors : ∀ c, (f c).errors = c.errors) : Gives (modify f : Reading Unit) ts () us :=
  fun c hc => ⟨f c, rfl, htokens c hc, herrors c⟩

theorem skipTo (skip : List Token → List Token) : Gives (skipTo skip) ts () (skip ts) :=
  modify (fun _ hc => congrArg skip hc) fun _ => rfl

theorem next : Gives next (t :: ts) () ts := skipTo List.tail

theorem current {k : Token → Reading β} (h : ∀ pos, Gives (k (ts.head?.getD ⟨.eof, "", pos⟩)) ts b us) :
    Gives (current >>= k) ts b us := by
  intro c hc
  obtain ⟨c', hrun, hc'⟩ := h c.stream.finish c hc
  refine ⟨c', ?_, hc'⟩
  rw [run_bind, ← hrun, ← hc]
  rfl

theorem current_cons {k : Token → Reading β} (h : Gives (k t) (t :: ts) b us) : Gives (Llvm.current >>= k) (t :: ts) b us :=
  current fun _ => h

theorem peek {k : Token → Reading β} (h : ∀ pos, Gives (k (ts.tail.head?.getD ⟨.eof, "", pos⟩)) ts b us) :
    Gives (peek >>= k) ts b us := by
  intro c hc
  obtain ⟨c', hrun, hc'⟩ := h c.stream.finish c hc
  refine ⟨c', ?_, hc'⟩
  rw [run_bind, ← hrun, ← hc]
  rfl

theorem ite_pos [Decidable c] (hc : c) (h : Gives r ts a us) : Gives (if c then r else r') ts a us := by
  rwa [if_pos hc]

theorem ite_neg [Decidable c] (hc : ¬c) (h : Gives r ts a us) : Gives (if c then r' else r) ts a us := by
  rwa [if_neg hc]

theorem expect {kind : TokenKind} (h : t.kind = kind) : Gives (expect kind) (t :: ts) () ts :=
  current_cons (ite_pos h next)

theorem expectWord {word : String} (h : t.isWord word) : Gives (expectWord word) (t :: ts) () ts :=
  current_cons (ite_pos h next)

end Gives

namespace GivesAll

variable {round : Reading (Option α)} {as : List α}

theorem cons_append (hne : ts ≠ []) (first : Gives round (ts ++ us) (some a) us) (others : GivesAll round us as vs) :
    GivesAll round (ts ++ us) (a :: as) vs := by
  refine .cons first ?_ others
  rw [length_append]
  exact Nat.lt_add_of_pos_left (length_pos_of_ne_nil hne)

theorem rounds (h : GivesAll round ts as us) {bound : Nat} (hbound : ts.length < bound) :
    Gives (rounds round bound) ts as us := by
  induction h generalizing bound with
  | nil last =>
    obtain ⟨bound, rfl⟩ := Nat.exists_eq_add_one_of_ne_zero (Nat.ne_of_gt (Nat.zero_lt_of_lt hbound))
    exact .bind last .pure
  | cons first shrinks _ ih =>
    obtain ⟨bound, rfl⟩ := Nat.exists_eq_add_one_of_ne_zero (Nat.ne_of_gt (Nat.zero_lt_of_lt hbound))
    exact .bind first (.bind (ih (Nat.lt_of_lt_of_le shrinks (Nat.le_of_lt_succ hbound))) .pure)

theorem many (h : GivesAll round ts as us) : Gives (many round) ts as us := by
  refine .bind (a := ts) (fun c hc => ⟨c, ?_, hc, rfl⟩) (h.rounds (Nat.lt_succ_self ts.length))
  rw [← hc]
  rfl

end GivesAll

end

/-! ## Readings of shapes -/

theorem Token.isWord_of_shape {t : Token} {word : String} (h : t.shape = ⟨.word, word⟩) : t.isWord word :=
  Bool.and_eq_true_iff.2 ⟨beq_iff_eq.2 (congrArg Shape.kind h), beq_iff_eq.2 (congrArg Shape.literal h)⟩

/-- The next token is as `P` says. -/
def Ahead (P : Shape → Prop) (ts : List Token) : Prop := ∃ t ∈ ts.head?, P t.shape

/-- A reading of tokens of the shapes `ss`, wherever they stand: it gives `a` if the token behind them is as `P` says. -/
def Takes {α : Type} (P : Shape → Prop) (r : Reading α) (ss : List Shape) (a : α) : Prop :=
  ∀ ts rest, ts.map Token.shape = ss → Ahead P rest → Gives r (ts ++ rest) a rest

abbrev Anything (_ : Shape) : Prop := True

section

variable {α β : Type} {P Q : Shape → Prop} {r : Reading α} {k : α → Reading β} {a : α} {b : β} {s s' : Shape}
  {ss us : List Shape}

theorem Ahead.append {ts rest : List Token} (h : Ahead Q rest) (hahead : ∀ s, Q s → P ((ts.map Token.shape).head?.getD s)) :
    Ahead P (ts ++ rest) := by
  obtain ⟨t, ht, hQ⟩ := h
  cases ts with
  | nil => exact ⟨t, ht, hahead _ hQ⟩
  | cons u ts => exact ⟨u, rfl, hahead _ hQ⟩

namespace Takes

variable {c : Prop} {r' : Reading α}

theorem pure : Takes P (Pure.pure a) [] a := by
  intro ts rest hts _
  rw [map_eq_nil_iff.1 hts]
  exact .pure

theorem pure_of {a' : α} (h : a = a') : Takes P (Pure.pure a) [] a' := h ▸ pure

/-- Two readings, the first of which may have a look at what the second takes. -/
theorem bind_of (h : Takes P r ss a) (hk : Takes Q (k a) us b) (hahead : ∀ s, Q s → P (us.head?.getD s)) :
    Takes Q (r >>= k) (ss ++ us) b := by
  intro ts rest hts hrest
  obtain ⟨vs, ws, rfl, hvs, rfl⟩ := map_eq_append_iff.1 hts
  rw [append_assoc]
  exact .bind (h vs (ws ++ rest) hvs (hrest.append hahead)) (hk ws rest rfl hrest)

theorem bind (h : Takes Anything r ss a) (hk : Takes Q (k a) us b) : Takes Q (r >>= k) (ss ++ us) b :=
  bind_of h hk fun _ _ => trivial

theorem last (h : Takes P r ss a) (hk : Takes P (k a) [] b) : Takes P (r >>= k) ss b := by
  have := h.bind_of hk fun _ hs => hs
  rwa [append_nil] at this

theorem map (h : Takes P r ss a) (f : α → β) : Takes P (r >>= fun a => Pure.pure (f a)) ss (f a) := h.last pure

theorem current {k : Token → Reading β} (h : ∀ pos, Takes P (k ⟨s.kind, s.literal, pos⟩) (s :: ss) b) :
    Takes P (current >>= k) (s :: ss) b := by
  intro ts rest hts hrest
  obtain ⟨t, us, rfl, rfl, rfl⟩ := map_eq_cons_iff.1 hts
  exact .current fun _ => h t.pos (t :: us) rest rfl hrest

theorem current_ahead {k : Token → Reading β} (h : ∀ s pos, P s → Takes P (k ⟨s.kind, s.literal, pos⟩) [] b) :
    Takes P (Llvm.current >>= k) [] b := by
  intro ts rest hts hrest
  obtain ⟨t, ht, hP⟩ := id hrest
  rw [map_eq_nil_iff.1 hts, nil_append]
  refine .current fun pos => ?_
  rw [Option.mem_def.1 ht]
  exact h t.shape t.pos hP [] rest rfl hrest

theorem peek {k : Token → Reading β} (h : ∀ pos, Takes P (k ⟨s'.kind, s'.literal, pos⟩) (s :: s' :: ss) b) :
    Takes P (peek >>= k) (s :: s' :: ss) b := by
  intro ts rest hts hrest
  obtain ⟨t, us, rfl, rfl, hus⟩ := map_eq_cons_iff.1 hts
  obtain ⟨u, us, rfl, rfl, rfl⟩ := map_eq_cons_iff.1 hus
  exact .peek fun _ => h u.pos (t :: u :: us) rest rfl hrest

theorem peek_any {k : Token → Reading β} (h : ∀ t, Takes P (k t) ss b) : Takes P (Llvm.peek >>= k) ss b :=
  fun ts rest hts hrest => .peek fun _ => h _ ts rest hts hrest

theorem next {k : Unit → Reading β} (h : Takes P (k ()) ss b) : Takes P (next >>= k) (s :: ss) b := by
  intro ts rest hts hrest
  obtain ⟨t, us, rfl, rfl, rfl⟩ := map_eq_cons_iff.1 hts
  exact .bind .next (h us rest rfl hrest)

theorem expect {kind : TokenKind} {literal : String} {k : Unit → Reading β} (h : Takes P (k ()) ss b) :
    Takes P (expect kind >>= k) (⟨kind, literal⟩ :: ss) b := by
  intro ts rest hts hrest
  obtain ⟨t, us, rfl, ht, rfl⟩ := map_eq_cons_iff.1 hts
  exact .bind (.expect (congrArg Shape.kind ht)) (h us rest rfl hrest)

theorem expectWord {word : String} {k : Unit → Reading β} (h : Takes P (k ()) ss b) :
    Takes P (expectWord word >>= k) (⟨.word, word⟩ :: ss) b := by
  intro ts rest hts hrest
  obtain ⟨t, us, rfl, ht, rfl⟩ := map_eq_cons_iff.1 hts
  exact .bind (.expectWord (Token.isWord_of_shape ht)) (h us rest rfl hrest)

theorem ite_pos [Decidable c] (hc : c) (h : Takes P r ss a) : Takes P (if c then r else r') ss a :=
  fun ts rest hts hrest => .ite_pos hc (h ts rest hts hrest)

theorem ite_neg [Decidable c] (hc : ¬c) (h : Takes P r ss a) : Takes P (if c then r' else r) ss a :=
  fun ts rest hts hrest => .ite_neg hc (h ts rest hts hrest)

theorem many {round : Reading (Option α)} {f : α → List Shape} {as : List α}
    (hround : ∀ a ∈ as, f a ≠ [] ∧ Takes Anything round (f a) (some a)) (hlast : Takes P round [] none) :
    Takes P (many round) (as.flatMap f) as := by
  intro ts rest hts hrest
  refine GivesAll.many ?_
  induction as generalizing ts with
  | nil => exact .nil (hlast ts rest hts hrest)
  | cons a as ih =>
    -- a round takes its item whatever follows, be it another item or the rest
    obtain ⟨⟨hne, hfirst⟩, hround⟩ := forall_mem_cons.1 hround
    obtain ⟨us, vs, rfl, hus, hvs⟩ := map_eq_append_iff.1 hts
    have hahead : Ahead Anything (vs ++ rest) := hrest.append fun _ _ => trivial
    rw [← hus] at hne
    rw [append_assoc]
    exact .cons_append (fun hnil => hne (by rw [hnil, map_nil])) (hfirst us _ hus hahead) (ih hround vs hvs)

end Takes

/-! ## Types and operands -/

@[simp]
theorem shapes_nil : shapes [] = [] := rfl

@[simp]
theorem shapes_space (gs : List Glyph) : shapes (.space :: gs) = shapes gs := rfl

@[simp]
theorem shapes_token (s : Shape) (gs : List Glyph) : shapes (.token s :: gs) = s :: shapes gs := rfl

@[simp]
theorem shapes_append (gs gs' : List Glyph) : shapes (gs ++ gs') = shapes gs ++ shapes gs' := filterMap_append

theorem shapes_flatMap {α : Type} (f : α → List Glyph) (l : List α) :
    shapes (l.flatMap f) = l.flatMap fun a => shapes (f a) := by
  induction l with
  | nil => rfl
  | cons a l ih => rw [flatMap_cons, shapes_append, ih, flatMap_cons]

/-- The tokens of an array type before its element type. -/
def arrayHead (length : Int64) : List Shape := [⟨.leftBracket, "["⟩, ⟨.int, Text.decimal length⟩, ⟨.word, "x"⟩]

theorem takes_readArrayHead (length : Int64) : Takes P readArrayHead (arrayHead length) (some length) := by
  refine .current fun _ => .ite_neg (fun h => h rfl) (.next (.current fun _ => .ite_neg (fun h => h rfl) (.next ?_)))
  exact .expectWord (.pure_of (congrArg some (Text.readClamped_decimal length)))

theorem namedType?_int {bits : Int64} (hbits : 0 < bits) (pos : Pos) :
    namedType? ⟨.word, "i" ++ Text.decimal bits, pos⟩ = some (.int bits) := by
  have hne : ∀ {w : String}, w.toList.head? ≠ some 'i' → "i" ++ Text.decimal bits ≠ w := fun hw heq => by
    rw [← heq, String.toList_append] at hw
    exact hw rfl
  have hread : intBits? ("i" ++ Text.decimal bits) = some bits := by
    have hdigits : ("i" ++ Text.decimal bits).toList = 'i' :: (Text.decimal bits).toList := String.toList_append
    rw [intBits?, hdigits]
    simp only [String.ofList_toList, Text.readSigned_decimal]
    exact if_pos hbits
  rw [namedType?, if_neg (fun h => h rfl)]
  dsimp only
  split
  · next heq => exact absurd heq (hne (by decide))
  · next heq => exact absurd heq (hne (by decide))
  · next heq => exact absurd heq (hne (by decide))
  · rw [hread, Option.map_some]

theorem Ty.exists_base {t : Ty} (ht : t.isPlain) :
    ∃ (lengths : List Int64) (base : Ty) (word : String), t = lengths.foldr Ty.array base ∧
    shapes t.glyphs = lengths.flatMap arrayHead ++ ⟨.word, word⟩ :: List.replicate lengths.length ⟨.rightBracket, "]"⟩ ∧
    ∀ pos, namedType? ⟨.word, word, pos⟩ = some base := by
  induction t with
  | array length element ih =>
    obtain ⟨lengths, base, word, rfl, hshapes, hbase⟩ := ih ht
    refine ⟨length :: lengths, base, word, rfl, ?_, hbase⟩
    simp [glyphs, hshapes, arrayHead, TokenKind.name, replicate_succ']
  | int bits => exact ⟨[], int bits, _, rfl, rfl, namedType?_int (of_decide_eq_true ht)⟩
  | void => exact ⟨[], void, "void", rfl, rfl, fun _ => rfl⟩
  | ptr => exact ⟨[], ptr, "ptr", rfl, rfl, fun _ => rfl⟩
  | label => cases ht

theorem takes_brackets (lengths : List Int64) :
    Takes P (lengths.forM fun _ => expect .rightBracket) (List.replicate lengths.length ⟨.rightBracket, "]"⟩) () := by
  induction lengths with
  | nil => exact .pure
  | cons _ lengths ih => exact .expect ih

theorem takes_readType {t : Ty} (ht : t.isPlain) : Takes P readType (shapes t.glyphs) t := by
  obtain ⟨lengths, base, word, rfl, hshapes, hbase⟩ := t.exists_base ht
  rw [hshapes]
  -- the loop over the heads ends at the word, which opens no array
  have hlengths : Takes (·.kind ≠ .leftBracket) (many readArrayHead) (lengths.flatMap arrayHead) lengths := by
    refine .many (fun length _ => ⟨cons_ne_nil _ _, takes_readArrayHead length⟩) ?_
    exact .current_ahead fun _ _ hs => .ite_pos hs .pure
  refine hlengths.bind_of (.current fun pos => ?_) fun _ _ => (by decide : TokenKind.word ≠ .leftBracket)
  rw [hbase]
  exact .next ((takes_brackets lengths).map _)

theorem takes_readValue {v : Value} : Takes P readValue (shapes v.glyphs) v := by
  cases v with
  | localName | globalName => exact .current fun _ => .next .pure
  | const v =>
    have hconst : intConstant? (Text.decimal v) = some v := by rw [intConstant?, Text.readSigned_decimal]
    refine .current fun _ => .next ?_
    dsimp only
    rw [hconst]
    exact .pure

theorem takes_readTypedValue (hv : v.isPlain) : Takes P readTypedValue (shapes v.glyphs) v := by
  rw [TypedValue.glyphs, shapes_append, shapes_space]
  exact .bind (takes_readType (Bool.and_eq_true_iff.1 hv).1) (takes_readValue.map _)

theorem takes_readPair (htype : type.isPlain) : Takes P readPair (shapes (Action.pair type x y)) (type, x, y) := by
  simp only [Action.pair, shapes_append, shapes_space, shapes_token, shapes_nil, append_assoc]
  exact .bind (takes_readType htype) (.bind takes_readValue (.expect (takes_readValue.map _)))

theorem takes_readPointer {v : Value} : Takes P readPointer (shapes (Action.pointer v)) v := by
  simp only [Action.pointer, shapes_append]
  exact .expect (.expectWord takes_readValue)

/-! ## What is skipped -/

/-- A token that a type begins with. -/
def StartsType (s : Shape) : Prop := ∀ pos, isTypeStart ⟨s.kind, s.literal, pos⟩

def NoFlag (s : Shape) : Prop := (s.kind == .word && flagWords.contains s.literal) = false

instance (s : Shape) : Decidable (NoFlag s) := inferInstanceAs (Decidable (_ = _))

def NoAttribute (s : Shape) : Prop := s.kind ≠ .attrGroup ∧ (s.kind ≠ .word ∨ StartsType s)

theorem Ty.exists_head {t : Ty} (ht : t.isPlain) : ∃ s ss, shapes t.glyphs = s :: ss ∧ StartsType s := by
  obtain ⟨lengths, base, word, -, hshapes, hbase⟩ := t.exists_base ht
  cases lengths with
  | nil =>
    refine ⟨_, _, hshapes, fun pos => ?_⟩
    rw [isTypeStart, hbase]
    rfl
  | cons length lengths => exact ⟨_, _, hshapes, fun _ => rfl⟩

theorem StartsType.kind (h : StartsType s) : s.kind = .leftBracket ∨ s.kind = .word := by
  by_contra hkind
  obtain ⟨hbracket, hword⟩ := not_or.1 hkind
  have hstart := h ⟨0, 0⟩
  rw [isTypeStart, namedType?, if_pos hword, beq_eq_false_iff_ne.2 hbracket] at hstart
  cases hstart

theorem StartsType.noFlag (h : StartsType s) : NoFlag s := by
  have hflags : ∀ w ∈ flagWords, isTypeStart ⟨.word, w, ⟨0, 0⟩⟩ = false := by decide +kernel
  refine Bool.eq_false_iff.2 fun hflag => ?_
  obtain ⟨hword, hmem⟩ := Bool.and_eq_true_iff.1 hflag
  have hstart := h ⟨0, 0⟩
  rw [beq_iff_eq.1 hword, hflags _ (contains_iff_mem.1 hmem)] at hstart
  cases hstart

theorem StartsType.noAttribute (h : StartsType s) : NoAttribute s := by
  refine ⟨fun hgroup => ?_, .inr h⟩
  rcases h.kind with hkind | hkind <;> cases hgroup.symm.trans hkind

theorem Value.exists_shape (v : Value) : ∃ s, shapes v.glyphs = [s] ∧ NoAttribute s := by
  cases v <;> simp [glyphs, NoAttribute]

theorem TypedValue.exists_head (hv : v.isPlain) : ∃ s ss, shapes v.glyphs = s :: ss ∧ StartsType s := by
  obtain ⟨s, ss, hs, hstart⟩ := v.type.exists_head (Bool.and_eq_true_iff.1 hv).1
  exact ⟨s, ss ++ shapes v.value.glyphs, by rw [glyphs, shapes_append, hs, shapes_space, List.cons_append], hstart⟩

theorem takes_skipFlags : Takes NoFlag skipFlags [] () := by
  intro ts rest hts hrest
  obtain ⟨t, ht, hflag⟩ := hrest
  obtain ⟨rest, rfl⟩ := head?_eq_some_iff.1 ht
  have hdrop : (t :: rest).dropWhile (fun t => t.kind == .word && flagWords.contains t.literal) = t :: rest :=
    dropWhile_cons_of_neg (Bool.eq_false_iff.1 hflag)
  have hskip : Gives skipFlags (t :: rest) () _ := .skipTo _
  rw [hdrop] at hskip
  rwa [map_eq_nil_iff.1 hts, nil_append]

theorem takes_skipAttributes : Takes NoAttribute skipAttributes [] () := by
  have hlast : Takes NoAttribute skipAttribute [] none := by
    refine .current_ahead fun s pos hs => .ite_neg hs.1 (.ite_pos ?_ .pure)
    exact hs.2.imp_right fun h => .inl (h pos)
  have hmany : Takes NoAttribute (many skipAttribute) (([] : List Unit).flatMap fun _ => []) [] :=
    .many (fun _ h => absurd h not_mem_nil) hlast
  exact hmany.map _

theorem Takes.skipFlags {k : Unit → Reading β} (hs : NoFlag s) (h : Takes P (k ()) (s :: ss) b) :
    Takes P (Llvm.skipFlags >>= k) (s :: ss) b :=
  takes_skipFlags.bind_of h fun _ _ => hs

theorem Takes.skipAttributes {k : Unit → Reading β} (hs : NoAttribute s) (h : Takes P (k ()) (s :: ss) b) :
    Takes P (Llvm.skipAttributes >>= k) (s :: ss) b :=
  takes_skipAttributes.bind_of h fun _ _ => hs

/-! ## Lists -/

theorem shapes_commas_cons (gs : List Glyph) (rest : List (List Glyph)) :
    shapes (commas (gs :: rest)) = shapes gs ++ rest.flatMap (⟨.comma, ","⟩ :: shapes ·) := by
  rw [commas, shapes_append, shapes_flatMap]
  rfl

/-- Items between commas, none of which begins with a token that closes the list. -/
theorem takes_separated {closing : Token → Bool} {item : Reading α} {f : α → List Glyph} {as : List α}
    (hitem : ∀ a ∈ as, Takes Anything item (shapes (f a)) a)
    (hopen : ∀ a ∈ as, ∃ s ss, shapes (f a) = s :: ss ∧ ∀ pos, closing ⟨s.kind, s.literal, pos⟩ = false)
    (hclosing : ∀ pos literal, closing ⟨.rightParen, literal, pos⟩) :
    Takes (·.kind = .rightParen) (separated closing item) (shapes (commas (as.map f))) as := by
  cases as with
  | nil =>
    refine .current_ahead fun s pos hs => .ite_pos ?_ .pure
    rw [hs]
    exact hclosing pos s.literal
  | cons a as =>
    obtain ⟨hfirst, hitem⟩ := forall_mem_cons.1 hitem
    obtain ⟨⟨s, ss, hs, hclosed⟩, hopen⟩ := forall_mem_cons.1 hopen
    rw [map_cons, shapes_commas_cons, flatMap_map, hs, List.cons_append]
    refine .current fun pos => .ite_neg (Bool.eq_false_iff.1 (hclosed pos)) ?_
    rw [← List.cons_append, ← hs]
    refine .bind hfirst (Takes.map (.many (fun b hb => ⟨cons_ne_nil _ _, ?_⟩) ?_) _)
    · obtain ⟨s, ss, hs, hclosed⟩ := hopen b hb
      refine .current fun _ => .ite_neg (fun h => h rfl) (.next ?_)
      have := hitem b hb
      rw [hs] at this ⊢
      exact .current fun pos => .ite_neg (Bool.eq_false_iff.1 (hclosed pos)) (this.map some)
    · refine .current_ahead fun s pos hs => .ite_pos (fun hcomma => ?_) .pure
      cases hs.symm.trans hcomma

/-! ## Instructions -/

def NoComma (s : Shape) : Prop := s.kind ≠ .comma

theorem Takes.comma {literal : String} {r' : Reading α} (hs : StartsType s) (h : Takes P r (⟨.comma, literal⟩ :: s :: ss) a) :
    Takes P (Llvm.current >>= fun t => Llvm.peek >>= fun u => if t.kind ≠ .comma ∨ !isTypeStart u then r' else r)
      (⟨.comma, literal⟩ :: s :: ss) a := by
  refine .current fun _ => .peek fun pos => .ite_neg ?_ h
  rintro (hkind | hstart)
  · exact hkind rfl
  · rw [hs pos] at hstart
    cases hstart

theorem takes_readAlloca {style : CountStyle} (hbits : 0 < style.bits) {count : Int64} (htype : type.isPlain) :
    Takes NoComma (readAlloca result)
      (shapes (type.glyphs ++ if count = 1 ∧ !style.always then [] else comma ++ (Ty.int style.bits).glyphs ++ [space, number count]))
      (.alloca result type count) := by
  rw [shapes_append]
  refine .bind (takes_readType htype) ?_
  split
  · -- without a number, what follows the instruction decides: it is no comma
    next hcount =>
    refine .current_ahead fun s pos hs => .peek_any fun _ => .ite_pos (.inl hs) ?_
    exact .pure_of (by rw [hcount.1])
  · have hcount : (Ty.int style.bits).isPlain := decide_eq_true hbits
    obtain ⟨s, ss, hs, hstart⟩ := Ty.exists_head hcount
    have htypeless := takes_readType (P := Anything) hcount
    simp only [append_assoc, shapes_append]
    rw [hs] at htypeless ⊢
    refine .comma hstart (.next (.bind htypeless (.current fun _ => .ite_neg (fun h => h rfl) (.next (.pure_of ?_)))))
    rw [Text.readClamped_decimal]

theorem takes_readGep {element : Ty} {base : Value} {indices : List TypedValue} (helement : element.isPlain)
    (hindices : ∀ v ∈ indices, v.isPlain) : Takes NoComma (readGep result)
      (shapes (element.glyphs ++ (Action.pointer base ++ indices.flatMap (comma ++ ·.glyphs))))
      (.gep result element base indices) := by
  rw [shapes_append, shapes_append, shapes_flatMap]
  refine .bind (takes_readType helement) (.bind takes_readPointer (Takes.map (.many (fun v hv => ?_) ?_) _))
  · obtain ⟨s, ss, hs, hstart⟩ := TypedValue.exists_head (hindices v hv)
    have hvalue := takes_readTypedValue (P := Anything) (hindices v hv)
    rw [shapes_append, hs] at *
    exact ⟨cons_ne_nil _ _, .comma hstart (.next (.skipFlags hstart.noFlag (hvalue.map some)))⟩
  · exact .current_ahead fun s pos hs => .peek_any fun _ => .ite_pos (.inl hs) .pure

theorem takes_readCall {result callee : String} {args : List TypedValue} (htype : type.isPlain)
    (hargs : ∀ v ∈ args, v.isPlain) : Takes P (readCall result)
      (shapes (type.glyphs ++ ([space, globalName callee, mark .leftParen] ++
        (commas (args.map TypedValue.glyphs) ++ [mark .rightParen])))) (.call result type callee args) := by
  obtain ⟨s, ss, hs, hstart⟩ := type.exists_head htype
  have hresult := takes_readType (P := Anything) htype
  simp only [shapes_append, shapes_token, shapes_space, shapes_nil, List.cons_append, nil_append]
  rw [hs] at hresult ⊢
  -- the callee follows the result type at once, so there is no function type to skip
  refine .skipAttributes hstart.noAttribute (.bind hresult (.current fun _ => .ite_neg (fun h => ?_) ?_))
  · cases h
  refine .current fun _ => .ite_neg (fun h => h rfl) (.next (.expect ?_))
  refine .bind_of (takes_separated (fun v hv => ?_) (fun v hv => ?_) fun _ _ => rfl) (.expect .pure) fun _ _ => rfl
  · obtain ⟨htype, -⟩ := Bool.and_eq_true_iff.1 (hargs v hv)
    obtain ⟨s, hs, hattribute⟩ := v.value.exists_shape
    have hvalue := takes_readValue (P := Anything) (v := v.value)
    rw [TypedValue.glyphs, shapes_append, shapes_space]
    rw [hs] at hvalue ⊢
    exact .bind (takes_readType htype) (.skipAttributes hattribute (hvalue.map _))
  · obtain ⟨s, ss, hs, hstart⟩ := TypedValue.exists_head (hargs v hv)
    refine ⟨s, ss, hs, fun _ => ?_⟩
    rcases hstart.kind with hkind | hkind <;> rw [hkind] <;> rfl

theorem takes_readIncoming {i : Incoming} : Takes P readIncoming (shapes i.glyphs) i := by
  simp only [Incoming.glyphs, shapes_append, shapes_token, shapes_space, shapes_nil, append_assoc, List.cons_append, nil_append]
  refine .expect (.bind takes_readValue (.expect (.current fun _ => .ite_neg (fun h => h rfl) (.next ?_))))
  exact .expect .pure

theorem takes_readPhi {incoming : List Incoming} (htype : type.isPlain) (hincoming : incoming ≠ []) :
    Takes NoComma (readPhi result)
      (shapes (type.glyphs ++ ([space] ++ commas (incoming.map Incoming.glyphs)))) (.phi result type incoming) := by
  obtain ⟨i, others, rfl⟩ := exists_cons_of_ne_nil hincoming
  rw [shapes_append, shapes_append, map_cons, shapes_commas_cons, flatMap_map, shapes_space, shapes_nil,
    nil_append]
  refine .bind (takes_readType htype) (.bind takes_readIncoming (Takes.map (.many (fun j _ => ?_) ?_) _))
  · refine ⟨cons_ne_nil _ _, .current fun _ => .peek fun _ => .ite_neg ?_ (.next (takes_readIncoming.map some))⟩
    exact fun h => h.elim (fun h => h rfl) fun h => h rfl
  · exact .current_ahead fun s pos hs => .peek_any fun _ => .ite_pos (.inl hs) .pure

theorem takes_readTarget : Takes P readTarget (shapes (Action.target label)) label :=
  .expectWord (.current fun _ => .ite_neg (fun h => h rfl) (.next .pure))

theorem takes_readBranch : Takes P readBranch (shapes (Action.target label)) (.br label) :=
  .current fun _ => .ite_pos rfl (takes_readTarget.map _)

theorem takes_readBranch_cond {condition : Value} {thenTarget elseTarget : String} :
    Takes P readBranch (shapes ([word "i1", space] ++ (condition.glyphs ++ (comma ++
      (Action.target thenTarget ++ (comma ++ Action.target elseTarget)))))) (.condBr condition thenTarget elseTarget) := by
  simp only [shapes_append, shapes_token, shapes_space, List.cons_append, nil_append]
  refine .current fun _ => .ite_neg (fun h => Bool.noConfusion h) (.expectWord (.bind takes_readValue (.expect ?_)))
  exact .bind takes_readTarget (.expect (takes_readTarget.map _))

theorem Takes.needResult {op : Token} (hresult : result ≠ "") {k : Unit → Reading β} (h : Takes P (k ()) ss b) :
    Takes P ((if result = "" then reject op (.noResult op.literal) else Pure.pure ()) >>= k) ss b := by
  rw [if_neg hresult]
  exact .bind .pure h

theorem takes_binop {op : BinOp} (hop : op ∈ BinOp.all) (hresult : result ≠ "") (htype : type.isPlain) (pos : Pos) :
    Takes P (readAction ⟨.word, op.name, pos⟩ result) (shapes (Action.pair type x y)) (.binop result op type x y) := by
  simp only [BinOp.all, mem_cons, not_mem_nil, or_false] at hop
  rcases hop with rfl | rfl | rfl | rfl | rfl | rfl | rfl | rfl | rfl | rfl | rfl | rfl | rfl <;>
    exact .needResult hresult ((takes_readPair htype).last .pure)

theorem takes_cast {op : CastOp} (hop : op ∈ CastOp.all) {source target : Ty} {value : Value} (hresult : result ≠ "")
    (hsource : source.isPlain) (htarget : target.isPlain) (pos : Pos) :
    Takes P (readAction ⟨.word, op.name, pos⟩ result)
      (shapes source.glyphs ++ (shapes value.glyphs ++ ⟨.word, "to"⟩ :: shapes target.glyphs))
      (.cast result op source value target) := by
  simp only [CastOp.all, mem_cons, not_mem_nil, or_false] at hop
  rcases hop with rfl | rfl | rfl <;> refine .needResult hresult (.bind (takes_readType hsource) ?_) <;>
    exact .bind takes_readValue (.expectWord ((takes_readType htarget).map _))

namespace Action

/-- The tokens of an instruction up to its name. -/
def lead (result op : String) : List Shape :=
  (if result = "" then [] else [⟨.localName, result⟩, ⟨.assign, "="⟩]) ++ [⟨.word, op⟩]

/-- The tokens of an instruction: its result and its name, then operands that are read as the instruction. -/
structure Form (style : CountStyle) (a : Action) (result op : String) (operands : List Shape) : Prop where
  shapes : shapes (a.glyphs style) = lead result op ++ operands
  tail : ["tail", "musttail", "notail"].contains op = false
  flag : ∃ s ∈ operands.head?, NoFlag s
  takes : ∀ pos, Takes NoComma (readAction ⟨.word, op, pos⟩ result) operands a

theorem shapes_opening (hresult : result ≠ "") (op : String) (gs : List Glyph) :
    Llvm.shapes (opening result op ++ gs) = lead result op ++ Llvm.shapes gs := by
  rw [lead, if_neg hresult, shapes_append]
  rfl

theorem ne_empty_of_isIdent {name : String} (h : isIdent name) : name ≠ "" := by
  rintro rfl
  cases h

theorem exists_noFlag {t : Ty} (ht : t.isPlain) (gs : List Glyph) : ∃ s ∈ (Llvm.shapes (t.glyphs ++ gs)).head?, NoFlag s := by
  obtain ⟨s, ss, hs, hstart⟩ := t.exists_head ht
  refine ⟨s, ?_, hstart.noFlag⟩
  rw [shapes_append, hs]
  rfl

variable {style : CountStyle}

/-- Most instructions have a result, and their operands begin with a type. -/
theorem exists_form_of_type {a : Action} {type : Ty} (op : String) (gs : List Glyph) (hresult : isIdent result)
    (htype : type.isPlain) (hglyphs : a.glyphs style = opening result op ++ (type.glyphs ++ gs))
    (htail : ["tail", "musttail", "notail"].contains op = false)
    (htakes : result ≠ "" → ∀ pos,
      Takes NoComma (readAction ⟨.word, op, pos⟩ result) (Llvm.shapes type.glyphs ++ Llvm.shapes gs) a) :
    ∃ result op operands, Form style a result op operands := by
  have hne := ne_empty_of_isIdent hresult
  refine ⟨result, op, Llvm.shapes (type.glyphs ++ gs), ?_, htail, exists_noFlag htype gs, fun pos => ?_⟩
  · rw [hglyphs, shapes_opening hne]
  · rw [shapes_append]
    exact htakes hne pos

theorem exists_form (hbits : 0 < style.bits) {a : Action} (ha : a.isPlain) :
    ∃ result op operands, Form style a result op operands := by
  cases a with
  | alloca result type count =>
    simp only [isPlain, Bool.and_eq_true] at ha
    refine exists_form_of_type "alloca" _ ha.1 ha.2 (append_assoc _ _ _) (by decide) fun hne _ => ?_
    rw [← shapes_append]
    exact .needResult hne (takes_readAlloca hbits ha.2)
  | load result type p =>
    simp only [isPlain, Bool.and_eq_true] at ha
    refine exists_form_of_type "load" _ ha.1.1 ha.1.2 (append_assoc _ _ _) (by decide) fun hne _ => ?_
    exact .needResult hne (.bind (takes_readType ha.1.2) (takes_readPointer.map _))
  | store type value p =>
    simp only [isPlain, Bool.and_eq_true] at ha
    have hvalue : TypedValue.isPlain ⟨type, value⟩ := Bool.and_eq_true_iff.2 ha.1
    refine ⟨"", "store", Llvm.shapes (TypedValue.glyphs ⟨type, value⟩ ++ pointer p), ?_, by decide, ?_, fun _ => ?_⟩
    · rw [glyphs, append_assoc]
      rfl
    · rw [TypedValue.glyphs, append_assoc]
      exact exists_noFlag ha.1.1 _
    · rw [shapes_append]
      exact .bind (takes_readTypedValue hvalue) (takes_readPointer.map _)
  | binop result op type x y =>
    simp only [isPlain, Bool.and_eq_true, contains_iff_mem] at ha
    have htail : ∀ op ∈ BinOp.all, ["tail", "musttail", "notail"].contains op.name = false := by decide
    have hpair : pair type x y = type.glyphs ++ .space :: (x.glyphs ++ (comma ++ y.glyphs)) := by
      simp only [pair, append_assoc, List.cons_append]
    refine exists_form_of_type op.name _ ha.1.1.1.1 ha.1.1.2 (congrArg (opening result op.name ++ ·) hpair)
      (htail op ha.1.1.1.2) fun hne pos => ?_
    rw [← shapes_append, ← hpair]
    exact takes_binop ha.1.1.1.2 hne ha.1.1.2 pos
  | icmp result predicate type x y =>
    simp only [isPlain, Bool.and_eq_true, any_eq_true, beq_iff_eq] at ha
    obtain ⟨c, hc, rfl⟩ := ha.1.1.1.2
    have hresult := ne_empty_of_isIdent ha.1.1.1.1
    have hflag : ∀ c ∈ Cond.all, NoFlag ⟨.word, c.name⟩ := by decide
    refine ⟨result, "icmp", ⟨.word, c.name⟩ :: Llvm.shapes (pair type x y), ?_, by decide, ⟨_, rfl, hflag c hc⟩, fun _ => ?_⟩
    · rw [glyphs, append_assoc, shapes_opening hresult]
      rfl
    · refine .needResult hresult (.skipFlags (hflag c hc) (.current fun _ => .ite_neg (fun h => h rfl) (.next ?_)))
      exact (takes_readPair ha.1.1.2).last .pure
  | cast result op source value target =>
    simp only [isPlain, Bool.and_eq_true, contains_iff_mem] at ha
    have htail : ∀ op ∈ CastOp.all, ["tail", "musttail", "notail"].contains op.name = false := by decide
    refine exists_form_of_type op.name (.space :: (value.glyphs ++ ([space, word "to", space] ++ target.glyphs)))
      ha.1.1.1.1 ha.1.1.2 ?_ (htail op ha.1.1.1.2) fun hne pos => ?_
    · simp only [glyphs, TypedValue.glyphs, append_assoc, List.cons_append]
    · rw [shapes_space, shapes_append]
      exact takes_cast ha.1.1.1.2 hne ha.1.1.2 ha.2 pos
  | gep result element base indices =>
    simp only [isPlain, Bool.and_eq_true, all_eq_true] at ha
    refine exists_form_of_type "getelementptr" (pointer base ++ indices.flatMap (comma ++ ·.glyphs)) ha.1.1.1 ha.1.1.2 ?_
      (by decide) fun hne _ => ?_
    · rw [glyphs, append_assoc, append_assoc]
    · rw [← shapes_append]
      exact .needResult hne (takes_readGep ha.1.1.2 ha.2)
  | call result type callee args =>
    simp only [isPlain, Bool.and_eq_true, all_eq_true] at ha
    refine ⟨result, "call", _, ?_, by decide, exists_noFlag ha.1.1.2 _, fun _ => takes_readCall ha.1.1.2 ha.2⟩
    rw [glyphs, lead]
    simp only [append_assoc]
    split <;> rfl
  | phi result type incoming =>
    simp only [isPlain, Bool.and_eq_true, Bool.not_eq_true', isEmpty_eq_false_iff] at ha
    refine exists_form_of_type "phi" ([space] ++ commas (incoming.map Incoming.glyphs)) ha.1.1.1 ha.1.1.2 ?_ (by decide)
      fun hne _ => ?_
    · rw [glyphs, append_assoc, append_assoc]
    · rw [← shapes_append]
      exact .needResult hne (takes_readPhi ha.1.1.2 ha.1.2)
  | br label => exact ⟨"", "br", _, rfl, by decide, ⟨_, rfl, by decide⟩, fun _ => takes_readBranch⟩
  | condBr condition thenTarget elseTarget =>
    refine ⟨"", "br", _, ?_, by decide, ⟨_, rfl, by decide⟩, fun _ => takes_readBranch_cond⟩
    simp only [glyphs, append_assoc]
    rfl
  | ret value =>
    cases value with
    | none =>
      refine ⟨"", "ret", [⟨.word, "void"⟩], rfl, by decide, ⟨_, rfl, by decide⟩, fun _ => ?_⟩
      exact (takes_readType (t := .void) rfl).last (.ite_pos rfl .pure)
    | some value =>
      obtain ⟨hvoid, hvalue⟩ := Bool.and_eq_true_iff.1 ha
      have htype := (Bool.and_eq_true_iff.1 hvalue).1
      refine ⟨"", "ret", Llvm.shapes (value.type.glyphs ++ .space :: value.value.glyphs), rfl, by decide,
        exists_noFlag htype _, fun _ => ?_⟩
      rw [shapes_append]
      exact .bind (takes_readType htype) (.ite_neg (bne_iff_ne.1 hvoid) (takes_readValue.map _))

/-- An instruction is read from its tokens, wherever they stand. -/
theorem exists_gives (hbits : 0 < style.bits) {a : Action} (ha : a.isPlain) {ts rest : List Token}
    (hts : ts.map Token.shape = Llvm.shapes (a.glyphs style)) (hrest : Ahead NoComma rest) :
    ∃ pos, Gives readInstr (ts ++ rest) ⟨pos, a⟩ rest := by
  obtain ⟨result, op, operands, hshapes, htail, ⟨s, hs, hflag⟩, htakes⟩ := exists_form hbits ha
  obtain ⟨ss, rfl⟩ := head?_eq_some_iff.1 hs
  have hlast : ∀ start pos, Takes NoComma (do
      next
      skipFlags
      return (⟨start, ← readAction ⟨.word, op, pos⟩ result⟩ : Instr)) (⟨.word, op⟩ :: s :: ss) ⟨start, a⟩ :=
    fun start pos => .next (.skipFlags hflag ((htakes pos).map _))
  -- a name at the beginning is that of the result, because an assignment follows it
  rw [hshapes, lead] at hts
  split at hts
  · next hresult =>
    subst hresult
    obtain ⟨t, us, rfl, ht, hus⟩ := map_eq_cons_iff.1 hts
    have hkind : t.kind ≠ .localName := fun h => by cases (congrArg Shape.kind ht).symm.trans h
    refine ⟨t.pos, .current fun _ => Takes.peek_any (fun after => ?_) (t :: us) rest hts hrest⟩
    refine .ite_neg (fun h => hkind h.1) (.current fun pos => .ite_neg (fun h => h rfl) ?_)
    exact .ite_neg (Bool.eq_false_iff.1 htail) (hlast t.pos pos)
  · obtain ⟨t, us, rfl, ht, hus⟩ := map_eq_cons_iff.1 hts
    have hkind : t.kind = .localName := congrArg Shape.kind ht
    have hliteral : t.literal = result := congrArg Shape.literal ht
    refine ⟨t.pos, .current fun _ => Takes.peek (fun pos => ?_) (t :: us) rest hts hrest⟩
    refine .ite_pos ⟨hkind, rfl⟩ (.next (.next (.current fun pos => .ite_neg (fun h => h rfl) ?_)))
    rw [← hliteral] at hlast
    exact .ite_neg (Bool.eq_false_iff.1 htail) (hlast t.pos pos)

end Action

/-! ## Heads of functions -/

theorem Takes.modify {f : Cursor → Cursor} (hstream : ∀ c, (f c).stream = c.stream) (herrors : ∀ c, (f c).errors = c.errors)
    {k : Unit → Reading β} (h : Takes P (k ()) ss b) : Takes P ((modify f : Reading Unit) >>= k) ss b :=
  fun ts rest hts hrest => .bind (.modify (fun c hc => (congrArg _ (hstream c)).trans hc) herrors) (h ts rest hts hrest)

theorem takes_readParamName {name : String} : Takes P readParamName [⟨.localName, name⟩] name := by
  have hattribute : NoAttribute ⟨.localName, name⟩ := by simp [NoAttribute]
  refine .skipAttributes hattribute (.current fun _ => .ite_neg (fun h => h rfl) ?_)
  -- a number that a parameter takes for its name is not handed out again
  dsimp only
  split
  · refine .modify (fun c => ?_) (fun c => ?_) (.next .pure) <;> split <;> rfl
  · exact .next .pure

theorem takes_readParam (function : String) {p : Param} (hp : p.isPlain) : Takes P (readParam function) (shapes p.glyphs) p := by
  obtain ⟨htype, -⟩ := Bool.and_eq_true_iff.1 hp
  obtain ⟨s, ss, hs, hstart⟩ := p.type.exists_head htype
  have htaken := takes_readType (P := Anything) htype
  rw [Param.glyphs, shapes_append]
  rw [hs] at htaken ⊢
  refine .current fun _ => .ite_neg (fun h => ?_) ?_
  · rcases hstart.kind with hkind | hkind <;> cases hkind.symm.trans h
  · exact .bind htaken (takes_readParamName.map _)

theorem takes_readHead {f : Function} (hf : f.isPlain) :
    Takes P readHead (shapes (f.result.glyphs ++ ([space, globalName f.name, mark .leftParen] ++
      (commas (f.params.map Param.glyphs) ++ [mark .rightParen])))) (f.name, f.result, f.params) := by
  simp only [Function.isPlain, Bool.and_eq_true, all_eq_true] at hf
  obtain ⟨⟨⟨-, hresult⟩, hparams⟩, -⟩ := hf
  obtain ⟨s, ss, hs, hstart⟩ := f.result.exists_head hresult
  have htaken := takes_readType (P := Anything) hresult
  simp only [shapes_append, shapes_token, shapes_space, shapes_nil, List.cons_append, nil_append]
  rw [hs] at htaken ⊢
  refine .skipAttributes hstart.noAttribute (.bind htaken (.current fun _ => .ite_neg (fun h => h rfl) (.next (.expect ?_))))
  refine .bind_of (takes_separated (fun p hp => takes_readParam _ (hparams p hp)) (fun p hp => ?_) fun _ _ => rfl)
    (.expect .pure) fun _ _ => rfl
  obtain ⟨htype, -⟩ := Bool.and_eq_true_iff.1 (hparams p hp)
  obtain ⟨s, ss, hs, hstart⟩ := p.type.exists_head htype
  refine ⟨s, ss ++ shapes [space, localName p.name], ?_, fun _ => ?_⟩
  · rw [Param.glyphs, shapes_append, hs, List.cons_append]
  · rcases hstart.kind with hkind | hkind <;> rw [hkind] <;> rfl

end

end RegisterCompiler.Llvm
