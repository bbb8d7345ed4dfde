import RegisterCompiler.Proofs.Coverage

/-!
# Readings come to an end

A text is read in loops, the rounds of which are limited by the number of tokens that are left. The limit is never
reached, however malformed a text may be: a round that goes on has taken a token. An instruction that cannot be read may
have taken none, but then the rest of its line is skipped, on which it begins.
-/

namespace RegisterCompiler.Llvm

open List

variable {α β : Type} {r : Reading α} {p : α → Prop} {q : β → Prop} {c : Cursor} {c' : Cursor} {a : α}
  {k : α → Reading β}

def Cursor.left (c : Cursor) : Nat := c.stream.tokens.length

def Cursor.first (c : Cursor) : Token := c.stream.tokens.head?.getD c.stream.eof

theorem Cursor.exists_cons (h : c.first.kind ≠ .eof) : ∃ rest, c.stream.tokens = c.first :: rest := by
  unfold first at h ⊢
  cases htokens : c.stream.tokens with
  | nil => exact absurd (by rw [htokens]; rfl) h
  | cons t rest => exact ⟨rest, rfl⟩

theorem Keeps.left_le (h : Keeps r p) (hc : c.Proper) : (r.run c).2.left ≤ c.left := (h c hc).1.length_le

theorem Keeps.proper (h : Keeps r p) (hc : c.Proper) : (r.run c).2.Proper := hc.of_suffix (h c hc).1

theorem run_current (k : Token → Reading β) (c : Cursor) : (current >>= k).run c = (k c.first).run c := by
  rw [run_bind]
  rfl

/-! ## Readings that take a token -/

/-- A reading that takes a token, whether it gives up or not. -/
def Consumes (c : Cursor) (r : Reading α) : Prop := (r.run c).2.left < c.left

/-- A reading that takes a token if it gives such a result. -/
def Advances (c : Cursor) (r : Reading α) (p : α → Prop) : Prop := ∀ a, (r.run c).1 = some a → p a → (r.run c).2.left < c.left

theorem Consumes.advances (h : Consumes c r) : Advances c r p := fun _ _ _ => h

theorem Consumes.attempt (h : Consumes c r) : Consumes c (attempt r) := h

theorem consumes_next {k : Unit → Reading β} (hc : c.Proper) (hfirst : c.first.kind ≠ .eof) (hk : Keeps (k ()) q) :
    Consumes c (next >>= k) := by
  obtain ⟨rest, htokens⟩ := Cursor.exists_cons hfirst
  have hleft : (next.run c).2.left + 1 = c.left := by
    show c.stream.tokens.tail.length + 1 = c.stream.tokens.length
    rw [htokens, tail_cons, length_cons]
  have hrest := hk.left_le (keeps_next.proper hc)
  unfold Consumes
  rw [run_bind]
  exact Nat.lt_of_le_of_lt hrest (by omega)

theorem Consumes.current {k : Token → Reading β} (h : Consumes c (k c.first)) : Consumes c (current >>= k) := by
  unfold Consumes
  rwa [run_current]

namespace Advances

variable {mistake : Mistake} {found : Token} {k : Token → Reading β}

theorem pure {a : α} (h : ¬p a) : Advances c (Pure.pure a) p := fun _ ha hp => absurd (Option.some.inj ha ▸ hp) h

theorem reject : Advances c (Llvm.reject found mistake : Reading α) p :=
  fun a ha _ => absurd ha.symm (Option.some_ne_none a)

theorem current (h : Advances c (k c.first) q) : Advances c (Llvm.current >>= k) q := by
  unfold Advances
  rwa [run_current]

theorem peek (h : ∀ t, Advances c (k t) q) : Advances c (Llvm.peek >>= k) q := by
  unfold Advances
  rw [run_bind]
  exact h _

theorem ite_reject {test : Prop} [Decidable test] {k : Unit → Reading α} (h : ¬test → Advances c (k ()) p) :
    Advances c (if test then Llvm.reject found mistake >>= k else k ()) p := by
  split
  · exact fun a ha _ => absurd ha.symm (Option.some_ne_none a)
  · next htest => exact h htest

theorem first {k : α → Reading β} (hc : c.Proper) (h : Advances c r fun _ => True) (hr : Keeps r p) (hk : ∀ a, Keeps (k a) q) :
    Advances c (r >>= k) q := by
  intro b hb _
  rw [run_bind] at hb ⊢
  cases ha : (r.run c).1 with
  | none =>
    rw [ha] at hb
    exact absurd hb.symm (Option.some_ne_none b)
  | some a => exact Nat.lt_of_le_of_lt ((hk a).left_le (hr.proper hc)) (h a ha trivial)

theorem second {k : α → Reading β} (hc : c.Proper) (hr : Keeps r p) (hk : ∀ a (c : Cursor), c.Proper → Advances c (k a) q) :
    Advances c (r >>= k) q := by
  intro b hb hq
  rw [run_bind] at hb ⊢
  cases ha : (r.run c).1 with
  | none =>
    rw [ha] at hb
    exact absurd hb.symm (Option.some_ne_none b)
  | some a =>
    rw [ha] at hb
    exact Nat.lt_of_lt_of_le (hk a _ (hr.proper hc) b hb hq) (hr.left_le hc)

end Advances

/-! ## Types, operands and lists -/

theorem kind_of_namedType? {t : Token} {type : Ty} (h : namedType? t = some type) : t.kind ≠ .eof := by
  intro heof
  rw [namedType?, if_pos (by rw [heof]; decide)] at h
  exact absurd h.symm (Option.some_ne_none type)

section

variable (hc : c.Proper)
include hc

theorem advances_readArrayHead : Advances c readArrayHead fun o => o.isSome := by
  refine .current ?_
  split
  · exact .pure Bool.false_ne_true
  · next hkind =>
    have hfirst : c.first.kind ≠ .eof := fun heof => hkind (by rw [heof]; decide)
    refine (consumes_next (q := fun _ => True) hc hfirst ?_).advances
    refine keeps_current.andThen fun found => keeps_ite_reject fun _ => ?_
    exact keeps_next.andThen fun _ => (keeps_expectWord _).done

theorem advances_readType : Advances c readType fun _ => True := by
  refine .second hc (keeps_many_any keeps_readArrayHead) fun lengths c hc => .current ?_
  split
  · exact .reject
  · next base hbase =>
    refine (consumes_next (q := fun _ => True) hc (kind_of_namedType? hbase) ?_).advances
    exact (keeps_closing lengths).done

theorem advances_readArg : Advances c readArg fun _ => True := by
  refine .first (q := fun _ => True) hc (advances_readType hc) keeps_readType fun type => ?_
  exact keeps_skipAttributes.andThen fun _ => keeps_readValue.done

theorem advances_readParam (function : String) : Advances c (readParam function) fun _ => True := by
  refine .current (.ite_reject fun _ => ?_)
  exact .first (q := fun _ => True) hc (advances_readType hc) keeps_readType fun type =>
    keeps_readParamName.done

theorem advances_readIncoming : Advances c readIncoming fun _ => True := by
  refine .first (q := fun _ => True) hc (fun _ hbracket _ => ?_) (keeps_expect _) fun _ => ?_
  · rw [expect, run_current] at hbracket ⊢
    split at hbracket
    · next hkind =>
      rw [if_pos hkind]
      exact consumes_next (k := Pure.pure) hc (by rw [hkind]; decide) (.pure trivial : Keeps _ fun _ => True)
    · exact absurd hbracket.symm (Option.some_ne_none _)
  · refine keeps_readValue.andThen fun _ => (keeps_expect _).andThen fun _ => keeps_current.andThen fun _ => ?_
    exact keeps_ite_reject fun _ => keeps_next.andThen fun _ => (keeps_expect _).done

theorem advances_nextItem {closing : Token → Bool} {item : Reading α} (h : Keeps item fun _ => True) :
    Advances c (nextItem closing item) fun o => o.isSome := by
  refine .current ?_
  split
  · exact .pure Bool.false_ne_true
  · next hkind =>
    refine (consumes_next (q := fun _ => True) hc (fun heof => hkind (by rw [heof]; decide)) ?_).advances
    refine keeps_current.andThen fun after => ?_
    split
    · exact .pure trivial
    · exact h.done

theorem advances_readIndex : Advances c readIndex fun o => o.isSome := by
  refine .current (.peek fun after => ?_)
  split
  · exact .pure Bool.false_ne_true
  · next hkind =>
    refine (consumes_next (q := fun _ => True) hc (fun heof => hkind (.inl (by rw [heof]; decide))) ?_).advances
    exact keeps_skipFlags.andThen fun _ => keeps_readTypedValue.done

theorem advances_readFurther : Advances c readFurther fun o => o.isSome := by
  refine .current (.peek fun after => ?_)
  split
  · exact .pure Bool.false_ne_true
  · next hkind =>
    refine (consumes_next (q := fun _ => True) hc (fun heof => hkind (.inl (by rw [heof]; decide))) ?_).advances
    exact keeps_readIncoming.done

theorem advances_skipAttribute : Advances c skipAttribute fun o => o.isSome := by
  refine .current ?_
  split
  · next hkind =>
    refine (consumes_next (q := fun _ => True) hc (by rw [hkind]; decide) ?_).advances
    exact .pure trivial
  · split
    · exact .pure Bool.false_ne_true
    · next hword =>
      refine (consumes_next (q := fun _ => True) hc (fun heof => hword (.inl (by rw [heof]; decide))) ?_).advances
      refine keeps_current.andThen fun after => ?_
      split
      · exact (keeps_skipTo (skipGroup_suffix 0)).done
      · split
        · exact keeps_next.done
        · exact .pure trivial

end

/-! ## Lines, blocks and functions -/

theorem left_skipLine_lt (hfirst : c.first.kind ≠ .eof) (hc' : c'.stream.tokens <:+ c.stream.tokens) :
    ((skipLine c.first.pos.line).run c').2.left < c.left := by
  obtain ⟨rest, htokens⟩ := Cursor.exists_cons hfirst
  show (c'.stream.tokens.dropWhile (·.pos.line == c.first.pos.line)).length < c.stream.tokens.length
  rw [htokens] at hc' ⊢
  rcases suffix_cons_iff.1 hc' with heq | hsuffix
  · rw [heq, dropWhile_cons_of_pos (by simp)]
    exact Nat.lt_succ_of_le (dropWhile_suffix _).length_le
  · exact Nat.lt_succ_of_le ((dropWhile_suffix _).trans hsuffix).length_le

theorem advances_readLine (hc : c.Proper) : Advances c readLine fun o => o.isSome := by
  refine .current ?_
  split
  · exact .pure Bool.false_ne_true
  · next hends =>
    have hfirst : c.first.kind ≠ .eof := fun heof => hends (by simp [endsBlock, heof])
    -- Whatever the instruction has taken, the rest of its line is skipped.
    exact fun _ _ _ => left_skipLine_lt hfirst (keeps_readInstr c hc).1

/-! ## Loops -/

section

variable {round : Reading (Option α)} {n : Nat}

theorem run_rounds_of_none (h : (round.run c).1 = none) : (rounds round (n + 1)).run c = (none, (round.run c).2) := by
  rw [rounds, run_bind, h]
  rfl

theorem run_rounds_of_stop (h : (round.run c).1 = some none) : (rounds round (n + 1)).run c = (some [], (round.run c).2) := by
  rw [rounds, run_bind, h]
  rfl

theorem run_rounds_of_go (h : (round.run c).1 = some (some a)) : (rounds round (n + 1)).run c =
    (((rounds round n).run (round.run c).2).1.map (a :: ·), ((rounds round n).run (round.run c).2).2) := by
  rw [rounds, run_bind, h]
  show (rounds round n >>= fun l => Pure.pure (a :: l)).run (round.run c).2 = _
  rw [run_bind]
  cases ((rounds round n).run (round.run c).2).1 <;> rfl

theorem run_many (round : Reading (Option α)) (c : Cursor) : (many round).run c = (rounds round (c.left + 1)).run c := by
  rw [many, run_bind]
  rfl

/-- A loop ends by itself on every tail of the tokens: each round that goes on takes a token, so that the limit on the
    rounds could be any other that exceeds the number of tokens. -/
structure Ends (tokens : List Token) (round : Reading (Option α)) : Prop where
  advances : ∀ c : Cursor, c.stream.tokens <:+ tokens → Advances c round fun o => o.isSome
  unlimited : ∀ c : Cursor, c.stream.tokens <:+ tokens → ∀ n > c.left, (rounds round n).run c = (many round).run c

/-- A loop, each round of which takes a token, has the same rounds whatever their limit is. -/
theorem run_rounds_eq (hkeeps : Keeps round fun _ => True)
    (h : ∀ c : Cursor, c.Proper → Advances c round fun o => o.isSome) (hc : c.Proper) {m n : Nat} (hm : c.left < m)
    (hn : c.left < n) : (rounds round m).run c = (rounds round n).run c := by
  induction m generalizing c n with
  | zero => exact absurd hm (Nat.not_lt_zero _)
  | succ m ih =>
    obtain ⟨n, rfl⟩ := Nat.exists_eq_add_one_of_ne_zero (Nat.ne_of_gt (Nat.zero_lt_of_lt hn))
    cases ho : (round.run c).1 with
    | none => rw [run_rounds_of_none ho, run_rounds_of_none ho]
    | some o =>
      cases o with
      | none => rw [run_rounds_of_stop ho, run_rounds_of_stop ho]
      | some a =>
        have hlt := h c hc (some a) ho rfl
        rw [run_rounds_of_go ho, run_rounds_of_go ho, ih (hkeeps.proper hc) (n := n) (by omega) (by omega)]

theorem ends_of_advances {tokens : List Token} (htokens : ∀ t ∈ tokens, t.Proper) (hkeeps : Keeps round fun _ => True)
    (h : ∀ c : Cursor, c.Proper → Advances c round fun o => o.isSome) : Ends tokens round where
  advances c hc := h c fun t ht => htokens t (hc.subset ht)
  unlimited c hc n hn := by
    rw [run_many]
    exact run_rounds_eq hkeeps h (fun t ht => htokens t (hc.subset ht)) hn (Nat.lt_succ_self _)

end

/-! ## Blocks and functions -/

theorem consumes_many_readLine (hc : c.Proper) (hends : ¬endsBlock c.first) : Consumes c (many readLine) := by
  have hgo : ∃ line, (readLine.run c).1 = some (some line) := by
    rw [readLine, run_current, if_neg hends]
    exact ⟨_, rfl⟩
  obtain ⟨line, hline⟩ := hgo
  have hlt := advances_readLine hc (some line) hline rfl
  have hrest := (keeps_rounds keeps_readLine c.left).left_le (keeps_readLine.proper hc)
  unfold Consumes
  rw [run_many, run_rounds_of_go hline]
  exact Nat.lt_of_le_of_lt hrest hlt

theorem Consumes.skip (hrun : r.run c = (some a, c')) (hleft : c'.left = c.left) (h : Consumes c' (k a)) :
    Consumes c (r >>= k) := by
  unfold Consumes
  rw [run_bind, hrun, ← hleft]
  exact h

theorem Consumes.andThen (h : Consumes c r) (hc : c.Proper) (hr : Keeps r p) (hk : ∀ a, Keeps (k a) q) :
    Consumes c (r >>= k) := by
  unfold Consumes
  rw [run_bind]
  cases (r.run c).1 with
  | none => exact h
  | some a => exact Nat.lt_of_le_of_lt ((hk a).left_le (hr.proper hc)) h

theorem advances_readBlock (hc : c.Proper) : Advances c readBlock fun o => o.isSome := by
  refine .current ?_
  split
  · exact .pure Bool.false_ne_true
  · next hstart =>
    obtain ⟨hbrace, heof⟩ := not_or.1 hstart
    have hkeeps : Keeps (many readLine) fun _ => True := keeps_many_any keeps_readLine.any
    dsimp only
    split
    · refine (consumes_next (q := fun _ => True) hc heof ?_).advances
      exact hkeeps.done
    · next hlabel =>
      -- A block without a label has an instruction, since it neither begins with a label nor is at its end.
      have hends : ¬endsBlock c.first := by simp [endsBlock, hlabel, hbrace, heof]
      have hlines := consumes_many_readLine (c := { c with unnamed := c.unnamed + 1 }) hc hends
      refine Consumes.advances (.skip rfl rfl ?_)
      exact hlines.andThen (q := fun _ => True) hc hkeeps fun _ => .pure trivial

theorem consumes_readFunction (hc : c.Proper) (hfirst : c.first.kind ≠ .eof) : Consumes c readFunction := by
  refine .current (.skip rfl rfl (consumes_next (q := fun _ => True) hc hfirst ?_))
  refine (keeps_attempt keeps_readHead).andThen fun head => ?_
  cases head with
  | none => exact (keeps_skipTo fun _ => dropWhile_suffix _).andThen fun _ => keeps_next.andThen fun _ => keeps_failure
  | some head =>
    refine (keeps_skipTo fun _ => dropWhile_suffix _).andThen fun _ => (keeps_expect _).andThen fun _ => ?_
    exact (keeps_many_any keeps_readBlock.any).andThen fun _ => (keeps_expect _).done

theorem run_readTopLevel (hc : c.Proper) :
    (c.first.kind = .eof ∧ readTopLevel.run c = (some none, c)) ∨
      ∃ f, (readTopLevel.run c).1 = some (some f) ∧ (readTopLevel.run c).2.left < c.left := by
  rw [readTopLevel, run_current]
  by_cases heof : c.first.kind = .eof
  · exact .inl ⟨heof, by rw [if_pos heof]; rfl⟩
  · rw [if_neg heof]
    split
    · exact .inr ⟨_, rfl, (consumes_readFunction hc heof).attempt⟩
    · exact .inr ⟨none, rfl, left_skipLine_lt heof suffix_rfl⟩

/-- The loop at the top level goes on to the end of the text. -/
theorem exists_run_rounds_readTopLevel (hc : c.Proper) {n : Nat} (hn : c.left < n) :
    ∃ functions c', (rounds readTopLevel n).run c = (some functions, c') ∧ c'.first.kind = .eof := by
  induction n generalizing c with
  | zero => exact absurd hn (Nat.not_lt_zero _)
  | succ n ih =>
    rcases run_readTopLevel hc with ⟨heof, hrun⟩ | ⟨f, hf, hlt⟩
    · refine ⟨[], c, ?_, heof⟩
      rw [run_rounds_of_stop (by rw [hrun]), hrun]
    · obtain ⟨functions, c', hrest, heof⟩ := ih (keeps_readTopLevel.proper hc) (by omega)
      refine ⟨f :: functions, c', ?_, heof⟩
      rw [run_rounds_of_go hf, hrest]
      rfl

theorem advances_readTopLevel (hc : c.Proper) : Advances c readTopLevel fun o => o.isSome := by
  intro o ho hsome
  rcases run_readTopLevel hc with ⟨-, hrun⟩ | ⟨f, -, hlt⟩
  · rw [hrun] at ho
    obtain rfl := Option.some.inj ho
    exact absurd hsome Bool.false_ne_true
  · exact hlt

theorem kind_of_mem_scanFrom {fuel : Nat} {bytes : List UInt8} {pos : Pos} :
    ∀ t ∈ (scanFrom fuel bytes pos).tokens, t.kind ≠ .eof := by
  induction fuel generalizing bytes pos with
  | zero => exact forall_mem_nil _
  | succ fuel ih =>
    unfold scanFrom
    dsimp only
    split
    · exact forall_mem_nil _
    · next hkind => exact forall_mem_cons.2 ⟨hkind, ih⟩

/-- Every text is read to its end, however malformed it is. Its tokens are those that can be taken from it, no more than it
    has bytes; all loops of the reading end by themselves on them, because every round takes a token, if not by what it
    reads then by what it skips; so does the first item of a list, which stands before its loop; and in the end no token
    is left. -/
theorem reading_ends (file : String) (text : List UInt8) :
    let stream := scanFrom (text.length + 1) text ⟨1, 1⟩
    (∃ n ≤ text.length, (∀ k, (tokenAt text k).kind = .eof ↔ n ≤ k) ∧ stream.tokens = (List.range n).map (tokenAt text)) ∧
    (∃ functions c, (many readTopLevel).run ⟨file, stream, [], 0⟩ = (some functions, c) ∧ c.stream.tokens = []) ∧
    Ends stream.tokens readTopLevel ∧ Ends stream.tokens readBlock ∧ Ends stream.tokens readLine ∧
    (∀ function, Ends stream.tokens (nextItem (·.kind == .rightParen) (readParam function))) ∧
    Ends stream.tokens (nextItem (fun t => t.kind == .rightParen || t.kind == .eof) readArg) ∧
    Ends stream.tokens readFurther ∧ Ends stream.tokens readIndex ∧ Ends stream.tokens readArrayHead ∧
    Ends stream.tokens skipAttribute ∧ (∀ depth t rest, skipGroup depth (t :: rest) <:+ rest) ∧
    (∀ c : Cursor, c.stream.tokens <:+ stream.tokens → Advances c readType (fun _ => True) ∧
      (∀ function, Advances c (readParam function) fun _ => True) ∧ Advances c readArg (fun _ => True) ∧
      Advances c readIncoming fun _ => True) := by
  intro stream
  have hproper : ∀ t ∈ stream.tokens, t.Proper := proper_of_mem_scanFrom
  refine ⟨exists_count_scanFrom text, ?_, ends_of_advances hproper keeps_readTopLevel.any fun c hc => advances_readTopLevel hc,
    ends_of_advances hproper keeps_readBlock.any fun c hc => advances_readBlock hc,
    ends_of_advances hproper keeps_readLine.any fun c hc => advances_readLine hc,
    fun function => ends_of_advances hproper (keeps_nextItem (keeps_readParam _)) fun c hc =>
      advances_nextItem hc (keeps_readParam _),
    ends_of_advances hproper (keeps_nextItem keeps_readArg) fun c hc => advances_nextItem hc keeps_readArg,
    ends_of_advances hproper keeps_readFurther fun c hc => advances_readFurther hc,
    ends_of_advances hproper keeps_readIndex fun c hc => advances_readIndex hc,
    ends_of_advances hproper keeps_readArrayHead fun c hc => advances_readArrayHead hc,
    ends_of_advances hproper keeps_skipAttribute fun c hc => advances_skipAttribute hc, skipGroup_cons,
    fun c hc => ?_⟩
  case refine_2 =>
    have hc : c.Proper := fun t ht => hproper t (hc.subset ht)
    exact ⟨advances_readType hc, advances_readParam hc, advances_readArg hc, advances_readIncoming hc⟩
  have hstart : Cursor.Proper ⟨file, stream, [], 0⟩ := hproper
  obtain ⟨functions, c, hrun, heof⟩ := exists_run_rounds_readTopLevel hstart (Nat.lt_succ_self _)
  rw [← run_many] at hrun
  refine ⟨functions, c, hrun, ?_⟩
  -- What is left would begin with a token of the text, which is not its end.
  have hsuffix := ((keeps_many keeps_readTopLevel) _ hstart).1
  rw [hrun] at hsuffix
  cases htokens : c.stream.tokens with
  | nil => rfl
  | cons t rest =>
    have hmem : t ∈ stream.tokens := hsuffix.subset (htokens ▸ mem_cons_self)
    rw [Cursor.first, htokens] at heof
    exact absurd heof (kind_of_mem_scanFrom t hmem)

end RegisterCompiler.Llvm
