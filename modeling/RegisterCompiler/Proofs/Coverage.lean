import RegisterCompiler.Proofs.Reading

/-!
# Tokens cover a text

Tokens are taken from a text one after the other until nothing is left of it. The bytes that a token takes follow each
other without a gap, except for blanks and for comments, which run to the ends of their lines; and a token knows the line
and the column of its first byte.
-/

namespace RegisterCompiler.Llvm

open List

variable {bytes text : List UInt8} {p : Pos} {b : UInt8} {i j k m n : Nat} {rest : List UInt8} {q : Pos}

/-! ## Places -/

def Pos.afterAll (p : Pos) (bytes : List UInt8) : Pos := bytes.foldl Pos.after p

/-- The place of a byte of a text: the line counts the line feeds before it, and the column the bytes since the last of
    them. -/
def placeAt (text : List UInt8) (i : Nat) : Pos :=
  ⟨(text.take i).count '\n'.toUInt8 + 1, ((text.take i).reverse.takeWhile (· ≠ '\n'.toUInt8)).length + 1⟩

theorem Pos.afterAll_append (p : Pos) (bs cs : List UInt8) : p.afterAll (bs ++ cs) = (p.afterAll bs).afterAll cs :=
  foldl_append

theorem afterAll_take (text : List UInt8) (i : Nat) : Pos.afterAll ⟨1, 1⟩ (text.take i) = placeAt text i := by
  unfold placeAt
  induction text.take i using List.reverseRecOn with
  | nil => rfl
  | append_singleton bs b ih =>
    rw [Pos.afterAll_append, ih]
    by_cases hb : b = '\n'.toUInt8
    · simp [Pos.afterAll, Pos.after, hb]
    · simp [Pos.afterAll, Pos.after, hb]

theorem afterAll_placeAt (text : List UInt8) (i n : Nat) :
    (placeAt text i).afterAll ((text.drop i).take n) = placeAt text (i + n) := by
  rw [← afterAll_take, ← Pos.afterAll_append, ← take_add, afterAll_take]

/-! ## Blanks and comments -/

/-- The bytes from `j` up to `m` are a comment: a semicolon and the rest of its line. -/
def IsComment (text : List UInt8) (j m : Nat) : Prop :=
  text[j]? = some ';'.toUInt8 ∧ (∀ i, j ≤ i → i < m → text[i]? ≠ some '\n'.toUInt8) ∧
    (m = text.length ∨ text[m]? = some '\n'.toUInt8)

/-- Byte `i` is a blank, or in a comment that ends before byte `n`. -/
def IsBlank (text : List UInt8) (n i : Nat) : Prop :=
  (∃ b, text[i]? = some b ∧ isSpaceByte b) ∨ ∃ j m, j ≤ i ∧ i < m ∧ m ≤ n ∧ IsComment text j m

/-- The comment in which a text begins goes on up to byte `m`. -/
def CommentEnds (text : List UInt8) (m : Nat) : Prop :=
  (∀ i, i < m → text[i]? ≠ some '\n'.toUInt8) ∧ (m = text.length ∨ text[m]? = some '\n'.toUInt8)

theorem getElem?_length_add (before bytes : List UInt8) (i : Nat) :
    (before ++ bytes)[before.length + i]? = bytes[i]? := by
  rw [getElem?_append_right (Nat.le_add_right _ _), Nat.add_sub_cancel_left]

theorem IsComment.shift (h : IsComment bytes j m) (before : List UInt8) :
    IsComment (before ++ bytes) (before.length + j) (before.length + m) := by
  obtain ⟨hsemicolon, hline, hend⟩ := h
  refine ⟨by rwa [getElem?_length_add], fun i hj hm => ?_, ?_⟩
  · obtain ⟨i, rfl⟩ := Nat.exists_eq_add_of_le (Nat.le_of_add_right_le hj)
    rw [getElem?_length_add]
    exact hline i (Nat.le_of_add_le_add_left hj) (Nat.lt_of_add_lt_add_left hm)
  · rw [getElem?_length_add, length_append]
    exact hend.imp_left fun hm => congrArg (before.length + ·) hm

theorem IsBlank.cons (h : IsBlank bytes n i) (b : UInt8) : IsBlank (b :: bytes) (n + 1) (i + 1) := by
  rcases h with ⟨c, hc, hspace⟩ | ⟨j, m, hj, hi, hm, hcomment⟩
  · exact .inl ⟨c, hc, hspace⟩
  · have hshift := hcomment.shift [b]
    rw [singleton_append, length_singleton, Nat.add_comm, Nat.add_comm 1 m] at hshift
    exact .inr ⟨j + 1, m + 1, Nat.succ_le_succ hj, Nat.succ_lt_succ hi, Nat.succ_le_succ hm, hshift⟩

theorem CommentEnds.cons (h : CommentEnds bytes m) (hb : b ≠ '\n'.toUInt8) : CommentEnds (b :: bytes) (m + 1) := by
  obtain ⟨hline, hend⟩ := h
  refine ⟨fun i hi => ?_, hend.imp_left fun hm => congrArg (· + 1) hm⟩
  cases i with
  | zero => simpa using hb
  | succ i => exact hline i (Nat.lt_of_succ_lt_succ hi)

/-- The first `n` bytes of a text are left behind before a token. They are blanks and comments, if no byte is zero. -/
structure Skips (comment : Bool) (bytes : List UInt8) (n : Nat) : Prop where
  le : n ≤ bytes.length
  eq : ∀ p, skipBlanks comment bytes p = (bytes.drop n, p.afterAll (bytes.take n))
  again : ∀ p, skipBlanks false (bytes.drop n) p = (bytes.drop n, p)
  blank : comment = false → 0 ∉ bytes → ∀ i < n, IsBlank bytes n i
  comment : comment = true → 0 ∉ bytes → ∃ m ≤ n, CommentEnds bytes m ∧ ∀ i, m ≤ i → i < n → IsBlank bytes n i

namespace Skips

theorem nil (comment : Bool) : Skips comment [] 0 where
  le := Nat.le_refl 0
  eq _ := by cases comment <;> rfl
  again _ := rfl
  blank _ _ i hi := absurd hi (Nat.not_lt_zero i)
  comment _ _ := ⟨0, Nat.le_refl 0, ⟨fun i hi => absurd hi (Nat.not_lt_zero i), .inl rfl⟩,
    fun i _ hi => absurd hi (Nat.not_lt_zero i)⟩

theorem stop (hspace : ¬isSpaceByte b) (hb : b ≠ ';'.toUInt8) (bytes : List UInt8) : Skips false (b :: bytes) 0 where
  le := Nat.zero_le _
  eq p := by rw [skipBlanks, if_neg hspace, if_neg hb]; rfl
  again p := by rw [drop_zero, skipBlanks, if_neg hspace, if_neg hb]
  blank _ _ i hi := absurd hi (Nat.not_lt_zero i)
  comment h := Bool.noConfusion h

theorem zero (bytes : List UInt8) : Skips true (0 :: bytes) 0 where
  le := Nat.zero_le _
  eq p := by rw [skipBlanks, if_pos rfl]; rfl
  again p := by rw [drop_zero, skipBlanks, if_neg (by decide), if_neg (by decide)]
  blank h := Bool.noConfusion h
  comment _ hzero := absurd mem_cons_self hzero

theorem space (h : Skips false bytes n) (hspace : isSpaceByte b) : Skips false (b :: bytes) (n + 1) where
  le := Nat.succ_le_succ h.le
  eq p := by rw [skipBlanks, if_pos hspace, h.eq]; rfl
  again := h.again
  blank _ hzero i hi := by
    cases i with
    | zero => exact .inl ⟨b, rfl, hspace⟩
    | succ i => exact (h.blank rfl (fun hmem => hzero (mem_cons_of_mem b hmem)) i (Nat.lt_of_succ_lt_succ hi)).cons b
  comment h := Bool.noConfusion h

theorem semicolon (h : Skips true bytes n) : Skips false (';'.toUInt8 :: bytes) (n + 1) where
  le := Nat.succ_le_succ h.le
  eq p := by rw [skipBlanks, if_neg (by decide), if_pos rfl, h.eq]; rfl
  again := h.again
  blank _ hzero i hi := by
    obtain ⟨m, hm, hend, hblank⟩ := h.comment rfl fun hmem => hzero (mem_cons_of_mem _ hmem)
    have hcomment : IsComment (';'.toUInt8 :: bytes) 0 (m + 1) :=
      ⟨rfl, fun i _ => (hend.cons (by decide)).1 i, (hend.cons (by decide)).2⟩
    rcases Nat.lt_or_ge i (m + 1) with hi' | hi'
    · exact .inr ⟨0, m + 1, Nat.zero_le i, hi', Nat.succ_le_succ hm, hcomment⟩
    · obtain ⟨i, rfl⟩ := Nat.exists_eq_add_of_le' (Nat.le_of_add_left_le hi')
      exact (hblank i (Nat.le_of_succ_le_succ hi') (Nat.lt_of_succ_lt_succ hi)).cons _
  comment h := Bool.noConfusion h

theorem newline (h : Skips false bytes n) : Skips true ('\n'.toUInt8 :: bytes) (n + 1) where
  le := Nat.succ_le_succ h.le
  eq p := by rw [skipBlanks, if_neg (by decide)]; exact h.eq _
  again := h.again
  blank h := Bool.noConfusion h
  comment _ hzero := by
    refine ⟨0, Nat.zero_le _, ⟨fun i hi => absurd hi (Nat.not_lt_zero i), .inr rfl⟩, fun i _ hi => ?_⟩
    exact (h.space (b := '\n'.toUInt8) (by decide)).blank rfl hzero i hi

theorem inside (h : Skips true bytes n) (hzero : b ≠ 0) (hb : b ≠ '\n'.toUInt8) : Skips true (b :: bytes) (n + 1) where
  le := Nat.succ_le_succ h.le
  eq p := by rw [skipBlanks, if_neg hzero, decide_eq_true hb, h.eq]; rfl
  again := h.again
  blank h := Bool.noConfusion h
  comment _ hzero := by
    obtain ⟨m, hm, hend, hblank⟩ := h.comment rfl fun hmem => hzero (mem_cons_of_mem _ hmem)
    refine ⟨m + 1, Nat.succ_le_succ hm, hend.cons hb, fun i hmi hi => ?_⟩
    obtain ⟨i, rfl⟩ := Nat.exists_eq_add_of_le' (Nat.le_of_add_left_le hmi)
    exact (hblank i (Nat.le_of_succ_le_succ hmi) (Nat.lt_of_succ_lt_succ hi)).cons _

end Skips

theorem exists_skips (comment : Bool) (bytes : List UInt8) : ∃ n, Skips comment bytes n := by
  induction bytes generalizing comment with
  | nil => exact ⟨0, .nil comment⟩
  | cons b bytes ih =>
    cases comment with
    | false =>
      by_cases hspace : isSpaceByte b
      · exact (ih false).imp' (· + 1) fun _ h => h.space hspace
      · by_cases hb : b = ';'.toUInt8
        · exact hb ▸ (ih true).imp' (· + 1) fun _ h => h.semicolon
        · exact ⟨0, .stop hspace hb bytes⟩
    | true =>
      by_cases hzero : b = 0
      · exact hzero ▸ ⟨0, .zero bytes⟩
      · by_cases hb : b = '\n'.toUInt8
        · exact hb ▸ (ih false).imp' (· + 1) fun _ h => h.newline
        · exact (ih true).imp' (· + 1) fun _ h => h.inside hzero hb

/-! ## One token -/

theorem advance_eq (n : Nat) (bytes : List UInt8) (p : Pos) :
    (advance n bytes p).1 = bytes.drop n ∧ (n ≤ bytes.length → (advance n bytes p).2 = p.afterAll (bytes.take n)) := by
  fun_induction advance n bytes p with
  | case1 bytes p => exact ⟨rfl, fun _ => rfl⟩
  | case2 n p ih => exact ⟨ih.1.trans (by simp), fun h => absurd h (Nat.not_succ_le_zero n)⟩
  | case3 n p b bytes ih => exact ⟨ih.1, fun h => ih.2 (Nat.le_of_succ_le_succ h)⟩

/-- A token is taken from a text: blanks and comments up to byte `n`, then its bytes up to byte `m`. -/
structure Taken (bytes : List UInt8) (p : Pos) (n m : Nat) : Prop where
  skips : Skips false bytes n
  lt : n < m
  le : m ≤ bytes.length
  kind : (nextToken bytes p).1.kind ≠ .eof
  pos : (nextToken bytes p).1.pos = p.afterAll (bytes.take n)
  rest : (nextToken bytes p).2.1 = bytes.drop m
  /-- The place behind a token is known unless the text ends in the middle of it. -/
  next : m < bytes.length → (nextToken bytes p).2.2 = p.afterAll (bytes.take m)

/-- Nothing is taken: the text is at its end, and stays there. -/
structure Ended (bytes : List UInt8) (p : Pos) (n : Nat) : Prop where
  skips : Skips false bytes n
  kind : (nextToken bytes p).1.kind = .eof
  rest : (nextToken bytes p).2 = (bytes.drop n, p.afterAll (bytes.take n))
  again : nextToken (nextToken bytes p).2.1 (nextToken bytes p).2.2 = nextToken bytes p
  all : 0 ∉ bytes → n = bytes.length

theorem nextToken_of_nil (h : skipBlanks false bytes p = ([], q)) : nextToken bytes p = (⟨.eof, "", q⟩, [], q) := by
  rw [nextToken, h]

theorem nextToken_of_zero (h : skipBlanks false bytes p = (0 :: rest, q)) :
    nextToken bytes p = (⟨.eof, "", q⟩, 0 :: rest, q) := by
  rw [nextToken, h]
  exact if_pos rfl

theorem nextToken_of_cons (h : skipBlanks false bytes p = (b :: rest, q)) (hb : b ≠ 0) :
    nextToken bytes p =
      (⟨(lexeme b rest).kind, (lexeme b rest).literal, q⟩, advance (lexeme b rest).size (b :: rest) q) := by
  rw [nextToken, h]
  exact if_neg hb

theorem ended_of_nil (hskips : Skips false bytes n) (hrest : bytes.drop n = []) : Ended bytes p n := by
  have hnext := nextToken_of_nil ((hskips.eq p).trans (by rw [hrest]))
  refine ⟨hskips, by rw [hnext], by rw [hnext, hrest], ?_, fun _ => Nat.le_antisymm hskips.le (drop_eq_nil_iff.1 hrest)⟩
  rw [hnext]
  exact nextToken_of_nil rfl

theorem ended_of_zero (hskips : Skips false bytes n) (hrest : bytes.drop n = 0 :: rest) : Ended bytes p n := by
  have hnext := nextToken_of_zero ((hskips.eq p).trans (by rw [hrest]))
  have hagain := hskips.again (p.afterAll (bytes.take n))
  have hmem : 0 ∈ bytes := mem_of_mem_drop (hrest ▸ mem_cons_self)
  refine ⟨hskips, by rw [hnext], by rw [hnext, hrest], ?_, fun hzero => absurd hmem hzero⟩
  rw [hrest] at hagain
  rw [hnext]
  exact nextToken_of_zero hagain

theorem taken_of_cons (hskips : Skips false bytes n) (hrest : bytes.drop n = b :: rest) (hb : b ≠ 0) :
    Taken bytes p n (min (n + (lexeme b rest).size) bytes.length) := by
  have hnext := nextToken_of_cons ((hskips.eq p).trans (by rw [hrest])) hb
  obtain ⟨hkind, hsize⟩ := lexeme_takes b rest
  obtain ⟨hleft, hplace⟩ := advance_eq (lexeme b rest).size (b :: rest) (p.afterAll (bytes.take n))
  have hlength : bytes.length - n = (b :: rest).length := by rw [← hrest, length_drop]
  rw [length_cons] at hlength
  refine ⟨hskips, by omega, Nat.min_le_right _ _, by rwa [hnext], by rw [hnext], ?_, fun hlt => ?_⟩
  · rw [hnext, hleft, ← hrest, drop_drop, drop_eq_drop_min]
  · have hwhole : n + (lexeme b rest).size ≤ bytes.length := by omega
    rw [hnext, hplace (by rw [length_cons]; omega), ← hrest, ← Pos.afterAll_append, ← take_add,
      Nat.min_eq_left hwhole]

/-- A token is taken, or the text is at its end. -/
theorem nextToken_cases (bytes : List UInt8) (p : Pos) : (∃ n m, Taken bytes p n m) ∨ ∃ n, Ended bytes p n := by
  obtain ⟨n, hskips⟩ := exists_skips false bytes
  cases hrest : bytes.drop n with
  | nil => exact .inr ⟨n, ended_of_nil hskips hrest⟩
  | cons b rest =>
    by_cases hb : b = 0
    · exact .inr ⟨n, ended_of_zero hskips (hb ▸ hrest)⟩
    · exact .inl ⟨n, _, taken_of_cons hskips hrest hb⟩

/-! ## All tokens -/

/-- What is left of a text, and where it begins, when `k` tokens have been taken. -/
def leftAfter (text : List UInt8) : (k : Nat) → List UInt8 × Pos
  | 0 => (text, ⟨1, 1⟩)
  | k + 1 => (nextToken (leftAfter text k).1 (leftAfter text k).2).2

def tokenAt (text : List UInt8) (k : Nat) : Token := (nextToken (leftAfter text k).1 (leftAfter text k).2).1

/-- The number of bytes that `k` tokens take, with what stands before them. -/
def offsetAfter (text : List UInt8) (k : Nat) : Nat := text.length - (leftAfter text k).1.length

/-- The byte at which a token begins: the first one behind blanks and comments. -/
def startOf (text : List UInt8) (k : Nat) : Nat :=
  text.length - (skipBlanks false (leftAfter text k).1 (leftAfter text k).2).1.length

/-- The byte before which a token ends. -/
def stopOf (text : List UInt8) (k : Nat) : Nat := offsetAfter text (k + 1)

/-- When `k` tokens have been taken, the text is left from byte `o` on, and the place is that of this byte, unless the text
    is at its end. -/
structure Reached (text : List UInt8) (k o : Nat) : Prop where
  rest : (leftAfter text k).1 = text.drop o
  le : o ≤ text.length
  place : o < text.length → (leftAfter text k).2 = placeAt text o

namespace Reached

variable {o : Nat}

theorem offsetAfter_eq (h : Reached text k o) : offsetAfter text k = o := by
  rw [offsetAfter, h.rest, length_drop]
  have := h.le
  omega

theorem startOf_eq (h : Reached text k o) (hskips : Skips false (text.drop o) n) : startOf text k = o + n := by
  have hle := h.le
  have hn := hskips.le
  rw [startOf, h.rest, hskips.eq, length_drop, length_drop]
  rw [length_drop] at hn
  omega

theorem place_add (h : Reached text k o) (hlt : o + n < text.length) :
    (leftAfter text k).2.afterAll ((text.drop o).take n) = placeAt text (o + n) := by
  rw [h.place (Nat.lt_of_le_of_lt (Nat.le_add_right o n) hlt), afterAll_placeAt]

theorem taken (h : Reached text k o) (ht : Taken (text.drop o) (leftAfter text k).2 n m) : Reached text (k + 1) (o + m) := by
  have hle := ht.le
  rw [length_drop] at hle
  refine ⟨?_, by have := h.le; omega, fun hlt => ?_⟩
  · rw [leftAfter, h.rest, ht.rest, drop_drop]
  · rw [leftAfter, h.rest, ht.next (by rw [length_drop]; omega), h.place_add hlt]

theorem ended (h : Reached text k o) (he : Ended (text.drop o) (leftAfter text k).2 n) : Reached text (k + 1) (o + n) := by
  have hle := he.skips.le
  rw [length_drop] at hle
  refine ⟨?_, by have := h.le; omega, fun hlt => ?_⟩
  · rw [leftAfter, h.rest, he.rest, drop_drop]
  · rw [leftAfter, h.rest, he.rest, h.place_add hlt]

end Reached

theorem reached (text : List UInt8) (k : Nat) : Reached text k (offsetAfter text k) := by
  have hexists : ∃ o, Reached text k o := by
    induction k with
    | zero => exact ⟨0, rfl, Nat.zero_le _, fun _ => rfl⟩
    | succ k ih =>
      obtain ⟨o, ho⟩ := ih
      rcases nextToken_cases (text.drop o) (leftAfter text k).2 with ⟨n, m, ht⟩ | ⟨n, he⟩
      · exact ⟨o + m, ho.taken ht⟩
      · exact ⟨o + n, ho.ended he⟩
  obtain ⟨o, ho⟩ := hexists
  exact ho.offsetAfter_eq.symm ▸ ho

theorem tokenAt_eq (text : List UInt8) (k : Nat) :
    tokenAt text k = (nextToken (text.drop (offsetAfter text k)) (leftAfter text k).2).1 := by
  rw [tokenAt, (reached text k).rest]

/-- A token has a byte at least, and knows the place of its first. -/
theorem span_of_kind_ne_eof (hkind : (tokenAt text k).kind ≠ .eof) :
    offsetAfter text k ≤ startOf text k ∧ startOf text k < stopOf text k ∧ stopOf text k ≤ text.length ∧
      (tokenAt text k).pos = placeAt text (startOf text k) := by
  have hreached := reached text k
  rw [tokenAt_eq] at hkind
  rcases nextToken_cases (text.drop (offsetAfter text k)) (leftAfter text k).2 with ⟨n, m, ht⟩ | ⟨n, he⟩
  · have hstart : startOf text k = offsetAfter text k + n := hreached.startOf_eq ht.skips
    have hstop : stopOf text k = offsetAfter text k + m := (hreached.taken ht).offsetAfter_eq
    have hlt := ht.lt
    have hle := (hreached.taken ht).le
    refine ⟨by omega, by omega, by omega, ?_⟩
    rw [tokenAt_eq, ht.pos, hreached.place_add (by omega), hstart]
  · exact absurd he.kind hkind

/-- Before a token, and before the end of the text, stand blanks and comments. -/
theorem blank_of_lt_startOf (hzero : 0 ∉ text) (hi : offsetAfter text k ≤ i) (hi' : i < startOf text k) :
    (∃ b, text[i]? = some b ∧ isSpaceByte b) ∨
      ∃ j m, offsetAfter text k ≤ j ∧ j ≤ i ∧ i < m ∧ m ≤ startOf text k ∧ IsComment text j m := by
  have hreached := reached text k
  obtain ⟨n, hskips⟩ := exists_skips false (text.drop (offsetAfter text k))
  have hstart := hreached.startOf_eq hskips
  obtain ⟨i, rfl⟩ := Nat.exists_eq_add_of_le hi
  rcases hskips.blank rfl (fun hmem => hzero (mem_of_mem_drop hmem)) i (by omega) with
    ⟨b, hb, hspace⟩ | ⟨j, m, hj, him, hm, hcomment⟩
  · exact .inl ⟨b, by rwa [← getElem?_drop], hspace⟩
  · have hshift := hcomment.shift (text.take (offsetAfter text k))
    rw [take_append_drop, length_take, Nat.min_eq_left hreached.le] at hshift
    exact .inr ⟨_, _, Nat.le_add_right _ j, by omega, by omega, by omega, hshift⟩

theorem kind_tokenAt_succ (hkind : (tokenAt text k).kind = .eof) : (tokenAt text (k + 1)).kind = .eof := by
  rcases nextToken_cases (leftAfter text k).1 (leftAfter text k).2 with ⟨n, m, ht⟩ | ⟨n, he⟩
  · exact absurd hkind ht.kind
  · rw [tokenAt, leftAfter, he.again]
    exact he.kind

theorem startOf_of_kind_eq_eof (hzero : 0 ∉ text) (hkind : (tokenAt text k).kind = .eof) : startOf text k = text.length := by
  have hreached := reached text k
  rw [tokenAt_eq] at hkind
  rcases nextToken_cases (text.drop (offsetAfter text k)) (leftAfter text k).2 with ⟨n, m, ht⟩ | ⟨n, he⟩
  · exact absurd hkind ht.kind
  · rw [hreached.startOf_eq he.skips, he.all fun hmem => hzero (mem_of_mem_drop hmem), length_drop]
    have := hreached.le
    omega

theorem le_offsetAfter (h : ∀ j < k, (tokenAt text j).kind ≠ .eof) : k ≤ offsetAfter text k := by
  induction k with
  | zero => exact Nat.zero_le _
  | succ k ih =>
    have hk := ih fun j hj => h j (Nat.lt_succ_of_lt hj)
    obtain ⟨hlow, hspan, -, -⟩ := span_of_kind_ne_eof (h k (Nat.lt_succ_self k))
    rw [stopOf] at hspan
    omega

/-- A text has no more tokens than bytes, and then is at its end for good. -/
theorem exists_count (text : List UInt8) : ∃ n ≤ text.length, ∀ k, (tokenAt text k).kind = .eof ↔ n ≤ k := by
  have hexists : ∃ k, (tokenAt text k).kind = .eof := by
    by_contra hnone
    push Not at hnone
    have := le_offsetAfter (k := text.length + 1) fun j _ => hnone j
    have := (reached text (text.length + 1)).le
    omega
  have hbefore : ∀ j < Nat.find hexists, (tokenAt text j).kind ≠ .eof := fun j hj => Nat.find_min hexists hj
  refine ⟨Nat.find hexists, ?_, fun k => ⟨fun hk => Nat.find_min' hexists hk, fun hk => ?_⟩⟩
  · have := le_offsetAfter hbefore
    have := (reached text (Nat.find hexists)).le
    omega
  · induction k, hk using Nat.le_induction with
    | base => exact Nat.find_spec hexists
    | succ k _ ih => exact kind_tokenAt_succ ih

theorem tokens_scanFrom (h : ∀ k, (tokenAt text k).kind = .eof ↔ n ≤ k) {fuel : Nat} (hk : k ≤ n) (hfuel : n < k + fuel) :
    (scanFrom fuel (leftAfter text k).1 (leftAfter text k).2).tokens = (List.range' k (n - k)).map (tokenAt text) := by
  induction fuel generalizing k with
  | zero => omega
  | succ fuel ih =>
    unfold scanFrom
    dsimp only
    split
    · next hkind =>
      have hn : n ≤ k := (h k).1 hkind
      rw [Nat.sub_eq_zero_of_le hn]
      rfl
    · next hkind =>
      have hn : ¬n ≤ k := fun hn => hkind ((h k).2 hn)
      have hlength : n - k = n - (k + 1) + 1 := by omega
      have hnext := ih (k := k + 1) (by omega) (by omega)
      rw [hlength, range'_succ, map_cons]
      exact congrArg (tokenAt text k :: ·) hnext

theorem exists_count_scanFrom (text : List UInt8) : ∃ n ≤ text.length, (∀ k, (tokenAt text k).kind = .eof ↔ n ≤ k) ∧
    (scanFrom (text.length + 1) text ⟨1, 1⟩).tokens = (List.range n).map (tokenAt text) := by
  obtain ⟨n, hn, hcount⟩ := exists_count text
  have hscan : (scanFrom (text.length + 1) text ⟨1, 1⟩).tokens = (List.range' 0 (n - 0)).map (tokenAt text) :=
    tokens_scanFrom hcount (k := 0) (Nat.zero_le n) (by omega)
  refine ⟨n, hn, hcount, ?_⟩
  rwa [Nat.sub_zero, ← range_eq_range'] at hscan

/-- Byte `i` belongs to none of the first `n` tokens. -/
def Outside (text : List UInt8) (n i : Nat) : Prop := ∀ k < n, ¬(startOf text k ≤ i ∧ i < stopOf text k)

theorem stopOf_le_offsetAfter (h : ∀ i < k, (tokenAt text i).kind ≠ .eof) (hj : j < k) :
    stopOf text j ≤ offsetAfter text k := by
  induction k, hj using Nat.le_induction with
  | base => exact Nat.le_refl _
  | succ k _ ih =>
    have hbefore := ih fun i hi => h i (Nat.lt_succ_of_lt hi)
    obtain ⟨hlow, hspan, -, -⟩ := span_of_kind_ne_eof (h k (Nat.lt_succ_self k))
    rw [stopOf] at hspan
    omega

theorem outside_of_lt_startOf (h : ∀ i < n, (tokenAt text i).kind ≠ .eof) (hk : k ≤ n) (hi : offsetAfter text k ≤ i)
    (hi' : i < startOf text k) : Outside text n i := by
  intro j hj hspan
  rcases Nat.lt_trichotomy j k with hjk | rfl | hjk
  · have := stopOf_le_offsetAfter (fun i hi => h i (Nat.lt_of_lt_of_le hi hk)) hjk
    omega
  · omega
  · have hspan' := (span_of_kind_ne_eof (h k (Nat.lt_trans hjk hj))).2.1
    have := stopOf_le_offsetAfter (fun i hi => h i (Nat.lt_trans hi hj)) hjk
    have := (span_of_kind_ne_eof (h j hj)).1
    omega

/-- A byte that no token takes stands before a token, or before the end of the text. -/
theorem exists_gap (hend : i < startOf text n) (h : Outside text n i) :
    ∃ k ≤ n, offsetAfter text k ≤ i ∧ i < startOf text k := by
  induction n with
  | zero => exact ⟨0, Nat.le_refl 0, by simp [offsetAfter, leftAfter], hend⟩
  | succ n ih =>
    by_cases hi : i < startOf text n
    · obtain ⟨k, hk, hgap⟩ := ih hi fun k hk => h k (Nat.lt_succ_of_lt hk)
      exact ⟨k, Nat.le_succ_of_le hk, hgap⟩
    · have hstop : ¬i < stopOf text n := fun hlt => h n (Nat.lt_succ_self n) ⟨Nat.le_of_not_lt hi, hlt⟩
      exact ⟨n + 1, Nat.le_refl _, Nat.le_of_not_lt hstop, hend⟩

/-- The tokens of a text without zeros cover it: there are no more of them than bytes, and then the text is at its end for
    good; each takes one byte or more, in order, and has the place of its first byte; and every byte that none of them takes
    is a blank, or in a comment that runs to the end of its line. -/
theorem tokens_cover (hzero : 0 ∉ text) : ∃ n ≤ text.length,
    (∀ k, (tokenAt text k).kind = .eof ↔ n ≤ k) ∧
    (scanFrom (text.length + 1) text ⟨1, 1⟩).tokens = (List.range n).map (tokenAt text) ∧
    (∀ k < n, startOf text k < stopOf text k ∧ stopOf text k ≤ text.length) ∧
    (∀ k < n, ∀ j < k, stopOf text j ≤ startOf text k) ∧
    (∀ k < n, (tokenAt text k).pos = placeAt text (startOf text k)) ∧
    ∀ i < text.length, Outside text n i → (∃ b, text[i]? = some b ∧ isSpaceByte b) ∨
      ∃ j m, j ≤ i ∧ i < m ∧ IsComment text j m ∧ ∀ l, j ≤ l → l < m → Outside text n l := by
  obtain ⟨n, hn, hcount, hscan⟩ := exists_count_scanFrom text
  have hkind : ∀ k < n, (tokenAt text k).kind ≠ .eof := fun k hk heof => absurd ((hcount k).1 heof) (Nat.not_le.2 hk)
  refine ⟨n, hn, hcount, hscan, fun k hk => ?_, fun k hk j hj => ?_, fun k hk => ?_, fun i hi houtside => ?_⟩
  · exact ⟨(span_of_kind_ne_eof (hkind k hk)).2.1, (span_of_kind_ne_eof (hkind k hk)).2.2.1⟩
  · have hbefore := stopOf_le_offsetAfter (fun i hi => hkind i (Nat.lt_trans hi hk)) hj
    exact Nat.le_trans hbefore (span_of_kind_ne_eof (hkind k hk)).1
  · exact (span_of_kind_ne_eof (hkind k hk)).2.2.2
  · have hend : i < startOf text n := (startOf_of_kind_eq_eof hzero ((hcount n).2 (Nat.le_refl n))).symm ▸ hi
    obtain ⟨k, hk, hlow, hhigh⟩ := exists_gap hend houtside
    rcases blank_of_lt_startOf hzero hlow hhigh with hspace | ⟨j, m, hlow, hj, him, hhigh, hcomment⟩
    · exact .inl hspace
    · refine .inr ⟨j, m, hj, him, hcomment, fun l hl hlm => ?_⟩
      exact outside_of_lt_startOf hkind hk (Nat.le_trans hlow hl) (Nat.lt_of_lt_of_le hlm hhigh)

/-- A name, an equals sign and a comment, and in the second line a quoted text without its closing quote. -/
def unclosed : List UInt8 := ['%', 'x', ' ', '=', ';', '=', '\n', ' ', '"', '='].map Char.toUInt8

theorem tokens_cover_unclosed : 0 ∉ unclosed ∧ (∀ k, (tokenAt unclosed k).kind = .eof ↔ 3 ≤ k) ∧
    (List.range 3).map (fun k => (startOf unclosed k, stopOf unclosed k)) = [(0, 2), (3, 4), (8, 10)] ∧
    (List.range 3).map (fun k => (tokenAt unclosed k).pos) = [⟨1, 1⟩, ⟨1, 4⟩, ⟨2, 2⟩] ∧
    ∃ j m, j ≤ 5 ∧ 5 < m ∧ IsComment unclosed j m := by
  have hzero : 0 ∉ unclosed := by decide
  obtain ⟨n, -, hcount, -, -, -, hpos, houtside⟩ := tokens_cover hzero
  have hn : n = 3 := Nat.le_antisymm ((hcount 3).1 (by decide))
    (Nat.lt_of_not_le fun h => absurd ((hcount 2).2 h) (by decide))
  subst hn
  have hspans : (List.range 3).map (fun k => (startOf unclosed k, stopOf unclosed k)) = [(0, 2), (3, 4), (8, 10)] := by decide
  have hplaces : (List.range 3).map (fun k => placeAt unclosed (startOf unclosed k)) = [⟨1, 1⟩, ⟨1, 4⟩, ⟨2, 2⟩] := by decide
  refine ⟨hzero, hcount, hspans, ?_, ?_⟩
  · rw [← hplaces]
    exact map_congr_left fun k hk => hpos k (mem_range.1 hk)
  · have hout : Outside unclosed 3 5 := by
      unfold Outside
      decide
    rcases houtside 5 (by decide) hout with ⟨b, hb, hspace⟩ | ⟨j, m, hj, hm, hcomment, -⟩
    · cases hb
      exact absurd hspace (by decide)
    · exact ⟨j, m, hj, hm, hcomment⟩

end RegisterCompiler.Llvm
