import Mathlib
import RegisterCompiler.Asm.Reader

/-!
# Taking text to pieces

What the functions that take assembly text to pieces do to text that was put together: a text is cut at the first of a
kind of character, split at all of them, or split at those that stand outside of brackets, and the blanks around a piece
are left out.
-/

namespace RegisterCompiler

open List

namespace Text

variable {cs : List Char}

/-- The blanks at the two ends are left out one after the other. -/
theorem trimChars_eq (cs : List Char) : trimChars cs = (cs.dropWhile isBlank).rdropWhile isBlank := rfl

theorem trimChars_eq_self (hfirst : ∀ c ∈ cs.head?, isBlank c = false) (hlast : ∀ c ∈ cs.getLast?, isBlank c = false) :
    trimChars cs = cs := by
  have hdrop : cs.dropWhile isBlank = cs := by
    cases cs with
    | nil => rfl
    | cons c cs => rw [dropWhile_cons_of_neg (by simp [hfirst c rfl])]
  rw [trimChars_eq, hdrop, rdropWhile_eq_self_iff]
  intro hne
  simp [hlast _ (getLast?_eq_getLast_of_ne_nil hne)]

theorem trimChars_of_forall (h : ∀ c ∈ cs, isBlank c = false) : trimChars cs = cs :=
  trimChars_eq_self (fun c hc => h c (mem_of_mem_head? hc)) fun c hc => h c (mem_of_mem_getLast? hc)

theorem mem_of_mem_trimChars {c : Char} (h : c ∈ trimChars cs) : c ∈ cs := by
  rw [trimChars_eq] at h
  exact (dropWhile_suffix _).mem (IsPrefix.mem h <| rdropWhile_prefix _ _)

theorem trimChars_cons {c : Char} (h : isBlank c) (cs : List Char) : trimChars (c :: cs) = trimChars cs := by
  rw [trimChars_eq, dropWhile_cons_of_pos h, trimChars_eq]

theorem trimChars_concat {c : Char} (h : isBlank c) (cs : List Char) : trimChars (cs ++ [c]) = trimChars cs := by
  rw [trimChars_eq, dropWhile_append, trimChars_eq]
  split
  · next hempty =>
    rw [List.isEmpty_iff.1 hempty, dropWhile_cons_of_pos h]
    rfl
  · exact rdropWhile_concat_pos _ _ _ h

theorem first_trimChars : ∀ c ∈ (trimChars cs).head?, isBlank c = false := by
  intro c hc
  rw [trimChars_eq] at hc
  obtain ⟨blanks, hblanks⟩ := rdropWhile_prefix isBlank (cs.dropWhile isBlank)
  have hfirst := head?_dropWhile_not isBlank cs
  rw [← hblanks, head?_append, Option.mem_def.1 hc] at hfirst
  exact hfirst

theorem last_trimChars : ∀ c ∈ (trimChars cs).getLast?, isBlank c = false := by
  intro c hc
  rw [trimChars_eq] at hc
  have hne : (cs.dropWhile isBlank).rdropWhile isBlank ≠ [] := by
    rintro hnil
    rw [hnil] at hc
    cases hc
  have hlast := rdropWhile_last_not isBlank _ hne
  rw [getLast?_eq_getLast_of_ne_nil hne] at hc
  cases hc
  simpa using hlast

end Text

namespace Asm

open Text (trimChars)

variable {c : Char} {u v inner rest : List Char} {us : List (List Char)} {d : Char} {s : String} {α : Type}

theorem cut_of_notMem (h : c ∉ u) : cut c u = (u, none) := by
  have hdrop : u.dropWhile (· ≠ c) = [] := by
    rw [dropWhile_eq_nil_iff]
    intro d hd
    simpa using fun heq : d = c => h (heq ▸ hd)
  rw [cut, hdrop]

theorem cut_append (h : c ∉ u) (rest : List Char) : cut c (u ++ c :: rest) = (u, some rest) := by
  have hother : ∀ d ∈ u, decide (d ≠ c) = true := fun d hd => by simpa using fun heq : d = c => h (heq ▸ hd)
  rw [cut, dropWhile_append_of_pos hother, takeWhile_append_of_pos hother]
  simp

theorem mem_of_mem_cut (h : d ∈ (cut c u).1) : d ∈ u ∧ d ≠ c := by
  unfold cut at h
  split at h
  · next hnil => exact ⟨h, by simpa using dropWhile_eq_nil_iff.1 hnil d h⟩
  · exact ⟨takeWhile_subset _ h, by simpa using mem_takeWhile_imp h⟩

theorem mem_of_cut {rest : List Char} (h : (cut c u).2 = some rest) (hd : d ∈ rest) : d ∈ u := by
  unfold cut at h
  split at h
  · cases h
  · next hcons =>
    cases h
    exact (dropWhile_suffix _).mem (hcons ▸ mem_cons_of_mem _ hd)

theorem splitAt_of_notMem (h : c ∉ u) : splitAt c u = [u] := by
  induction u with
  | nil => rfl
  | cons d u ih =>
    obtain ⟨hd, hu⟩ := not_or.1 (mt mem_cons.2 h)
    rw [splitAt, if_neg (Ne.symm hd), ih hu]

theorem splitAt_ne_nil (c : Char) (u : List Char) : splitAt c u ≠ [] := by
  cases u with
  | nil => simp [splitAt]
  | cons d u =>
    rw [splitAt]
    split
    · simp
    · split <;> simp

theorem splitAt_cons_ne (h : d ≠ c) (u : List Char) :
    ∃ piece pieces, splitAt c u = piece :: pieces ∧ splitAt c (d :: u) = (d :: piece) :: pieces := by
  obtain ⟨piece, pieces, hu⟩ := exists_cons_of_ne_nil (splitAt_ne_nil c u)
  exact ⟨piece, pieces, hu, by rw [splitAt, if_neg h, hu]⟩

theorem splitAt_append_cons (c : Char) (u rest : List Char) : splitAt c (u ++ c :: rest) = splitAt c u ++ splitAt c rest := by
  induction u with
  | nil =>
    have hrest : splitAt c (c :: rest) = [] :: splitAt c rest := by rw [splitAt, if_pos rfl]
    exact hrest
  | cons d u ih =>
    by_cases hd : d = c
    · rw [cons_append, splitAt, if_pos hd, splitAt, if_pos hd, ih, cons_append]
    · obtain ⟨piece, pieces, hu, hcons⟩ := splitAt_cons_ne hd u
      rw [cons_append, splitAt, if_neg hd, ih, hcons, hu]
      rfl

theorem splitAt_append (h : c ∉ u) (rest : List Char) : splitAt c (u ++ c :: rest) = u :: splitAt c rest := by
  rw [splitAt_append_cons, splitAt_of_notMem h, singleton_append]

theorem eq_of_splitAt_singleton (h : splitAt c u = [v]) : u = v ∧ c ∉ u := by
  by_cases hc : c ∈ u
  · obtain ⟨before, after, rfl, hbefore⟩ := eq_append_cons_of_mem hc
    rw [splitAt_append hbefore] at h
    exact absurd (List.cons.inj h).2 (splitAt_ne_nil c after)
  · rw [splitAt_of_notMem hc] at h
    exact ⟨(List.cons.inj h).1, hc⟩

/-- The first piece of a text that is split ends where the character is found first. -/
theorem exists_of_splitAt_cons {piece : List Char} (h : splitAt c u = v :: piece :: us) :
    c ∉ v ∧ ∃ rest, u = v ++ c :: rest ∧ splitAt c rest = piece :: us := by
  by_cases hc : c ∈ u
  · obtain ⟨before, after, rfl, hbefore⟩ := eq_append_cons_of_mem hc
    rw [splitAt_append hbefore] at h
    obtain ⟨rfl, hafter⟩ := List.cons.inj h
    exact ⟨hbefore, after, rfl, hafter⟩
  · rw [splitAt_of_notMem hc] at h
    cases h

theorem splitOuter_of_notMem (h : ',' ∉ u) (depth : Int) : splitOuter depth u = [u] := by
  induction u generalizing depth with
  | nil => rfl
  | cons d u ih =>
    obtain ⟨hd, hu⟩ := not_or.1 (mt mem_cons.2 h)
    rw [splitOuter, if_neg fun hcomma => hd hcomma.1.symm]
    dsimp only
    rw [ih hu]

theorem splitOuter_append (h : ∀ d ∈ u, d ≠ ',' ∧ d ≠ '[' ∧ d ≠ ']') (rest : List Char) :
    splitOuter 0 (u ++ ',' :: rest) = u :: splitOuter 0 rest := by
  induction u with
  | nil => rw [nil_append, splitOuter, if_pos ⟨rfl, rfl⟩]
  | cons d u ih =>
    obtain ⟨⟨hcomma, hopen, hclose⟩, hu⟩ := forall_mem_cons.1 h
    rw [cons_append, splitOuter, if_neg fun h => hcomma h.1]
    simp only [hopen, hclose, if_false, ih hu]

/-- Commas between brackets do not count. -/
theorem splitOuter_bracketed (h : ∀ d ∈ inner, d ≠ '[' ∧ d ≠ ']') :
    splitOuter 0 ('[' :: (inner ++ [']'])) = ['[' :: (inner ++ [']'])] := by
  have hinner : splitOuter 1 (inner ++ [']']) = [inner ++ [']']] := by
    induction inner with
    | nil => rfl
    | cons d inner ih =>
      obtain ⟨⟨hopen, hclose⟩, hothers⟩ := forall_mem_cons.1 h
      rw [cons_append, splitOuter, if_neg fun h => absurd h.2 (by decide)]
      simp only [hopen, hclose, if_false, ih hothers]
  rw [splitOuter, if_neg fun h => absurd h.1 (by decide)]
  simp only [if_true, Int.zero_add, hinner]

theorem splitOuter_ne_nil (depth : Int) (u : List Char) : splitOuter depth u ≠ [] := by
  cases u with
  | nil => simp [splitOuter]
  | cons d u =>
    rw [splitOuter]
    split
    · simp
    · dsimp only
      split <;> simp

/-- Anything but an outermost comma belongs to the first piece. -/
theorem splitOuter_cons_of_not {depth : Int} (h : ¬(d = ',' ∧ depth = 0)) (u : List Char) : ∃ piece pieces,
    splitOuter (if d = '[' then depth + 1 else if d = ']' then depth - 1 else depth) u = piece :: pieces ∧
      splitOuter depth (d :: u) = (d :: piece) :: pieces := by
  obtain ⟨piece, pieces, hu⟩ := exists_cons_of_ne_nil
    (splitOuter_ne_nil (if d = '[' then depth + 1 else if d = ']' then depth - 1 else depth) u)
  refine ⟨piece, pieces, hu, ?_⟩
  rw [splitOuter, if_neg h]
  dsimp only
  rw [hu]

theorem splitOuter_cons_blank (h : Text.isBlank d) (u : List Char) :
    ∃ piece pieces, splitOuter 0 u = piece :: pieces ∧ splitOuter 0 (d :: u) = (d :: piece) :: pieces := by
  have hne : ∀ e, Text.isBlank e = false → d ≠ e := by
    rintro e he rfl
    rw [h] at he
    cases he
  have hcomma : ¬(d = ',' ∧ (0 : Int) = 0) := fun h => hne ',' rfl h.1
  have := splitOuter_cons_of_not hcomma u
  rwa [if_neg (hne '[' rfl), if_neg (hne ']' rfl)] at this

theorem splitOuter_eq_cons {depth : Int} (h : splitOuter depth u = v :: us) :
    splitOuter depth v = [v] ∧ ∀ w ∈ us, splitOuter 0 w = [w] := by
  induction u generalizing depth v us with
  | nil =>
    cases h
    exact ⟨rfl, forall_mem_nil _⟩
  | cons d u ih =>
    by_cases hcomma : d = ',' ∧ depth = 0
    · obtain ⟨rfl, rfl⟩ := hcomma
      rw [splitOuter, if_pos ⟨rfl, rfl⟩] at h
      obtain ⟨rfl, rfl⟩ := List.cons.inj h
      obtain ⟨piece, pieces, hu⟩ := exists_cons_of_ne_nil (splitOuter_ne_nil 0 u)
      rw [hu]
      exact ⟨rfl, forall_mem_cons.2 (ih hu)⟩
    · obtain ⟨piece, pieces, hu, hcons⟩ := splitOuter_cons_of_not hcomma u
      rw [hcons] at h
      obtain ⟨rfl, rfl⟩ := List.cons.inj h
      obtain ⟨hpiece, hpieces⟩ := ih hu
      refine ⟨?_, hpieces⟩
      rw [splitOuter, if_neg hcomma]
      dsimp only
      rw [hpiece]

theorem splitOuter_of_append {depth : Int} (h : splitOuter depth (u ++ v) = [u ++ v]) : splitOuter depth u = [u] := by
  induction u generalizing depth with
  | nil => rfl
  | cons d u ih =>
    by_cases hcomma : d = ',' ∧ depth = 0
    · rw [cons_append, splitOuter, if_pos hcomma] at h
      cases h
    · obtain ⟨piece, pieces, huv, hcons⟩ := splitOuter_cons_of_not hcomma (u ++ v)
      rw [cons_append, hcons] at h
      obtain ⟨hpiece, rfl⟩ := List.cons.inj h
      obtain rfl := (List.cons.inj hpiece).2
      rw [splitOuter, if_neg hcomma]
      dsimp only
      rw [ih huv]

theorem splitOuter_trimChars (h : splitOuter 0 u = [u]) : splitOuter 0 (trimChars u) = [trimChars u] := by
  have hdrop : splitOuter 0 (u.dropWhile Text.isBlank) = [u.dropWhile Text.isBlank] := by
    induction u with
    | nil => rfl
    | cons d u ih =>
      by_cases hd : Text.isBlank d
      · obtain ⟨piece, pieces, hu, hcons⟩ := splitOuter_cons_blank hd u
        rw [hcons] at h
        obtain ⟨hpiece, rfl⟩ := List.cons.inj h
        obtain rfl := (List.cons.inj hpiece).2
        rw [dropWhile_cons_of_pos hd]
        exact ih hu
      · rwa [dropWhile_cons_of_neg hd]
  rw [Text.trimChars_eq]
  obtain ⟨blanks, hblanks⟩ := rdropWhile_prefix Text.isBlank (u.dropWhile Text.isBlank)
  rw [← hblanks] at hdrop
  exact splitOuter_of_append hdrop

theorem intercalate_cons_flatMap (sep u : List α) (us : List (List α)) :
    sep.intercalate (u :: us) = u ++ us.flatMap (sep ++ ·) := by
  induction us generalizing u with
  | nil => exact intercalate_singleton.trans (append_nil u).symm
  | cons v us ih => rw [intercalate_cons_cons, ih, flatMap_cons, append_assoc, append_assoc]

theorem intercalate_concat (sep : List α) (us : List (List α)) (v : List α) :
    sep.intercalate (us ++ [v]) = us.flatMap (· ++ sep) ++ v := by
  induction us with
  | nil => exact intercalate_singleton
  | cons u us ih =>
    rw [cons_append, intercalate_cons_of_ne_nil (by simp), ih, flatMap_cons, append_assoc,
      append_assoc, append_assoc]

theorem mem_of_mem_intercalate {sep : List α} {us : List (List α)} {a : α} (h : a ∈ sep.intercalate us) :
    a ∈ sep ∨ ∃ u ∈ us, a ∈ u := by
  induction us with
  | nil => cases h
  | cons u us ih =>
    cases us with
    | nil => exact .inr ⟨u, mem_cons_self, by rwa [intercalate_singleton] at h⟩
    | cons w us =>
      rw [intercalate_cons_cons, mem_append, mem_append] at h
      rcases h with (h | h) | h
      · exact .inr ⟨u, mem_cons_self, h⟩
      · exact .inl h
      · exact (ih h).imp_right fun ⟨u, hu, ha⟩ => ⟨u, mem_cons_of_mem _ hu, ha⟩

/-- Operands between commas are found again. All but the last must be free of commas and brackets; the last must be one
    piece on its own. -/
theorem splitOperands_concat (hus : ∀ u ∈ us, (∀ d ∈ u, d ≠ ',' ∧ d ≠ '[' ∧ d ≠ ']') ∧ trimChars u = u)
    (hv : splitOuter 0 v = [v]) (htrim : trimChars v = v) (hne : v ≠ []) :
    splitOperands ([',', ' '].intercalate (us ++ [v])) = us ++ [v] := by
  -- The blank behind a comma stands at the beginning of the next piece, where it is trimmed.
  have hpieces : (splitOuter 0 (us.flatMap (· ++ [',', ' ']) ++ v)).map trimChars = us ++ [v] := by
    induction us with
    | nil => simp [hv, htrim]
    | cons u us ih =>
      obtain ⟨⟨hplain, htrimmed⟩, hothers⟩ := forall_mem_cons.1 hus
      obtain ⟨piece, pieces, hrest, hspace⟩ := splitOuter_cons_blank (d := ' ') rfl (us.flatMap (· ++ [',', ' ']) ++ v)
      have ih := ih hothers
      rw [hrest, map_cons] at ih
      have hassoc : (u :: us).flatMap (· ++ [',', ' ']) ++ v = u ++ ',' :: ' ' :: (us.flatMap (· ++ [',', ' ']) ++ v) := by
        simp
      rw [hassoc, splitOuter_append hplain, hspace, map_cons, map_cons, htrimmed,
        Text.trimChars_cons rfl, ih, cons_append]
  rw [splitOperands, intercalate_concat, hpieces]
  split
  · next heq =>
    cases us with
    | nil => simp [hne] at heq
    | cons u us => simp at heq
  · rfl

/-- The components of a memory operand are found again. -/
theorem map_splitAt_intercalate (hne : us ≠ []) (h : ∀ u ∈ us, ',' ∉ u ∧ trimChars u = u) :
    (splitAt ',' ([',', ' '].intercalate us)).map trimChars = us := by
  induction us with
  | nil => exact absurd rfl hne
  | cons u us ih =>
    obtain ⟨⟨hcomma, htrim⟩, hothers⟩ := forall_mem_cons.1 h
    cases us with
    | nil => rw [intercalate_singleton, splitAt_of_notMem hcomma, map_singleton, htrim]
    | cons w us =>
      obtain ⟨piece, pieces, hrest, hspace⟩ :=
        splitAt_cons_ne (show ' ' ≠ ',' by decide) ([',', ' '].intercalate (w :: us))
      have ih := ih (by simp) hothers
      rw [hrest, map_cons] at ih
      rw [intercalate_cons_cons, append_assoc]
      change (splitAt ',' (u ++ ',' :: ' ' :: [',', ' '].intercalate (w :: us))).map trimChars = _
      rw [splitAt_append hcomma, hspace, map_cons, map_cons, htrim, Text.trimChars_cons rfl, ih]

theorem lines_join {ls : List String} (h : ∀ l ∈ ls, '\n' ∉ l.toList) :
    lines (String.join (ls.map (· ++ "\n"))) = ls.map String.toList := by
  have hsplit : splitAt '\n' (String.join (ls.map (· ++ "\n"))).toList = ls.map String.toList ++ [[]] := by
    induction ls with
    | nil => rfl
    | cons l ls ih =>
      obtain ⟨hl, hls⟩ := forall_mem_cons.1 h
      have hassoc : (String.join ((l :: ls).map (· ++ "\n"))).toList =
          l.toList ++ '\n' :: (String.join (ls.map (· ++ "\n"))).toList := by
        simp
      rw [hassoc, splitAt_append hl, ih hls, map_cons, cons_append]
  rw [lines, hsplit]
  simp

theorem sublist_of_mem_splitAt (h : u ∈ splitAt c v) : u.Sublist v := by
  induction v generalizing u with
  | nil => exact mem_singleton.1 h ▸ .slnil
  | cons d v ih =>
    by_cases hd : d = c
    · rw [splitAt, if_pos hd] at h
      rcases mem_cons.1 h with rfl | h
      · exact nil_sublist _
      · exact (ih h).cons d
    · obtain ⟨piece, pieces, hv, hcons⟩ := splitAt_cons_ne hd v
      rw [hcons] at h
      rcases mem_cons.1 h with rfl | h
      · exact (ih (hv ▸ mem_cons_self)).cons_cons d
      · exact (ih (hv ▸ mem_cons_of_mem _ h)).cons d

theorem sublist_of_mem_splitOuter {depth : Int} (h : u ∈ splitOuter depth v) : u.Sublist v := by
  induction v generalizing depth u with
  | nil => exact mem_singleton.1 h ▸ .slnil
  | cons d v ih =>
    by_cases hcomma : d = ',' ∧ depth = 0
    · rw [splitOuter, if_pos hcomma] at h
      rcases mem_cons.1 h with rfl | h
      · exact nil_sublist _
      · exact (ih h).cons d
    · obtain ⟨piece, pieces, hv, hcons⟩ := splitOuter_cons_of_not hcomma v
      rw [hcons] at h
      rcases mem_cons.1 h with rfl | h
      · exact (ih (hv ▸ mem_cons_self)).cons_cons d
      · exact (ih (hv ▸ mem_cons_of_mem _ h)).cons d

theorem notMem_of_mem_splitAt (h : u ∈ splitAt c v) : c ∉ u := by
  induction v generalizing u with
  | nil => exact mem_singleton.1 h ▸ not_mem_nil
  | cons d v ih =>
    by_cases hd : d = c
    · rw [splitAt, if_pos hd] at h
      rcases mem_cons.1 h with rfl | h
      · exact not_mem_nil
      · exact ih h
    · obtain ⟨piece, pieces, hv, hcons⟩ := splitAt_cons_ne hd v
      rw [hcons] at h
      rcases mem_cons.1 h with rfl | h
      · intro hmem
        rcases mem_cons.1 hmem with heq | hmem
        · exact hd heq.symm
        · exact ih (hv ▸ mem_cons_self) hmem
      · exact ih (hv ▸ mem_cons_of_mem _ h)

theorem mem_splitAt_of_mem_lines (h : u ∈ lines s) : u ∈ splitAt '\n' s.toList := by
  unfold lines at h
  dsimp only at h
  split at h
  · exact (dropLast_sublist _).mem h
  · exact h

theorem utf8ByteSize_le_of_mem_lines (h : u ∈ lines s) : (String.ofList u).utf8ByteSize ≤ s.utf8ByteSize := by
  rw [String.utf8ByteSize_ofList, ← String.utf8Len_toList]
  exact String.utf8Len_le_of_sublist (sublist_of_mem_splitAt (mem_splitAt_of_mem_lines h))

end Asm

end RegisterCompiler
