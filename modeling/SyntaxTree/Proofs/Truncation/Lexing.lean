import SyntaxTree.Proofs.Drawing.Caption
import SyntaxTree.Proofs.Derivation.Spacing
import SyntaxTree.Proofs.Truncation.Slashes

/-!
# More text behind a brace

A closing brace ends every lexeme in front of it. So the lexemes up to a brace stay
what they are if more text is put behind the brace, with one exception: a comment
that was left open may be closed by that text. Its mark then has been taken for a
slash and an operator that begins with a star.
-/

namespace SyntaxTree.Lexeme

variable {c : Char} {cs t more rest m s s' : List Char} {ts us : List Lexeme}

/-! ## One lexeme -/

theorem takeWhile_append_mem {p : Char → Bool} (mem : c ∈ cs) (stop : p c = false)
    (more : List Char) :
    (cs ++ more).takeWhile p = cs.takeWhile p ∧
      (cs ++ more).dropWhile p = cs.dropWhile p ++ more := by
  obtain ⟨run, rest, rfl, all, ends⟩ := exists_run p cs
  have inside : c ∈ rest := by
    refine (List.mem_append.mp mem).resolve_left fun front => ?_
    rw [List.all_eq_true.mp all c front] at stop
    cases stop
  have ends' : ∀ d ∈ (rest ++ more).head?, p d = false := by
    rcases rest with _ | ⟨d, rest⟩
    · cases inside
    · exact ends
  rw [List.append_assoc, takeWhile_run all ends', takeWhile_run all ends, dropWhile_run all ends',
    dropWhile_run all ends]
  exact ⟨rfl, rfl⟩

theorem fraction_append (brace : '\x7d' ∈ cs) : fraction (cs ++ more) = fraction cs := by
  rcases cs with _ | ⟨c, _ | ⟨d, cs⟩⟩
  · cases brace
  · obtain rfl := List.mem_singleton.mp brace
    rfl
  · by_cases point : c = '.'
    · subst point
      rw [List.cons_append, List.cons_append, fraction, fraction]
      split
      · rename_i digit
        have inside : '\x7d' ∈ cs := by
          have other : '\x7d' ≠ d := by
            rintro rfl
            cases digit
          simpa [other] using brace
        rw [(takeWhile_append_mem inside rfl more).1]
      · rfl
    · have none (cs : List Char) : fraction (c :: d :: cs) = [] := by
        rcases fraction_cases (c :: d :: cs) with none | ⟨_, _, same, -⟩
        · exact none
        · exact absurd (List.cons.inj same).1 point
      rw [List.cons_append, List.cons_append, none, none]

theorem number?_append (brace : '\x7d' ∈ cs) : number? (cs ++ more) = number? cs := by
  obtain ⟨c, tail, rfl⟩ := List.exists_cons_of_ne_nil (List.ne_nil_of_mem brace)
  have digit : Char.isDigit '\x7d' = false := rfl
  obtain ⟨digits, behind⟩ := takeWhile_append_mem brace digit more
  have inside (digit : c.isDigit = true) : '\x7d' ∈ (c :: tail).dropWhile Char.isDigit := by
    rw [← List.takeWhile_append_dropWhile (p := Char.isDigit) (l := c :: tail)] at brace
    refine (List.mem_append.mp brace).resolve_left fun front => ?_
    exact absurd (List.all_eq_true.mp List.all_takeWhile _ front) (by decide)
  cases digit : c.isDigit with
  | true =>
    rw [List.cons_append] at digits behind ⊢
    rw [number?_cons digit, number?_cons digit, digits, behind, fraction_append (inside digit)]
  | false => rw [List.cons_append, number?_eq_none digit, number?_eq_none digit]

theorem symbol?_append (long : 2 ≤ cs.length) : symbol? (cs ++ more) = symbol? cs := by
  rcases cs with _ | ⟨c, _ | ⟨d, cs⟩⟩
  · cases long
  · simp at long
  · rfl

/-- A lexeme in front of a closing brace is the longest one whatever stands behind the brace. -/
theorem longest?_append (h : longest? (t ++ rest) = some t) (brace : '\x7d' ∈ rest) :
    longest? (t ++ rest ++ more) = some t := by
  obtain ⟨c, tail, rfl⟩ := List.exists_cons_of_ne_nil (longest?_isPrefix h).2
  have mem : '\x7d' ∈ c :: tail ++ rest := List.mem_append_right _ brace
  have long : 2 ≤ (c :: tail ++ rest).length := by
    have := List.length_pos_of_mem brace
    rw [List.length_append, List.length_cons]
    omega
  by_cases quote : c = '"'
  · subst quote
    rw [List.cons_append] at h
    rw [List.cons_append, List.cons_append, longest?_quote]
    rw [longest?_quote] at h
    exact string?_append h more
  · have none (cs : List Char) : string? (c :: cs) = none := string?_eq_none quote
    rw [← h, longest?, longest?, word, word, (takeWhile_append_mem mem (by decide) more).1,
      number?_append mem, symbol?_append long, List.cons_append, List.cons_append, none, none]

theorem touches_append (brace : '\x7d' ∈ rest) : touches t (rest ++ more) = touches t rest := by
  obtain ⟨d, rest, rfl⟩ := List.exists_cons_of_ne_nil (List.ne_nil_of_mem brace)
  rfl

/-! ## The gap in front of it -/

theorem blockTail?_append (h : blockTail? cs = some t) : blockTail? (cs ++ more) = some t := by
  fun_induction blockTail? cs generalizing t with
  | case1 => cases h
  | case2 => exact h
  | case3 c cs plain ih =>
    obtain ⟨t, found, rfl⟩ := Option.map_eq_some_iff.mp h
    rw [List.cons_append, blockTail?]
    · rw [ih found]
      rfl
    · intro rest star slash
      rcases cs with _ | ⟨d, cs⟩
      · cases found
      · cases slash
        exact plain cs star rfl

/-- A comment that has come to an end does not go on in more text. -/
theorem comment?_append (h : comment? cs = some t) (left : cs.drop t.length ≠ []) :
    comment? (cs ++ more) = some t := by
  unfold comment? at h
  split at h
  · rename_i cs
    cases h
    have feed : '\n' ∈ cs := by
      refine Decidable.byContradiction fun plain => left ?_
      have run : cs.all (fun c => c != '\n') = true :=
        List.all_eq_true.mpr fun c mem => bne_iff_ne.mpr fun same => plain (same ▸ mem)
      have all : (cs ++ []).takeWhile (fun c => c != '\n') = cs := takeWhile_run run (by simp)
      rw [List.append_nil] at all
      simp [all]
    rw [List.cons_append, List.cons_append, comment?,
      (takeWhile_append_mem feed (by decide) more).1]
  · obtain ⟨t, found, rfl⟩ := Option.map_eq_some_iff.mp h
    rw [List.cons_append, List.cons_append, comment?, blockTail?_append found]
    rfl
  · cases h

/-- Only a comment that was left open can become one in more text. -/
theorem comment?_append_eq_none (missing : comment? cs = none) (long : 2 ≤ cs.length)
    (unopened : ¬ ['/', '*'] <+: cs) : comment? (cs ++ more) = none := by
  rcases cs with _ | ⟨c, _ | ⟨d, cs⟩⟩
  · cases long
  · simp at long
  · rw [List.cons_append, List.cons_append]
    unfold comment?
    split
    · rename_i same
      cases same
      cases missing
    · rename_i same
      cases same
      exact absurd ⟨cs, rfl⟩ unopened
    · rfl

/-- Skipping stops at the same place, if no comment begins there with more text behind. -/
theorem skip_append (left : skip cs ≠ []) (none : comment? (skip cs ++ more) = none) :
    skip (cs ++ more) = skip cs ++ more := by
  suffices same : gap (cs ++ more) = gap cs by
    have inside := (gap_isPrefix cs).length_le
    rw [skip, skip, same, List.drop_append_of_le_length inside]
  fun_induction gap cs with
  | case1 => exact absurd skip_nil left
  | case2 c cs blank ih =>
    have same : skip (c :: cs) = skip cs := by rw [skip, gap_cons_blank blank]; rfl
    rw [same] at left none
    rw [List.cons_append, gap_cons_blank blank, ih left none]
  | case3 c cs blank t found ih =>
    have plain := Bool.eq_false_iff.mpr blank
    have same : skip (c :: cs) = skip ((c :: cs).drop t.length) := by
      rw [skip, gap_cons plain, remarks, found, skip, List.drop_drop, List.length_append]
    rw [same] at left none
    have behind : (c :: cs).drop t.length ≠ [] := by
      intro nil
      rw [nil] at left
      exact left skip_nil
    have inside := (comment?_isPrefix found).length_le
    have found' : comment? (c :: (cs ++ more)) = some t := comment?_append found behind
    rw [List.cons_append, gap_cons plain, remarks, found']
    dsimp only
    rw [← List.cons_append, List.drop_append_of_le_length inside, ih left none]
  | case4 c cs blank missing =>
    have plain := Bool.eq_false_iff.mpr blank
    have same : skip (c :: cs) = c :: cs := by
      refine skip_of_gap ?_
      rw [gap_cons plain, remarks, missing]
    rw [same, List.cons_append] at none
    rw [List.cons_append, gap_cons plain, remarks, none]

/-! ## All of them -/

theorem skip_brace : skip ('\x7d' :: cs) = '\x7d' :: cs := skip_cons (by decide) (by decide)

theorem Spells.skip_isSuffix (h : Spells s ts s') : skip s' <:+ s := by
  induction h with
  | done same =>
    rw [← same]
    exact List.drop_suffix _ _
  | @more s rest _ t _ _ split _ _ ih =>
    have inside : rest <:+ skip s := ⟨t, split.symm⟩
    exact ih.trans (inside.trans (List.drop_suffix _ _))

theorem Spells.mem_brace (h : Spells s ts ('\x7d' :: m)) : '\x7d' ∈ s := by
  have inside := h.skip_isSuffix
  rw [skip_brace] at inside
  exact inside.subset List.mem_cons_self

theorem Spells.closed (h : Spells s ts ('\x7d' :: m)) : Spells s (ts ++ [['\x7d']]) m := by
  have sign : Pattern.isPunctuation ['\x7d'] = true := by decide
  obtain ⟨longest, still, free⟩ := Pattern.longest?_punctuation sign m
  exact h.trans (.single longest still free)

/-- Where no star follows a slash as another lexeme, no comment was left open. -/
theorem not_open_of_apart (longest : longest? (skip s) = some t) (split : skip s = t ++ rest)
    (others : Spells rest ts ('\x7d' :: m)) (apart : (t :: ts).IsChain Apart) :
    ¬ ['/', '*'] <+: skip s := by
  rintro ⟨tail, mark⟩
  rw [← mark] at longest split
  have slash : longest? ('/' :: '*' :: tail) = some ['/'] := longest?_symbol (by decide) (by decide)
  obtain rfl : ['/'] = t := Option.some.inj (slash.symm.trans longest)
  obtain rfl : '*' :: tail = rest := List.tail_eq_of_cons_eq split
  have still : skip ('*' :: tail) = '*' :: tail := skip_cons (by decide) (by decide)
  cases others with
  | done same =>
    rw [still, skip_brace] at same
    cases same
  | more next _ _ _ =>
    rw [still] at next
    exact (List.isChain_cons_cons.mp apart).1 rfl (longest?_head next)

/-- The lexemes in front of a closing brace are the same whatever stands behind it. -/
theorem Spells.append (h : Spells s ts ('\x7d' :: m)) (apart : ts.IsChain Apart)
    (more : List Char) :
    Spells (s ++ more) ts ('\x7d' :: (m ++ more)) := by
  generalize stop : '\x7d' :: m = s' at h
  induction h with
  | done same =>
    subst stop
    rw [skip_brace] at same
    refine .done ?_
    rw [skip_brace, skip_append (by simp [same]), same]
    · rfl
    · rw [same]
      exact comment?_eq_none (by decide)
  | @more s _ _ _ _ longest split free others ih =>
    subst stop
    have brace := others.mem_brace
    have still : skip (s ++ more) = skip s ++ more := by
      have long : 2 ≤ (skip s).length := by
        have front := List.length_pos_iff.mpr (longest?_isPrefix longest).2
        have back := List.length_pos_of_mem brace
        rw [split, List.length_append]
        omega
      refine skip_append (List.length_pos_iff.mp (by omega)) (comment?_append_eq_none ?_ long ?_)
      · exact (gap_eq_nil_iff.mp (gap_skip s)).2
      · exact not_open_of_apart longest split others apart
    rw [split] at longest
    refine .more ?_ ?_ ?_ (ih apart.tail rfl)
    · rw [still, split]
      exact longest?_append longest brace
    · rw [still, split, List.append_assoc]
    · rw [touches_append brace, free]

/-- Lexemes that end earlier in the same text are the first of those that reach its end. -/
theorem Spells.exists_append (h : Spells s ts m) (whole : Spells s us s') (stop : skip s' = []) :
    ∃ vs, us = ts ++ vs ∧ Spells m vs s' := by
  induction h generalizing us with
  | done same => exact ⟨us, rfl, whole.congr same⟩
  | more longest split _ _ ih =>
    cases whole with
    | done same =>
      rw [same, stop] at longest
      cases longest
    | more longest' split' _ others' =>
      rw [longest] at longest'
      cases longest'
      rw [split] at split'
      obtain rfl := List.append_cancel_left split'
      obtain ⟨vs, rfl, left⟩ := ih others'
      exact ⟨vs, rfl, left⟩

/-- The same lexemes end at the same place. -/
theorem Spells.skip_unique (h : Spells s ts m) (h' : Spells s ts s') : skip m = skip s' := by
  induction h with
  | done same =>
    cases h' with
    | done same' => rw [← same, same']
  | more longest split _ _ ih =>
    cases h' with
    | more longest' split' _ others' =>
      rw [split] at split'
      obtain rfl := List.append_cancel_left split'
      exact ih others'

end SyntaxTree.Lexeme
