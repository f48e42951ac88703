import SyntaxTree.Proofs.Lexeme.Basic

/-!
# The longest lexeme

The first character of a text tells which kinds of lexemes can stand there. Only
a digit leaves a choice, between a number and a word. So a lexeme found by its
own scanner is the longest one, provided that no word goes on behind a number,
and the longest lexeme is found by the scanner of its kind.
-/

namespace SyntaxTree.Lexeme

variable {c d : Char} {cs t : List Char}

/-! ## Runs of characters -/

section Runs

variable {p : Char → Bool}

theorem any_head? : cs.head?.any p = true ↔ ∃ c ∈ cs.head?, p c = true := by
  cases cs <;> simp

theorem takeWhile_of_head (ends : ∀ c ∈ cs.head?, p c = false) : cs.takeWhile p = [] := by
  rcases cs with _ | ⟨c, cs⟩
  · rfl
  · exact List.takeWhile_cons_of_neg (by simp [ends c rfl])

theorem takeWhile_run (run : t.all p = true) (ends : ∀ c ∈ cs.head?, p c = false) :
    (t ++ cs).takeWhile p = t := by
  rw [List.takeWhile_append_of_pos (List.all_eq_true.mp run), takeWhile_of_head ends,
    List.append_nil]

theorem dropWhile_run (run : t.all p = true) (ends : ∀ c ∈ cs.head?, p c = false) :
    (t ++ cs).dropWhile p = cs := by
  rw [List.dropWhile_append_of_pos (List.all_eq_true.mp run)]
  rcases cs with _ | ⟨c, cs⟩
  · rfl
  · exact List.dropWhile_cons_of_neg (by simp [ends c rfl])

theorem drop_length_takeWhile (p : Char → Bool) (cs : List Char) :
    cs.drop (cs.takeWhile p).length = cs.dropWhile p := by
  have split : (cs.takeWhile p ++ cs.dropWhile p).drop (cs.takeWhile p).length = cs.dropWhile p :=
    List.drop_left
  rwa [List.takeWhile_append_dropWhile] at split

/-- What stands in front of the first of some mark is determined. -/
theorem split_unique {α : Type} {x : α} {l l' t t' : List α} (plain : x ∉ l) (plain' : x ∉ l')
    (same : l ++ x :: t = l' ++ x :: t') : l = l' ∧ t = t' := by
  induction l generalizing l' with
  | nil =>
    cases l' with
    | nil => exact ⟨rfl, List.tail_eq_of_cons_eq same⟩
    | cons c l' =>
      cases same
      exact absurd List.mem_cons_self plain'
  | cons c l ih =>
    cases l' with
    | nil =>
      cases same
      exact absurd List.mem_cons_self plain
    | cons c' l' =>
      obtain ⟨rfl, rest⟩ := List.cons.inj same
      obtain ⟨rfl, rfl⟩ := ih (fun mem => plain (List.mem_cons_of_mem _ mem))
        (fun mem => plain' (List.mem_cons_of_mem _ mem)) rest
      exact ⟨rfl, rfl⟩

/-- A text is its first run and a rest that does not go on with it. -/
theorem exists_run (p : Char → Bool) (cs : List Char) :
    ∃ run rest, cs = run ++ rest ∧ run.all p = true ∧ ∀ c ∈ rest.head?, p c = false := by
  refine ⟨cs.takeWhile p, cs.dropWhile p, by simp, List.all_takeWhile, ?_⟩
  intro c head
  have stop := List.head?_dropWhile_not p cs
  rw [Option.mem_def.mp head] at stop
  exact stop

end Runs

/-! ## Which kind of lexeme stands at a place -/

theorem isWordChar_of_isDigit (h : c.isDigit = true) : isWordChar c = true := by
  simp [isWordChar, Char.isAlphanum, h]

theorem word_cons (h : isWordChar c = true) : word (c :: cs) = c :: word cs := by
  simp [word, h]

theorem word_isPrefix (cs : List Char) : word cs <+: cs := List.takeWhile_prefix _

theorem all_word (cs : List Char) : (word cs).all isWordChar = true := List.all_takeWhile

/-- No word character follows a word. -/
theorem word_ends (h : word (t ++ cs) = t) : ∀ c ∈ cs.head?, isWordChar c = false := by
  have run : t.all isWordChar = true := by
    rw [← h]
    exact all_word _
  rw [word, List.takeWhile_append_of_pos (List.all_eq_true.mp run)] at h
  have none : cs.takeWhile isWordChar = [] := List.append_right_eq_self.mp h
  rcases cs with _ | ⟨c, cs⟩
  · simp
  · simpa [List.takeWhile_cons] using none

/-- A run of word characters is the word if none follows. -/
theorem word_append (run : t.all isWordChar = true) (ends : ∀ c ∈ cs.head?, isWordChar c = false) :
    word (t ++ cs) = t :=
  takeWhile_run run ends

theorem number?_cons (h : c.isDigit = true) : number? (c :: cs) =
    some ((c :: cs).takeWhile Char.isDigit ++ fraction ((c :: cs).dropWhile Char.isDigit)) := by
  simp [number?, h]

theorem number?_eq_none (h : c.isDigit = false) : number? (c :: cs) = none := by
  simp [number?, h]

theorem string?_eq_none (h : c ≠ '"') : string? (c :: cs) = none := by
  unfold string?
  split
  · rename_i heq
    exact absurd (List.cons.inj heq).1 h
  · rfl

theorem symbol?_head (h : symbol? (c :: cs) = some t) : t.head? = some c := by
  rcases cs with _ | ⟨d, cs⟩ <;> simp only [symbol?] at h <;> split at h
  · cases h
    rfl
  · cases h
  · cases h
    rfl
  · split at h <;> cases h
    rfl

/-- The characters that symbols begin with. -/
def symbolHeads : List Char := singles ++ ['|', '&', '!', '^']

theorem not_wordChar_of_symbolHead (h : c ∈ symbolHeads) :
    isWordChar c = false ∧ c ≠ '"' ∧ isGap c = false := by
  have every : (symbolHeads.all fun c => !isWordChar c && c != '"' && !isGap c) = true := by decide
  simpa [and_assoc] using List.all_eq_true.mp every c h

theorem symbol?_eq_none (h : c ∉ symbolHeads) : symbol? (c :: cs) = none := by
  have single : c ∉ singles := fun inside => h (List.mem_append_left _ inside)
  have pair : ∀ d, (pairs.any fun pair => pair.toList == [c, d]) = false := by
    intro d
    have every : (pairs.all fun pair => pair.toList.head?.all symbolHeads.contains) = true := by
      decide
    rw [List.any_eq_false]
    intro pair inside same
    have head := List.all_eq_true.mp every pair inside
    rw [eq_of_beq same] at head
    exact h (List.contains_iff_mem.mp head)
  rcases cs with _ | ⟨d, cs⟩ <;> simp [symbol?, single, pair]

/-- A word that does not begin with a digit is longer than anything else in its place. -/
theorem longest?_word (letter : isWordChar c = true) (h : c.isDigit = false) :
    longest? (c :: cs) = some (word (c :: cs)) := by
  have strange : c ∉ symbolHeads := by
    intro head
    simp [(not_wordChar_of_symbolHead head).1] at letter
  have quote : c ≠ '"' := by
    rintro rfl
    exact absurd letter (by decide)
  simp [longest?, number?_eq_none h, string?_eq_none quote, symbol?_eq_none strange,
    word_cons letter, longer]

theorem longest?_digit (h : c.isDigit = true) :
    longest? (c :: cs) = longer (some (word (c :: cs))) (number? (c :: cs)) := by
  have letter := isWordChar_of_isDigit h
  have strange : c ∉ symbolHeads := by
    intro head
    simp [(not_wordChar_of_symbolHead head).1] at letter
  have quote : c ≠ '"' := by
    rintro rfl
    exact absurd letter (by decide)
  simp [longest?, number?_cons h, string?_eq_none quote, symbol?_eq_none strange,
    word_cons letter, longer]

theorem longest?_quote : longest? ('"' :: cs) = string? ('"' :: cs) := by
  have none : word ('"' :: cs) = [] := by simp [word, show isWordChar '"' = false from by decide]
  rw [longest?, none, number?_eq_none (by decide), symbol?_eq_none (by decide)]
  cases string? ('"' :: cs) <;> rfl

theorem longest?_symbol (letter : isWordChar c = false) (quote : c ≠ '"') :
    longest? (c :: cs) = symbol? (c :: cs) := by
  have digit : c.isDigit = false := by
    rw [Bool.eq_false_iff]
    intro digit
    simp [isWordChar_of_isDigit digit] at letter
  simp [longest?, word, letter, number?_eq_none digit, string?_eq_none quote, longer]

/-! ## What is found is there -/

theorem fraction_cases (cs : List Char) :
    fraction cs = [] ∨ ∃ d rest, cs = '.' :: d :: rest ∧ d.isDigit = true ∧
      fraction cs = '.' :: d :: rest.takeWhile Char.isDigit := by
  unfold fraction
  split
  · rename_i d rest
    split
    · exact .inr ⟨d, rest, rfl, ‹_›, rfl⟩
    · exact .inl rfl
  · exact .inl rfl

theorem fraction_isPrefix (cs : List Char) : fraction cs <+: cs := by
  rcases fraction_cases cs with none | ⟨d, rest, rfl, -, some⟩
  · rw [none]
    exact List.nil_prefix
  · rw [some]
    exact ⟨rest.dropWhile Char.isDigit, by simp⟩

theorem number?_isPrefix (h : number? cs = some t) : t <+: cs := by
  unfold number? at h
  split at h
  · cases h
    conv => rhs; rw [← List.takeWhile_append_dropWhile (p := Char.isDigit) (l := cs)]
    exact (List.prefix_append_right_inj _).mpr (fraction_isPrefix _)
  · cases h

theorem stringTail?_isPrefix (h : stringTail? cs = some t) : t <+: cs ∧ t ≠ [] := by
  fun_induction stringTail? cs generalizing t with
  | case1 => cases h
  | case2 cs =>
    cases h
    exact ⟨by simp, by simp⟩
  | case3 => cases h
  | case4 c cs ih =>
    obtain ⟨t, found, rfl⟩ := Option.map_eq_some_iff.mp h
    exact ⟨by simpa using (ih found).1, by simp⟩
  | case5 c cs _ _ _ ih =>
    obtain ⟨t, found, rfl⟩ := Option.map_eq_some_iff.mp h
    exact ⟨by simpa using (ih found).1, by simp⟩

theorem string?_eq_some (h : string? cs = some t) :
    ∃ rest tail, cs = '"' :: rest ∧ t = '"' :: tail ∧ stringTail? rest = some tail := by
  unfold string? at h
  split at h
  · rename_i rest
    obtain ⟨tail, found, rfl⟩ := Option.map_eq_some_iff.mp h
    exact ⟨rest, tail, rfl, rfl, found⟩
  · cases h

theorem string?_isPrefix (h : string? cs = some t) : t <+: cs := by
  obtain ⟨rest, tail, rfl, rfl, found⟩ := string?_eq_some h
  simpa using (stringTail?_isPrefix found).1

theorem symbol?_isPrefix (h : symbol? cs = some t) : t <+: cs := by
  unfold symbol? at h
  split at h
  · cases h
  · split at h <;> cases h
    simp
  · split at h
    · cases h
      simp
    · split at h <;> cases h
      simp

theorem longer_eq_some {a b : Option Lexeme} (h : longer a b = some t) :
    a = some t ∨ b = some t := by
  unfold longer at h
  split at h
  · exact .inr h
  · exact .inl h
  · split at h
    · exact .inr h
    · exact .inl h

/-- The longest lexeme stands at the start of the text and has a character. -/
theorem longest?_isPrefix (h : longest? cs = some t) : t <+: cs ∧ t ≠ [] := by
  rcases cs with _ | ⟨c, cs⟩
  · simp [longest?, word, number?, string?, symbol?, longer] at h
  have nonempty {t : Lexeme} (head : t.head? = some c) : t ≠ [] := by
    rintro rfl
    cases head
  rcases longer_eq_some h with found | h
  · split at found
    · cases found
    · rename_i some
      cases found
      exact ⟨word_isPrefix _, fun none => some (List.isEmpty_iff.mpr none)⟩
  rcases longer_eq_some h with found | h
  · refine ⟨number?_isPrefix found, ?_⟩
    rintro rfl
    unfold number? at found
    split at found
    · rename_i digit
      simp only [List.head?_cons, Option.any_some] at digit
      simp [digit] at found
    · cases found
  rcases longer_eq_some h with found | found
  · obtain ⟨rest, tail, -, rfl, -⟩ := string?_eq_some found
    exact ⟨string?_isPrefix found, by simp⟩
  · exact ⟨symbol?_isPrefix found, nonempty (symbol?_head found)⟩

theorem longest?_head (h : longest? cs = some t) : t.head? = cs.head? := by
  obtain ⟨⟨rest, rfl⟩, nonempty⟩ := longest?_isPrefix h
  cases t with
  | nil => exact absurd rfl nonempty
  | cons => rfl

/-! ## Every scanner finds the longest lexeme of its kind -/

/-- A fraction is empty or begins with a point. -/
theorem fraction_head (cs : List Char) : ∀ c ∈ (fraction cs).head?, c = '.' := by
  rcases fraction_cases cs with none | ⟨d, rest, -, -, some⟩
  · simp [none]
  · simp [some]

theorem fraction_fraction (cs : List Char) : fraction (fraction cs) = fraction cs := by
  rcases fraction_cases cs with none | ⟨d, rest, -, digit, some⟩
  · rw [none]
    rfl
  · have run : (rest.takeWhile Char.isDigit ++ []).takeWhile Char.isDigit =
        rest.takeWhile Char.isDigit := takeWhile_run List.all_takeWhile (by simp)
    rw [List.append_nil] at run
    rw [some, fraction, if_pos digit, run]

theorem number?_run {digits : List Char} (nonempty : digits ≠ [])
    (run : digits.all Char.isDigit = true) (ends : ∀ c ∈ cs.head?, c.isDigit = false) :
    number? (digits ++ cs) = some (digits ++ fraction cs) := by
  obtain ⟨c, rest, rfl⟩ := List.exists_cons_of_ne_nil nonempty
  have digit : c.isDigit = true := (List.all_eq_true.mp run) c (by simp)
  rw [List.cons_append, number?_cons digit, ← List.cons_append, takeWhile_run run ends,
    dropWhile_run run ends]

theorem number?_eq_some (h : number? cs = some t) :
    ∃ digits rest, cs = digits ++ rest ∧ t = digits ++ fraction rest ∧ digits ≠ [] ∧
      digits.all Char.isDigit = true ∧ ∀ c ∈ rest.head?, c.isDigit = false := by
  obtain ⟨digits, rest, rfl, run, ends⟩ := exists_run Char.isDigit cs
  have nonempty : digits ≠ [] := by
    rintro rfl
    rw [List.nil_append] at h
    rcases rest with _ | ⟨c, rest⟩
    · simp [number?] at h
    · simp [number?_eq_none (ends c rfl)] at h
  rw [number?_run nonempty run ends] at h
  exact ⟨digits, rest, rfl, (Option.some.inj h).symm, nonempty, run, ends⟩

/-- A number found in a text is a number on its own. -/
theorem number?_idem (h : number? cs = some t) : number? t = some t := by
  obtain ⟨digits, rest, rfl, rfl, nonempty, run, -⟩ := number?_eq_some h
  have ends : ∀ c ∈ (fraction rest).head?, c.isDigit = false := by
    intro c head
    rw [fraction_head rest c head]
    decide
  rw [number?_run nonempty run ends, fraction_fraction]

theorem stringTail?_idem (h : stringTail? cs = some t) : stringTail? t = some t := by
  fun_induction stringTail? cs generalizing t with
  | case1 => cases h
  | case2 cs =>
    cases h
    rfl
  | case3 => cases h
  | case4 c cs ih =>
    obtain ⟨t, found, rfl⟩ := Option.map_eq_some_iff.mp h
    simp [stringTail?, ih found]
  | case5 c cs quote feed escape ih =>
    obtain ⟨t, found, rfl⟩ := Option.map_eq_some_iff.mp h
    have tail := (stringTail?_isPrefix found).2
    rw [stringTail?]
    · simp [ih found]
    · exact quote
    · exact feed
    · intro d rest slash same
      -- A backslash is a plain character only at the very end, where no literal closes.
      rcases cs with _ | ⟨e, cs⟩
      · simp [stringTail?] at found
      · exact escape e cs slash rfl

/-- A string literal found in a text is a string literal on its own. -/
theorem string?_idem (h : string? cs = some t) : string? t = some t := by
  obtain ⟨rest, tail, rfl, rfl, found⟩ := string?_eq_some h
  simp [string?, stringTail?_idem found]

/-- A number is the longest lexeme if no word goes on behind it. -/
theorem longest?_of_number (h : number? cs = some t)
    (ends : ∀ c ∈ (cs.drop t.length).head?, isWordChar c = false) : longest? cs = some t := by
  obtain ⟨digits, rest, rfl, rfl, nonempty, run, -⟩ := number?_eq_some h
  have wordRun : digits.all isWordChar = true :=
    List.all_eq_true.mpr fun c inside => isWordChar_of_isDigit (List.all_eq_true.mp run c inside)
  have word : word (digits ++ rest) = digits := by
    refine word_append wordRun ?_
    rcases fraction_cases rest with none | ⟨d, rest, rfl, -, some⟩
    · simpa [none] using ends
    · intro c head
      cases head
      decide
  have longest : longest? (digits ++ rest) = longer (some digits) (number? (digits ++ rest)) := by
    obtain ⟨c, digits, rfl⟩ := List.exists_cons_of_ne_nil nonempty
    have digit : c.isDigit = true := List.all_eq_true.mp run c (by simp)
    rw [List.cons_append] at word ⊢
    rw [longest?_digit digit, word]
  rw [longest, h]
  rcases fraction_cases rest with none | ⟨d, rest, rfl, -, some⟩
  · simp [none, longer]
  · simp [some, longer]

/-- A number that is a word has no fraction. -/
theorem all_isDigit_of_word (number : number? t = some t) (run : t.all isWordChar = true) :
    t.all Char.isDigit = true := by
  obtain ⟨digits, rest, -, rfl, -, digitRun, -⟩ := number?_eq_some number
  rcases fraction_cases rest with none | ⟨d, frac, rfl, -, some⟩
  · rwa [none, List.append_nil]
  · rw [some, List.all_append, List.all_cons] at run
    simp [show isWordChar '.' = false from by decide] at run

/-- Where a number is the longest lexeme, its scanner finds it. -/
theorem number?_of_longest (number : number? t = some t) (h : longest? cs = some t) :
    number? cs = some t := by
  obtain ⟨⟨rest, rfl⟩, nonempty⟩ := longest?_isPrefix h
  obtain ⟨c, tail, rfl⟩ := List.exists_cons_of_ne_nil nonempty
  have digit : c.isDigit = true := by
    refine Decidable.byContradiction fun other => ?_
    rw [number?_eq_none (Bool.eq_false_iff.mpr other)] at number
    cases number
  rw [List.cons_append, longest?_digit digit, ← List.cons_append] at h
  rcases longer_eq_some h with found | found
  · -- The word is all digits, and a fraction behind it would have made the number longer.
    have word : word (c :: tail ++ rest) = c :: tail := Option.some.inj found
    have run : (c :: tail).all isWordChar = true := by
      rw [← word]
      exact all_word _
    have ends : ∀ d ∈ rest.head?, d.isDigit = false := fun d head =>
      Bool.eq_false_iff.mpr fun digit => Bool.eq_false_iff.mp (word_ends word d head)
        (isWordChar_of_isDigit digit)
    rw [number?_run (by simp) (all_isDigit_of_word number run) ends] at h ⊢
    rw [word] at h
    rcases fraction_cases rest with none | ⟨d, frac, rfl, -, some⟩
    · rw [none, List.append_nil]
    · simp [some, longer] at h
  · exact found

end SyntaxTree.Lexeme
