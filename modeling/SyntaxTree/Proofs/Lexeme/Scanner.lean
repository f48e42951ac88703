import SyntaxTree.Proofs.Lexeme.Verdict

/-!
# Scanners that read a text once

A scanner goes from state to state with every character and never looks ahead or comes back. Two
scanners are given here, one for string literals and one for the gaps between lexemes. What the
grammar says with repetitions and looks ahead is just what they take.

The proofs go by the two accounts of the text that do look ahead, `string?` and `gap`. A scanner
that has seen a mark of a comment by half has a state of its own for it, so inside a comment it is
followed from mark to mark, and between the marks along the gap.
-/

namespace SyntaxTree

/-- A scanner ends where no state comes next or the text ends. It takes what it has read up to the
last state in which it may stop. -/
structure Scanner (State : Type) where
  start : State
  next? : State → Char → Option State
  mayStop : State → Bool

namespace Scanner

open Lexeme

section Taking

variable {State : Type} (s : Scanner State)

/-- What is taken from a state on, if the scanner may stop there or later. -/
def takes? (state : State) : List Char → Option (List Char)
  | [] => if s.mayStop state then some [] else none
  | c :: cs =>
    (((s.next? state c).bind fun state' => takes? state' cs).map (c :: ·)).or
      (if s.mayStop state then some [] else none)

def scan? (cs : List Char) : Option (List Char) := s.takes? s.start cs

variable {s} {state state' : State} {c : Char} {cs : List Char}

theorem takes?_of_next (next : s.next? state c = some state') :
    s.takes? state (c :: cs) = ((s.takes? state' cs).map (c :: ·)).or
      (if s.mayStop state then some [] else none) := by
  rw [takes?, next, Option.bind_some]

theorem takes?_of_halt (halt : s.next? state c = none) :
    s.takes? state (c :: cs) = if s.mayStop state then some [] else none := by
  rw [takes?, halt]
  rfl

/-- Where the scanner may not stop, it has to go on. -/
theorem takes?_of_going (next : s.next? state c = some state') (going : s.mayStop state = false) :
    s.takes? state (c :: cs) = (s.takes? state' cs).map (c :: ·) := by
  rw [takes?_of_next next, going]
  exact Option.or_none

/-- Where it goes on to a state in which it may stop, it takes the character. -/
theorem takes?_of_stop (next : s.next? state c = some state') (stop : s.mayStop state' = true) :
    s.takes? state (c :: cs) = (s.takes? state' cs).map (c :: ·) := by
  have taken : ∃ t, s.takes? state' cs = some t := by
    refine Option.ne_none_iff_exists'.mp fun none => ?_
    cases cs <;> simp [takes?, stop] at none
  obtain ⟨t, taken⟩ := taken
  rw [takes?_of_next next, taken]
  rfl

end Taking

/-! ## String literals -/

/-- How far a string literal has come. -/
inductive Quoting where
  | ahead
  | inside
  /-- Behind a backslash, which takes the next character with it. -/
  | escaped
  | closed
  deriving DecidableEq, Repr

def Quoting.next? : Quoting → Char → Option Quoting
  | ahead, c => if c = '"' then some inside else none
  | inside, c =>
    if c = '"' then some closed
    else if c = '\n' then none
    else if c = '\\' then some escaped
    else some inside
  | escaped, _ => some inside
  | closed, _ => none

/-- Reads a string literal. A line feed breaks it off, unless a backslash has taken it. -/
def literal : Scanner Quoting := ⟨.ahead, Quoting.next?, fun state => state == .closed⟩

theorem literal_closed (cs : List Char) : literal.takes? .closed cs = some [] := by
  cases cs <;> rfl

theorem literal_inside (cs : List Char) : literal.takes? .inside cs = stringTail? cs := by
  fun_induction stringTail? cs with
  | case1 => rfl
  | case2 cs =>
    have next : literal.next? .inside '"' = some .closed := rfl
    rw [takes?_of_going next rfl, literal_closed, Option.map_some]
  | case3 cs => rfl
  | case4 c cs ih =>
    have escape : literal.next? .inside '\\' = some .escaped := rfl
    have taken : literal.next? .escaped c = some .inside := rfl
    rw [takes?_of_going escape rfl, takes?_of_going taken rfl, ih, Option.map_map]
    rfl
  | case5 c cs quote feed escape ih =>
    by_cases slash : c = '\\'
    · -- A backslash is a plain character only at the very end, where no literal closes.
      rcases cs with _ | ⟨d, cs⟩
      · subst slash
        rfl
      · exact absurd rfl (escape d cs slash)
    · have next : literal.next? .inside c = some .inside :=
        (if_neg quote).trans ((if_neg feed).trans (if_neg slash))
      rw [takes?_of_going next rfl, ih]

theorem scan?_literal (cs : List Char) : literal.scan? cs = string? cs := by
  change literal.takes? .ahead cs = string? cs
  unfold string?
  split
  · rename_i cs
    have opened : literal.next? .ahead '"' = some .inside := rfl
    rw [takes?_of_going opened rfl, literal_inside]
  · rename_i other
    rcases cs with _ | ⟨c, cs⟩
    · rfl
    · have head : c ≠ '"' := fun same => other cs (by rw [same])
      have halt : literal.next? .ahead c = none := if_neg head
      exact takes?_of_halt halt

/-! ## Gaps -/

/-- Where the scanner stands in a gap. -/
inductive Passing where
  | between
  /-- Behind a slash that may open a comment. -/
  | slash
  | line
  | block
  /-- In a block comment, behind a star that may close it. -/
  | star
  deriving DecidableEq, Repr

def Passing.next? : Passing → Char → Option Passing
  | between, c => if isGap c then some between else if c = '/' then some slash else none
  | slash, c => if c = '/' then some line else if c = '*' then some block else none
  | line, c => if c = '\n' then some between else some line
  | block, c => if c = '*' then some star else some block
  | star, c => if c = '/' then some between else if c = '*' then some star else some block

/-- Passes over blanks and comments. A line comment may end with the text, a block comment has to
be closed. -/
def passer : Scanner Passing :=
  ⟨.between, Passing.next?, fun state => state == .between || state == .line⟩

/-- A star matters only if a slash follows. -/
theorem passer_star {cs : List Char} (open' : ∀ rest, cs ≠ '/' :: rest) :
    passer.takes? .star cs = passer.takes? .block cs := by
  rcases cs with _ | ⟨c, cs⟩
  · rfl
  · have plain : c ≠ '/' := fun same => open' cs (by rw [same])
    have same : passer.next? .star c = passer.next? .block c := if_neg plain
    rw [takes?, takes?, same]
    rfl

/-- A block comment is read up to its first closing mark, and the scanner goes on behind it. -/
theorem passer_block (cs : List Char) : passer.takes? .block cs =
    (blockTail? cs).bind fun t => (passer.takes? .between (cs.drop t.length)).map (t ++ ·) := by
  fun_induction blockTail? cs with
  | case1 => rfl
  | case2 cs =>
    have star : passer.next? .block '*' = some .star := rfl
    have slash : passer.next? .star '/' = some .between := rfl
    rw [takes?_of_going star rfl, takes?_of_going slash rfl, Option.map_map]
    rfl
  | case3 c cs plain ih =>
    have step : passer.takes? .block (c :: cs) = (passer.takes? .block cs).map (c :: ·) := by
      by_cases star : c = '*'
      · subst star
        have next : passer.next? .block '*' = some .star := rfl
        rw [takes?_of_going next rfl, passer_star fun rest => plain rest rfl]
      · have next : passer.next? .block c = some .block := if_neg star
        exact takes?_of_going next rfl
    rw [step, ih]
    cases blockTail? cs with
    | none => rfl
    | some t => simp [Option.map_map, Function.comp_def]

/-- A line comment is read up to the line feed behind it or to the end. -/
theorem passer_line (cs : List Char) : passer.takes? .line cs =
    (passer.takes? .between (cs.dropWhile fun c => c != '\n')).map
      ((cs.takeWhile fun c => c != '\n') ++ ·) := by
  induction cs with
  | nil => rfl
  | cons c cs ih =>
    by_cases feed : c = '\n'
    · subst feed
      -- The line feed is a blank, so it is left to the gap behind the comment.
      have out : passer.takes? .line ('\n' :: cs) = passer.takes? .between ('\n' :: cs) := rfl
      simp [out]
    · have next : passer.next? .line c = some .line := if_neg feed
      rw [takes?_of_stop next rfl, ih, Option.map_map,
        List.takeWhile_cons_of_pos (by simpa using feed),
        List.dropWhile_cons_of_pos (by simpa using feed)]
      rfl

/-- Behind a slash, the scanner goes on if the slash opens a comment that is whole. -/
theorem passer_slash (cs : List Char) :
    (passer.takes? .slash cs).map ('/' :: ·) = (comment? ('/' :: cs)).bind fun t =>
      (passer.takes? .between (('/' :: cs).drop t.length)).map (t ++ ·) := by
  rcases cs with _ | ⟨c, cs⟩
  · rfl
  by_cases line : c = '/'
  · subst line
    have next : passer.next? .slash '/' = some .line := rfl
    rw [takes?_of_going next rfl, passer_line]
    simp [comment?, drop_length_takeWhile, Option.map_map, Function.comp_def]
  by_cases block : c = '*'
  · subst block
    have next : passer.next? .slash '*' = some .block := rfl
    rw [takes?_of_going next rfl, passer_block]
    simp only [comment?]
    cases blockTail? cs with
    | none => rfl
    | some t => simp [Option.map_map, Function.comp_def]
  · have halt : passer.next? .slash c = none := (if_neg line).trans (if_neg block)
    have other : comment? ('/' :: c :: cs) = none := by simp [comment?, line, block]
    rw [takes?_of_halt halt, other]
    rfl

/-- Where no blank stands, a comment is passed over or nothing is. -/
theorem passer_comment {c : Char} {cs : List Char} (blank : isGap c = false) :
    passer.takes? .between (c :: cs) = ((comment? (c :: cs)).bind fun t =>
      (passer.takes? .between ((c :: cs).drop t.length)).map (t ++ ·)).or (some []) := by
  by_cases slash : c = '/'
  · subst slash
    have opened : passer.next? .between '/' = some .slash := rfl
    rw [takes?_of_next opened, passer_slash]
    rfl
  · have halt : passer.next? .between c = none := by
      simp [passer, Passing.next?, blank, slash]
    rw [takes?_of_halt halt, comment?_eq_none slash]
    rfl

theorem scan?_passer (cs : List Char) : passer.scan? cs = some (gap cs) := by
  change passer.takes? .between cs = some (gap cs)
  fun_induction gap cs with
  | case1 => rfl
  | case2 c cs blank ih =>
    have next : passer.next? .between c = some .between := if_pos blank
    rw [takes?_of_stop next rfl, ih, Option.map_some]
  | case3 c cs blank t found ih =>
    rw [passer_comment (Bool.eq_false_iff.mpr blank), found, Option.bind_some, ih]
    rfl
  | case4 c cs blank none =>
    rw [passer_comment (Bool.eq_false_iff.mpr blank), none]
    rfl

end Scanner

/-! ## The grammar -/

namespace Rule

open Pattern

/-- A string literal is what one scanner takes, and what is skipped between two lexemes is what the
other takes. Skipping once more moves nothing. -/
theorem scanned_in_one_pass (p : Position) :
    ((string.matchAt p).1 =
        match Scanner.literal.scan? p.rest with
        | some text => string.reading p text
        | none => .failed) ∧
      ∀ n ≥ p.budget, ∀ visible f, ∃ text, Scanner.passer.scan? p.rest = some text ∧
        (run n visible skipped p f).1 = .matched text (p.advance text) [] ∧
        (run n visible skipped (p.advance text) f).1 = .matched [] (p.advance text) [] := by
  constructor
  · rw [Scanner.scan?_literal]
    exact matchAt_of_scans rfl scans_string
  · intro n enough visible f
    rw [Position.budget] at enough
    have cost : skipped.cost ≤ 64 := by decide
    have behind : (p.advance (Lexeme.gap p.rest)).rest = Lexeme.skip p.rest := rfl
    refine ⟨Lexeme.gap p.rest, Scanner.scan?_passer p.rest, ?_, ?_⟩
    · exact scans_skipped.run_eq rfl (by omega) f
    · have shorter := Lexeme.length_skip_le p.rest
      rw [scans_skipped.run_eq rfl (by rw [behind]; omega) f, behind, Lexeme.gap_skip]
      simp only [Position.advance_nil]

/-- A quote behind a backslash does not close a literal, and `/*/` is no whole comment. -/
theorem scanned_in_one_pass_unclosed :
    (string.matchAt (.atStart "\"\\\"\";".toList)).1 =
        .matched "\"\\\"\"".toList ⟨4, [';']⟩ [⟨string, 0, "\"\\\"\"".toList, []⟩] ∧
      (run 640 true skipped (.atStart "/**/ /*/".toList) .start).1 =
        .matched "/**/ ".toList ⟨5, "/*/".toList⟩ [] := by
  constructor
  · have taken : Scanner.literal.scan? "\"\\\"\";".toList = some "\"\\\"\"".toList := by decide
    have read := (scanned_in_one_pass (.atStart "\"\\\"\";".toList)).1
    rwa [Position.atStart, taken] at read
  · obtain ⟨text, scanned, read, -⟩ :=
      (scanned_in_one_pass (.atStart "/**/ /*/".toList)).2 640 (by decide) true .start
    have taken : Scanner.passer.scan? "/**/ /*/".toList = some "/**/ ".toList := by decide
    obtain rfl : text = "/**/ ".toList := Option.some.inj (scanned.symm.trans taken)
    exact read

end Rule

end SyntaxTree
