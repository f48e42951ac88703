import SyntaxTree.Proofs.Lexeme.Longest
import SyntaxTree.Proofs.Matching.Scans

/-!
# Skipping

What the grammar skips between two tokens is exactly the gap in front of the next
lexeme. Skipping stops at a lexeme, at the end, or at a block comment that is
never closed, and skipping again from there moves nothing.
-/

namespace SyntaxTree

namespace Lexeme

variable {c : Char} {cs t : List Char}

/-- A comment at the start, and the gap behind it. -/
def remarks (cs : List Char) : List Char :=
  match comment? cs with
  | some t => t ++ gap (cs.drop t.length)
  | none => []

theorem gap_cons_blank (h : isGap c = true) : gap (c :: cs) = c :: gap cs := by
  rw [gap, if_pos h]

theorem gap_cons (h : isGap c = false) : gap (c :: cs) = remarks (c :: cs) := by
  rw [gap, if_neg (by simp [h]), remarks]
  split <;> simp [*]

theorem gap_eq (cs : List Char) : gap cs = cs.takeWhile isGap ++ remarks (cs.dropWhile isGap) := by
  induction cs with
  | nil => simp [gap, remarks, comment?]
  | cons c cs ih =>
    cases blank : isGap c with
    | true =>
      rw [gap_cons_blank blank, List.takeWhile_cons_of_pos blank, List.dropWhile_cons_of_pos blank,
        ih, List.cons_append]
    | false =>
      rw [gap_cons blank, List.takeWhile_cons_of_neg (by simp [blank]),
        List.dropWhile_cons_of_neg (by simp [blank]), List.nil_append]

theorem blockTail?_isPrefix (h : blockTail? cs = some t) : t <+: cs := by
  fun_induction blockTail? cs generalizing t with
  | case1 => cases h
  | case2 cs =>
    cases h
    simp
  | case3 c cs _ ih =>
    obtain ⟨t, found, rfl⟩ := Option.map_eq_some_iff.mp h
    simpa using ih found

theorem comment?_isPrefix (h : comment? cs = some t) : t <+: cs := by
  unfold comment? at h
  split at h
  · cases h
    simpa using List.takeWhile_prefix _
  · obtain ⟨t, found, rfl⟩ := Option.map_eq_some_iff.mp h
    simpa using blockTail?_isPrefix found
  · cases h

theorem comment?_eq_none (h : c ≠ '/') : comment? (c :: cs) = none := by
  unfold comment?
  split
  · rename_i heq
    exact absurd (List.cons.inj heq).1 h
  · rename_i heq
    exact absurd (List.cons.inj heq).1 h
  · rfl

theorem gap_isPrefix (cs : List Char) : gap cs <+: cs := by
  fun_induction gap cs with
  | case1 => exact List.nil_prefix
  | case2 c cs _ ih => simpa using ih
  | case3 c cs _ t found ih =>
    obtain ⟨rest, stands⟩ := comment?_isPrefix found
    obtain ⟨rest', stands'⟩ := ih
    refine ⟨rest', ?_⟩
    rw [List.append_assoc, stands', ← stands, List.drop_left]
  | case4 => exact List.nil_prefix

theorem gap_append_skip (cs : List Char) : gap cs ++ skip cs = cs :=
  List.prefix_iff_eq_append.mp (gap_isPrefix cs)

@[simp] theorem gap_nil : gap [] = [] := by
  rw [gap]

@[simp] theorem skip_nil : skip [] = [] := by
  simp [skip]

/-- No gap is left where skipping stops. -/
theorem gap_skip (cs : List Char) : gap (skip cs) = [] := by
  fun_induction gap cs with
  | case1 => simp
  | case2 c cs blank ih => rwa [skip, gap_cons_blank blank]
  | case3 c cs blank t found ih =>
    have same : skip (c :: cs) = skip ((c :: cs).drop t.length) := by
      rw [skip, gap_cons (Bool.eq_false_iff.mpr blank), remarks, found, skip, List.drop_drop]
      simp
    rwa [same]
  | case4 c cs blank none =>
    have none : gap (c :: cs) = [] := by
      rw [gap_cons (Bool.eq_false_iff.mpr blank), remarks, none]
    rw [skip, none, List.length_nil, List.drop_zero, none]

/-- Where no gap stands, neither a blank nor a comment begins. -/
theorem gap_eq_nil_iff : gap cs = [] ↔ (∀ c ∈ cs.head?, isGap c = false) ∧ comment? cs = none := by
  rcases cs with _ | ⟨c, cs⟩
  · simp [comment?]
  · cases blank : isGap c with
    | true => simp [gap_cons_blank blank, blank]
    | false =>
      rw [gap_cons blank, remarks]
      cases found : comment? (c :: cs) with
      | none => simp [blank]
      | some t => simp [comment?_ne_nil found]

theorem skip_of_gap (h : gap cs = []) : skip cs = cs := by
  rw [skip, h, List.length_nil, List.drop_zero]

@[simp] theorem skip_skip (cs : List Char) : skip (skip cs) = skip cs :=
  skip_of_gap (gap_skip cs)

/-- Nothing is skipped in front of a character that begins neither a blank nor a comment. -/
theorem skip_cons (blank : isGap c = false) (slash : c ≠ '/') : skip (c :: cs) = c :: cs := by
  refine skip_of_gap ?_
  rw [gap_cons blank, remarks, comment?_eq_none slash]

end Lexeme

namespace Pattern

open Lexeme

variable {visible : Bool}

theorem scans_whitespace : Scans visible (call .whitespace) (scanChar isGap) := by
  refine (Scans.call (.inr rfl) (scans_scan rfl)).congr fun cs => ?_
  rcases cs with _ | ⟨c, cs⟩
  · simp [Rule.body, oneOf, word, scan, scanChar]
  · cases blank : isGap c with
    | true =>
      simp only [isGap, Bool.or_eq_true, beq_iff_eq] at blank
      rcases blank with ((rfl | rfl) | rfl) | rfl <;>
        simp [Rule.body, oneOf, word, scan, scanChar, isGap]
    | false =>
      simp only [isGap, Bool.or_eq_false_iff, beq_eq_false_iff_ne, ne_eq] at blank
      obtain ⟨⟨⟨space, tab⟩, ret⟩, feed⟩ := blank
      simp [Rule.body, oneOf, word, scan, scanChar, isGap, space, tab, ret, feed,
        Ne.symm space, Ne.symm tab, Ne.symm ret, Ne.symm feed]

/-- The body of a block comment, up to its closing mark. -/
def blockBody : List Char → List Char
  | [] => []
  | '*' :: '/' :: _ => []
  | c :: cs => c :: blockBody cs

theorem blockTail?_eq (cs : List Char) : blockTail? cs =
    if ['*', '/'].isPrefixOf (cs.drop (blockBody cs).length) then
      some (blockBody cs ++ ['*', '/'])
    else none := by
  fun_induction blockTail? cs with
  | case1 => rfl
  | case2 cs => simp [blockBody]
  | case3 c cs plain ih =>
    rw [ih, blockBody.eq_3 c cs plain]
    simp only [List.length_cons, List.drop_succ_cons]
    split <;> simp

theorem scans_lineBody : Scans visible (many (joined [absent (word "\n"), char .any]))
    fun cs => some (cs.takeWhile fun c => c != '\n') := by
  refine Scans.many_char ((scans_scan rfl).congr fun cs => ?_)
  rcases cs with _ | ⟨c, cs⟩
  · simp [joined, word, scan, scanChar]
  · by_cases feed : c = '\n'
    · simp [joined, word, scan, scanChar, feed]
    · simp [joined, word, scan, scanChar, CharClass.contains, feed, Ne.symm feed]

/-- One character of a block comment, if the closing mark does not stand there. -/
def blockItem : List Char → Option (List Char)
  | [] => none
  | '*' :: '/' :: _ => none
  | c :: _ => some [c]

theorem blockBody_eq (cs : List Char) : blockBody cs =
    match blockItem cs with
    | none => []
    | some text => text ++ blockBody (cs.drop text.length) := by
  fun_cases blockItem cs with
  | case1 => rfl
  | case2 => rfl
  | case3 c cs plain => exact blockBody.eq_3 c cs plain

theorem blockItem_ne_nil {cs text : List Char} (h : blockItem cs = some text) : text ≠ [] := by
  unfold blockItem at h
  split at h <;> cases h
  simp

theorem scans_blockItem : Scans visible (joined [absent (word "*/"), char .any]) blockItem := by
  refine (scans_scan rfl).congr fun cs => ?_
  fun_cases blockItem cs with
  | case1 => simp [joined, word, scan]
  | case2 => simp [joined, word, scan]
  | case3 c cs plain =>
    have open' : ¬ ['*', '/'] <+: c :: cs := by
      rintro ⟨rest, same⟩
      cases same
      exact plain rest rfl rfl
    simp [joined, word, scan, CharClass.contains, open']

theorem scans_blockBody : Scans visible (many (joined [absent (word "*/"), char .any]))
    fun cs => some (blockBody cs) := by
  refine scans_blockItem.many ?_ ?_
  · intro cs h
    rw [blockBody_eq, h]
  · intro cs text h
    refine ⟨blockItem_ne_nil h, ?_⟩
    rw [blockBody_eq, h]

theorem scans_comment : Scans visible (call .comment) comment? := by
  have mark (text : String) : Scans visible (word text) (scan _) := scans_scan rfl
  refine Scans.call (.inr rfl) ((((mark "//").seq scans_lineBody).choice
    ((mark "/*").seq (scans_blockBody.seq (mark "*/")))).congr fun cs => ?_)
  unfold comment?
  split
  · simp [scan, word]
  · rename_i cs
    rw [blockTail?_eq]
    by_cases close : ['*', '/'] <+: cs.drop (blockBody cs).length <;>
      simp [scan, word, Nat.add_comm 2, close]
  · rename_i line block
    have noLine : ¬ ['/', '/'] <+: cs := by
      rintro ⟨rest, rfl⟩
      exact line rest rfl
    have noBlock : ¬ ['/', '*'] <+: cs := by
      rintro ⟨rest, rfl⟩
      exact block rest rfl
    simp [scan, word, noLine, noBlock]

/-- A comment and the blanks behind it. -/
def remark (cs : List Char) : Option (List Char) :=
  (comment? cs).map fun t => t ++ (cs.drop t.length).takeWhile isGap

theorem remarks_eq (cs : List Char) : remarks cs =
    match remark cs with
    | none => []
    | some text => text ++ remarks (cs.drop text.length) := by
  rw [remarks, remark]
  cases comment? cs with
  | none => rfl
  | some t =>
    dsimp only [Option.map_some]
    rw [gap_eq, ← drop_length_takeWhile, List.append_assoc, List.drop_drop, List.length_append]

theorem scans_skipped : Scans visible skipped fun cs => some (gap cs) := by
  have item : Scans visible (seq (call .comment) (many (call .whitespace))) remark := by
    refine (scans_comment.seq scans_whitespace.many_char).congr fun cs => ?_
    rw [remark]
    cases comment? cs <;> rfl
  have items : Scans visible (many (seq (call .comment) (many (call .whitespace))))
      fun cs => some (remarks cs) := by
    refine item.many ?_ ?_
    · intro cs h
      rw [remarks_eq, h]
    · intro cs text h
      refine ⟨?_, by rw [remarks_eq, h]⟩
      obtain ⟨t, found, rfl⟩ := Option.map_eq_some_iff.mp h
      exact List.append_ne_nil_of_left_ne_nil (comment?_ne_nil found) _
  refine (scans_whitespace.many_char.seq items).congr fun cs => ?_
  rw [Option.bind_some, drop_length_takeWhile, Option.map_some, ← gap_eq]

/-- Skipping does not fail. -/
theorem reads_skipped (p : Position) : Reads visible skipped p [] (p.advance (gap p.rest)) := by
  have scans : Scans visible skipped fun cs => some (gap cs) := scans_skipped
  exact (scans.reads rfl).2

/-- Skipping reads the gap and nothing else. -/
theorem Reads.skipped_inv {p q : Position} {phrases : List Phrase}
    (h : Reads visible skipped p phrases q) :
    phrases = [] ∧ q = p.advance (gap p.rest) ∧ q.rest = skip p.rest := by
  obtain ⟨rfl, rfl⟩ := (reads_skipped p).unique h
  exact ⟨rfl, rfl, rfl⟩

end Pattern

end SyntaxTree
