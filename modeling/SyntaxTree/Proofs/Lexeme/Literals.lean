import SyntaxTree.Proofs.Lexeme.Words

/-!
# The rules for numbers and string literals

Both rules scan in one pass. A number takes a point only with a digit behind it.
The body of a string literal reads a backslash together with the next character;
it stops at the first quote or line feed that no backslash takes, and the literal
matches if that is a quote.
-/

namespace SyntaxTree

open Lexeme

namespace Pattern

variable {visible : Bool}

theorem scans_digit : Scans visible (char .digit) (scanChar Char.isDigit) := by
  refine (Scans.char .digit).congr fun cs => ?_
  cases cs <;> rfl

/-- The body of a string literal, up to its closing quote. -/
def stringBody : List Char → List Char
  | [] => []
  | '"' :: _ => []
  | '\n' :: _ => []
  | '\\' :: c :: cs => '\\' :: c :: stringBody cs
  | c :: cs => c :: stringBody cs

/-- One item of the body: an escaped character or one that does not end the body. -/
def stringItem : List Char → Option (List Char)
  | [] => none
  | '"' :: _ => none
  | '\n' :: _ => none
  | '\\' :: c :: _ => some ['\\', c]
  | c :: _ => some [c]

theorem scans_stringItem : Scans visible
    (choice (joined [word "\\", char .any])
      (joined [absent (choice (word "\"") (word "\n")), char .any])) stringItem := by
  refine (scans_scan rfl).congr fun cs => ?_
  fun_cases stringItem cs with
  | case1 => simp [joined, word, scan]
  | case2 => simp [joined, word, scan]
  | case3 => simp [joined, word, scan]
  | case4 => simp [joined, word, scan, CharClass.contains]
  | case5 c cs quote feed escape =>
    by_cases slash : c = '\\'
    · subst slash
      rcases cs with _ | ⟨d, cs⟩
      · simp [joined, word, scan, CharClass.contains]
      · exact absurd rfl (escape d cs rfl)
    · simp [joined, word, scan, CharClass.contains, Ne.symm slash, Ne.symm quote, Ne.symm feed]

theorem stringBody_eq (cs : List Char) : stringBody cs =
    match stringItem cs with
    | none => []
    | some text => text ++ stringBody (cs.drop text.length) := by
  fun_cases stringItem cs with
  | case1 => rfl
  | case2 => rfl
  | case3 => rfl
  | case4 => rfl
  | case5 c cs quote feed escape => exact stringBody.eq_5 c cs quote feed escape

theorem stringItem_ne_nil {cs text : List Char} (h : stringItem cs = some text) : text ≠ [] := by
  unfold stringItem at h
  split at h <;> cases h <;> simp

theorem scans_stringBody : Scans visible
    (many (choice (joined [word "\\", char .any])
      (joined [absent (choice (word "\"") (word "\n")), char .any])))
    fun cs => some (stringBody cs) := by
  refine scans_stringItem.many ?_ ?_
  · intro cs h
    rw [stringBody_eq, h]
  · intro cs text h
    refine ⟨stringItem_ne_nil h, ?_⟩
    rw [stringBody_eq, h]

/-- The body and a closing quote behind it, if it is there. -/
theorem stringTail?_eq (cs : List Char) : stringTail? cs =
    if (cs.drop (stringBody cs).length).head? = some '"' then some (stringBody cs ++ ['"'])
    else none := by
  fun_induction stringTail? cs with
  | case1 => rfl
  | case2 => rfl
  | case3 => rfl
  | case4 c cs ih =>
    rw [ih, stringBody.eq_4]
    simp only [List.length_cons, List.drop_succ_cons]
    split <;> simp
  | case5 c cs quote feed escape ih =>
    rw [ih, stringBody.eq_5 c cs quote feed escape]
    simp only [List.length_cons, List.drop_succ_cons]
    split <;> simp

end Pattern

namespace Rule

open Pattern

variable {visible : Bool}

theorem scans_string : Scans visible string.body string? := by
  have quote : Scans visible (Pattern.word "\"") (scan _) := scans_scan rfl
  refine (quote.seq (scans_stringBody.seq quote)).congr fun cs => ?_
  unfold string?
  split
  · rename_i cs
    rw [stringTail?_eq]
    rcases behind : cs.drop (stringBody cs).length with _ | ⟨c, rest⟩
    · simp [scan, Pattern.word, Nat.add_comm 1, behind]
    · by_cases close : c = '"'
      · simp [scan, Pattern.word, Nat.add_comm 1, behind, close]
      · simp [scan, Pattern.word, Nat.add_comm 1, behind, close, Ne.symm close]
  · rename_i other
    rcases cs with _ | ⟨c, cs⟩
    · simp [scan, Pattern.word]
    · have head : ¬ '"' = c := fun same => other cs (by rw [same])
      simp [scan, Pattern.word, head]

/-- The part of the number rule behind the digits reads the fraction. -/
theorem scans_fraction : Scans visible
    (optional (joined [Pattern.word ".", char .digit, many (char .digit)]))
    fun cs => some (fraction cs) := by
  have point : Scans visible (Pattern.word ".") (scan _) := scans_scan rfl
  have empty : Scans visible Pattern.empty (scan _) := scans_scan rfl
  refine ((point.seq (scans_digit.seq scans_digit.many_char)).choice empty).congr fun cs => ?_
  unfold fraction
  split
  · rename_i d rest
    cases digit : d.isDigit <;>
      simp [scan, scanChar, Pattern.word, Pattern.empty, digit]
  · rename_i other
    rcases cs with _ | ⟨c, _ | ⟨d, cs⟩⟩
    · simp [scan, Pattern.word, Pattern.empty]
    · by_cases point : '.' = c
      · subst point
        simp [scan, scanChar, Pattern.word, Pattern.empty]
      · simp [scan, Pattern.word, Pattern.empty, point]
    · have head : ¬ '.' = c := fun same => other d cs (by rw [same])
      simp [scan, Pattern.word, Pattern.empty, head]

theorem scans_number : Scans visible number.body number? := by
  refine (scans_digit.seq (scans_digit.many_char.seq scans_fraction)).congr fun cs => ?_
  rcases cs with _ | ⟨c, cs⟩
  · simp [scanChar, number?]
  · cases digit : c.isDigit
    · simp [scanChar, number?, digit]
    · simp [scanChar, number?, digit, Nat.add_comm 1, drop_length_takeWhile]

end Rule

end SyntaxTree
