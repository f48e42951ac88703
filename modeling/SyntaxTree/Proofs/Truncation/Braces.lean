import SyntaxTree.Proofs.Matching.Budget
import SyntaxTree.Proofs.Soundness.Class

/-!
# Braces in a derivation

Every rule derives lexemes in which braces close what they open and nothing else.
That is checked for the body of every rule, and follows for derivations by
induction.

The brace that closes a class is therefore the first one that closes more than was
opened inside the class, and no class is the front of another one.
-/

namespace SyntaxTree

open Rule

namespace Lexeme

/-- How many braces are open behind a lexeme, if so many are open in front of it. There is no
answer if the lexeme closes a brace and none is open. -/
def nest? (depth : Nat) (t : Lexeme) : Option Nat :=
  if t = ['\x7b'] then some (depth + 1)
  else if t = ['\x7d'] then
    match depth with
    | 0 => none
    | outer + 1 => some outer
  else some depth

/-- Braces close what is opened between them, and nothing else. -/
def IsBalanced (ts : List Lexeme) : Prop := ts.foldlM nest? 0 = some 0

variable {t : Lexeme} {ts us : List Lexeme} {depth inner : Nat}

theorem nest?_add (h : nest? depth t = some inner) (more : Nat) :
    nest? (depth + more) t = some (inner + more) := by
  unfold nest? at h ⊢
  split
  · rw [if_pos ‹_›] at h
    cases h
    rw [Nat.add_right_comm]
  · rw [if_neg ‹_›] at h
    split
    · rw [if_pos ‹_›] at h
      rcases depth with _ | outer
      · cases h
      · cases h
        rw [Nat.add_right_comm]
    · rw [if_neg ‹_›] at h
      cases h
      rfl

/-- More open braces around a stretch of lexemes make no difference to it. -/
theorem foldlM_nest?_add (h : ts.foldlM nest? depth = some inner) (more : Nat) :
    ts.foldlM nest? (depth + more) = some (inner + more) := by
  induction ts generalizing depth with
  | nil =>
    cases h
    rfl
  | cons t ts ih =>
    obtain ⟨middle, first, others⟩ := Option.bind_eq_some_iff.mp h
    exact Option.bind_eq_some_iff.mpr ⟨_, nest?_add first more, ih others⟩

theorem IsBalanced.around (h : IsBalanced ts) (depth : Nat) :
    ts.foldlM nest? depth = some depth := by
  simpa using foldlM_nest?_add h depth

/-- A balanced stretch does not go on with a brace that closes more than was opened. -/
theorem IsBalanced.not_closing (h : IsBalanced ts) : ¬ IsBalanced (ts ++ ['\x7d'] :: us) := by
  intro longer
  rw [IsBalanced, List.foldlM_append, h] at longer
  cases longer

end Lexeme

open Lexeme

namespace Rule

variable {r : Rule} {t : Lexeme}

/-- No lexeme of a lexical rule is a brace. -/
theorem ne_brace_of_admits (h : r.admits t = true) : t ≠ ['\x7b'] ∧ t ≠ ['\x7d'] := by
  constructor <;> rintro rfl <;> revert h <;> cases r <;> decide

theorem nest?_of_admits (h : r.admits t = true) (depth : Nat) : nest? depth t = some depth := by
  obtain ⟨opening, closing⟩ := ne_brace_of_admits h
  unfold nest?
  rw [if_neg opening, if_neg closing]

end Rule

namespace Pattern

variable {a : Pattern} {r : Rule} {ts us vs : List Lexeme} {trees trees' : List Tree}
variable {depth inner : Nat}

/-- How many braces are open behind what the pattern derives, as far as that is sure. -/
def nest? (depth : Nat) : Pattern → Option Nat
  | literal text => if text = [] then some depth else Lexeme.nest? depth text
  | char _ | call _ | absent _ => some depth
  | seq a b => (nest? depth a).bind fun inner => nest? inner b
  | choice a b => if nest? depth a = nest? depth b then nest? depth a else none
  | many a => if nest? depth a = some depth then some depth else none

theorem nest?_body (r : Rule) : r.body.nest? 0 = some 0 := by
  cases r <;> rfl

theorem Derives.foldlM_nest? (h : Derives a ts trees) (sure : a.nest? depth = some inner) :
    ts.foldlM Lexeme.nest? depth = some inner := by
  induction h generalizing depth inner with
  | empty => exact sure
  | literal nonempty =>
    rw [Pattern.nest?, if_neg nonempty] at sure
    exact Option.bind_eq_some_iff.mpr ⟨inner, sure, rfl⟩
  | token _ admitted =>
    cases sure
    exact Option.bind_eq_some_iff.mpr ⟨_, nest?_of_admits admitted depth, rfl⟩
  | node _ _ ih | group _ _ ih =>
    cases sure
    have balanced : IsBalanced _ := ih (nest?_body _)
    exact balanced.around depth
  | seq _ _ ih ih' =>
    obtain ⟨middle, front, back⟩ := Option.bind_eq_some_iff.mp sure
    rw [List.foldlM_append]
    exact Option.bind_eq_some_iff.mpr ⟨middle, ih front, ih' back⟩
  | left _ ih =>
    rw [Pattern.nest?] at sure
    split at sure
    · exact ih sure
    · cases sure
  | right _ ih =>
    rw [Pattern.nest?] at sure
    split at sure
    · rename_i same
      exact ih (same ▸ sure)
    · cases sure
  | nil =>
    rw [Pattern.nest?] at sure
    split at sure <;> cases sure
    rfl
  | cons _ _ ih ih' =>
    have again := sure
    rw [Pattern.nest?] at sure
    split at sure <;> cases sure
    rw [List.foldlM_append]
    exact Option.bind_eq_some_iff.mpr ⟨_, ih ‹_›, ih' again⟩
  | absent => exact sure

/-- Every rule derives balanced lexemes. -/
theorem Derives.isBalanced (h : Derives r.body ts trees) : IsBalanced ts :=
  h.foldlM_nest? (nest?_body r)

/-- A class up to the brace that closes it. -/
def openClass : Pattern :=
  spaced [optional (call modifier), call kwClass, call ident, word "\x7b", call methodDecl, empty]

/-- Until it is closed, a class opens its brace behind other lexemes, and what follows is
balanced. -/
theorem Derives.openClass_split (h : Derives openClass ts trees) :
    ∃ front inside, ts = front ++ ['\x7b'] :: inside ∧ ['\x7b'] ∉ front ∧ IsBalanced inside := by
  obtain ⟨us, _, _, _, modified, others, rfl, rfl⟩ := derives_spaced.mp h
  obtain ⟨w, _, _, admitted, named, rfl, rfl⟩ := (each_token rfl).mp others
  obtain ⟨w', _, _, admitted', opened, rfl, rfl⟩ := (each_token rfl).mp named
  obtain ⟨_, inside, rfl⟩ := (each_word (by decide)).mp opened
  obtain ⟨vs, _, children, _, body, stop, rfl, rfl⟩ := (each_node rfl).mp inside
  obtain ⟨_, _, _, _, last, ⟨rfl, rfl⟩, rfl, rfl⟩ := stop
  obtain ⟨rfl, rfl⟩ := derives_empty.mp last
  have plain : ['\x7b'] ∉ us := by
    rw [derives_optional, derives_node rfl] at modified
    rcases modified with ⟨words, derived, rfl⟩ | ⟨rfl, rfl⟩
    · obtain ⟨⟨access, _ | qualifier⟩, -, rfl⟩ := spells_modifier derived
      · cases access <;> decide
      · cases access <;> cases qualifier <;> decide
    · simp
  refine ⟨us ++ [w, w'], vs, by simp, ?_, body.isBalanced⟩
  simp [plain, Ne.symm (ne_brace_of_admits admitted).1, Ne.symm (ne_brace_of_admits admitted').1]

/-- No class is the front of another one. -/
theorem openClass_unique (h : Derives openClass us trees) (h' : Derives openClass vs trees')
    (same : us ++ ['\x7d'] :: ts = vs ++ [['\x7d']]) : us = vs := by
  obtain ⟨front, inside, rfl, plain, balanced⟩ := h.openClass_split
  obtain ⟨front', inside', rfl, plain', balanced'⟩ := h'.openClass_split
  have split : front ++ ['\x7b'] :: (inside ++ ['\x7d'] :: ts) =
      front' ++ ['\x7b'] :: (inside' ++ [['\x7d']]) := by simpa using same
  obtain ⟨rfl, same⟩ := split_unique plain plain' split
  rcases ts.eq_nil_or_concat with rfl | ⟨ts, t, rfl⟩
  · rw [List.append_cancel_right same]
  · have longer : inside ++ ['\x7d'] :: ts = inside' := by
      have ends : (inside ++ ['\x7d'] :: ts) ++ [t] = inside' ++ [['\x7d']] := by
        simpa using same
      exact (List.append_inj' ends rfl).1
    subst longer
    exact absurd balanced' balanced.not_closing

end Pattern

end SyntaxTree
