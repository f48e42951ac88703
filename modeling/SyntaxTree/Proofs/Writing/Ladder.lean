import SyntaxTree.Proofs.Lexeme.Rules
import SyntaxTree.Proofs.Reading.Expr
import SyntaxTree.Proofs.Writing.Basic
import SyntaxTree.Proofs.Writing.WellFormed

/-!
# The expression ladder

The levels at which expressions are written are the rules of the ladder. Below
the level of a binary operator stand its operands, and what is written at a
tight level may also stand where a looser one is asked for.
-/

namespace SyntaxTree

open Lexeme

theorem BinaryOp.level_le (op : BinaryOp) : op.level ≤ 5 := by
  cases op <;> decide

namespace Rule

/-- The rule for the expressions at a level. -/
def rung : Nat → Rule
  | 0 => logicalOr
  | 1 => logicalAnd
  | 2 => equality
  | 3 => relational
  | 4 => additive
  | 5 => multiplicative
  | 6 => primary
  | _ => place

/-- The rule for the binary operators at a level. -/
def rungOp : Nat → Rule
  | 0 => orOp
  | 1 => andOp
  | 2 => eqOp
  | 3 => relOp
  | 4 => addOp
  | _ => mulOp

variable {k : Nat}

theorem body_rung (h : k ≤ 5) : (rung k).body = Pattern.level (rung (k + 1)) (rungOp k) := by
  obtain rfl | rfl | rfl | rfl | rfl | rfl : k = 0 ∨ k = 1 ∨ k = 2 ∨ k = 3 ∨ k = 4 ∨ k = 5 := by
    omega
  all_goals rfl

theorem isLevel_rung (h : k ≤ 5) : Tree.isLevel (rung k) := by
  obtain rfl | rfl | rfl | rfl | rfl | rfl : k = 0 ∨ k = 1 ∨ k = 2 ∨ k = 3 ∨ k = 4 ∨ k = 5 := by
    omega
  all_goals simp [Tree.isLevel, rung]

theorem rung_plain (h : k ≤ 5) : (rung k).kind = .plain := by
  rcases isLevel_rung h with h | h | h | h | h | h <;> rw [h] <;> rfl

theorem rungOp_lexical (k : Nat) : (rungOp k).kind = .lexical := by
  unfold rungOp
  split <;> rfl

/-- The operators of a level are read as the lexemes of its rule. -/
theorem rungOp_admits (op : BinaryOp) : (rungOp op.level).admits op.symbol.toList = true := by
  cases op <;> decide

theorem exists_of_rungOp_admits {t : Lexeme} (h : k ≤ 5) (admitted : (rungOp k).admits t = true) :
    ∃ op : BinaryOp, op.level = k ∧ t = op.symbol.toList := by
  have every : ∀ k ∈ [0, 1, 2, 3, 4, 5], ∀ t ∈ (rungOp k).symbols,
      (BinaryOp.all.any fun op => op.level == k && op.symbol.toList == t) = true := by
    decide
  have symbols : (rungOp k).symbols ≠ [] := by
    unfold rungOp
    split <;> decide
  rw [admits_of_symbols symbols, List.contains_iff_mem] at admitted
  have found := every k (by simp; omega) t admitted
  simp only [List.any_eq_true, Bool.and_eq_true, beq_iff_eq] at found
  obtain ⟨op, -, level, same⟩ := found
  exact ⟨op, level, same.symm⟩

end Rule

namespace Expr

variable {j k : Nat} {e : Expr} {ts : List Lexeme}

theorem Written.mono (h : Written j e ts) (le : k ≤ j) : Written k e ts := by
  cases h with
  | number text le' => exact .number text (Nat.le_trans le le')
  | str text le' => exact .str text (Nat.le_trans le le')
  | ident name le' => exact .ident name (Nat.le_trans le le')
  | index le' front inside => exact .index (Nat.le_trans le le') front inside
  | incDec le' place => exact .incDec (Nat.le_trans le le') place
  | new le' sizes => exact .new (Nat.le_trans le le') sizes
  | binary le' left right => exact .binary (Nat.le_trans le le') left right
  | enclosed le' inside => exact .enclosed (Nat.le_trans le le') inside

/-- Only places are written where a place is asked for. -/
theorem Written.isPlace (h : Written 7 e ts) : e.isPlace = true := by
  generalize level : 7 = k at h
  induction h with
  | ident name _ => rfl
  | index _ _ _ ih _ => exact ih rfl
  | number _ le | str _ le | incDec le | new le | enclosed le => omega
  | @binary _ op _ _ _ _ le _ _ _ _ =>
    have := op.level_le
    omega

end Expr

end SyntaxTree
