import SyntaxTree.Program.Reading.Expr
import SyntaxTree.Proofs.Origin.Reading
import SyntaxTree.Proofs.Origin.Words

/-!
# Expressions keep to their phrase

Whatever phrase an expression is read from, its words are texts of phrases inside, and
a flaw lies on a phrase inside.
-/

namespace SyntaxTree

open Phrase

variable {p : Phrase}

theorem DataType.confines (p : Phrase) : p.Confines (DataType.ofPhrase p) fun _ => True :=
  confines_require fun _ _ => trivial

theorem Phrase.supplies_dims {dims : Dims}
    (h : ∀ size ∈ dims, p.Supplies (optionWords Expr.words size)) :
    p.Supplies (Dims.words dims) := by
  induction dims with
  | nil => exact supplies_nil
  | cons size rest ih =>
    rw [List.forall_mem_cons] at h
    cases size with
    | none => exact ih h.2
    | some e => exact supplies_append.mpr ⟨h.1, ih h.2⟩

/-- Operands are joined from the left, each behind its operator. -/
theorem Expr.confines_joinOperands {read : p.Child → Except ShapeError Expr}
    (each : ∀ c, p.Confines (read c) fun e => p.Supplies e.words) (lhs : Expr)
    (parts : List p.Child) (left : p.Supplies lhs.words) :
    p.Confines (Expr.joinOperands read lhs parts) fun e => p.Supplies e.words := by
  fun_induction Expr.joinOperands read lhs parts with
  | case1 lhs => exact left
  | case2 lhs op =>
    exact (confines_operator op.inside).bind fun _ _ => confines_refuse op.inside
  | case3 lhs op operand rest ih =>
    refine (confines_operator op.inside).bind fun symbol _ => ?_
    refine (each operand).bind fun rhs right => ?_
    exact ih symbol rhs (supplies_append.mpr ⟨left, right⟩)

mutual

theorem Expr.confines (p : Phrase) :
    p.Confines (Expr.ofPhrase p) fun e => p.Supplies e.words := by
  have level : p.Confines (match p.inner with
      | [] => p.refuse (.missing .leftOperand)
      | first :: rest => do
        let lhs ← Expr.ofPhrase first.phrase
        Expr.joinOperands (fun operand => Expr.ofPhrase operand.phrase) lhs rest)
      fun e => p.Supplies e.words := by
    have each (c : p.Child) :
        p.Confines (Expr.ofPhrase c.phrase) fun e => p.Supplies e.words :=
      (Expr.confines c.phrase).around c.inside
    split
    · exact confines_refuse .here
    · rename_i first rest _
      exact (each first).bind fun lhs left => Expr.confines_joinOperands each lhs rest left
  rw [Expr.ofPhrase]
  split
  · exact level
  · exact level
  · exact level
  · exact level
  · exact level
  · exact level
  · exact supplies_content .here
  · exact supplies_content .here
  · exact supplies_content .here
  · exact Expr.confines_place p
  · exact (IncDec.confines p).bind fun step h => h
  · exact (Expr.confines_new p).bind fun array h => h
  · exact confines_refuse .here
termination_by 2 * sizeOf p + 1
decreasing_by
  · have := c.sizeOf_lt
    omega
  all_goals omega

theorem Expr.confines_place (p : Phrase) :
    p.Confines (Expr.placeOfPhrase p) fun e => p.Supplies e.words := by
  rw [Expr.placeOfPhrase]
  split
  · exact confines_refuse .here
  · rename_i name indices _
    refine p.confines_compositional.foldlM (supplies_content name.inside) ?_
    intro base known suffix _
    split
    · rename_i value _
      have smaller : sizeOf value.phrase < sizeOf p :=
        Nat.lt_trans value.sizeOf_lt suffix.sizeOf_lt
      have inside : value.phrase.Inside p := suffix.inside.trans value.inside
      refine ((Expr.confines value.phrase).around inside).bind fun index h => ?_
      exact supplies_append.mpr ⟨known, h⟩
    · exact confines_refuse suffix.inside
termination_by 2 * sizeOf p
decreasing_by omega

theorem IncDec.confines (p : Phrase) :
    p.Confines (IncDec.ofPhrase p) fun step => p.Supplies step.words := by
  rw [IncDec.ofPhrase]
  split
  · rename_i form _
    have both (op operand : form.phrase.Child) (fixity : Fixity) : p.Confines
        (op.phrase.operator IncDecOp.ofSymbol? >>= fun symbol =>
          Expr.placeOfPhrase operand.phrase >>= fun place => .ok (IncDec.mk symbol fixity place))
        fun step => p.Supplies step.words := by
      have smaller : sizeOf operand.phrase < sizeOf p :=
        Nat.lt_trans operand.sizeOf_lt form.sizeOf_lt
      have inside : operand.phrase.Inside p := form.inside.trans operand.inside
      refine (confines_operator (form.inside.trans op.inside)).bind fun symbol _ => ?_
      exact ((Expr.confines_place operand.phrase).around inside).bind fun e h => h
    dsimp only
    split
    · refine confines_ok_bind ?_
      dsimp only
      split
      · exact both _ _ .before
      · exact confines_refuse form.inside
    · refine confines_ok_bind ?_
      dsimp only
      split
      · exact both _ _ .after
      · exact confines_refuse form.inside
    · exact confines_refuse form.inside
  · exact confines_refuse .here
termination_by 2 * sizeOf p
decreasing_by omega

theorem Expr.confines_new (p : Phrase) :
    p.Confines (Expr.newOfPhrase p) fun array => p.Supplies (Dims.words array.2) := by
  rw [Expr.newOfPhrase]
  split
  · rename_i type dims _
    have smaller := dims.sizeOf_lt
    refine ((DataType.confines type.phrase).widen type.inside).bind fun element _ => ?_
    exact ((Dims.confines dims.phrase).around dims.inside).bind fun sizes h => h
  · exact confines_refuse .here
termination_by 2 * sizeOf p
decreasing_by omega

theorem Dims.confines (p : Phrase) :
    p.Confines (Dims.ofPhrase p) fun dims => p.Supplies (Dims.words dims) := by
  rw [Dims.ofPhrase]
  refine Confines.mono (p.confines_compositional.mapM fun dim _ => ?_) fun _ => supplies_dims
  split
  · exact supplies_nil
  · rename_i size _ _
    have smaller : sizeOf size.phrase < sizeOf p := Nat.lt_trans size.sizeOf_lt dim.sizeOf_lt
    have inside : size.phrase.Inside p := dim.inside.trans size.inside
    exact ((Expr.confines size.phrase).around inside).bind fun e h => h
termination_by 2 * sizeOf p
decreasing_by omega

end

end SyntaxTree
