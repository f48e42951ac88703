/-!
# Names in order

A message lists names in increasing order, each once. `ordered` makes such a
list by insertion, whatever the order and the repetitions of its input.
-/

namespace SyntaxTree.Text

/-- Insert a name at its place, unless it is there already. -/
def insertOrdered (name : String) : List String → List String
  | [] => [name]
  | first :: rest =>
    if name < first then name :: first :: rest
    else if name = first then first :: rest
    else first :: insertOrdered name rest

/-- The same names in increasing order, each once. -/
def ordered (names : List String) : List String :=
  names.foldr insertOrdered []

theorem mem_insertOrdered {name other : String} {names : List String} :
    other ∈ insertOrdered name names ↔ other = name ∨ other ∈ names := by
  induction names with
  | nil => simp [insertOrdered]
  | cons first rest ih => grind [insertOrdered]

@[simp] theorem mem_ordered {name : String} {names : List String} :
    name ∈ ordered names ↔ name ∈ names := by
  induction names with
  | nil => simp [ordered]
  | cons first rest ih =>
    rw [ordered, List.foldr_cons, mem_insertOrdered, List.mem_cons]
    exact or_congr_right ih

theorem pairwise_insertOrdered {name : String} {names : List String}
    (h : names.Pairwise (· < ·)) : (insertOrdered name names).Pairwise (· < ·) := by
  induction names with
  | nil => simp [insertOrdered]
  | cons first rest ih =>
    obtain ⟨below, tail⟩ := List.pairwise_cons.mp h
    unfold insertOrdered
    split
    · rename_i before
      refine List.pairwise_cons.mpr ⟨fun other inside => ?_, h⟩
      rcases List.mem_cons.mp inside with rfl | inside
      · exact before
      · exact String.lt_trans before (below other inside)
    · split
      · exact h
      · rename_i notBefore different
        refine List.pairwise_cons.mpr ⟨fun other inside => ?_, ih tail⟩
        rcases mem_insertOrdered.mp inside with rfl | inside
        · exact Std.lt_of_le_of_ne (String.not_lt.mp notBefore) (Ne.symm different)
        · exact below other inside

/-- The names come out strictly increasing, so none occurs twice. -/
theorem pairwise_ordered (names : List String) : (ordered names).Pairwise (· < ·) := by
  induction names with
  | nil => exact List.Pairwise.nil
  | cons first rest ih => exact pairwise_insertOrdered ih

end SyntaxTree.Text
