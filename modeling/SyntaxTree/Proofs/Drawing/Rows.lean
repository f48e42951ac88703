import SyntaxTree.Proofs.Drawing.Caption

/-!
# Rows that can be read back

The rows of a node end where no further row begins with its columns. This is seen
without a look at rows as lines, since a value may go on over several lines and
may imitate a drawing: the caption says where the first row ends, and the children
are read behind it, one after the other. Behind a node stands the end of the text
or a row with a glyph where a row below the node would have a column.
-/

namespace SyntaxTree.Diagram

variable {columns : String} {s s' : List Char}

theorem eq_of_parts {d d' : Diagram} (label : d.label = d'.label) (value : d.value? = d'.value?)
    (children : d.children = d'.children) : d = d' := by
  cases d <;> cases d' <;> cases label <;> cases value <;> cases children <;> rfl

/-- A row, and below it the rows of the children. -/
theorem rows_toList (columns : String) (last : Bool) (d : Diagram) :
    (rows columns last d).toList = columns.toList ++ ((glyph last).toList ++
      (d.caption.toList ++ '\n' :: (rowsAll (columns ++ column last) d.children).toList)) := by
  cases d <;> simp [rows, rowsAll, children]

theorem rowsAll_toList (columns : String) (d : Diagram) (rest : List Diagram) :
    (rowsAll columns (d :: rest)).toList =
      (rows columns rest.isEmpty d).toList ++ (rowsAll columns rest).toList := by
  simp [rowsAll]

theorem rows_isPrefix (last : Bool) (d : Diagram) :
    columns.toList <+: (rows columns last d).toList := by
  rw [rows_toList]
  exact List.prefix_append _ _

/-- No row below a node with these columns around it stands here. -/
def Ends (columns : String) (s : List Char) : Prop :=
  ∀ last, ¬ (columns ++ column last).toList <+: s

theorem ends_nil : Ends "" [] := by
  intro last
  cases last <;> decide

theorem ends_of_not_isPrefix (h : ¬ columns.toList <+: s) : Ends columns s := by
  intro last below
  rw [String.toList_append] at below
  exact h ((List.prefix_append _ _).trans below)

/-- A glyph is told from a column by its first character. -/
theorem ends_rows (last : Bool) (d : Diagram) :
    Ends columns ((rows columns last d).toList ++ s) := by
  intro last' below
  rw [rows_toList, String.toList_append, List.append_assoc,
    List.prefix_append_right_inj] at below
  cases last <;> cases last' <;> simp [glyph, column] at below

/-- What stands behind a child is the row of the next one or what stands behind them all. -/
theorem ends_rowsAll (ds : List Diagram) (h : ¬ columns.toList <+: s) :
    Ends columns ((rowsAll columns ds).toList ++ s) := by
  cases ds with
  | nil => simpa [rowsAll] using ends_of_not_isPrefix h
  | cons d rest =>
    rw [rowsAll_toList, List.append_assoc]
    exact ends_rows _ d

theorem glyph_unique {last last' : Bool}
    (same : (glyph last).toList ++ s = (glyph last').toList ++ s') : last = last' ∧ s = s' := by
  cases last <;> cases last' <;> simp [glyph] at same <;> exact ⟨rfl, same⟩

/-- Where no row with these columns stands, no child is drawn. -/
theorem rowsAll_eq_nil {ds : List Diagram} (h : ¬ columns.toList <+: s)
    (same : (rowsAll columns []).toList ++ s = (rowsAll columns ds).toList ++ s') :
    ds = [] ∧ s = s' := by
  cases ds with
  | nil => exact ⟨rfl, List.append_cancel_left same⟩
  | cons d rest =>
    refine absurd ?_ h
    have text : s = (rowsAll columns (d :: rest)).toList ++ s' := by simpa [rowsAll] using same
    rw [text, rowsAll_toList, List.append_assoc]
    exact (rows_isPrefix _ d).trans (List.prefix_append _ _)

mutual

/-- The rows of a legible diagram tell the diagram and where they end. -/
theorem rows_unique (d : Diagram) {d' : Diagram} {columns : String} {last last' : Bool}
    {s s' : List Char} (sound : d.isLegible = true) (sound' : d'.isLegible = true)
    (ends : Ends columns s) (ends' : Ends columns s')
    (same : (rows columns last d).toList ++ s = (rows columns last' d').toList ++ s') :
    d = d' ∧ s = s' := by
  rw [rows_toList, rows_toList] at same
  simp only [List.append_assoc, List.append_cancel_left_eq, List.cons_append] at same
  obtain ⟨rfl, row⟩ := glyph_unique same
  obtain ⟨label, value, below⟩ := caption_unique sound sound' row
  cases d with
  | leaf l v =>
    obtain ⟨none, rest⟩ := rowsAll_eq_nil (ends last) below
    exact ⟨eq_of_parts label value none.symm, rest⟩
  | branch l ds =>
    cases d' with
    | leaf l' v' => cases value
    | branch l' ds' =>
      rw [isLegible, Bool.and_eq_true] at sound sound'
      obtain ⟨equal, rest⟩ :=
        rowsAll_unique ds sound.2 sound'.2 (ends last) (ends' last) below
      exact ⟨eq_of_parts label rfl equal, rest⟩

theorem rowsAll_unique (ds : List Diagram) {ds' : List Diagram} {columns : String}
    {s s' : List Char} (sound : isLegibleAll ds = true) (sound' : isLegibleAll ds' = true)
    (ends : ¬ columns.toList <+: s) (ends' : ¬ columns.toList <+: s')
    (same : (rowsAll columns ds).toList ++ s = (rowsAll columns ds').toList ++ s') :
    ds = ds' ∧ s = s' := by
  cases ds with
  | nil =>
    obtain ⟨none, rest⟩ := rowsAll_eq_nil ends same
    exact ⟨none.symm, rest⟩
  | cons d ds =>
    cases ds' with
    | nil =>
      obtain ⟨none, rest⟩ := rowsAll_eq_nil ends' same.symm
      exact ⟨none, rest.symm⟩
    | cons d' ds' =>
      rw [isLegibleAll, Bool.and_eq_true] at sound sound'
      rw [rowsAll_toList, rowsAll_toList, List.append_assoc, List.append_assoc] at same
      obtain ⟨rfl, behind⟩ := rows_unique d sound.1 sound'.1 (ends_rowsAll ds ends)
        (ends_rowsAll ds' ends') same
      obtain ⟨rfl, rfl⟩ := rowsAll_unique ds sound.2 sound'.2 ends ends' behind
      exact ⟨rfl, rfl⟩

end

/-- Legible diagrams that are drawn alike are equal. -/
theorem eq_of_render {d d' : Diagram} (sound : d.isLegible = true) (sound' : d'.isLegible = true)
    (same : d.render = d'.render) : d = d' :=
  (rows_unique d sound sound' ends_nil ends_nil (by
    rw [List.append_nil, List.append_nil]
    exact congrArg String.toList same)).1

end SyntaxTree.Diagram
