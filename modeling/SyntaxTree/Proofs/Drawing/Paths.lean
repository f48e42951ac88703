import SyntaxTree.Diagram.Render

/-!
# Rows by paths

A node is reached from the root by a path, which names the child to go to at each
node on the way. The row of a node can be told from its path: every node above it
leaves a blank column if it is the root or a last child, and a bar otherwise. No
columns are handed down for this, unlike in the drawing itself.

A drawing has these rows in pre-order, which is the lexicographic order of the
paths. So a bar stands exactly below the nodes that have a later sibling.
-/

namespace SyntaxTree.Diagram

/-- The node at a path. -/
def at? : Diagram → List Nat → Option Diagram
  | d, [] => some d
  | d, i :: path => (d.child? i).bind fun child => at? child path

mutual

/-- The paths of all nodes in pre-order. -/
def paths : Diagram → List (List Nat)
  | leaf _ _ => [[]]
  | branch _ children => [] :: pathsFrom 0 children

/-- The paths through some siblings, of which the first one has the index. -/
def pathsFrom (index : Nat) : List Diagram → List (List Nat)
  | [] => []
  | d :: rest => (paths d).map (index :: ·) ++ pathsFrom (index + 1) rest

end

/-- The node at the path is the root or the last child of its parent. -/
def isLastAt (d : Diagram) (path : List Nat) : Bool :=
  match path.getLast? with
  | none => true
  | some i => (d.at? path.dropLast).any fun parent => i + 1 == parent.children.length

/-- The columns of the nodes above the node at a path, the root first. Their own paths are the
beginnings of the path. -/
def columnsAt (d : Diagram) (path : List Nat) : String :=
  String.join ((List.range path.length).map fun depth =>
    if d.isLastAt (path.take depth) then "    " else "│   ")

/-- The row of the node at a path. -/
def rowAt (d : Diagram) (path : List Nat) : String :=
  let mark := if d.isLastAt path then "└──" else "├──"
  let shown := match d.at? path with
    | some (leaf label value) => "(" ++ label ++ ", " ++ value ++ ")"
    | some (branch label _) => label
    | none => ""
  d.columnsAt path ++ mark ++ shown ++ "\n"

/-- The characters of a row in the column of the node above it at a depth. -/
def columnAt (row : String) (depth : Nat) : List Char := (row.toList.drop (4 * depth)).take 4

/-- Behind the node at the path its parent has another child. -/
def HasLaterSibling (d : Diagram) (path : List Nat) : Prop :=
  ∃ front i j, path = front ++ [i] ∧ i < j ∧ (d.at? (front ++ [j])).isSome

variable {d parent : Diagram} {path front : List Nat} {index : Nat}

@[simp] theorem at?_nil (d : Diagram) : d.at? [] = some d := by
  rw [at?]

theorem at?_cons (d : Diagram) (i : Nat) (path : List Nat) :
    d.at? (i :: path) = d.children[i]?.bind fun child => child.at? path := by
  rw [at?, child?]

theorem at?_append (d : Diagram) (front path : List Nat) :
    d.at? (front ++ path) = (d.at? front).bind fun node => node.at? path := by
  induction front generalizing d with
  | nil => rw [List.nil_append, at?_nil, Option.bind_some]
  | cons i front ih =>
    rw [List.cons_append, at?_cons, at?_cons, Option.bind_assoc]
    exact congrArg _ (funext ih)

/-- A child is found one step behind its parent. -/
theorem at?_snoc (found : d.at? front = some parent) (i : Nat) :
    d.at? (front ++ [i]) = parent.children[i]? := by
  rw [at?_append, found, Option.bind_some, at?_cons]
  cases parent.children[i]? with
  | none => rfl
  | some child => exact at?_nil child

theorem isLastAt_snoc (found : d.at? front = some parent) (i : Nat) :
    d.isLastAt (front ++ [i]) = (i + 1 == parent.children.length) := by
  rw [isLastAt, List.getLast?_concat, List.dropLast_concat, found]
  rfl

/-! ## All nodes in pre-order -/

mutual

theorem mem_paths (d : Diagram) (path : List Nat) : path ∈ d.paths ↔ (d.at? path).isSome := by
  cases path with
  | nil => cases d <;> simp [paths]
  | cons i path =>
    rw [at?_cons]
    cases d with
    | leaf label value => simp [paths, children]
    | branch label ds =>
      have below := mem_pathsFrom ds 0 i path
      simpa [paths, children] using below

theorem mem_pathsFrom (ds : List Diagram) (index i : Nat) (path : List Nat) :
    i :: path ∈ pathsFrom index ds ↔
      index ≤ i ∧ (ds[i - index]?.bind fun child => child.at? path).isSome := by
  cases ds with
  | nil => simp [pathsFrom]
  | cons d rest =>
    have first := mem_paths d path
    have others := mem_pathsFrom rest (index + 1) i path
    rw [pathsFrom, List.mem_append, others]
    by_cases same : index = i
    · subst same
      have apart : ¬ index + 1 ≤ index := Nat.not_succ_le_self index
      simp [first, apart]
    · have apart : i :: path ∉ d.paths.map (index :: ·) := by
        simp [same]
      have shifted (le : index + 1 ≤ i) : i - index = i - (index + 1) + 1 := by omega
      constructor
      · rintro (mem | ⟨le, found⟩)
        · exact absurd mem apart
        · refine ⟨by omega, ?_⟩
          rwa [shifted le, List.getElem?_cons_succ]
      · rintro ⟨le, found⟩
        have le : index + 1 ≤ i := by omega
        rw [shifted le, List.getElem?_cons_succ] at found
        exact .inr ⟨le, found⟩

end

theorem cons_of_mem_pathsFrom {ds : List Diagram} (mem : path ∈ pathsFrom index ds) :
    ∃ i rest, path = i :: rest ∧ index ≤ i := by
  induction ds generalizing index with
  | nil => simp [pathsFrom] at mem
  | cons d ds ih =>
    rw [pathsFrom, List.mem_append] at mem
    cases mem with
    | inl first =>
      obtain ⟨rest, -, rfl⟩ := List.mem_map.mp first
      exact ⟨index, rest, rfl, Nat.le_refl index⟩
    | inr others =>
      obtain ⟨i, rest, same, le⟩ := ih others
      exact ⟨i, rest, same, by omega⟩

mutual

theorem paths_pairwise (d : Diagram) : d.paths.Pairwise (· < ·) := by
  cases d with
  | leaf label value => exact List.pairwise_singleton _ _
  | branch label ds =>
    rw [paths, List.pairwise_cons]
    refine ⟨?_, pathsFrom_pairwise ds 0⟩
    intro path mem
    obtain ⟨i, rest, rfl, -⟩ := cons_of_mem_pathsFrom mem
    exact List.nil_lt_cons i rest

theorem pathsFrom_pairwise (ds : List Diagram) (index : Nat) :
    (pathsFrom index ds).Pairwise (· < ·) := by
  cases ds with
  | nil => exact .nil
  | cons d rest =>
    rw [pathsFrom, List.pairwise_append, List.pairwise_map]
    refine ⟨?_, pathsFrom_pairwise rest (index + 1), ?_⟩
    · exact (paths_pairwise d).imp fun less => List.cons_lt_cons_iff.mpr (.inr ⟨rfl, less⟩)
    · intro path first other mem
      obtain ⟨path, -, rfl⟩ := List.mem_map.mp first
      obtain ⟨i, behind, rfl, le⟩ := cons_of_mem_pathsFrom mem
      exact List.cons_lt_cons_iff.mpr (.inl le)

end

/-! ## The rows -/

/-- Below the node at a path there is one more column. -/
theorem columnsAt_snoc (d : Diagram) (front : List Nat) (i : Nat) :
    d.columnsAt (front ++ [i]) = d.columnsAt front ++ column (d.isLastAt front) := by
  have above : (List.range front.length).map (fun depth =>
        if d.isLastAt ((front ++ [i]).take depth) then "    " else "│   ") =
      (List.range front.length).map fun depth =>
        if d.isLastAt (front.take depth) then "    " else "│   " := by
    apply List.map_congr_left
    intro depth mem
    rw [List.take_append_of_le_length (Nat.le_of_lt (List.mem_range.mp mem))]
  rw [columnsAt, List.length_append, List.length_singleton, List.range_succ, List.map_append, above,
    String.join_append, List.map_singleton, List.take_left, String.join_cons, String.join_nil,
    String.append_empty]
  rfl

/-- A child is the last one where no others are left behind it. -/
theorem isLastAt_of_drop {root parent d : Diagram} {front : List Nat} {rest : List Diagram}
    (found : root.at? front = some parent) (left : parent.children.drop index = d :: rest) :
    root.isLastAt (front ++ [index]) = rest.isEmpty := by
  rw [isLastAt_snoc found]
  have size := congrArg List.length left
  rw [List.length_drop, List.length_cons] at size
  cases rest with
  | nil =>
    rw [List.length_nil] at size
    simp only [List.isEmpty_nil, beq_iff_eq]
    omega
  | cons next rest =>
    rw [List.length_cons] at size
    simp only [List.isEmpty_cons, beq_eq_false_iff_ne, ne_eq]
    omega

mutual

/-- The rows of the node at a path are those that the paths through it tell. -/
theorem rows_eq (root d : Diagram) (front : List Nat) (found : root.at? front = some d) :
    rows (root.columnsAt front) (root.isLastAt front) d =
      String.join (d.paths.map fun path => root.rowAt (front ++ path)) := by
  cases d with
  | leaf label value =>
    rw [rows, paths, List.map_singleton, List.append_nil, String.join_cons, String.join_nil,
      String.append_empty, rowAt, found]
    rfl
  | branch label ds =>
    have below := rowsAll_eq root (branch label ds) front found ds 0 rfl
    rw [rows, paths, List.map_cons, String.join_cons, List.append_nil, below, rowAt, found]
    rfl

/-- The rows of the last children of the node at a path, from an index on. -/
theorem rowsAll_eq (root parent : Diagram) (front : List Nat) (found : root.at? front = some parent)
    (ds : List Diagram) (index : Nat) (left : parent.children.drop index = ds) :
    rowsAll (root.columnsAt front ++ column (root.isLastAt front)) ds =
      String.join ((pathsFrom index ds).map fun path => root.rowAt (front ++ path)) := by
  cases ds with
  | nil => rw [rowsAll, pathsFrom, List.map_nil, String.join_nil]
  | cons d rest =>
    have inside : parent.children[index]? = some d := by
      rw [← List.head?_drop, left, List.head?_cons]
    have behind : parent.children.drop (index + 1) = rest := by
      rw [← List.drop_drop, left, List.drop_one, List.tail_cons]
    have last := isLastAt_of_drop found left
    have first := rows_eq root d (front ++ [index]) ((at?_snoc found index).trans inside)
    rw [columnsAt_snoc, last] at first
    have others := rowsAll_eq root parent front found rest (index + 1) behind
    rw [rowsAll, pathsFrom, List.map_append, List.map_map, String.join_append, first, others]
    congr 3
    apply funext
    intro path
    rw [Function.comp_apply, List.append_assoc, List.singleton_append]

end

theorem render_eq (d : Diagram) : d.render = String.join (d.paths.map d.rowAt) :=
  rows_eq d d [] (at?_nil d)

/-! ## The columns -/

/-- Where all parts of a text are equally long, each is found by its index. -/
theorem take_drop_flatten {width : Nat} {parts : List (List Char)} {part : List Char}
    (wide : ∀ p ∈ parts, p.length = width) {i : Nat} (found : parts[i]? = some part)
    (rest : List Char) : ((parts.flatten ++ rest).drop (width * i)).take width = part := by
  induction parts generalizing i with
  | nil => cases found
  | cons p parts ih =>
    obtain ⟨first, others⟩ := List.forall_mem_cons.mp wide
    rw [List.flatten_cons, List.append_assoc]
    cases i with
    | zero =>
      obtain rfl : p = part := Option.some.inj found
      rw [Nat.mul_zero, List.drop_zero, List.take_left' first]
    | succ i =>
      rw [Nat.mul_succ, Nat.add_comm, ← List.drop_drop, List.drop_left' first]
      exact ih others found

theorem columnAt_rowAt (d : Diagram) {path : List Nat} {depth : Nat} (above : depth < path.length) :
    columnAt (d.rowAt path) depth = (column (d.isLastAt (path.take depth))).toList := by
  have wide : ∀ part ∈ (List.range path.length).map fun depth =>
      (column (d.isLastAt (path.take depth))).toList, part.length = 4 := by
    intro part mem
    obtain ⟨depth, -, rfl⟩ := List.mem_map.mp mem
    cases d.isLastAt (path.take depth) <;> rfl
  have found : ((List.range path.length).map fun depth =>
      (column (d.isLastAt (path.take depth))).toList)[depth]? =
        some (column (d.isLastAt (path.take depth))).toList := by
    simp [above]
  have parted := take_drop_flatten wide found
  rw [columnAt, rowAt, columnsAt, String.toList_append, String.toList_append, String.toList_append,
    String.toList_join, List.append_assoc, List.append_assoc, List.flatMap_map]
  exact parted _

/-- A node that is reached is no last child exactly if its parent has another child behind it. -/
theorem isLastAt_eq_false_iff (found : (d.at? path).isSome) :
    d.isLastAt path = false ↔ d.HasLaterSibling path := by
  cases List.eq_nil_or_concat path with
  | inl root =>
    subst root
    constructor
    · intro last
      cases last
    · rintro ⟨front, i, j, same, -⟩
      simp at same
  | inr snoc =>
    obtain ⟨front, i, snoc⟩ := snoc
    rw [List.concat_eq_append] at snoc
    subst snoc
    obtain ⟨child, reached⟩ := Option.isSome_iff_exists.mp found
    obtain ⟨parent, way, -⟩ := Option.bind_eq_some_iff.mp ((at?_append d front [i]).symm.trans reached)
    have inside : i < parent.children.length := by
      rw [at?_snoc way] at reached
      exact (List.getElem?_eq_some_iff.mp reached).1
    rw [isLastAt_snoc way, beq_eq_false_iff_ne]
    constructor
    · intro more
      refine ⟨front, i, i + 1, rfl, Nat.lt_succ_self i, ?_⟩
      rw [at?_snoc way, isSome_getElem?]
      exact Nat.lt_of_le_of_ne inside more
    · rintro ⟨front', i', j, same, later, other⟩
      obtain ⟨rfl, last⟩ := List.append_inj' same rfl
      obtain rfl : i = i' := by simpa using last
      rw [at?_snoc way, isSome_getElem?] at other
      exact Nat.ne_of_lt (Nat.lt_of_le_of_lt later other)

/-- Above a node that is reached there are only nodes that are reached. -/
theorem isSome_at?_take (found : (d.at? path).isSome) (depth : Nat) :
    (d.at? (path.take depth)).isSome := by
  obtain ⟨node, reached⟩ := Option.isSome_iff_exists.mp found
  rw [← List.take_append_drop depth path, at?_append] at reached
  obtain ⟨above, way, -⟩ := Option.bind_eq_some_iff.mp reached
  rw [way]
  rfl

/-- A drawing has one row for each node, in pre-order, and the row is told by the path of the node.
In it a bar stands exactly in the columns of the nodes above that have a later sibling. -/
theorem drawing_follows_paths (d : Diagram) :
    (∀ path, path ∈ d.paths ↔ (d.at? path).isSome) ∧ d.paths.Pairwise (· < ·) ∧
      d.render = String.join (d.paths.map d.rowAt) ∧
      ∀ path ∈ d.paths, ∀ depth < path.length,
        (columnAt (d.rowAt path) depth = "│   ".toList ↔ d.HasLaterSibling (path.take depth)) ∧
          (columnAt (d.rowAt path) depth = "    ".toList ↔
            ¬ d.HasLaterSibling (path.take depth)) := by
  refine ⟨mem_paths d, paths_pairwise d, render_eq d, ?_⟩
  intro path mem depth above
  have reached := isSome_at?_take ((mem_paths d path).mp mem) depth
  rw [columnAt_rowAt d above, ← isLastAt_eq_false_iff reached]
  cases d.isLastAt (path.take depth) with
  | false => decide
  | true => decide

/-- The product in a sum: below it stands a bar, since the sum has another operand. -/
theorem drawing_follows_paths_product :
    let sum := branch "+" [branch "*" [leaf "id" "a", leaf "num" "2"], leaf "id" "b"]
    [0, 1] ∈ sum.paths ∧ 1 < [0, 1].length ∧
      columnAt (sum.rowAt [0, 1]) 1 = "│   ".toList ∧ sum.HasLaterSibling [0] := by
  intro sum
  have mem : [0, 1] ∈ sum.paths := by decide
  have bar : columnAt (sum.rowAt [0, 1]) 1 = "│   ".toList := by decide
  exact ⟨mem, by decide, bar,
    ((drawing_follows_paths sum).2.2.2 [0, 1] mem 1 (by decide)).1.mp bar⟩

end SyntaxTree.Diagram
