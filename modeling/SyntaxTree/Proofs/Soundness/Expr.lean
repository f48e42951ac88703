import SyntaxTree.Proofs.Writing.Ladder

/-!
# Derived expressions

A tree that the ladder derives gives a well-formed expression, and the derived
lexemes are a writing of it at the level of the rule. The induction is on the
size of the tree, since a level derives everything that the tighter ones do.
-/

namespace SyntaxTree

open Pattern Rule Lexeme

variable {k : Nat} {ts : List Lexeme} {trees : List Tree} {t : Tree}

/-- What a tree with its lexemes has to be: a well-formed construct and a writing of it. -/
def Tree.Spells {α : Type} (read : Phrase → Except ShapeError α) (written : α → List Lexeme → Prop)
    (isWellFormed : α → Bool) (t : Tree) (ts : List Lexeme) : Prop :=
  ∃ x, t.Gives read x ∧ written x ts ∧ isWellFormed x = true

/-- The tree is an expression written at a level. -/
abbrev Tree.SpellsExpr (k : Nat) : Tree → List Lexeme → Prop :=
  Tree.Spells Expr.ofPhrase (Expr.Written k) Expr.isWellFormed

/-- The tree is a place. -/
abbrev Tree.SpellsPlace : Tree → List Lexeme → Prop :=
  Tree.Spells Expr.placeOfPhrase (Expr.Written 7) Expr.isWellFormed

theorem type_of_admits {w : Lexeme} (h : dataType.admits w = true) :
    ∃ type : DataType, w = type.keyword.toList ∧ type.isWellFormed = true := by
  obtain ⟨type, mem, same⟩ := exists_of_admits [DataType.int, .char, .double, .string]
    DataType.keyword (by decide) (by decide) h
  refine ⟨type, same, ?_⟩
  revert mem
  cases type <;> decide

theorem number_of_admits {w : Lexeme} (h : number.admits w = true) :
    (Expr.number (String.ofList w)).isWellFormed = true := by
  rw [Expr.isWellFormed, String.toList_ofList]
  exact h

theorem string_of_admits {w : Lexeme} (h : string.admits w = true) :
    (Expr.str (String.ofList w)).isWellFormed = true := by
  rw [Expr.isWellFormed, String.toList_ofList]
  exact h

theorem name_of_admits {w : Lexeme} (h : ident.admits w = true) :
    isName (String.ofList w).toList = true := by
  rw [String.toList_ofList]
  exact h

/-- The trees of brackets and the lexemes that they spell, with the sizes in them. -/
def SpellsSizes (dims : Dims) (ts : List Lexeme) (trees : List Tree) : Prop :=
  Tree.Sizes trees dims ∧ Dims.Written dims ts ∧ dims.all Expr.isSize = true

/-- A pair of brackets in front of others. -/
theorem SpellsSizes.exists_cons {dims : Dims} {us : List Lexeme} {brackets : List Tree}
    (others : SpellsSizes dims us brackets) (h : Derives (call dim) ts trees) :
    ∃ size, SpellsSizes (size :: dims) (ts ++ us) (trees ++ brackets) := by
  obtain ⟨sizes, written, sound⟩ := others
  obtain ⟨children, body, rfl⟩ := (derives_node rfl).mp h
  have parts : DerivesEach [word "[", optional (choice (call number) (call ident)), word "]"]
      ts children := derives_spaced.mp body
  obtain ⟨_, inside, rfl⟩ := (each_word (by decide)).mp parts
  obtain ⟨vs, _, _, _, size, close, rfl, rfl⟩ := inside
  obtain ⟨_, ⟨rfl, rfl⟩, rfl⟩ := (each_word (by decide)).mp close
  rw [derives_optional, derives_choice, derives_token rfl, derives_token rfl] at size
  rcases size with (⟨w, admitted, rfl, rfl⟩ | ⟨w, admitted, rfl, rfl⟩) | ⟨rfl, rfl⟩
  · have front := written.number (String.ofList w)
    rw [String.toList_ofList (l := w)] at front
    have isSize : Expr.isSize (some (.number (String.ofList w))) = true := number_of_admits admitted
    exact ⟨_, .size Tree.gives_number sizes, front, by rw [List.all_cons, isSize, sound]; rfl⟩
  · have front := written.ident (String.ofList w)
    rw [String.toList_ofList (l := w)] at front
    have isSize : Expr.isSize (some (.ident (String.ofList w))) = true := name_of_admits admitted
    exact ⟨_, .size Tree.gives_ident sizes, front, by rw [List.all_cons, isSize, sound]; rfl⟩
  · exact ⟨none, .blank sizes, written.blank, sound⟩

/-- The dimensions of an array. -/
theorem spells_dims (h : Derives dims.body ts trees) :
    (Tree.node .dims trees).Spells Dims.ofPhrase Dims.Written Dims.isWellFormed ts := by
  have parts : DerivesEach [call dim, spacedMany (call dim)] ts trees := derives_spaced.mp h
  obtain ⟨us, _, _, _, front, others, rfl, rfl⟩ := parts
  obtain ⟨vs, _, rest, _, others, ⟨rfl, rfl⟩, rfl, rfl⟩ := others
  obtain ⟨items, each, rfl, rfl⟩ := derives_spacedMany.mp others
  have later : ∃ dims, SpellsSizes dims (items.flatMap Prod.fst) (items.flatMap Prod.snd) := by
    clear others h
    induction items with
    | nil => exact ⟨[], .nil, .nil, rfl⟩
    | cons item items ih =>
      obtain ⟨first, each⟩ := List.forall_mem_cons.mp each
      obtain ⟨dims, later⟩ := ih each
      obtain ⟨size, all⟩ := later.exists_cons first
      exact ⟨size :: dims, all⟩
  obtain ⟨dims, later⟩ := later
  obtain ⟨size, sizes, written, sound⟩ := later.exists_cons front
  rw [List.append_nil, List.append_nil]
  exact ⟨size :: dims, Tree.gives_dims sizes, written, sound⟩

/-- Operators and operands behind a left operand are joined to an expression of their level. -/
theorem joins_of_items {lhs : Expr} {us : List Lexeme} (le : k ≤ 5)
    {items : List (List Lexeme × List Tree)}
    (each : ∀ i ∈ items, ∃ w t vs, (rungOp k).admits w = true ∧ i = (w :: vs, [.token (rungOp k) w, t]) ∧
      t.SpellsExpr (k + 1) vs)
    (written : Expr.Written k lhs us) (sound : lhs.isWellFormed = true) :
    ∃ e, Tree.Joins lhs (items.flatMap Prod.snd) e ∧
      Expr.Written k e (us ++ items.flatMap Prod.fst) ∧ e.isWellFormed = true := by
  induction items generalizing lhs us with
  | nil => exact ⟨lhs, .done, by simpa using written, sound⟩
  | cons item items ih =>
    obtain ⟨first, later⟩ := List.forall_mem_cons.mp each
    obtain ⟨w, t, vs, admitted, rfl, rhs, gives, right, sound'⟩ := first
    obtain ⟨op, rfl, rfl⟩ := exists_of_rungOp_admits le admitted
    have joined : Expr.Written op.level (.binary op lhs rhs) (us ++ op.symbol.toList :: vs) :=
      .binary (Nat.le_refl _) written right
    obtain ⟨e, joins, whole, sound''⟩  := ih later joined (by simp [Expr.isWellFormed, sound, sound'])
    refine ⟨e, .step gives joins, ?_, sound''⟩
    simpa using whole

theorem Tree.sizeOf_lt_of_mem {r : Rule} (mem : t ∈ trees) :
    sizeOf t < sizeOf (Tree.node r trees) := by
  have inner := List.sizeOf_lt_of_mem mem
  rw [Tree.node.sizeOf_spec]
  omega

/-- What is to be shown of all trees below a size. -/
structure Rungs (n : Nat) : Prop where
  expr : ∀ {k ts trees}, k ≤ 6 → (∀ t ∈ trees, sizeOf t < n) → Derives (call (rung k)) ts trees →
    ∃ t, trees = [t] ∧ t.isPart = true ∧ t.SpellsExpr k ts
  place : ∀ {ts children}, sizeOf (Tree.node .place children) < n → Derives place.body ts children →
    (Tree.node .place children).SpellsPlace ts

variable {n : Nat}

theorem spells_level (ih : Rungs n) (le : k ≤ 5) (small : ∀ t ∈ trees, sizeOf t < n)
    (h : Derives (rung k).body ts trees) : (Tree.node (rung k) trees).SpellsExpr k ts := by
  rw [body_rung le] at h
  have parts : DerivesEach [call (rung (k + 1)),
      spacedMany (spaced [call (rungOp k), call (rung (k + 1))])] ts trees := derives_spaced.mp h
  obtain ⟨us, _, trees₁, _, first, others, rfl, rfl⟩ := parts
  obtain ⟨vs, _, trees₂, _, others, ⟨rfl, rfl⟩, rfl, rfl⟩ := others
  obtain ⟨items, each, rfl, rfl⟩ := derives_spacedMany.mp others
  obtain ⟨t, rfl, -, lhs, gives, written, sound⟩ :=
    ih.expr (by omega) (fun t mem => small t (by simp [mem])) first
  have each : ∀ i ∈ items, ∃ w t vs, (rungOp k).admits w = true ∧
      i = (w :: vs, [.token (rungOp k) w, t]) ∧ t.SpellsExpr (k + 1) vs := by
    rintro ⟨lexemes, children⟩ mem
    have pair : DerivesEach [call (rungOp k), call (rung (k + 1))] lexemes children :=
      derives_spaced.mp (each _ mem)
    obtain ⟨w, _, _, admitted, operand, rfl, rfl⟩ := (each_token (rungOp_lexical k)).mp pair
    obtain ⟨vs, _, trees', _, operand, ⟨rfl, rfl⟩, rfl, rfl⟩ := operand
    have inside : ∀ t ∈ trees', sizeOf t < n := by
      intro t mem'
      refine small t (List.mem_append_right _ (List.mem_append_left _ ?_))
      exact List.mem_flatMap.mpr ⟨_, mem, by simp [mem']⟩
    obtain ⟨t, rfl, -, spelled⟩ := ih.expr (by omega) inside operand
    exact ⟨w, t, vs, admitted, by simp, spelled⟩
  obtain ⟨e, joins, whole, sound'⟩ :=
    joins_of_items le each (written.mono (Nat.le_succ k)) sound
  refine ⟨e, ?_, ?_, sound'⟩
  · simpa using Tree.gives_level (isLevel_rung le) gives joins
  · simpa using whole

/-- The index of a place, whose tree is that of its expression in a node. -/
theorem spells_index (ih : Rungs n) (small : ∀ t ∈ trees, sizeOf t < n)
    (h : Derives (call index) ts trees) : ∃ t us, trees = [.node .index [t]] ∧ t.isPart = true ∧
      t.SpellsExpr 0 us ∧ ts = "[".toList :: us ++ ["]".toList] := by
  obtain ⟨children, body, rfl⟩ := (derives_node rfl).mp h
  have parts : DerivesEach [word "[", call (rung 0), word "]"] ts children :=
    derives_spaced.mp body
  obtain ⟨_, inside, rfl⟩ := (each_word (by decide)).mp parts
  obtain ⟨us, _, trees', _, value, close, rfl, rfl⟩ := inside
  obtain ⟨_, ⟨rfl, rfl⟩, rfl⟩ := (each_word (by decide)).mp close
  have smaller : ∀ t ∈ trees', sizeOf t < n := by
    intro t mem
    have outer := small _ (List.mem_singleton_self _)
    exact Nat.lt_trans (Tree.sizeOf_lt_of_mem (List.mem_append_left [] mem)) outer
  obtain ⟨t, rfl, part, spelled⟩ := ih.expr (by omega) smaller value
  exact ⟨t, us, rfl, part, spelled, rfl⟩

/-- Indices behind a place make a place. -/
theorem indexes_of_items {base : Expr} {us : List Lexeme} {items : List (List Lexeme × List Tree)}
    (each : ∀ i ∈ items, ∃ t vs, i.2 = [.node .index [t]] ∧ t.isPart = true ∧ t.SpellsExpr 0 vs ∧
      i.1 = "[".toList :: vs ++ ["]".toList])
    (written : Expr.Written 7 base us) (sound : base.isWellFormed = true) :
    ∃ e, Tree.Indexes base (items.flatMap Prod.snd) e ∧
      Expr.Written 7 e (us ++ items.flatMap Prod.fst) ∧ e.isWellFormed = true := by
  induction items generalizing base us with
  | nil => exact ⟨base, .done, by simpa using written, sound⟩
  | cons item items ih =>
    obtain ⟨first, later⟩ := List.forall_mem_cons.mp each
    obtain ⟨t, vs, shape, part, ⟨i, gives, inside, sound'⟩, text⟩ := first
    obtain ⟨e, indexes, whole, sound''⟩ := ih later (.index (Nat.le_refl 7) written inside)
      (by simp [Expr.isWellFormed, written.isPlace, sound, sound'])
    refine ⟨e, ?_, ?_, sound''⟩
    · rw [List.flatMap_cons, shape]
      exact .step gives part indexes
    · rw [List.flatMap_cons, text]
      simpa using whole

theorem spells_place (ih : Rungs n) (small : ∀ t ∈ trees, sizeOf t < n)
    (h : Derives place.body ts trees) : (Tree.node .place trees).SpellsPlace ts := by
  have parts : DerivesEach [call ident, spacedMany (call index)] ts trees := derives_spaced.mp h
  obtain ⟨w, _, _, admitted, others, rfl, rfl⟩ := (each_token rfl).mp parts
  obtain ⟨vs, _, trees₂, _, others, ⟨rfl, rfl⟩, rfl, rfl⟩ := others
  obtain ⟨items, each, rfl, rfl⟩ := derives_spacedMany.mp others
  have name := Expr.Written.ident (String.ofList w) (Nat.le_refl 7)
  rw [String.toList_ofList (l := w)] at name
  have each : ∀ i ∈ items, ∃ t vs, i.2 = [.node .index [t]] ∧ t.isPart = true ∧
      t.SpellsExpr 0 vs ∧ i.1 = "[".toList :: vs ++ ["]".toList] := by
    intro i mem
    refine spells_index ih (fun t mem' => small t ?_) (each i mem)
    refine List.mem_cons_of_mem _ (List.mem_append_left _ ?_)
    exact List.mem_flatMap.mpr ⟨i, mem, mem'⟩
  obtain ⟨e, indexes, whole, sound⟩ := indexes_of_items each name (name_of_admits admitted)
  refine ⟨e, ?_, ?_, sound⟩
  · rw [List.append_nil]
    exact Tree.gives_place indexes
  · rw [List.append_nil]
    simpa using whole

theorem step_of_admits {w : Lexeme} (h : incDecOp.admits w = true) :
    ∃ op : IncDecOp, w = op.symbol.toList := by
  obtain ⟨op, -, same⟩ := exists_of_admits IncDecOp.all IncDecOp.symbol (by decide) (by decide) h
  exact ⟨op, same⟩

theorem spells_incDec (ih : Rungs n) (small : ∀ t ∈ trees, sizeOf t < n)
    (h : Derives incDec.body ts trees) :
    (Tree.node .incDec trees).Spells IncDec.ofPhrase IncDec.Written IncDec.isWellFormed ts := by
  -- Both forms have an operator and a place, in the two orders.
  have form {op : IncDecOp} (fixity : Fixity) {us : List Lexeme} {children : List Tree}
      (place : Derives place.body us children) (smaller : sizeOf (Tree.node .place children) < n) :
      (Tree.node .incDec [.ofStep op fixity (.node .place children)]).Spells IncDec.ofPhrase
        IncDec.Written IncDec.isWellFormed (op.lexemes fixity us) := by
    obtain ⟨e, gives, written, sound⟩ := ih.place smaller place
    refine ⟨⟨op, fixity, e⟩, Tree.gives_incDec gives rfl, ⟨us, written, rfl⟩, ?_⟩
    simp [IncDec.isWellFormed, IncDec.toExpr, Expr.isWellFormed, written.isPlace, sound]
  rcases derives_choice.mp h with before | after
  · obtain ⟨children, body, rfl⟩ := (derives_node rfl).mp before
    have parts : DerivesEach [call incDecOp, call place] ts children := derives_spaced.mp body
    obtain ⟨w, _, _, admitted, others, rfl, rfl⟩ := (each_token rfl).mp parts
    obtain ⟨us, _, inside, _, derived, ⟨rfl, rfl⟩, rfl, rfl⟩ := (each_node rfl).mp others
    obtain ⟨op, rfl⟩ := step_of_admits admitted
    rw [List.append_nil]
    have outer := small _ (List.mem_singleton_self _)
    exact form .before derived (Nat.lt_trans (Tree.sizeOf_lt_of_mem (by simp)) outer)
  · obtain ⟨children, body, rfl⟩ := (derives_node rfl).mp after
    have parts : DerivesEach [call place, call incDecOp] ts children := derives_spaced.mp body
    obtain ⟨us, _, inside, _, derived, others, rfl, rfl⟩ := (each_node rfl).mp parts
    obtain ⟨w, _, _, admitted, ⟨rfl, rfl⟩, rfl, rfl⟩ := (each_token rfl).mp others
    obtain ⟨op, rfl⟩ := step_of_admits admitted
    have outer := small _ (List.mem_singleton_self _)
    exact form .after derived (Nat.lt_trans (Tree.sizeOf_lt_of_mem (by simp)) outer)

/-- A new array, without the expression around it. -/
def WrittenNew (array : DataType × Dims) (ts : List Lexeme) : Prop :=
  ∃ us, Dims.Written array.2 us ∧ ts = "new".toList :: array.1.keyword.toList :: us

theorem spells_new (h : Derives newExpr.body ts trees) :
    (Tree.node .newExpr trees).Spells Expr.newOfPhrase WrittenNew
      (fun array => array.1.isWellFormed && array.2.isWellFormed) ts := by
  have parts : DerivesEach [call kwNew, call dataType, call dims] ts trees := derives_spaced.mp h
  obtain ⟨w, _, _, new, typed, rfl, rfl⟩ := (each_token rfl).mp parts
  obtain ⟨w', _, _, word, sized, rfl, rfl⟩ := (each_token rfl).mp typed
  obtain ⟨us, _, brackets, _, derived, ⟨rfl, rfl⟩, rfl, rfl⟩ := (each_node rfl).mp sized
  obtain ⟨type, rfl, sound⟩ := type_of_admits word
  obtain ⟨sizes, gives, written, sound'⟩ := spells_dims derived
  have new : w = "new".toList := by simpa [admits, words, symbols] using new
  refine ⟨(type, sizes), Tree.gives_new gives rfl rfl, ⟨us, written, ?_⟩, by simp [sound, sound']⟩
  rw [List.append_nil, new]

theorem spells_primary (ih : ∀ m < n, Rungs m)
    (loose : ∀ {ts trees}, (∀ t ∈ trees, sizeOf t < n) → Derives (call (rung 0)) ts trees →
      ∃ t, trees = [t] ∧ t.isPart = true ∧ t.SpellsExpr 0 ts)
    (small : ∀ t ∈ trees, sizeOf t < n) (h : Derives primary.body ts trees) :
    ∃ t, trees = [t] ∧ t.isPart = true ∧ t.SpellsExpr 6 ts := by
  have alternatives : Derives (call incDec) ts trees ∨ Derives (call newExpr) ts trees ∨
      Derives (call number) ts trees ∨ Derives (call string) ts trees ∨
      Derives (call place) ts trees ∨
      Derives (spaced [word "(", call logicalOr, word ")"]) ts trees := by
    simpa only [body, oneOf, derives_choice] using h
  rcases alternatives with step | new | digits | text | place | enclosed
  · obtain ⟨children, body, rfl⟩ := (derives_node rfl).mp step
    have outer := small _ (List.mem_singleton_self _)
    obtain ⟨⟨op, fixity, e⟩, gives, ⟨us, written, rfl⟩, sound⟩ :=
      spells_incDec (ih _ outer) (fun _ => Tree.sizeOf_lt_of_mem) body
    exact ⟨_, rfl, rfl, _, Tree.gives_expr_of_incDec gives, .incDec (Nat.le_refl 6) written, sound⟩
  · obtain ⟨children, body, rfl⟩ := (derives_node rfl).mp new
    obtain ⟨⟨type, dims⟩, gives, ⟨us, written, rfl⟩, sound⟩ := spells_new body
    exact ⟨_, rfl, rfl, _, Tree.gives_expr_of_new gives, .new (Nat.le_refl 6) written, sound⟩
  · obtain ⟨w, admitted, rfl, rfl⟩ := (derives_token rfl).mp digits
    have written := Expr.Written.number (String.ofList w) (Nat.le_refl 6)
    rw [String.toList_ofList (l := w)] at written
    exact ⟨_, rfl, rfl, _, Tree.gives_number, written, number_of_admits admitted⟩
  · obtain ⟨w, admitted, rfl, rfl⟩ := (derives_token rfl).mp text
    have written := Expr.Written.str (String.ofList w) (Nat.le_refl 6)
    rw [String.toList_ofList (l := w)] at written
    exact ⟨_, rfl, rfl, _, Tree.gives_str, written, string_of_admits admitted⟩
  · obtain ⟨children, body, rfl⟩ := (derives_node rfl).mp place
    have outer := small _ (List.mem_singleton_self _)
    obtain ⟨e, gives, written, sound⟩ :=
      spells_place (ih _ outer) (fun _ => Tree.sizeOf_lt_of_mem) body
    exact ⟨_, rfl, rfl, e, Tree.gives_expr_of_place gives, written.mono (by omega), sound⟩
  · obtain ⟨_, inside, rfl⟩ := (each_word (by decide)).mp (derives_spaced.mp enclosed)
    obtain ⟨us, _, trees', _, value, close, rfl, rfl⟩ := inside
    obtain ⟨_, ⟨rfl, rfl⟩, rfl⟩ := (each_word (by decide)).mp close
    obtain ⟨t, rfl, part, e, gives, written, sound⟩ :=
      loose (fun t mem => small t (List.mem_append_left _ mem)) value
    exact ⟨t, rfl, part, e, gives, .enclosed (Nat.le_refl 6) written, sound⟩

/-- Trees of the levels are smaller than the trees around them, and a primary expression either
has such a tree inside or is one in parentheses. -/
theorem rungs (n : Nat) : Rungs n := by
  induction n using Nat.strongRecOn with
  | ind n ih =>
    have level {k : Nat} {ts : List Lexeme} {trees : List Tree} (le : k ≤ 5)
        (small : ∀ t ∈ trees, sizeOf t < n) (h : Derives (call (rung k)) ts trees) :
        ∃ t, trees = [t] ∧ t.isPart = true ∧ t.SpellsExpr k ts := by
      obtain ⟨children, body, rfl⟩ := (derives_node (rung_plain le)).mp h
      have outer := small _ (List.mem_singleton_self _)
      refine ⟨_, rfl, ?_, spells_level (ih _ outer) le (fun _ => Tree.sizeOf_lt_of_mem) body⟩
      rcases isLevel_rung le with same | same | same | same | same | same <;> rw [same] <;> rfl
    constructor
    · intro k ts trees le small h
      by_cases top : k = 6
      · subst top
        exact spells_primary ih (level (by omega)) small ((derives_group rfl).mp h)
      · exact level (by omega) small h
    · intro ts children outer h
      exact spells_place (ih _ outer) (fun _ => Tree.sizeOf_lt_of_mem) h

/-! ## Every derived expression -/

theorem spells_rung (le : k ≤ 6) (h : Derives (call (rung k)) ts trees) :
    ∃ t, trees = [t] ∧ t.isPart = true ∧ t.SpellsExpr k ts :=
  (rungs (sizeOf trees + 1)).expr le
    (fun _ mem => Nat.lt_succ_of_lt (List.sizeOf_lt_of_mem mem)) h

theorem spells_logicalOr (h : Derives (call logicalOr) ts trees) :
    ∃ t, trees = [t] ∧ t.isPart = true ∧ t.SpellsExpr 0 ts :=
  spells_rung (Nat.zero_le 6) h

theorem place_spells (h : Derives place.body ts trees) :
    (Tree.node .place trees).SpellsPlace ts :=
  (rungs _).place (Nat.lt_succ_self _) h

theorem incDec_spells (h : Derives incDec.body ts trees) :
    (Tree.node .incDec trees).Spells IncDec.ofPhrase IncDec.Written IncDec.isWellFormed ts :=
  spells_incDec (rungs (sizeOf trees + 1))
    (fun _ mem => Nat.lt_succ_of_lt (List.sizeOf_lt_of_mem mem)) h

end SyntaxTree
