import SyntaxTree.Proofs.Acceptance.Expr
import SyntaxTree.Proofs.Reading.Clause
import SyntaxTree.Proofs.Soundness.Clause

/-!
# Written clauses are read

Declarations, assignments and loop headers. A header is tried in eight forms, and
all but the one that is written fail at the first clause in which they differ.
-/

namespace SyntaxTree

open Pattern Rule Lexeme

variable {ts us vs ws : List Lexeme} {e : Expr}

theorem Expr.Written.accepts (h : Written 0 e ts) (sound : e.isWellFormed = true) :
    ∃ t, t.isPart = true ∧ t.Gives Expr.ofPhrase e ∧ Accepts (call logicalOr) closes ts t := by
  obtain ⟨t, part, gives, accepts⟩ := (h.accepted sound).expr (Nat.zero_le 6)
  exact ⟨t, part, gives, fun next us closed => accepts next us (endsLevel_of_closes closed)⟩

theorem Expr.Written.acceptsPlace (h : Written 7 e ts) (sound : e.isWellFormed = true) :
    AcceptsPlace e ts :=
  (h.accepted sound).place rfl

/-- An expression does not begin with a character that opens none. -/
theorem Expr.Written.refuses_word {k : Nat} {text : String} {c : Char} (h : Written k e ts)
    (sound : e.isWellFormed = true) (head : text.toList.head? = some c)
    (other : opensExpr c = false) : Refuses (word text) (ts ++ us) := by
  obtain ⟨d, first, opens⟩ := h.firstChar? sound
  refine Pattern.refuses_word head ?_
  rw [firstChar?_append first]
  rintro same
  cases same
  simp [other] at opens

theorem endsPlace_of_closes {t : Lexeme} (h : t.closes = true) : t.endsPlace = true :=
  endsPlace_of_endsLevel (endsLevel_of_closes (k := 0) h)

theorem refuses_of_closes {pattern : Pattern} {next : Lexeme} (closed : next.closes = true)
    (avoided : ∀ sign ∈ [")", "]", "\x7d", ";", ","], pattern.avoids (.fixed sign.toList) = true) :
    Refuses pattern (next :: us) := by
  simp only [closes, List.any_eq_true, beq_iff_eq] at closed
  obtain ⟨sign, mem, rfl⟩ := closed
  exact refuses_fixed (avoided sign mem)

/-- Items with commas between them, up to a lexeme that is no comma. -/
theorem accepts_items {α : Type} {read : Phrase → Except ShapeError α}
    {written : α → List Lexeme → Prop} {isWellFormed : α → Bool} {item : Rule} {xs : List α}
    (one : ∀ {x ts}, written x ts → isWellFormed x = true →
      ∃ t, t.Gives read x ∧ Accepts (call item) closes ts t)
    (h : WrittenList written xs ts) (sound : xs.all isWellFormed = true) :
    ∃ t trees, Tree.GivesAll read (t :: trees) xs ∧ ∀ next us, next.closes = true →
      Refuses (word ",") (next :: us) → ∃ ms, Takes (call item) (ts ++ next :: us) ms [t] ∧
        TakesMany (spaced [word ",", call item]) ms (next :: us) trees := by
  induction h with
  | last first =>
    rw [List.all_cons, Bool.and_eq_true] at sound
    obtain ⟨t, gives, accepts⟩ := one first sound.1
    refine ⟨t, [], .cons gives .nil, fun next us closed stop => ?_⟩
    exact ⟨_, accepts next us closed, .stop stop.spaced⟩
  | more first others ih =>
    rw [List.all_cons, Bool.and_eq_true] at sound
    obtain ⟨t, gives, accepts⟩ := one first sound.1
    obtain ⟨t', trees, all, takes⟩ := ih sound.2
    refine ⟨t, t' :: trees, .cons gives all, fun next us closed stop => ?_⟩
    obtain ⟨ms, item, rest⟩ := takes next us closed stop
    refine ⟨_, ?_, .more ((takes_word ",").pair item) rest⟩
    rw [List.append_assoc]
    exact accepts ",".toList _ (by decide)

/-! ## Declarations -/

theorem accepts_declarator {d : Declarator} (h : d.Written ts) (sound : d.isWellFormed = true) :
    ∃ t, t.Gives Declarator.ofPhrase d ∧ Accepts (call declarator) closes ts t := by
  rw [Declarator.isWellFormed, Bool.and_eq_true] at sound
  cases h with
  | bare name =>
    have gives : (Tree.node .declarator [.token ident name.toList]).Gives Declarator.ofPhrase
        ⟨String.ofList name.toList, none⟩ := Tree.gives_declarator
    rw [String.ofList_toList] at gives
    refine ⟨_, gives, fun next us closed => Takes.node rfl ?_⟩
    have none : Refuses (spaced [word "=", absent (word "="), call logicalOr]) (next :: us) :=
      (refuses_of_closes closed (by decide)).spaced
    exact (takes_name sound.1 _).pair none.optional
  | @init name value us written =>
    obtain ⟨t, -, gives, accepts⟩ := written.accepts sound.2
    have gives' : (Tree.node .declarator [.token ident name.toList, t]).Gives Declarator.ofPhrase
        ⟨String.ofList name.toList, some value⟩ := Tree.gives_declarator_init gives
    rw [String.ofList_toList] at gives'
    refine ⟨_, gives', fun next vs closed => Takes.node rfl ?_⟩
    -- What follows the sign is an expression, so it is not another sign.
    have single : Takes (absent (word "=")) (us ++ next :: vs) (us ++ next :: vs) [] := by
      obtain ⟨c, first, opens⟩ := written.firstChar? sound.2
      refine takes_absent fun p stands => stands.fails_word (c := '=') rfl ?_
      rw [firstChar?_append first]
      rintro same
      cases same
      exact absurd opens (by decide)
    have init := (takes_word "=").then (single.pair (accepts next vs closed))
    exact (takes_name sound.1 _).pair init.optional

theorem accepts_varDecl {decl : VarDecl} (h : decl.Written ts) (sound : decl.isWellFormed = true) :
    ∃ children, (Tree.node .varDecl children).Gives VarDecl.ofPhrase decl ∧ ∀ us,
      Takes (call varDecl) (ts ++ ";".toList :: us) (";".toList :: us) [.node .varDecl children] := by
  obtain ⟨us, written, rfl⟩ := h
  simp only [VarDecl.isWellFormed, Bool.and_eq_true] at sound
  obtain ⟨t, trees, all, takes⟩ := accepts_items accepts_declarator written sound.2
  have nonempty : decl.declarators ≠ [] := by
    intro none
    rw [none] at all
    cases all
  refine ⟨_, Tree.gives_varDecl (r := dataType) all nonempty, fun vs => Takes.node rfl ?_⟩
  obtain ⟨ms, first, others⟩ := takes ";".toList vs (by decide) (refuses_fixed (by decide))
  exact (takes_type sound.1.1 _).then (first.pair others.takes)

/-- Dimensions that are there begin with a bracket. -/
theorem Dims.Written.head {dims : Dims} (h : Written dims ts) (sound : dims.isWellFormed = true) :
    ∃ rest, ts = "[".toList :: rest := by
  cases h with
  | nil => cases sound
  | _ => exact ⟨_, rfl⟩

theorem accepts_arrayDecl {decl : ArrayDecl} (h : decl.Written ts)
    (sound : decl.isWellFormed = true) :
    ∃ children, (Tree.node .arrayDecl children).Gives ArrayDecl.ofPhrase decl ∧
      Accepts (call arrayDecl) endsPlace ts (.node .arrayDecl children) := by
  obtain ⟨type, name, dims⟩ := decl
  obtain ⟨us, written, order⟩ := h
  simp only [ArrayDecl.isWellFormed, Bool.and_eq_true] at sound
  obtain ⟨brackets, gives, accepts⟩ := accepts_dims written sound.2
  have decl {children : List Tree}
      (order : children = [.token dataType type.keyword.toList, .token ident name.toList,
        .node .dims brackets] ∨ children = [.token dataType type.keyword.toList,
          .node .dims brackets, .token ident name.toList]) :
      (Tree.node .arrayDecl children).Gives ArrayDecl.ofPhrase ⟨type, name, dims⟩ := by
    have gives' := Tree.gives_arrayDecl gives order
    rwa [String.ofList_toList] at gives'
  rcases order with rfl | rfl
  · refine ⟨_, decl (.inl rfl), fun next vs ends => Takes.node rfl ?_⟩
    have front := (takes_name sound.1.2 _).pair (accepts next vs ends)
    exact (takes_type sound.1.1 _).pair front.left
  · refine ⟨_, decl (.inr rfl), fun next vs ends => Takes.node rfl ?_⟩
    obtain ⟨rest, same⟩ := written.head sound.2
    have front : Refuses (spaced [call ident, call .dims]) (us ++ name.toList :: next :: vs) := by
      rw [same]
      exact refuses_fixed (by decide)
    have named : endsPlace name.toList = true := by
      obtain ⟨c, head, letter, -⟩ := isName_head sound.1.2
      have other : c ≠ '[' := by
        rintro rfl
        exact absurd letter (by decide)
      have head' : name.toList.head? = some c := head
      simp [endsPlace, head', other]
    have back := (accepts _ (next :: vs) named).pair (takes_name sound.1.2 _)
    have whole : type.keyword.toList :: us ++ [name.toList] ++ next :: vs =
        type.keyword.toList :: (us ++ name.toList :: next :: vs) := by simp
    rw [whole]
    exact (takes_type sound.1.1 _).pair (.right front back)

theorem accepts_initializer {init : ArrayInitializer} (h : init.Written ts)
    (sound : init.isWellFormed = true) :
    ∃ t, t.isPart = true ∧ t.Gives ArrayInitializer.ofPhrase init ∧
      Accepts (call arrayInitializer) closes ts (.node .arrayInitializer [t]) := by
  cases h with
  | @list first rest us elements =>
    have one {e : Expr} {ts : List Lexeme} (h : Expr.Written 0 e ts)
        (sound : e.isWellFormed = true) :
        ∃ t, t.Gives Expr.ofPhrase e ∧ Accepts (call logicalOr) closes ts t := by
      obtain ⟨t, -, gives, accepts⟩ := h.accepts sound
      exact ⟨t, gives, accepts⟩
    obtain ⟨t, trees, all, takes⟩ := accepts_items one elements sound
    refine ⟨_, rfl, Tree.gives_initList all, fun next vs _ => Takes.node rfl ?_⟩
    obtain ⟨ms, item, others⟩ := takes "\x7d".toList (next :: vs) (by decide)
      (refuses_fixed (by decide))
    have list := (takes_word "\x7b").then (item.then (others.takes.pair (takes_word "\x7d")))
    have whole : "\x7b".toList :: us ++ ["\x7d".toList] ++ next :: vs =
        "\x7b".toList :: (us ++ "\x7d".toList :: next :: vs) := by simp
    rw [List.append_nil] at list
    have node : Takes (call initList) _ _ [.node .initList (t :: trees)] := .node rfl list
    rw [whole]
    exact node.left
  | new type sizes =>
    rw [ArrayInitializer.isWellFormed, Expr.isWellFormed, Bool.and_eq_true] at sound
    obtain ⟨children, gives, accepts⟩ := accepts_new sizes sound.1 sound.2
    refine ⟨_, rfl, Tree.gives_initializer_new gives, fun next vs closed => Takes.node rfl ?_⟩
    exact .right (refuses_fixed (by decide)) (accepts next vs (endsPlace_of_closes closed))

theorem accepts_arrayInit {init : ArrayInit} (h : init.Written ts)
    (sound : init.isWellFormed = true) :
    ∃ children, (Tree.node .arrayInit children).Gives ArrayInit.ofPhrase init ∧
      Accepts (call arrayInit) closes ts (.node .arrayInit children) := by
  obtain ⟨us, vs, declared, value, rfl⟩ := h
  rw [ArrayInit.isWellFormed, Bool.and_eq_true] at sound
  obtain ⟨children, gives, accepts⟩ := accepts_arrayDecl declared sound.1
  obtain ⟨t, part, gives', accepts'⟩ := accepts_initializer value sound.2
  refine ⟨_, Tree.gives_arrayInit gives rfl gives' part, fun next ws closed => Takes.node rfl ?_⟩
  rw [List.append_assoc]
  exact (accepts _ _ (by decide)).then ((takes_word "=").pair (accepts' next ws closed))

/-! ## Assignments and increments -/

theorem takes_assignOp (op : AssignOp) (us : List Lexeme) :
    Takes (call assignOp) (op.symbol.toList :: us) us [.token assignOp op.symbol.toList] := by
  refine takes_token rfl ?_ (by simp)
  cases op <;> decide

theorem accepts_assignment {a : Assignment} (h : a.Written ts) (sound : a.isWellFormed = true) :
    ∃ children, (Tree.node .assignment children).Gives Assignment.ofPhrase a ∧
      Accepts (call assignment) closes ts (.node .assignment children) := by
  obtain ⟨us, vs, target, value, rfl⟩ := h
  simp only [Assignment.isWellFormed, Bool.and_eq_true] at sound
  obtain ⟨children, gives, accepts⟩ := (target.acceptsPlace sound.1.2).node
  obtain ⟨t, part, gives', accepts'⟩ := value.accepts sound.2
  refine ⟨_, Tree.gives_assignment gives rfl gives' part, fun next ws closed => Takes.node rfl ?_⟩
  have operator : endsPlace a.op.symbol.toList = true := by cases a.op <;> decide
  rw [List.append_assoc]
  exact (accepts _ _ operator).then ((takes_assignOp a.op _).pair (accepts' next ws closed))

theorem accepts_incDec {step : IncDec} (h : step.Written ts) (sound : step.isWellFormed = true) :
    ∃ children, (Tree.node .incDec children).Gives IncDec.ofPhrase step ∧
      Accepts (call incDec) endsPlace ts (.node .incDec children) := by
  obtain ⟨us, operand, rfl⟩ := h
  simp only [IncDec.isWellFormed, IncDec.toExpr, Expr.isWellFormed, Bool.and_eq_true] at sound
  exact (operand.acceptsPlace sound.2).incDec step.op step.fixity

/-- By its first lexeme an assignment is known to begin with a name. -/
theorem refuses_target {pattern : Pattern} {a : Assignment} (h : a.Written ts)
    (sound : a.isWellFormed = true) (avoided : pattern.avoids .name = true) :
    Refuses pattern (ts ++ us) := by
  obtain ⟨vs, ws, target, -, rfl⟩ := h
  simp only [Assignment.isWellFormed, Bool.and_eq_true] at sound
  rw [List.append_assoc]
  exact (target.acceptsPlace sound.1.2).refuses avoided

/-- An increment begins with a name or with its operator. -/
theorem refuses_step {pattern : Pattern} {step : IncDec} (h : step.Written ts)
    (sound : step.isWellFormed = true) (avoided : pattern.avoids .name = true)
    (avoided' : ∀ op : IncDecOp, pattern.avoids (.fixed op.symbol.toList) = true) :
    Refuses pattern (ts ++ us) := by
  obtain ⟨vs, operand, rfl⟩ := h
  simp only [IncDec.isWellFormed, IncDec.toExpr, Expr.isWellFormed, Bool.and_eq_true] at sound
  cases step.fixity with
  | before => exact refuses_fixed (avoided' step.op)
  | after =>
    rw [IncDecOp.lexemes, List.append_assoc]
    exact (operand.acceptsPlace sound.2).refuses avoided

/-- An increment is no assignment, also where it begins like one. -/
theorem refuses_assignment {step : IncDec} (h : step.Written ts) (sound : step.isWellFormed = true) :
    Refuses (call assignment) (ts ++ us) := by
  obtain ⟨vs, operand, rfl⟩ := h
  simp only [IncDec.isWellFormed, IncDec.toExpr, Expr.isWellFormed, Bool.and_eq_true] at sound
  obtain ⟨children, -, accepts⟩ := (operand.acceptsPlace sound.2).node
  cases step.fixity with
  | before =>
    cases step.op with
    | increment => exact refuses_fixed (by decide)
    | decrement => exact refuses_fixed (by decide)
  | after =>
    have operator : endsPlace step.op.symbol.toList = true := by cases step.op <;> decide
    have none : Refuses (call assignOp) (step.op.symbol.toList :: us) := by
      cases step.op with
      | increment => exact refuses_fixed (by decide)
      | decrement => exact refuses_fixed (by decide)
    rw [IncDecOp.lexemes, List.append_assoc]
    exact .node rfl ((accepts _ us operator).then_refuses none.spaced)

end SyntaxTree
