import SyntaxTree.Program.Reading.Expr
import SyntaxTree.Proofs.Derivation.Basic

/-!
# Reading expressions from trees

What is read from a phrase depends on its tree alone. For every kind of tree
that the grammar leaves for an expression there is a lemma that says what it
gives, from what its parts give.
-/

namespace SyntaxTree

namespace Tree

def rule : Tree → Rule
  | token rule _ => rule
  | node rule _ => rule

/-- Every phrase with this tree is read as the same construct. -/
def Gives {α : Type} (read : Phrase → Except ShapeError α) (t : Tree) (x : α) : Prop :=
  ∀ p : Phrase, p.tree = t → read p = .ok x

/-- The tree counts among the significant parts. -/
def isPart (t : Tree) : Bool := !t.rule.isFixedWord

end Tree

namespace Phrase

variable {p : Phrase} {r : Rule} {t : Lexeme} {ts : List Tree}

@[simp] theorem rule_tree (p : Phrase) : p.tree.rule = p.rule := by
  obtain ⟨rule, start, text, children⟩ := p
  rw [tree]
  split <;> rfl

theorem of_token (h : p.tree = .token r t) : p.rule = r ∧ p.text = t := by
  obtain ⟨rule, start, text, children⟩ := p
  rw [tree] at h
  split at h <;> cases h
  exact ⟨rfl, rfl⟩

theorem content_of_token (h : p.tree = .token r t) : p.content = String.ofList t := by
  rw [content, (of_token h).2]

theorem of_node (h : p.tree = .node r ts) : p.rule = r ∧ p.children.map tree = ts := by
  obtain ⟨rule, start, text, children⟩ := p
  rw [tree, trees_eq_map] at h
  split at h <;> cases h
  exact ⟨rfl, rfl⟩

theorem inner_of_node (h : p.tree = .node r ts) :
    p.inner.map (fun c => c.phrase.tree) = ts := by
  rw [← (of_node h).2, ← map_phrase_inner, List.map_map]
  rfl

theorem parts_of_node (h : p.tree = .node r ts) :
    p.parts.map (fun c => c.phrase.tree) = ts.filter Tree.isPart := by
  have parts := congrArg (List.map tree) p.map_phrase_parts
  rw [List.map_map] at parts
  refine parts.trans ?_
  rw [← (of_node h).2, List.filter_map]
  congr 2
  funext c
  simp [Tree.isPart]

/-- A lexeme that is the symbol of an operator is read as that operator. -/
theorem operator_of_token {α : Type} {ofSymbol? : String → Option α} {op : α} {symbol : String}
    (known : ofSymbol? symbol = some op) (h : p.tree = .token r symbol.toList) :
    p.operator ofSymbol? = .ok op := by
  rw [operator, content_of_token h, String.ofList_toList, known]

end Phrase

namespace Tree

variable {r : Rule} {t : Tree} {ts : List Tree} {e : Expr} {text : Lexeme}

theorem gives_number : (token .number text).Gives Expr.ofPhrase (.number (String.ofList text)) := by
  intro p h
  rw [Expr.ofPhrase, (Phrase.of_token h).1, Phrase.content_of_token h]

theorem gives_ident : (token .ident text).Gives Expr.ofPhrase (.ident (String.ofList text)) := by
  intro p h
  rw [Expr.ofPhrase, (Phrase.of_token h).1, Phrase.content_of_token h]

theorem gives_str : (token .string text).Gives Expr.ofPhrase (.str (String.ofList text)) := by
  intro p h
  rw [Expr.ofPhrase, (Phrase.of_token h).1, Phrase.content_of_token h]

/-- The operators and operands behind the first operand of a level, joined to the left. -/
inductive Joins : Expr → List Tree → Expr → Prop
  | done {lhs : Expr} : Joins lhs [] lhs
  | step {lhs rhs e : Expr} {op : BinaryOp} {r : Rule} {t : Tree} {rest : List Tree}
      (operand : t.Gives Expr.ofPhrase rhs) (others : Joins (.binary op lhs rhs) rest e) :
      Joins lhs (token r op.symbol.toList :: t :: rest) e

theorem joinOperands_of_joins {p : Phrase} {lhs : Expr} {parts : List p.Child}
    (h : Joins lhs (parts.map fun c => c.phrase.tree) e) :
    Expr.joinOperands (fun c => Expr.ofPhrase c.phrase) lhs parts = .ok e := by
  generalize same : parts.map (fun c => c.phrase.tree) = ts at h
  induction h generalizing parts with
  | done =>
    rw [List.map_eq_nil_iff.mp same]
    rfl
  | step operand _ ih =>
    obtain ⟨op, _, rfl, symbol, same⟩ := List.map_eq_cons_iff.mp same
    obtain ⟨rhs, rest, rfl, value, same⟩ := List.map_eq_cons_iff.mp same
    rw [Expr.joinOperands, Phrase.operator_of_token (BinaryOp.ofSymbol?_symbol _) symbol,
      operand _ value]
    exact ih same

/-- A rule of the expression ladder. -/
def isLevel (r : Rule) : Prop :=
  r = .logicalOr ∨ r = .logicalAnd ∨ r = .equality ∨ r = .relational ∨ r = .additive ∨
    r = .multiplicative

theorem gives_level {lhs : Expr} (level : isLevel r) (first : t.Gives Expr.ofPhrase lhs)
    (others : Joins lhs ts e) : (node r (t :: ts)).Gives Expr.ofPhrase e := by
  intro p h
  obtain ⟨operand, rest, inner, value, same⟩ := List.map_eq_cons_iff.mp (Phrase.inner_of_node h)
  have value : Expr.ofPhrase operand.phrase = .ok lhs := first _ value
  have joined : Expr.joinOperands (fun c => Expr.ofPhrase c.phrase) lhs rest = .ok e :=
    joinOperands_of_joins (same ▸ others)
  rw [Expr.ofPhrase, (Phrase.of_node h).1]
  rcases level with rfl | rfl | rfl | rfl | rfl | rfl <;>
    simp only [inner, value] <;> exact joined

/-- The indices behind a name, each of which applies to all before it. -/
inductive Indexes : Expr → List Tree → Expr → Prop
  | done {base : Expr} : Indexes base [] base
  | step {base i e : Expr} {t : Tree} {rest : List Tree} (inside : t.Gives Expr.ofPhrase i)
      (part : t.isPart = true) (others : Indexes (.index base i) rest e) :
      Indexes base (node .index [t] :: rest) e

/-- The one significant part of a phrase. -/
theorem part_of_node {p : Phrase} (h : p.tree = node r [t]) (part : t.isPart = true) :
    ∃ c : p.Child, p.parts = [c] ∧ c.phrase.tree = t := by
  have parts := Phrase.parts_of_node h
  rw [List.filter_cons_of_pos part, List.filter_nil, List.map_eq_singleton_iff] at parts
  exact parts

theorem gives_place {ts : List Tree} (h : Indexes (.ident (String.ofList text)) ts e) :
    (node .place (token .ident text :: ts)).Gives Expr.placeOfPhrase e := by
  intro p place
  obtain ⟨name, rest, inner, ident, same⟩ :=
    List.map_eq_cons_iff.mp (Phrase.inner_of_node place)
  rw [Expr.placeOfPhrase, inner]
  dsimp only
  rw [Phrase.content_of_token ident]
  clear inner ident place
  generalize Expr.ident (String.ofList text) = base at h ⊢
  induction h generalizing rest with
  | done =>
    rw [List.map_eq_nil_iff.mp same]
    rfl
  | step inside part _ ih =>
    obtain ⟨suffix, rest, rfl, suffixTree, same⟩ := List.map_eq_cons_iff.mp same
    obtain ⟨value, parts, valueTree⟩ := part_of_node suffixTree part
    rw [List.foldlM_cons, parts]
    dsimp only
    rw [inside _ valueTree]
    exact ih rest same

theorem gives_expr_of_place {ts : List Tree} (h : (node .place ts).Gives Expr.placeOfPhrase e) :
    (node .place ts).Gives Expr.ofPhrase e := by
  intro p place
  rw [Expr.ofPhrase, (Phrase.of_node place).1]
  exact h p place

/-- The tree of an increment or decrement of a place. -/
def ofStep (op : IncDecOp) (fixity : Fixity) (place : Tree) : Tree :=
  match fixity with
  | .before => node .prefixIncDec [token .incDecOp op.symbol.toList, place]
  | .after => node .postfixIncDec [place, token .incDecOp op.symbol.toList]

theorem gives_incDec {op : IncDecOp} {fixity : Fixity} {place : Tree}
    (operand : place.Gives Expr.placeOfPhrase e) (part : place.isPart = true) :
    (node .incDec [ofStep op fixity place]).Gives IncDec.ofPhrase ⟨op, fixity, e⟩ := by
  intro p h
  have formPart : (ofStep op fixity place).isPart = true := by
    cases fixity <;> rfl
  have opPart : (token .incDecOp op.symbol.toList).isPart = true := rfl
  obtain ⟨form, parts, formTree⟩ := part_of_node h formPart
  rw [IncDec.ofPhrase, parts]
  cases fixity with
  | before =>
    have inner := Phrase.parts_of_node formTree
    rw [List.filter_cons_of_pos opPart, List.filter_cons_of_pos part, List.filter_nil] at inner
    obtain ⟨first, _, parts, symbol, same⟩ := List.map_eq_cons_iff.mp inner
    obtain ⟨second, rfl, value⟩ := List.map_eq_singleton_iff.mp same
    simp only [(Phrase.of_node formTree).1, parts]
    show (first.phrase.operator IncDecOp.ofSymbol? >>= fun symbol =>
      Expr.placeOfPhrase second.phrase >>= fun place => .ok (IncDec.mk symbol .before place)) = _
    rw [Phrase.operator_of_token (IncDecOp.ofSymbol?_symbol op) symbol, operand _ value]
    rfl
  | after =>
    have inner := Phrase.parts_of_node formTree
    rw [List.filter_cons_of_pos part, List.filter_cons_of_pos opPart, List.filter_nil] at inner
    obtain ⟨first, _, parts, value, same⟩ := List.map_eq_cons_iff.mp inner
    obtain ⟨second, rfl, symbol⟩ := List.map_eq_singleton_iff.mp same
    simp only [(Phrase.of_node formTree).1, parts]
    show (second.phrase.operator IncDecOp.ofSymbol? >>= fun symbol =>
      Expr.placeOfPhrase first.phrase >>= fun place => .ok (IncDec.mk symbol .after place)) = _
    rw [Phrase.operator_of_token (IncDecOp.ofSymbol?_symbol op) symbol, operand _ value]
    rfl

theorem gives_expr_of_incDec {ts : List Tree} {step : IncDec}
    (h : (node .incDec ts).Gives IncDec.ofPhrase step) :
    (node .incDec ts).Gives Expr.ofPhrase step.toExpr := by
  intro p incDec
  rw [Expr.ofPhrase, (Phrase.of_node incDec).1]
  dsimp only
  rw [h p incDec]
  rfl

theorem gives_type {type : DataType} {r : Rule} :
    (token r type.keyword.toList).Gives DataType.ofPhrase type := by
  intro p h
  rw [DataType.ofPhrase, Phrase.content_of_token h, String.ofList_toList,
    DataType.ofKeyword?_keyword]
  rfl

/-- The brackets of an array and the sizes in them. -/
inductive Sizes : List Tree → Dims → Prop
  | nil : Sizes [] []
  | blank {ts : List Tree} {dims : Dims} (others : Sizes ts dims) :
      Sizes (node .dim [] :: ts) (none :: dims)
  | size {t : Tree} {ts : List Tree} {e : Expr} {dims : Dims} (inside : t.Gives Expr.ofPhrase e)
      (others : Sizes ts dims) : Sizes (node .dim [t] :: ts) (some e :: dims)

theorem gives_dims {ts : List Tree} {dims : Dims} (h : Sizes ts dims) :
    (node .dims ts).Gives Dims.ofPhrase dims := by
  intro p brackets
  have inner := Phrase.inner_of_node brackets
  rw [Dims.ofPhrase]
  clear brackets
  generalize p.inner = parts at inner ⊢
  induction h generalizing parts with
  | nil =>
    rw [List.map_eq_nil_iff.mp inner]
    rfl
  | blank _ ih =>
    obtain ⟨dim, rest, rfl, dimTree, same⟩ := List.map_eq_cons_iff.mp inner
    rw [List.mapM_cons, List.map_eq_nil_iff.mp (Phrase.inner_of_node dimTree)]
    dsimp only
    rw [ih rest same]
    rfl
  | size inside _ ih =>
    obtain ⟨dim, rest, rfl, dimTree, same⟩ := List.map_eq_cons_iff.mp inner
    obtain ⟨size, inner, sizeTree⟩ := List.map_eq_singleton_iff.mp (Phrase.inner_of_node dimTree)
    rw [List.mapM_cons, inner]
    dsimp only
    rw [inside _ sizeTree, ih rest same]
    rfl

theorem gives_new {w : Lexeme} {type : DataType} {dims : Tree} {sizes : Dims} {r : Rule}
    (h : dims.Gives Dims.ofPhrase sizes) (part : dims.isPart = true)
    (typePart : (token r type.keyword.toList).isPart = true) :
    (node .newExpr [token .kwNew w, token r type.keyword.toList, dims]).Gives Expr.newOfPhrase
      (type, sizes) := by
  intro p new
  have parts := Phrase.parts_of_node new
  rw [List.filter_cons_of_neg (by simp [isPart, rule, Rule.isFixedWord]),
    List.filter_cons_of_pos typePart,
    List.filter_cons_of_pos part, List.filter_nil] at parts
  obtain ⟨first, _, parts, word, same⟩ := List.map_eq_cons_iff.mp parts
  obtain ⟨second, rfl, brackets⟩ := List.map_eq_singleton_iff.mp same
  rw [Expr.newOfPhrase, parts]
  dsimp only
  rw [gives_type _ word, h _ brackets]
  rfl

theorem gives_expr_of_new {ts : List Tree} {type : DataType} {dims : Dims}
    (h : (node .newExpr ts).Gives Expr.newOfPhrase (type, dims)) :
    (node .newExpr ts).Gives Expr.ofPhrase (.new type dims) := by
  intro p new
  rw [Expr.ofPhrase, (Phrase.of_node new).1]
  dsimp only
  rw [h p new]
  rfl

end Tree

end SyntaxTree
