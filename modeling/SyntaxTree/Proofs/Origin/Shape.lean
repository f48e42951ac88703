import SyntaxTree.Proofs.Origin.Source

/-!
# The shape of what is read

The types of the tree allow more than the language. From a phrase of its own rules a
construct is read well-formed, and all of its words stand in the text that the rule
was matched against.
-/

namespace SyntaxTree

open Phrase Pattern Rule

/-- The parts of constructs that are read only as parts. -/
inductive Component where
  | returnType | dataType | parameter | declarator | forInit | forUpdate | dims | newExpr | place
  | incDec
  deriving DecidableEq, Repr

namespace Component

def Value : Component → Type
  | returnType => DataType
  | dataType => DataType
  | parameter => Parameter
  | declarator => Declarator
  | forInit => ForInit
  | forUpdate => ForUpdate
  | dims => Dims
  | newExpr => DataType × Dims
  | place => Expr
  | incDec => IncDec

def read : (c : Component) → Phrase → Except ShapeError c.Value
  | returnType, p => DataType.returnOfPhrase p
  | dataType, p => DataType.ofPhrase p
  | parameter, p => Parameter.ofPhrase p
  | declarator, p => Declarator.ofPhrase p
  | forInit, p => ForInit.ofPhrase p
  | forUpdate, p => ForUpdate.ofPhrase p
  | dims, p => Dims.ofPhrase p
  | newExpr, p => Expr.newOfPhrase p
  | place, p => Expr.placeOfPhrase p
  | incDec, p => IncDec.ofPhrase p

def rule : Component → Rule
  | returnType => .returnType
  | dataType => .dataType
  | parameter => .parameter
  | declarator => .declarator
  | forInit => .forInitClause
  | forUpdate => .forUpdateClause
  | dims => .dims
  | newExpr => .newExpr
  | place => .place
  | incDec => .incDec

/-- A component as a source can have it. Only the type that a method returns may be void. -/
def isWellFormed : (c : Component) → c.Value → Bool
  | returnType, _ => true
  | dataType, type => DataType.isWellFormed type
  | parameter, x => Parameter.isWellFormed x
  | declarator, x => Declarator.isWellFormed x
  | forInit, x => ForInit.isWellFormed x
  | forUpdate, x => ForUpdate.isWellFormed x
  | dims, x => Dims.isWellFormed x
  | newExpr, array => array.1.isWellFormed && Dims.isWellFormed array.2
  | place, e => Expr.isPlace e && Expr.isWellFormed e
  | incDec, x => IncDec.isWellFormed x

def words : (c : Component) → c.Value → List String
  | returnType, _ => []
  | dataType, _ => []
  | parameter, x => Parameter.words x
  | declarator, x => Declarator.words x
  | forInit, x => ForInit.words x
  | forUpdate, x => ForUpdate.words x
  | dims, x => Dims.words x
  | newExpr, array => Dims.words array.2
  | place, e => Expr.words e
  | incDec, x => IncDec.words x

theorem confines (c : Component) (p : Phrase) :
    p.Confines (c.read p) fun x => p.Supplies (c.words x) :=
  match c with
  | returnType => (DataType.confines_return p).mono fun _ _ => supplies_nil
  | dataType => (DataType.confines p).mono fun _ _ => supplies_nil
  | parameter => Parameter.confines p
  | declarator => Declarator.confines p
  | forInit => ForInit.confines p
  | forUpdate => ForUpdate.confines p
  | dims => Dims.confines p
  | newExpr => Expr.confines_new p
  | place => Expr.confines_place p
  | incDec => IncDec.confines p

variable {ts : List Lexeme} {trees : List Tree}

/-- What the rule of a component derives is one tree, and it is read as something well-formed. -/
theorem gives {c : Component} (h : Derives (call c.rule) ts trees) :
    ∃ t, trees = [t] ∧ ∃ x, t.Gives c.read x ∧ c.isWellFormed x = true := by
  cases c with
  | returnType =>
    obtain ⟨children, body, rfl⟩ := (derives_node rfl).mp h
    obtain ⟨x, gives, -⟩ := spells_returnType body
    exact ⟨_, rfl, x, gives, rfl⟩
  | dataType =>
    obtain ⟨w, admitted, -, rfl⟩ := (derives_token rfl).mp h
    obtain ⟨type, rfl, sound⟩ := type_of_admits admitted
    exact ⟨_, rfl, type, Tree.gives_type, sound⟩
  | parameter =>
    obtain ⟨children, body, rfl⟩ := (derives_node rfl).mp h
    obtain ⟨x, gives, sound, -⟩ := spells_parameter body
    exact ⟨_, rfl, x, gives, sound⟩
  | declarator =>
    obtain ⟨children, body, rfl⟩ := (derives_node rfl).mp h
    obtain ⟨x, gives, -, sound⟩ := spells_declarator body
    exact ⟨_, rfl, x, gives, sound⟩
  | forInit =>
    obtain ⟨t, single, -, x, gives, -, sound⟩ := spells_forInit h
    exact ⟨t, single, x, gives, sound⟩
  | forUpdate =>
    obtain ⟨t, single, -, x, gives, -, sound⟩ := spells_forUpdate h
    exact ⟨t, single, x, gives, sound⟩
  | dims =>
    obtain ⟨children, body, rfl⟩ := (derives_node rfl).mp h
    obtain ⟨x, gives, -, sound⟩ := spells_dims body
    exact ⟨_, rfl, x, gives, sound⟩
  | newExpr =>
    obtain ⟨children, body, rfl⟩ := (derives_node rfl).mp h
    obtain ⟨x, gives, -, sound⟩ := spells_new body
    exact ⟨_, rfl, x, gives, sound⟩
  | place =>
    obtain ⟨children, body, rfl⟩ := (derives_node rfl).mp h
    obtain ⟨e, gives, written, sound⟩ := place_spells body
    refine ⟨_, rfl, e, gives, ?_⟩
    exact Bool.and_eq_true_iff.mpr ⟨written.isPlace, sound⟩
  | incDec =>
    obtain ⟨children, body, rfl⟩ := (derives_node rfl).mp h
    obtain ⟨x, gives, -, sound⟩ := incDec_spells body
    exact ⟨_, rfl, x, gives, sound⟩

/-- A matched rule of a component leaves one phrase, which is read as something well-formed. -/
theorem returns {c : Component} {text : List Char} {ps : List Phrase}
    (h : c.rule.phrases text = .ok ps) :
    ∃ p x, ps = [p] ∧ c.read p = .ok x ∧ c.isWellFormed x = true := by
  have spaced : (call c.rule).isSpaced true = true := by cases c <;> decide
  obtain ⟨p, rfl, x, gives, sound⟩ := Rule.single_phrase spaced gives h
  exact ⟨p, x, rfl, gives p rfl, sound⟩

end Component

/-- Words from a phrase of a match stand in the matched text. -/
theorem Rule.supplied_isInfix {r : Rule} {text : List Char} {ps : List Phrase} {p : Phrase}
    {words : List String} (h : r.phrases text = .ok ps) (mem : p ∈ ps)
    (supplied : p.Supplies words) : ∀ w ∈ words, w.toList <:+: text := by
  intro w word
  obtain ⟨q, inside, rfl⟩ := supplied w word
  obtain ⟨stands, nested⟩ := Rule.phrases_stand h mem
  rw [content, String.toList_ofList]
  exact (stands.trans (nested.within inside)).isInfix

/-- What is read from a phrase of its own rules is well-formed: its names, numbers and string
literals are lexemes of their kind, without a blank or a comment of the phrase around them, a place
is where a place has to be, no list is empty that has to have an item, a size is a number or a
name, and no type is void but the one that a method returns. Each of its words stands in the
text. -/
theorem readings_are_well_formed :
    (∀ (c : Construct) (rule : Rule) (text : List Char) (phrases : List Phrase) (p : Phrase)
      (x : c.Value) (before after : Tally), rule ∈ c.rules → rule.phrases text = .ok phrases →
      p ∈ phrases → (c.read p).run.run before = (.ok x, after) →
        c.isWellFormed x = true ∧ ∀ w ∈ c.words x, w.toList <:+: text) ∧
    ∀ (c : Component) (text : List Char) (phrases : List Phrase) (p : Phrase) (x : c.Value),
      c.rule.phrases text = .ok phrases → p ∈ phrases → c.read p = .ok x →
        c.isWellFormed x = true ∧ ∀ w ∈ c.words x, w.toList <:+: text := by
  constructor
  · intro c rule text phrases p x before after mem matched listed read
    obtain ⟨p', x', rfl, returns, sound⟩ := Construct.returns_wellFormed mem matched
    obtain rfl := List.mem_singleton.mp listed
    obtain ⟨after', read'⟩ := returns before
    have same := read.symm.trans read'
    obtain ⟨-, stays⟩ := c.keeps p before
    rw [read] at stays
    cases same
    exact ⟨sound, Rule.supplied_isInfix matched listed stays⟩
  · intro c text phrases p x matched listed read
    obtain ⟨p', x', rfl, read', sound⟩ := Component.returns matched
    obtain rfl := List.mem_singleton.mp listed
    obtain rfl := Except.ok.inj (read.symm.trans read')
    have stays := c.confines p
    rw [read] at stays
    exact ⟨sound, Rule.supplied_isInfix matched listed stays⟩

theorem Rule.exists_phrases {r : Rule} {text : List Char} (h : (r.phrases text).isOk = true) :
    ∃ ps, r.phrases text = .ok ps := by
  cases found : r.phrases text with
  | error frontier =>
    rw [found] at h
    cases h
  | ok ps => exact ⟨ps, rfl⟩

/-- An array declaration with its size in front of its name and a comment behind the size, and
dimensions of which one has no size. -/
theorem readings_are_well_formed_array :
    (∃ phrases p decl after, Rule.arrayDecl.phrases "int[3]/**/a".toList = .ok phrases ∧
      p ∈ phrases ∧ (Construct.arrayDecl.read p).run.run .fresh = (.ok decl, after) ∧
      ArrayDecl.isWellFormed decl = true ∧
      ∀ w ∈ ArrayDecl.words decl, w.toList <:+: "int[3]/**/a".toList) ∧
    ∃ phrases p dims, Rule.dims.phrases "[n][]".toList = .ok phrases ∧ p ∈ phrases ∧
      Dims.ofPhrase p = .ok dims ∧ Dims.isWellFormed dims = true ∧
      ∀ w ∈ Dims.words dims, w.toList <:+: "[n][]".toList := by
  obtain ⟨constructs, components⟩ := readings_are_well_formed
  constructor
  · have matched : (Rule.arrayDecl.phrases "int[3]/**/a".toList).isOk = true := by decide +kernel
    obtain ⟨phrases, found⟩ := Rule.exists_phrases matched
    have mem : Rule.arrayDecl ∈ Construct.arrayDecl.rules := List.mem_singleton_self _
    obtain ⟨p, decl, rfl, returns, -⟩ := Construct.returns_wellFormed mem found
    obtain ⟨after, run⟩ := returns .fresh
    have listed : p ∈ [p] := List.mem_singleton_self p
    obtain ⟨sound, stands⟩ :=
      constructs .arrayDecl _ _ _ p decl .fresh after mem found listed run
    exact ⟨[p], p, decl, after, found, listed, run, sound, stands⟩
  · have matched : (Rule.dims.phrases "[n][]".toList).isOk = true := by decide +kernel
    obtain ⟨phrases, found⟩ := Rule.exists_phrases matched
    obtain ⟨p, dims, rfl, read, -⟩ := Component.returns (c := .dims) found
    have listed : p ∈ [p] := List.mem_singleton_self p
    obtain ⟨sound, stands⟩ := components .dims _ _ p dims found listed read
    exact ⟨[p], p, dims, found, listed, read, sound, stands⟩

end SyntaxTree
