import SyntaxTree.Proofs.Acceptance.Heads
import SyntaxTree.Proofs.Reading.Expr
import SyntaxTree.Proofs.Writing.Ladder
import SyntaxTree.Proofs.Writing.WellFormed

/-!
# Written expressions are read

The rule of a level takes every expression that is written at the level, up to a
lexeme that cannot go on with it, and leaves a tree that gives the expression.
The induction is on the writing. A level is an operand with operators and
operands behind it, and a left operand is the front of such a chain, so what is
shown of it is how the chain goes on.
-/

namespace SyntaxTree

open Pattern Rule Lexeme

/-- Up to a lexeme that may follow, the pattern takes the lexemes and leaves the tree. -/
def Pattern.Accepts (pattern : Pattern) (follows : Lexeme → Bool) (ts : List Lexeme) (t : Tree) :
    Prop :=
  ∀ next us, follows next = true → Takes pattern (ts ++ next :: us) (next :: us) [t]

/-- No place goes on with the lexeme. -/
def Lexeme.endsPlace (t : Lexeme) : Bool := t.head? != some '['

/-- No expression of the level goes on with the lexeme. -/
def Lexeme.endsLevel (k : Nat) (t : Lexeme) : Bool :=
  t.endsPlace && !incDecOp.admits t && [0, 1, 2, 3, 4, 5].all fun j => j < k || !(rungOp j).admits t

/-- The lexemes that close an expression of any level. -/
def Lexeme.closes (t : Lexeme) : Bool :=
  [")", "]", "\x7d", ";", ","].any fun sign => sign.toList == t

section Ends

variable {j k : Nat} {t : Lexeme}

theorem endsPlace_of_endsLevel (h : t.endsLevel k = true) : t.endsPlace = true := by
  rw [endsLevel, Bool.and_eq_true, Bool.and_eq_true] at h
  exact h.1.1

theorem endsLevel_mono (h : t.endsLevel j = true) (le : j ≤ k) : t.endsLevel k = true := by
  simp only [endsLevel, Bool.and_eq_true, List.all_eq_true, Bool.or_eq_true,
    decide_eq_true_eq] at h ⊢
  exact ⟨h.1, fun i mem => (h.2 i mem).imp_left fun lt => Nat.lt_of_lt_of_le lt le⟩

theorem endsLevel_of_closes (h : t.closes = true) : t.endsLevel k = true := by
  refine endsLevel_mono ?_ (Nat.zero_le k)
  simp only [closes, List.any_eq_true, beq_iff_eq] at h
  obtain ⟨sign, mem, rfl⟩ := h
  revert sign
  decide

/-- An operator ends the operands of its level. -/
theorem endsLevel_symbol (op : BinaryOp) :
    Lexeme.endsLevel (op.level + 1) op.symbol.toList = true := by
  cases op <;> decide

theorem refuses_rungOp {us : List Lexeme} (le : k ≤ 5) (h : t.endsLevel k = true) :
    Refuses (call (rungOp k)) (t :: us) := by
  simp only [endsLevel, Bool.and_eq_true, List.all_eq_true, Bool.or_eq_true, decide_eq_true_eq] at h
  have none : (rungOp k).admits t = false := by
    have either := h.2 k (by simp; omega)
    simpa using either
  intro p stands
  obtain ⟨rest, -, longest, -, -⟩ := stands.split
  refine fails_lexical (rungOp_lexical k) longest none fun number => ?_
  have other : rungOp k ≠ .number := by
    unfold rungOp
    split <;> decide
  exact absurd number other

end Ends

/-! ## The first character of an expression -/

/-- The characters that an expression begins with. -/
def Lexeme.opensExpr (c : Char) : Bool :=
  isWordChar c || c == '"' || c == '(' || c == '+' || c == '-'

theorem Expr.Written.firstChar? {k : Nat} {e : Expr} {ts : List Lexeme} (h : Written k e ts)
    (sound : e.isWellFormed = true) : ∃ c, firstChar? ts = some c ∧ opensExpr c = true := by
  induction h with
  | number text _ =>
    rw [isWellFormed] at sound
    obtain ⟨c, head, digit⟩ := number_head (eq_of_beq sound)
    exact ⟨c, head, by simp [opensExpr, isWordChar_of_isDigit digit]⟩
  | str text _ =>
    rw [isWellFormed] at sound
    obtain ⟨rest, tail, -, same, -⟩ := string?_eq_some (eq_of_beq sound)
    exact ⟨'"', by simp [Pattern.firstChar?, same], by decide⟩
  | ident name _ =>
    obtain ⟨c, head, letter, -⟩ := isName_head sound
    exact ⟨c, head, by simp [opensExpr, letter]⟩
  | index _ _ _ ih _ =>
    simp only [isWellFormed, Bool.and_eq_true] at sound
    obtain ⟨c, head, opens⟩ := ih sound.1.2
    exact ⟨c, firstChar?_append (firstChar?_append head), opens⟩
  | @incDec _ op fixity _ _ _ _ ih =>
    simp only [isWellFormed, Bool.and_eq_true] at sound
    obtain ⟨c, head, opens⟩ := ih sound.2
    cases fixity with
    | before => cases op <;> exact ⟨_, rfl, by decide⟩
    | after => exact ⟨c, firstChar?_append head, opens⟩
  | new _ _ => exact ⟨'n', rfl, by decide⟩
  | binary _ _ _ ih _ =>
    simp only [isWellFormed, Bool.and_eq_true] at sound
    obtain ⟨c, head, opens⟩ := ih sound.1
    exact ⟨c, firstChar?_append head, opens⟩
  | enclosed _ _ _ => exact ⟨'(', rfl, by decide⟩

/-! ## Dimensions -/

variable {k : Nat} {e : Expr} {ts : List Lexeme}

theorem gives_numberText (text : String) :
    (Tree.token number text.toList).Gives Expr.ofPhrase (.number text) := by
  have gives : (Tree.token number text.toList).Gives Expr.ofPhrase
      (.number (String.ofList text.toList)) := Tree.gives_number
  rwa [String.ofList_toList] at gives

theorem gives_strText (text : String) :
    (Tree.token string text.toList).Gives Expr.ofPhrase (.str text) := by
  have gives : (Tree.token string text.toList).Gives Expr.ofPhrase
      (.str (String.ofList text.toList)) := Tree.gives_str
  rwa [String.ofList_toList] at gives

theorem gives_name (name : String) :
    (Tree.token ident name.toList).Gives Expr.ofPhrase (.ident name) := by
  have gives : (Tree.token ident name.toList).Gives Expr.ofPhrase
      (.ident (String.ofList name.toList)) := Tree.gives_ident
  rwa [String.ofList_toList] at gives

theorem takes_number {text : String} (h : (number? text.toList == some text.toList) = true)
    (us : List Lexeme) : Takes (call number) (text.toList :: us) us [.token number text.toList] :=
  takes_token rfl h (by simp)

theorem takes_string {text : String} (h : (string? text.toList == some text.toList) = true)
    (us : List Lexeme) : Takes (call string) (text.toList :: us) us [.token string text.toList] :=
  takes_token rfl h (by simp)

theorem takes_name {name : String} (h : isName name.toList = true) (us : List Lexeme) :
    Takes (call ident) (name.toList :: us) us [.token ident name.toList] :=
  takes_token rfl h (by simp)

/-- By its shape a name is no lexeme of another kind. -/
theorem refuses_name {pattern : Pattern} {us : List Lexeme} {name : String}
    (h : isName name.toList = true) (avoided : pattern.avoids .name = true) :
    Refuses pattern (name.toList :: us) := by
  have covered : Shape.name.covers name.toList = true := h
  exact refuses_of_avoids covered avoided

theorem refuses_bracket {next : Lexeme} {us : List Lexeme} (ends : next.endsPlace = true) :
    Refuses (word "[") (next :: us) := by
  refine refuses_word (c := '[') rfl ?_
  simpa [endsPlace, firstChar?] using ends

theorem takes_dim (size : List Lexeme) {us : List Lexeme} {trees : List Tree}
    (inside : Takes (optional (choice (call number) (call ident))) (size ++ "]".toList :: us)
      ("]".toList :: us) trees) :
    Takes (call dim) ("[".toList :: (size ++ "]".toList :: us)) us [.node dim trees] := by
  have bracket := (takes_word "[").then (inside.pair (takes_word "]"))
  rw [List.append_nil, List.nil_append] at bracket
  exact Takes.node rfl bracket

theorem takesMany_dims {dims : Dims} (h : Dims.Written dims ts)
    (sound : dims.all Expr.isSize = true) : ∃ brackets, Tree.Sizes brackets dims ∧
      ∀ next us, next.endsPlace = true →
        TakesMany (call dim) (ts ++ next :: us) (next :: us) brackets := by
  induction h with
  | nil => exact ⟨[], .nil, fun next us ends => .stop (.node rfl (refuses_bracket ends).spaced)⟩
  | blank others ih =>
    obtain ⟨brackets, sizes, takes⟩ := ih sound
    refine ⟨_, .blank sizes, fun next us ends => ?_⟩
    exact .more (takes_dim [] (Refuses.optional (refuses_fixed (by decide)))) (takes next us ends)
  | number text others ih =>
    rw [List.all_cons, Bool.and_eq_true] at sound
    obtain ⟨brackets, sizes, takes⟩ := ih sound.2
    refine ⟨_, .size (gives_numberText text) sizes, fun next us ends => ?_⟩
    exact .more (takes_dim [text.toList] (takes_number sound.1 _).left.optional) (takes next us ends)
  | ident name others ih =>
    rw [List.all_cons, Bool.and_eq_true] at sound
    obtain ⟨brackets, sizes, takes⟩ := ih sound.2
    refine ⟨_, .size (gives_name name) sizes, fun next us ends => ?_⟩
    have none (us : List Lexeme) : Refuses (call number) (name.toList :: us) :=
      refuses_name sound.1 (by decide)
    have size (us : List Lexeme) := Takes.right (none us) (takes_name sound.1 us)
    exact .more (takes_dim [name.toList] (size _).optional) (takes next us ends)

theorem accepts_dims {dims : Dims} (h : Dims.Written dims ts) (sound : dims.isWellFormed = true) :
    ∃ brackets, (Tree.node .dims brackets).Gives Dims.ofPhrase dims ∧
      Accepts (call .dims) endsPlace ts (.node .dims brackets) := by
  rw [Dims.isWellFormed, Bool.and_eq_true] at sound
  obtain ⟨brackets, sizes, takes⟩ := takesMany_dims h sound.2
  refine ⟨brackets, Tree.gives_dims sizes, fun next us ends => Takes.node rfl ?_⟩
  refine (takes next us ends).takes_some ?_
  rintro rfl
  cases sizes
  exact absurd sound.1 (by decide)

theorem takes_type {type : DataType} (sound : type.isWellFormed = true) (us : List Lexeme) :
    Takes (call dataType) (type.keyword.toList :: us) us
      [.token dataType type.keyword.toList] := by
  refine takes_token rfl ?_ (by simp)
  revert sound
  cases type <;> decide

theorem accepts_new {type : DataType} {dims : Dims} (h : Dims.Written dims ts)
    (sound : type.isWellFormed = true) (sound' : dims.isWellFormed = true) :
    ∃ children, (Tree.node .newExpr children).Gives Expr.newOfPhrase (type, dims) ∧
      Accepts (call .newExpr) endsPlace ("new".toList :: type.keyword.toList :: ts)
        (.node .newExpr children) := by
  obtain ⟨brackets, gives, accepts⟩ := accepts_dims h sound'
  refine ⟨_, Tree.gives_new (w := "new".toList) (r := dataType) gives rfl rfl,
    fun next us ends => Takes.node rfl ?_⟩
  have new (us : List Lexeme) : Takes (call kwNew) ("new".toList :: us) us [.token kwNew _] :=
    takes_token rfl (by decide) (by simp)
  exact (new _).then ((takes_type sound _).pair (accepts next us ends))

/-! ## Expressions -/

/-- The lexemes are taken as an expression of the level. -/
def AcceptsExpr (k : Nat) (e : Expr) (ts : List Lexeme) : Prop :=
  ∃ t, t.isPart = true ∧ t.Gives Expr.ofPhrase e ∧ Accepts (call (rung k)) (endsLevel k) ts t

/-- An operator of a level with the operand behind it. -/
def Pattern.step (k : Nat) : Pattern := spaced [call (rungOp k), call (rung (k + 1))]

/-- The lexemes are taken as the front of a chain, which may go on with further steps. -/
def AcceptsChain (k : Nat) (e : Expr) (ts : List Lexeme) : Prop :=
  ∃ t lhs trees, t.Gives Expr.ofPhrase lhs ∧ Tree.Joins lhs trees e ∧
    ∀ next us vs trees', next.endsLevel (k + 1) = true →
      TakesMany (step k) (next :: us) vs trees' →
        Takes (rung k).body (ts ++ next :: us) vs (t :: (trees ++ trees'))

/-- The lexemes are taken as the front of a place, which may go on with further indices. -/
def AcceptsPlace (e : Expr) (ts : List Lexeme) : Prop :=
  ∃ w rest trees, isName w = true ∧ ts = w :: rest ∧
    Tree.Indexes (.ident (String.ofList w)) trees e ∧
      ∀ us vs trees', TakesMany (call index) us vs trees' →
        TakesMany (call index) (rest ++ us) vs (trees ++ trees')

theorem AcceptsPlace.node (h : AcceptsPlace e ts) :
    ∃ children, (Tree.node .place children).Gives Expr.placeOfPhrase e ∧
      Accepts (call place) endsPlace ts (.node .place children) := by
  obtain ⟨w, rest, trees, name, rfl, indexes, goesOn⟩ := h
  refine ⟨_, Tree.gives_place indexes, fun next us ends => Takes.node rfl ?_⟩
  have ends : Refuses (call index) (next :: us) := .node rfl (refuses_bracket ends).spaced
  have first : Takes (call ident) (w :: (rest ++ next :: us)) _ [.token ident w] :=
    takes_token rfl name (by simp)
  have all := first.pair (goesOn _ _ _ (.stop ends)).takes
  rwa [List.append_nil] at all

theorem AcceptsPlace.refuses {pattern : Pattern} {us : List Lexeme} (h : AcceptsPlace e ts)
    (avoided : pattern.avoids .name = true) : Refuses pattern (ts ++ us) := by
  obtain ⟨w, rest, -, name, rfl, -⟩ := h
  have covered : Shape.name.covers w = true := name
  exact refuses_of_avoids covered avoided

theorem accepts_number {text : String} (sound : (Expr.number text).isWellFormed = true) :
    AcceptsExpr 6 (.number text) [text.toList] := by
  rw [Expr.isWellFormed] at sound
  have covered : Shape.number.covers text.toList = true := sound
  refine ⟨_, rfl, gives_numberText text, fun next us _ => Takes.group rfl ?_⟩
  have incDec : Refuses (call incDec) ([text.toList] ++ next :: us) :=
    refuses_of_avoids covered (by decide)
  have new : Refuses (call newExpr) ([text.toList] ++ next :: us) :=
    refuses_of_avoids covered (by decide)
  exact .right incDec (.right new (takes_number sound _).left)

theorem accepts_string {text : String} (sound : (Expr.str text).isWellFormed = true) :
    AcceptsExpr 6 (.str text) [text.toList] := by
  rw [Expr.isWellFormed] at sound
  have covered : Shape.string.covers text.toList = true := sound
  refine ⟨_, rfl, gives_strText text, fun next us _ => Takes.group rfl ?_⟩
  have incDec : Refuses (call incDec) ([text.toList] ++ next :: us) :=
    refuses_of_avoids covered (by decide)
  have new : Refuses (call newExpr) ([text.toList] ++ next :: us) :=
    refuses_of_avoids covered (by decide)
  have number : Refuses (call number) ([text.toList] ++ next :: us) :=
    refuses_of_avoids covered (by decide)
  exact .right incDec (.right new (.right number (takes_string sound _).left))

theorem refuses_incDecOp {next : Lexeme} {us : List Lexeme} (h : next.endsLevel k = true) :
    Refuses (call incDecOp) (next :: us) := by
  rw [endsLevel, Bool.and_eq_true, Bool.and_eq_true, Bool.not_eq_true'] at h
  intro p stands
  obtain ⟨rest, -, longest, -, -⟩ := stands.split
  exact fails_lexical rfl longest h.1.2 (by simp)

/-- A place is no increment where no operator comes behind it. -/
theorem AcceptsPlace.expr (h : AcceptsPlace e ts) : AcceptsExpr 6 e ts := by
  obtain ⟨children, gives, accepts⟩ := h.node
  refine ⟨_, rfl, Tree.gives_expr_of_place gives, fun next us ends => Takes.group rfl ?_⟩
  have place := accepts next us (endsPlace_of_endsLevel ends)
  have before : Refuses (call prefixIncDec) (ts ++ next :: us) := h.refuses (by decide)
  have after : Refuses (call postfixIncDec) (ts ++ next :: us) :=
    .node rfl (place.pair_refuses (refuses_incDecOp ends))
  have incDec : Refuses (call incDec) (ts ++ next :: us) := .node rfl (before.choice after)
  have new : Refuses (call newExpr) (ts ++ next :: us) := h.refuses (by decide)
  have number : Refuses (call number) (ts ++ next :: us) := h.refuses (by decide)
  have string : Refuses (call string) (ts ++ next :: us) := h.refuses (by decide)
  exact .right incDec (.right new (.right number (.right string place.left)))

theorem takes_incDecOp (op : IncDecOp) (us : List Lexeme) :
    Takes (call incDecOp) (op.symbol.toList :: us) us [.token incDecOp op.symbol.toList] := by
  refine takes_token rfl ?_ (by simp)
  cases op <;> decide

/-- Both forms of an increment of a place, in front of what no place goes on with. -/
theorem AcceptsPlace.incDec (h : AcceptsPlace e ts) (op : IncDecOp) (fixity : Fixity) :
    ∃ children, (Tree.node .incDec children).Gives IncDec.ofPhrase ⟨op, fixity, e⟩ ∧
      Accepts (call incDec) endsPlace (op.lexemes fixity ts) (.node .incDec children) := by
  obtain ⟨children, gives, accepts⟩ := h.node
  refine ⟨_, Tree.gives_incDec gives rfl, fun next us ends => Takes.node rfl ?_⟩
  cases fixity with
  | before =>
    have form : Takes (call prefixIncDec) _ _ _ :=
      .node rfl ((takes_incDecOp op _).pair (accepts next us ends))
    exact form.left
  | after =>
    have operator : endsPlace op.symbol.toList = true := by cases op <;> decide
    have form := (accepts _ (next :: us) operator).pair (takes_incDecOp op _)
    have before : Refuses (call prefixIncDec) (ts ++ op.symbol.toList :: next :: us) :=
      h.refuses (by decide)
    rw [IncDecOp.lexemes, List.append_assoc]
    exact .right before (.node rfl form)

theorem AcceptsPlace.incDec_expr (h : AcceptsPlace e ts) (op : IncDecOp) (fixity : Fixity) :
    AcceptsExpr 6 (.incDec op fixity e) (op.lexemes fixity ts) := by
  obtain ⟨children, gives, accepts⟩ := h.incDec op fixity
  refine ⟨_, rfl, Tree.gives_expr_of_incDec gives, fun next us ends => Takes.group rfl ?_⟩
  exact (accepts next us (endsPlace_of_endsLevel ends)).left

theorem accepts_newExpr {type : DataType} {dims : Dims} (h : Dims.Written dims ts)
    (sound : (Expr.new type dims).isWellFormed = true) :
    AcceptsExpr 6 (.new type dims) ("new".toList :: type.keyword.toList :: ts) := by
  rw [Expr.isWellFormed, Bool.and_eq_true] at sound
  obtain ⟨children, gives, accepts⟩ := accepts_new h sound.1 sound.2
  refine ⟨_, rfl, Tree.gives_expr_of_new gives, fun next us ends => Takes.group rfl ?_⟩
  have incDec : Refuses (call incDec) ("new".toList :: type.keyword.toList :: ts ++ next :: us) :=
    refuses_fixed (by decide)
  exact .right incDec (accepts next us (endsPlace_of_endsLevel ends)).left

theorem AcceptsExpr.enclosed (h : AcceptsExpr 0 e ts) :
    AcceptsExpr 6 e ("(".toList :: ts ++ [")".toList]) := by
  obtain ⟨t, part, gives, accepts⟩ := h
  refine ⟨t, part, gives, fun next us _ => Takes.group rfl ?_⟩
  have refused {r : Rule} (avoided : (call r).avoids (.fixed "(".toList) = true) :
      Refuses (call r) ("(".toList :: (ts ++ ")".toList :: next :: us)) := refuses_fixed avoided
  have inside := accepts ")".toList (next :: us) (endsLevel_of_closes (by decide))
  have enclosed := (takes_word "(").then (inside.pair (takes_word ")"))
  have whole : "(".toList :: ts ++ [")".toList] ++ next :: us =
      "(".toList :: (ts ++ ")".toList :: next :: us) := by simp
  rw [whole]
  exact .right (refused (by decide)) (.right (refused (by decide)) (.right (refused (by decide))
    (.right (refused (by decide)) (.right (refused (by decide)) enclosed))))

/-! ## Chains -/

/-- An operand of a level is a chain without steps. -/
theorem AcceptsExpr.chain (le : k ≤ 5) (h : AcceptsExpr (k + 1) e ts) : AcceptsChain k e ts := by
  obtain ⟨t, -, gives, accepts⟩ := h
  refine ⟨t, e, [], gives, .done, fun next us vs trees' ends steps => ?_⟩
  rw [body_rung le]
  exact (accepts next us ends).pair steps.takes

theorem AcceptsChain.expr (le : k ≤ 5) (h : AcceptsChain k e ts) : AcceptsExpr k e ts := by
  obtain ⟨t, lhs, trees, gives, joins, goesOn⟩ := h
  refine ⟨_, ?_, Tree.gives_level (isLevel_rung le) gives joins, fun next us ends =>
    Takes.node (rung_plain le) ?_⟩
  · rcases isLevel_rung le with same | same | same | same | same | same <;> rw [same] <;> rfl
  · have stop : Refuses (step k) (next :: us) := (refuses_rungOp le ends).spaced
    have all := goesOn next us _ _ (endsLevel_mono ends (Nat.le_succ k)) (.stop stop)
    rwa [List.append_nil] at all

theorem AcceptsExpr.lower {j : Nat} (h : AcceptsExpr k e ts) (le : k ≤ 6) (le' : j ≤ k) :
    AcceptsExpr j e ts := by
  induction k with
  | zero =>
    obtain rfl : j = 0 := by omega
    exact h
  | succ k ih =>
    by_cases same : j = k + 1
    · rwa [same]
    · exact ih ((h.chain (by omega)).expr (by omega)) (by omega) (by omega)

theorem Tree.Joins.snoc {lhs mid rhs : Expr} {trees : List Tree} {t : Tree} {op : BinaryOp}
    {r : Rule} (h : Joins lhs trees mid) (gives : t.Gives Expr.ofPhrase rhs) :
    Joins lhs (trees ++ [.token r op.symbol.toList, t]) (.binary op mid rhs) := by
  induction h with
  | done => exact .step gives .done
  | step operand _ ih => exact .step operand ih

/-- A chain goes on with an operator of its level and an operand. -/
theorem AcceptsChain.binary {op : BinaryOp} {lhs rhs : Expr} {us : List Lexeme}
    (h : AcceptsChain op.level lhs ts) (h' : AcceptsExpr (op.level + 1) rhs us)
    (opens : ∃ c, Pattern.firstChar? us = some c ∧ opensExpr c = true) :
    AcceptsChain op.level (.binary op lhs rhs) (ts ++ op.symbol.toList :: us) := by
  obtain ⟨t, first, trees, gives, joins, goesOn⟩ := h
  obtain ⟨t', -, gives', accepts⟩ := h'
  refine ⟨t, first, _, gives, joins.snoc (r := rungOp op.level) gives', fun next vs ws trees' ends steps => ?_⟩
  have operator : Takes (call (rungOp op.level)) (op.symbol.toList :: (us ++ next :: vs))
      (us ++ next :: vs) [.token (rungOp op.level) op.symbol.toList] := by
    refine takes_token (rungOp_lexical _) (rungOp_admits op) fun _ c head => ?_
    obtain ⟨d, head', opens⟩ := opens
    obtain rfl : d = c := Option.some.inj ((firstChar?_append head').symm.trans head)
    constructor
    · rintro rfl
      exact absurd opens (by decide)
    · rintro rfl
      exact absurd opens (by decide)
  have item : Takes (step op.level) _ _ _ := operator.pair (accepts next vs ends)
  have all := goesOn _ _ _ _ (endsLevel_symbol op) (.more item steps)
  rw [List.append_assoc]
  simpa using all

theorem Tree.Indexes.snoc {base mid i : Expr} {trees : List Tree} {t : Tree}
    (h : Indexes base trees mid) (gives : t.Gives Expr.ofPhrase i) (part : t.isPart = true) :
    Indexes base (trees ++ [.node .index [t]]) (.index mid i) := by
  induction h with
  | done => exact .step gives part .done
  | step inside part' _ ih => exact .step inside part' ih

/-- A place goes on with an index. -/
theorem AcceptsPlace.index {i : Expr} {us : List Lexeme} (h : AcceptsPlace e ts)
    (h' : AcceptsExpr 0 i us) :
    AcceptsPlace (.index e i) (ts ++ "[".toList :: us ++ ["]".toList]) := by
  obtain ⟨w, rest, trees, name, rfl, indexes, goesOn⟩ := h
  obtain ⟨t, part, gives, accepts⟩ := h'
  refine ⟨w, rest ++ "[".toList :: us ++ ["]".toList], _, name, by simp,
    indexes.snoc gives part, fun vs ws trees' others => ?_⟩
  have value := accepts "]".toList vs (endsLevel_of_closes (by decide))
  have index : Takes (call index) _ _ _ :=
    .node rfl ((takes_word "[").then (value.pair (takes_word "]")))
  have all := goesOn _ _ _ (.more index others)
  simpa using all

/-! ## Every written expression -/

/-- What a writing at a level is taken as. -/
structure AcceptedAt (k : Nat) (e : Expr) (ts : List Lexeme) : Prop where
  place : k = 7 → AcceptsPlace e ts
  expr : k ≤ 6 → AcceptsExpr k e ts
  chain : k ≤ 5 → AcceptsChain k e ts

theorem AcceptsExpr.at (h : AcceptsExpr 6 e ts) (le : k ≤ 6) : AcceptedAt k e ts where
  place top := by omega
  expr _ := h.lower (Nat.le_refl 6) le
  chain le' := (h.lower (Nat.le_refl 6) (by omega)).chain le'

theorem AcceptsPlace.at (h : AcceptsPlace e ts) : AcceptedAt k e ts where
  place _ := h
  expr le := (h.expr.at le).expr le
  chain le := (h.expr.at (by omega)).chain le

theorem AcceptsChain.at {j : Nat} (h : AcceptsChain j e ts) (le : j ≤ 5) (le' : k ≤ j) :
    AcceptedAt k e ts where
  place top := by omega
  expr _ := (h.expr le).lower (by omega) le'
  chain _ := by
    by_cases same : k = j
    · rwa [same]
    · exact ((h.expr le).lower (by omega) (by omega)).chain (by omega)

theorem Expr.Written.accepted (h : Written k e ts) (sound : e.isWellFormed = true) :
    AcceptedAt k e ts := by
  induction h with
  | number text le => exact (accepts_number sound).at le
  | str text le => exact (accepts_string sound).at le
  | ident name le =>
    refine AcceptsPlace.at ⟨name.toList, [], [], sound, rfl, ?_, fun us vs trees' others => others⟩
    rw [String.ofList_toList]
    exact .done
  | index le front inside ih ih' =>
    simp only [isWellFormed, Bool.and_eq_true] at sound
    exact (((ih sound.1.2).place rfl).index ((ih' sound.2).expr (by omega))).at
  | incDec le place ih =>
    simp only [isWellFormed, Bool.and_eq_true] at sound
    exact (((ih sound.2).place rfl).incDec_expr _ _).at le
  | new le sizes => exact (accepts_newExpr sizes sound).at le
  | @binary _ op _ _ _ _ le left right ih ih' =>
    simp only [isWellFormed, Bool.and_eq_true] at sound
    have bound := op.level_le
    have chain := ((ih sound.1).chain bound).binary ((ih' sound.2).expr (by omega))
      (right.firstChar? sound.2)
    exact chain.at bound le
  | enclosed le inside ih => exact ((ih sound).expr (by omega)).enclosed.at le

end SyntaxTree
