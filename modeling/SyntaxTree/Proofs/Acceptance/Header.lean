import SyntaxTree.Proofs.Acceptance.Clause

/-!
# Written loop headers are read

The grammar tries a header in eight forms, by which clauses it has. All but the
one that is written fail at the first clause in which they differ, and a clause
that is absent is told from one that is there by the sign that ends it.
-/

namespace SyntaxTree

open Pattern Rule Lexeme

variable {ts us vs ws : List Lexeme} {e : Expr} {clause : Rule} {sign : String} {t : Option Tree}
variable {items : List Pattern} {trees : List Tree}

/-- A clause that may be absent, up to the sign behind it, with the tree that it leaves. -/
structure TakesClause (clause : Rule) (sign : String) (us : List Lexeme) (t : Option Tree) :
    Prop where
  empty : t = none → us = []
  takes : ∀ tree ∈ t, ∀ vs,
    Takes (call clause) (us ++ sign.toList :: vs) (sign.toList :: vs) [tree]
  other : t.isSome = true → ∀ vs, Refuses (word sign) (us ++ vs)

/-- The pattern of a clause, if it is there, and of what comes behind. -/
def Pattern.perhaps (there : Bool) (clause : Rule) (items : List Pattern) : Pattern :=
  spaced ((if there then [call clause] else []) ++ items)

namespace TakesClause

theorem goesOn (h : TakesClause clause sign us t)
    (rest : Takes (spaced (word sign :: items)) (sign.toList :: vs) ws trees) :
    Takes (Pattern.perhaps t.isSome clause (word sign :: items)) (us ++ sign.toList :: vs) ws
      (t.toList ++ trees) := by
  cases t with
  | none =>
    rw [h.empty rfl]
    exact rest
  | some tree => exact (h.takes tree rfl vs).then rest

theorem stops (h : TakesClause clause sign us t)
    (rest : Refuses (spaced (word sign :: items)) (sign.toList :: vs)) :
    Refuses (Pattern.perhaps t.isSome clause (word sign :: items)) (us ++ sign.toList :: vs) := by
  cases t with
  | none =>
    rw [h.empty rfl]
    exact rest
  | some tree => exact (h.takes tree rfl vs).then_refuses rest

/-- The pattern for the opposite choice fails at the clause. -/
theorem differs {there : Bool} (h : TakesClause clause sign us t) (different : there ≠ t.isSome)
    (avoided : (call clause).avoids (.fixed sign.toList) = true) :
    Refuses (Pattern.perhaps there clause (word sign :: items)) (us ++ sign.toList :: vs) := by
  cases t with
  | none =>
    obtain rfl : there = true := by simpa using different
    rw [h.empty rfl]
    exact (refuses_fixed (t := sign.toList) avoided).spaced
  | some tree =>
    obtain rfl : there = false := by simpa using different
    exact (h.other rfl _).spaced

end TakesClause

theorem takesClause_init {init : Option ForInit} (h : WrittenOption ForInit.Written init ts)
    (sound : init.all ForInit.isWellFormed = true) :
    ∃ t, Tree.GivesOption ForInit.ofPhrase t init ∧ TakesClause forInitClause ";" ts t := by
  cases init with
  | none => exact ⟨none, .none, fun _ => h, by simp, by simp⟩
  | some init =>
    cases init with
    | declaration decl =>
      have written : decl.Written ts := h
      obtain ⟨children, gives, takes⟩ := accepts_varDecl written sound
      refine ⟨_, .some (Tree.gives_forInit_declaration gives) rfl, by simp, ?_, fun _ vs => ?_⟩
      · rintro _ ⟨⟩ vs
        exact .node rfl (takes vs).left
      · obtain ⟨us, -, rfl⟩ := written
        cases decl.type <;> exact refuses_fixed (by decide)
    | assignment a =>
      have written : a.Written ts := h
      obtain ⟨children, gives, accepts⟩ := accepts_assignment written sound
      refine ⟨_, .some (Tree.gives_forInit_assignment gives) rfl, by simp, ?_, fun _ vs => ?_⟩
      · rintro _ ⟨⟩ vs
        exact .node rfl (.right (refuses_target written sound (by decide)) (accepts _ vs (by decide)))
      · exact refuses_target written sound (by decide)

theorem takesClause_condition {condition : Option Expr}
    (h : WrittenOption (Expr.Written 0) condition ts)
    (sound : condition.all Expr.isWellFormed = true) :
    ∃ t, Tree.GivesOption Expr.ofPhrase t condition ∧ TakesClause logicalOr ";" ts t := by
  cases condition with
  | none => exact ⟨none, .none, fun _ => h, by simp, by simp⟩
  | some e =>
    have written : Expr.Written 0 e ts := h
    obtain ⟨t, part, gives, accepts⟩ := written.accepts sound
    refine ⟨_, .some gives part, by simp, ?_, fun _ vs => ?_⟩
    · rintro _ ⟨⟩ vs
      exact accepts _ vs (by decide)
    · exact written.refuses_word (c := ';') sound rfl (by decide)

theorem takesClause_update {update : Option ForUpdate} (h : WrittenOption ForUpdate.Written update ts)
    (sound : update.all ForUpdate.isWellFormed = true) :
    ∃ t, Tree.GivesOption ForUpdate.ofPhrase t update ∧ TakesClause forUpdateClause ")" ts t := by
  cases update with
  | none => exact ⟨none, .none, fun _ => h, by simp, by simp⟩
  | some update =>
    cases update with
    | assignment a =>
      have written : a.Written ts := h
      obtain ⟨children, gives, accepts⟩ := accepts_assignment written sound
      refine ⟨_, .some (Tree.gives_forUpdate_assignment gives) rfl, by simp, ?_, fun _ vs => ?_⟩
      · rintro _ ⟨⟩ vs
        exact .node rfl (accepts _ vs (by decide)).left
      · exact refuses_target written sound (by decide)
    | incDec step =>
      have written : step.Written ts := h
      obtain ⟨children, gives, accepts⟩ := accepts_incDec written sound
      refine ⟨_, .some (Tree.gives_forUpdate_incDec gives) rfl, by simp, ?_, fun _ vs => ?_⟩
      · rintro _ ⟨⟩ vs
        exact .node rfl (.right (refuses_assignment written sound) (accepts _ vs (by decide)))
      · exact refuses_step written sound (by decide) fun op => by cases op <;> decide

/-! ## The header -/

section Header

variable {i c u : Option Tree}

/-- A header with the clauses that it has, whose lexemes are given, in front of others. -/
theorem takes_header (hi : TakesClause forInitClause ";" us i) (hc : TakesClause logicalOr ";" vs c)
    (hu : TakesClause forUpdateClause ")" ws u) (rest : List Lexeme) :
    Takes (call (Tree.header i.isSome c.isSome u.isSome))
      ("(".toList :: (us ++ ";".toList :: (vs ++ ";".toList :: (ws ++ ")".toList :: rest)))) rest
      [.node (Tree.header i.isSome c.isSome u.isSome) (i.toList ++ (c.toList ++ u.toList))] := by
  refine .node (Tree.header_plain _ _ _) ?_
  rw [Tree.body_header, Tree.headerPattern]
  have update : Takes (Pattern.perhaps u.isSome forUpdateClause [word ")"]) _ rest _ :=
    hu.goesOn (takes_word ")")
  have condition := hc.goesOn ((takes_word ";").before (by simp) update)
  have init := hi.goesOn ((takes_word ";").before (by simp) condition)
  have all := (takes_word "(").before (by simp) init
  simpa using all

theorem refuses_header {i' c' u' : Bool} (hi : TakesClause forInitClause ";" us i)
    (hc : TakesClause logicalOr ";" vs c) (hu : TakesClause forUpdateClause ")" ws u)
    (rest : List Lexeme) (different : ¬ (i' = i.isSome ∧ c' = c.isSome ∧ u' = u.isSome)) :
    Refuses (call (Tree.header i' c' u'))
      ("(".toList :: (us ++ ";".toList :: (vs ++ ";".toList :: (ws ++ ")".toList :: rest)))) := by
  refine .node (Tree.header_plain _ _ _) ?_
  rw [Tree.body_header, Tree.headerPattern]
  refine (takes_word "(").before_refused (by simp) ?_
  by_cases sameInit : i' = i.isSome
  · subst sameInit
    refine hi.stops ((takes_word ";").before_refused (by simp) ?_)
    by_cases sameCondition : c' = c.isSome
    · subst sameCondition
      refine hc.stops ((takes_word ";").before_refused (by simp) ?_)
      exact hu.differs (fun sameUpdate => different ⟨rfl, rfl, sameUpdate⟩) (by decide)
    · exact hc.differs sameCondition (by decide)
  · exact hi.differs sameInit (by decide)

end Header

/-- The alternatives of a header are the headers for all choices of clauses. -/
theorem mem_headers {b : Pattern} :
    b ∈ [call forInitCondUpdate, call forInitCond, call forInitUpdate, call forCondUpdate,
      call forInit, call forCond, call forUpdate, call forEmpty] ↔
      ∃ i c u, b = call (Tree.header i c u) := by
  constructor
  · intro mem
    simp only [List.mem_cons, List.not_mem_nil, or_false] at mem
    obtain rfl | rfl | rfl | rfl | rfl | rfl | rfl | rfl := mem
    · exact ⟨true, true, true, rfl⟩
    · exact ⟨true, true, false, rfl⟩
    · exact ⟨true, false, true, rfl⟩
    · exact ⟨false, true, true, rfl⟩
    · exact ⟨true, false, false, rfl⟩
    · exact ⟨false, true, false, rfl⟩
    · exact ⟨false, false, true, rfl⟩
    · exact ⟨false, false, false, rfl⟩
  · rintro ⟨i, c, u, rfl⟩
    cases i <;> cases c <;> cases u <;> decide

theorem accepts_forHeader {clauses : ForClauses} (h : clauses.Written ts)
    (sound : clauses.isWellFormed = true) :
    ∃ t, t.isPart = true ∧ t.Gives ForClauses.ofPhrase clauses ∧
      ∀ rest, Takes (call forHeader) (ts ++ rest) rest [t] := by
  obtain ⟨us, vs, ws, writtenI, writtenC, writtenU, rfl⟩ := h
  simp only [ForClauses.isWellFormed, Bool.and_eq_true] at sound
  obtain ⟨i, givesI, hi⟩ := takesClause_init writtenI sound.1.1
  obtain ⟨c, givesC, hc⟩ := takesClause_condition writtenC sound.1.2
  obtain ⟨u, givesU, hu⟩ := takesClause_update writtenU sound.2
  have gives := Tree.gives_clauses givesI givesC givesU
  rw [List.append_assoc] at gives
  refine ⟨_, Tree.header_isPart _ _ _ _, gives, fun rest => .group rfl ?_⟩
  have whole : "(".toList :: us ++ ";".toList :: vs ++ ";".toList :: ws ++ [")".toList] ++ rest =
      "(".toList :: (us ++ ";".toList :: (vs ++ ";".toList :: (ws ++ ")".toList :: rest))) := by simp
  rw [whole]
  refine takes_oneOf (mem_headers.mpr ⟨_, _, _, rfl⟩) (takes_header hi hc hu rest) ?_
  intro b mem other
  obtain ⟨i', c', u', rfl⟩ := mem_headers.mp mem
  refine refuses_header hi hc hu rest ?_
  rintro ⟨rfl, rfl, rfl⟩
  exact other rfl

end SyntaxTree
