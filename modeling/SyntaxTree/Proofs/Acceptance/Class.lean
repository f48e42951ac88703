import SyntaxTree.Proofs.Acceptance.Block

/-!
# Written classes are read

The class and its method, with the words in front of them. A qualifier is looked
for behind every access word, so it matters that none follows by chance.
-/

namespace SyntaxTree

open Pattern Rule Lexeme

variable {ts us : List Lexeme}

theorem accepts_modifier (m : Modifier) :
    ∃ children, (Tree.node .modifier children).Gives Modifier.ofPhrase m ∧
      ∀ us, Refuses (call qualifier) us →
        Takes (call modifier) (m.lexemes ++ us) us [.node .modifier children] := by
  refine ⟨_, Tree.gives_modifier rfl, fun us bare => .node rfl ?_⟩
  have access (us : List Lexeme) : Takes (call access) (m.access.keyword.toList :: us) us
      [.token .access m.access.keyword.toList] := by
    refine takes_token rfl ?_ (by simp)
    cases m.access <;> decide
  rw [Modifier.lexemes]
  cases m.qualifier with
  | none => exact (access _).pair bare.optional
  | some q =>
    have qualifier : Takes (call qualifier) (q.keyword.toList :: us) us
        [.token .qualifier q.keyword.toList] := by
      refine takes_token rfl ?_ (by simp)
      cases q <;> decide
    exact (access _).pair qualifier.optional

theorem accepts_returnType (type : DataType) :
    ∃ children, (Tree.node .returnType children).Gives DataType.returnOfPhrase type ∧
      ∀ us, Takes (call returnType) (type.keyword.toList :: us) us [.node .returnType children] := by
  by_cases void : type = .void
  · subst void
    refine ⟨[.token .voidType DataType.void.keyword.toList], Tree.gives_returnType rfl,
      fun us => .node rfl ?_⟩
    exact (takes_keyword rfl (by decide) (by decide) us).left
  · have sound : type.isWellFormed = true := by simpa [DataType.isWellFormed] using void
    refine ⟨[.token .dataType type.keyword.toList], Tree.gives_returnType rfl,
      fun us => .node rfl (.right ?_ (takes_type sound us))⟩
    refine refuses_fixed ?_
    revert sound
    cases type <;> decide

theorem accepts_parameter {p : Parameter} (sound : p.isWellFormed = true) :
    ∃ children, (Tree.node .parameter children).Gives Parameter.ofPhrase p ∧
      ∀ us, Takes (call parameter) (p.lexemes ++ us) us [.node .parameter children] := by
  obtain ⟨type, isArray, name⟩ := p
  rw [Parameter.isWellFormed, Bool.and_eq_true] at sound
  have gives {children : List Tree} (h : children = .token .dataType type.keyword.toList ::
      (if isArray then [.node .arrayMarker []] else []) ++ [.token .ident name.toList]) :
      (Tree.node .parameter children).Gives Parameter.ofPhrase ⟨type, isArray, name⟩ := by
    have gives' := Tree.gives_parameter [] h
    rwa [String.ofList_toList] at gives'
  refine ⟨_, gives rfl, fun us => .node rfl ?_⟩
  cases isArray with
  | false =>
    have none : Refuses (call arrayMarker) (name.toList :: us) :=
      refuses_name sound.2 (by decide)
    exact (takes_type sound.1 _).then (none.optional.pair (takes_name sound.2 us))
  | true =>
    have marker : Takes (call arrayMarker) ("[".toList :: "]".toList :: name.toList :: us) _ _ :=
      .node rfl ((takes_word "[").pair (takes_word "]"))
    exact (takes_type sound.1 _).then (marker.optional.pair (takes_name sound.2 us))

theorem accepts_methodDecl {method : MethodDecl} (h : method.Written ts)
    (sound : method.isWellFormed = true) :
    ∃ children, (Tree.node .methodDecl children).GivesAlong MethodDecl.ofPhrase method ∧
      ∀ us, Takes (call methodDecl) (ts ++ us) us [.node .methodDecl children] := by
  obtain ⟨us, written, rfl⟩ := h
  rw [MethodDecl.isWellFormed, Bool.and_eq_true] at sound
  obtain ⟨words, givesM, takesM⟩ := accepts_modifier method.modifier
  obtain ⟨type, givesT, takesT⟩ := accepts_returnType method.returnType
  obtain ⟨param, givesP, takesP⟩ := accepts_parameter sound.1
  obtain ⟨body, part, givesB, takesB⟩ := (written.accepts sound.2).block
  refine ⟨[.node .modifier words, .node .returnType type, .token .kwMain "main".toList,
    .node .parameter param, body], Tree.gives_methodDecl givesM rfl givesT rfl givesP rfl givesB part,
    fun vs => .node rfl ?_⟩
  have main (us : List Lexeme) : Takes (call kwMain) ("main".toList :: us) us _ :=
    takes_keyword rfl (by decide) (by decide) us
  have bare (us : List Lexeme) :
      Refuses (call qualifier) (method.returnType.keyword.toList :: us) := by
    refine refuses_fixed ?_
    cases method.returnType <;> decide
  have decl : Takes methodDecl.body _ vs _ := (takesM _ (bare _)).then ((takesT _).then
    ((main _).then ((takes_word "(").then ((takesP _).then ((takes_word ")").pair (takesB vs))))))
  simpa using decl

theorem accepts_classDecl {decl : ClassDecl} (h : decl.Written ts)
    (sound : decl.isWellFormed = true) :
    ∃ children, (Tree.node .classDecl children).GivesAlong ClassDecl.ofPhrase decl ∧
      Takes (call classDecl) ts [] [.node .classDecl children] := by
  obtain ⟨m, name, method⟩ := decl
  obtain ⟨us, written, rfl⟩ := h
  rw [ClassDecl.isWellFormed, Bool.and_eq_true] at sound
  obtain ⟨body, gives, takes⟩ := accepts_methodDecl written sound.2
  have keyword (us : List Lexeme) : Takes (call kwClass) ("class".toList :: us) us
      [.token .kwClass "class".toList] := takes_keyword rfl (by decide) (by decide) us
  have inside := (keyword _).then ((takes_name sound.1 _).then ((takes_word "\x7b").then
    ((takes ["\x7d".toList]).pair (takes_word "\x7d"))))
  have given {words : Option Tree} (hm : Tree.GivesOption Modifier.ofPhrase words m)
      (rule : ∀ t ∈ words, t.rule = .modifier) :
      (Tree.node .classDecl (words.toList ++ [.token .kwClass "class".toList,
        .token .ident name.toList, .node .methodDecl body])).GivesAlong ClassDecl.ofPhrase
        ⟨m, name, method⟩ := by
    have gives' : (Tree.node .classDecl (words.toList ++ [.token .kwClass "class".toList,
        .token .ident name.toList, .node .methodDecl body])).GivesAlong ClassDecl.ofPhrase
        ⟨m, String.ofList name.toList, method⟩ := Tree.gives_classDecl words hm rule gives
    rwa [String.ofList_toList] at gives'
  cases m with
  | none =>
    refine ⟨_, given .none (by simp), .node rfl ?_⟩
    have none (us : List Lexeme) : Refuses (call modifier) ("class".toList :: us) :=
      refuses_fixed (by decide)
    exact (none _).optional.then inside
  | some m =>
    obtain ⟨words, givesM, takesM⟩ := accepts_modifier m
    refine ⟨_, given (.some givesM rfl) (by simp [Tree.rule]), .node rfl ?_⟩
    have bare (us : List Lexeme) : Refuses (call qualifier) ("class".toList :: us) :=
      refuses_fixed (by decide)
    have decl : Takes classDecl.body _ [] _ := (takesM _ (bare _)).optional.then inside
    simpa using decl

end SyntaxTree
