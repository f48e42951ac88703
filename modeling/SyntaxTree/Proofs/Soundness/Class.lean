import SyntaxTree.Proofs.Soundness.Block

/-!
# Derived classes

The class, its method and the words in front of them.
-/

namespace SyntaxTree

open Pattern Rule Lexeme

variable {ts : List Lexeme} {trees : List Tree}

theorem access_of_admits {w : Lexeme} (h : access.admits w = true) :
    ∃ a : Access, w = a.keyword.toList := by
  obtain ⟨a, -, same⟩ := exists_of_admits [Access.publicAccess, .privateAccess] Access.keyword
    (by decide) (by decide) h
  exact ⟨a, same⟩

theorem qualifier_of_admits {w : Lexeme} (h : qualifier.admits w = true) :
    ∃ q : Qualifier, w = q.keyword.toList := by
  obtain ⟨q, -, same⟩ := exists_of_admits [Qualifier.static, .final] Qualifier.keyword
    (by decide) (by decide) h
  exact ⟨q, same⟩

theorem spells_modifier (h : Derives modifier.body ts trees) :
    ∃ m : Modifier, (Tree.node .modifier trees).Gives Modifier.ofPhrase m ∧ ts = m.lexemes := by
  have parts : DerivesEach [call access, optional (call qualifier)] ts trees :=
    derives_spaced.mp h
  obtain ⟨w, _, _, admitted, others, rfl, rfl⟩ := (each_token rfl).mp parts
  obtain ⟨us, _, trees', _, second, ⟨rfl, rfl⟩, rfl, rfl⟩ := others
  obtain ⟨a, rfl⟩ := access_of_admits admitted
  rw [derives_optional, derives_token rfl] at second
  rcases second with ⟨w', admitted', rfl, rfl⟩ | ⟨rfl, rfl⟩
  · obtain ⟨q, rfl⟩ := qualifier_of_admits admitted'
    exact ⟨⟨a, some q⟩, Tree.gives_modifier rfl, rfl⟩
  · exact ⟨⟨a, none⟩, Tree.gives_modifier rfl, rfl⟩

theorem spells_returnType (h : Derives returnType.body ts trees) :
    ∃ type : DataType, (Tree.node .returnType trees).Gives DataType.returnOfPhrase type ∧
      ts = [type.keyword.toList] := by
  rw [body, derives_choice, derives_token rfl, derives_token rfl] at h
  rcases h with ⟨w, admitted, rfl, rfl⟩ | ⟨w, admitted, rfl, rfl⟩
  · have word : w = "void".toList := by simpa [admits, words, symbols] using admitted
    have gives : (Tree.node .returnType [.token .voidType DataType.void.keyword.toList]).Gives
        DataType.returnOfPhrase .void := Tree.gives_returnType rfl
    rw [word]
    exact ⟨.void, gives, rfl⟩
  · obtain ⟨type, rfl, -⟩ := type_of_admits admitted
    exact ⟨type, Tree.gives_returnType rfl, rfl⟩

theorem spells_parameter (h : Derives parameter.body ts trees) :
    ∃ p : Parameter, (Tree.node .parameter trees).Gives Parameter.ofPhrase p ∧
      p.isWellFormed = true ∧ ts = p.lexemes := by
  have parts : DerivesEach [call dataType, optional (call arrayMarker), call ident] ts trees :=
    derives_spaced.mp h
  obtain ⟨w, _, _, word, others, rfl, rfl⟩ := (each_token rfl).mp parts
  obtain ⟨us, _, trees', _, marked, named, rfl, rfl⟩ := others
  obtain ⟨w', _, _, admitted, ⟨rfl, rfl⟩, rfl, rfl⟩ := (each_token rfl).mp named
  obtain ⟨type, rfl, sound⟩ := type_of_admits word
  have name : isName w' = true := admitted
  rw [derives_optional, derives_node rfl] at marked
  rcases marked with ⟨children, marker, rfl⟩ | ⟨rfl, rfl⟩
  · obtain ⟨_, inside, rfl⟩ := (each_word (by decide)).mp (derives_spaced.mp marker)
    obtain ⟨_, ⟨rfl, rfl⟩, rfl⟩ := (each_word (by decide)).mp inside
    refine ⟨⟨type, true, String.ofList w'⟩, Tree.gives_parameter [] rfl, ?_, ?_⟩
    · simp [Parameter.isWellFormed, sound, name]
    · simp [Parameter.lexemes]
  · refine ⟨⟨type, false, String.ofList w'⟩, Tree.gives_parameter [] rfl, ?_, ?_⟩
    · simp [Parameter.isWellFormed, sound, name]
    · simp [Parameter.lexemes]

theorem spells_methodDecl (h : Derives methodDecl.body ts trees) :
    ∃ method : MethodDecl, (Tree.node .methodDecl trees).GivesAlong MethodDecl.ofPhrase method ∧
      method.isWellFormed = true ∧ method.Written ts := by
  have parts : DerivesEach [call modifier, call returnType, call kwMain,
      word "(", call parameter, word ")", call block] ts trees := derives_spaced.mp h
  obtain ⟨us, _, children, _, front, typed, rfl, rfl⟩ := (each_node rfl).mp parts
  obtain ⟨vs, _, children', _, returned, main, rfl, rfl⟩ := (each_node rfl).mp typed
  obtain ⟨w, _, _, admitted, opened, rfl, rfl⟩ := (each_token rfl).mp main
  obtain ⟨_, declared, rfl⟩ := (each_word (by decide)).mp opened
  obtain ⟨ws, _, children'', _, param, closed, rfl, rfl⟩ := (each_node rfl).mp declared
  obtain ⟨_, last, rfl⟩ := (each_word (by decide)).mp closed
  obtain ⟨xs, _, statements, _, inside, ⟨rfl, rfl⟩, rfl, rfl⟩ := (each_node rfl).mp last
  obtain ⟨m, givesM, rfl⟩ := spells_modifier front
  obtain ⟨type, givesT, rfl⟩ := spells_returnType returned
  obtain ⟨p, givesP, soundP, rfl⟩ := spells_parameter param
  obtain ⟨b, ys, givesB, soundB, written, rfl⟩ := block_spells inside
  have word : w = "main".toList := by simpa [admits, words, symbols] using admitted
  refine ⟨⟨m, type, p, b⟩, Tree.gives_methodDecl givesM rfl givesT rfl givesP rfl givesB rfl, ?_,
    ys, written, ?_⟩
  · rw [MethodDecl.isWellFormed, soundP, soundB]
    rfl
  · rw [word]
    simp

theorem spells_classDecl (h : Derives classDecl.body ts trees) :
    ∃ decl : ClassDecl, (Tree.node .classDecl trees).GivesAlong ClassDecl.ofPhrase decl ∧
      decl.isWellFormed = true ∧ decl.Written ts := by
  have parts : DerivesEach [optional (call modifier), call kwClass, call ident,
      word "\x7b", call methodDecl, word "\x7d"] ts trees := derives_spaced.mp h
  obtain ⟨us, _, front, _, modified, others, rfl, rfl⟩ := parts
  obtain ⟨w, _, _, admitted, named, rfl, rfl⟩ := (each_token rfl).mp others
  obtain ⟨w', _, _, admitted', opened, rfl, rfl⟩ := (each_token rfl).mp named
  obtain ⟨_, inside, rfl⟩ := (each_word (by decide)).mp opened
  obtain ⟨vs, _, children, _, body, closed, rfl, rfl⟩ := (each_node rfl).mp inside
  obtain ⟨_, ⟨rfl, rfl⟩, rfl⟩ := (each_word (by decide)).mp closed
  obtain ⟨method, gives, sound, written⟩ := spells_methodDecl body
  have word : w = "class".toList := by simpa [admits, words, symbols] using admitted
  have name : isName w' = true := admitted'
  rw [derives_optional, derives_node rfl] at modified
  rcases modified with ⟨words, derived, rfl⟩ | ⟨rfl, rfl⟩
  · obtain ⟨m, givesM, rfl⟩ := spells_modifier derived
    refine ⟨⟨some m, String.ofList w', method⟩,
      Tree.gives_classDecl (some _) (.some givesM rfl) (by simp [Tree.rule]) gives, ?_,
      vs, written, ?_⟩
    · simp [ClassDecl.isWellFormed, name, sound]
    · simp [word]
  · refine ⟨⟨none, String.ofList w', method⟩,
      Tree.gives_classDecl none .none (by simp) gives, ?_, vs, written, ?_⟩
    · simp [ClassDecl.isWellFormed, name, sound]
    · simp [word]

/-- Around the class of a program nothing else is derived. -/
theorem spells_program (h : Derives program.body ts trees) :
    ∃ program : Program, (Tree.node .program trees).GivesAlong Program.ofPhrase program ∧
      program.isWellFormed = true ∧ program.Written ts := by
  obtain ⟨us, vs, _, _, first, behind, rfl, rfl⟩ := derives_seq.mp (derives_skipped_seq.mp h)
  obtain ⟨children, derived, rfl⟩ := (derives_node rfl).mp first
  obtain ⟨rest, stop, rfl⟩ := (derives_node rfl).mp (derives_skipped_seq.mp behind)
  obtain ⟨rfl, rfl⟩ := derives_absent.mp stop
  obtain ⟨root, gives, sound, written⟩ := spells_classDecl derived
  rw [List.append_nil]
  exact ⟨⟨root⟩, Tree.gives_program gives _, sound, written⟩

end SyntaxTree
