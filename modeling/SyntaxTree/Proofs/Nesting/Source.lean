import SyntaxTree.Proofs.Nesting.Reading
import SyntaxTree.Proofs.Soundness.Construct

/-!
# The tally of a run of parses

A class has one method, and its body is the one block that nothing encloses. So
parsing a source that is accepted leaves the nesting of its program on the tally,
and parsing one that is rejected leaves one more error. This settles any sequence
of parses that share a tally.
-/

namespace SyntaxTree

open Pattern Rule TallyReader

variable {p : Phrase} {t : Tally}

theorem MethodDecl.leaves (p : Phrase) (t : Tally) :
    (MethodDecl.ofPhrase p).Leaves t fun method after => after = t.reach method.nesting := by
  rw [MethodDecl.ofPhrase]
  split
  · rename_i words type declared statements _
    refine Leaves.bind (leaves_lift fun modifier _ => ?_)
    refine Leaves.bind (leaves_lift fun returnType _ => ?_)
    refine Leaves.bind (leaves_lift fun parameter _ => ?_)
    refine Leaves.bind ((Block.leaves statements.phrase t).mono ?_)
    rintro body _ rfl
    exact leaves_pure rfl
  · exact leaves_refuse

namespace ClassDecl

/-- Only the method of a class opens blocks. -/
theorem Found.leaves_add {found : Found} (other : p.rule ≠ .methodDecl) :
    (found.add p).Leaves t fun found' after => after = t ∧ found'.method = found.method := by
  rw [Found.add]
  split
  · exact Leaves.bind (leaves_lift fun modifier _ => leaves_pure ⟨rfl, rfl⟩)
  · exact leaves_pure ⟨rfl, rfl⟩
  · exact absurd ‹_› other
  · exact leaves_refuse

theorem Found.leaves_add_method {found : Found} (method : p.rule = .methodDecl) :
    (found.add p).Leaves t fun found' after =>
      ∃ method, found'.method = some method ∧ after = t.reach method.nesting := by
  rw [Found.add, method]
  refine Leaves.bind ((MethodDecl.leaves p t).mono ?_)
  rintro method _ rfl
  exact leaves_pure ⟨method, rfl, rfl⟩

theorem Found.leaves_foldlM {found : Found} {parts : List Phrase}
    (others : ∀ part ∈ parts, part.rule ≠ .methodDecl) :
    (parts.foldlM Found.add found).Leaves t fun found' after =>
      after = t ∧ found'.method = found.method := by
  induction parts generalizing found with
  | nil => exact leaves_pure ⟨rfl, rfl⟩
  | cons part rest ih =>
    obtain ⟨other, others⟩ := List.forall_mem_cons.mp others
    rw [List.foldlM_cons]
    refine Leaves.bind ((Found.leaves_add other).mono ?_)
    rintro found' _ ⟨rfl, same⟩
    exact (ih others).mono fun _ _ ⟨after, same'⟩ => ⟨after, same'.trans same⟩

/-- A class whose last part is its only method leaves the nesting of that method. -/
theorem leaves {front : List Phrase} {last : Phrase}
    (parts : p.parts.map Phrase.Child.phrase = front ++ [last])
    (others : ∀ part ∈ front, part.rule ≠ .methodDecl) (method : last.rule = .methodDecl) :
    (ClassDecl.ofPhrase p).Leaves t fun decl after => after = t.reach decl.method.nesting := by
  rw [ClassDecl.ofPhrase, parts, List.foldlM_append]
  have found : ((front.foldlM Found.add ⟨none, none, none⟩) >>= fun found =>
      [last].foldlM Found.add found).Leaves t fun found after =>
        ∃ method, found.method = some method ∧ after = t.reach method.nesting := by
    refine Leaves.bind ((Found.leaves_foldlM others).mono ?_)
    rintro found _ ⟨rfl, -⟩
    rw [List.foldlM_cons]
    refine Leaves.bind ((Found.leaves_add_method method).mono ?_)
    intro found after h
    exact leaves_pure h
  refine Leaves.bind (found.mono ?_)
  rintro found _ ⟨method, some, rfl⟩
  refine Leaves.bind (leaves_lift fun name _ => ?_)
  refine Leaves.bind (leaves_lift fun method' ok => leaves_pure ?_)
  rw [some] at ok
  cases ok
  rfl

end ClassDecl

/-- The trees of a class end in its method, and no other one is a method. -/
theorem ends_in_method {ts : List Lexeme} {trees : List Tree} (h : Derives classDecl.body ts trees) :
    ∃ front method, trees = front ++ [.node .methodDecl method] ∧
      ∀ tree ∈ front, tree.rule ≠ .methodDecl := by
  have parts : DerivesEach [optional (call modifier), call kwClass, call ident,
      word "\x7b", call methodDecl, word "\x7d"] ts trees := derives_spaced.mp h
  obtain ⟨us, _, front, _, modified, others, rfl, rfl⟩ := parts
  obtain ⟨w, _, _, -, named, rfl, rfl⟩ := (each_token rfl).mp others
  obtain ⟨w', _, _, -, opened, rfl, rfl⟩ := (each_token rfl).mp named
  obtain ⟨_, inside, rfl⟩ := (each_word (by decide)).mp opened
  obtain ⟨vs, _, method, _, -, closed, rfl, rfl⟩ := (each_node rfl).mp inside
  obtain ⟨_, ⟨rfl, rfl⟩, rfl⟩ := (each_word (by decide)).mp closed
  refine ⟨front ++ [.token .kwClass w, .token .ident w'], method, by simp, ?_⟩
  rw [derives_optional, derives_node rfl] at modified
  rcases modified with ⟨words, -, rfl⟩ | ⟨-, rfl⟩ <;> simp [Tree.rule]

/-- The parts of a phrase with such trees. -/
theorem exists_parts {front method : List Tree}
    (h : p.tree = .node .classDecl (front ++ [.node .methodDecl method]))
    (others : ∀ tree ∈ front, tree.rule ≠ .methodDecl) :
    ∃ parts last, p.parts.map Phrase.Child.phrase = parts ++ [last] ∧
      (∀ part ∈ parts, part.rule ≠ .methodDecl) ∧ last.rule = .methodDecl := by
  have parts := Phrase.parts_of_node h
  rw [List.filter_append] at parts
  obtain ⟨first, behind, split, front', behind'⟩ := List.map_eq_append_iff.mp parts
  obtain ⟨last, rfl, tree⟩ := List.map_eq_singleton_iff.mp behind'
  refine ⟨first.map Phrase.Child.phrase, last.phrase, by simp [split], ?_, (Phrase.of_node tree).1⟩
  intro part mem
  obtain ⟨child, mem', rfl⟩ := List.mem_map.mp mem
  have inside : child.phrase.tree ∈ front.filter Tree.isPart := by
    rw [← front']
    exact List.mem_map_of_mem mem'
  rw [← Phrase.rule_tree]
  exact others _ (List.mem_filter.mp inside).1

/-- The phrase of a program leaves the nesting of what is read from it. -/
theorem Program.leaves {text : List Char} (h : Rule.program.phrases text = .ok [p]) :
    (Program.ofPhrase p).Leaves t fun program after => after = t.reach program.nesting := by
  obtain ⟨q, reads⟩ := reads_of_phrases h
  have spaced : (call Rule.program).isSpaced true = true := by decide
  obtain ⟨ts, derived, -⟩ := reads.derives spaced
  obtain ⟨children, body, same⟩ := (derives_node rfl).mp derived
  obtain ⟨us, vs, _, _, first, -, rfl, rfl⟩ := derives_seq.mp (derives_skipped_seq.mp body)
  obtain ⟨trees, inside, rfl⟩ := (derives_node rfl).mp first
  obtain ⟨front, method, rfl, others⟩ := ends_in_method inside
  have tree : p.tree = .node .program _ := (List.cons.inj same).1
  obtain ⟨decl, rest, children, root, -⟩ := List.map_eq_cons_iff.mp (Phrase.of_node tree).2
  have found : p.children.find? (fun part => part.rule == .classDecl) = some decl := by
    rw [children, List.find?_cons_of_pos]
    simp [(Phrase.of_node root).1]
  obtain ⟨parts, last, split, others', method'⟩ := exists_parts root others
  rw [Program.ofPhrase, found]
  refine Leaves.bind ((ClassDecl.leaves split others' method').mono ?_)
  rintro decl _ rfl
  exact leaves_pure rfl

namespace Source

/-- What a parse leaves on the tally, as an accepted and as a rejected source. -/
theorem parse_leaves (source : Source) :
    (∃ program, ∀ tally, source.parse tally = (.ok program, tally.reach program.nesting)) ∨
      ∃ error, ∀ tally,
        source.parse tally = (.error (.rejected source.name error), tally.recordError) := by
  rcases source.parse_cases with ⟨error, rejected⟩ | ⟨p, program, found, returns, -⟩
  · exact .inr ⟨error, rejected⟩
  · refine .inl ⟨program, fun tally => ?_⟩
    obtain ⟨after, run⟩ := returns tally
    unfold parse
    rw [found]
    dsimp only
    rw [run, Program.leaves found program after run]

/-- What a source is parsed as, whatever its tally counts. -/
def outcome (source : Source) : Except Fault Program := (source.parse .fresh).1

/-- Sources parsed one after the other, with one tally for all of them. -/
def parseAll : List Source → Tally → List (Except Fault Program) × Tally
  | [], tally => ([], tally)
  | source :: rest, tally =>
    let (outcome, middle) := source.parse tally
    let (outcomes, after) := parseAll rest middle
    (outcome :: outcomes, after)

/-- The number of sources that were rejected. -/
def rejections (outcomes : List (Except Fault Program)) : Nat :=
  outcomes.countP fun outcome => !outcome.isOk

/-- The deepest nesting of the programs that were read, or zero if there are none. -/
def deepestNesting (outcomes : List (Except Fault Program)) : Nat :=
  ((outcomes.filterMap Except.toOption).map Program.nesting).foldr max 0

theorem parseAll_eq (sources : List Source) (tally : Tally) :
    parseAll sources tally = (sources.map outcome,
      { tally.reach (deepestNesting (sources.map outcome)) with
        errors := tally.errors + rejections (sources.map outcome) }) := by
  induction sources generalizing tally with
  | nil => rfl
  | cons source rest ih =>
    rcases source.parse_leaves with ⟨program, accepted⟩ | ⟨error, rejected⟩
    · have read : source.outcome = .ok program := by rw [outcome, accepted]
      have deepest : deepestNesting (.ok program :: rest.map outcome) =
          max program.nesting (deepestNesting (rest.map outcome)) := rfl
      have count : rejections (.ok program :: rest.map outcome) =
          rejections (rest.map outcome) := rfl
      rw [parseAll, accepted, List.map_cons, read, deepest, count, ← Tally.reach_reach]
      dsimp only
      rw [ih, Tally.errors_reach]
    · have refused : source.outcome = .error (.rejected source.name error) := by
        rw [outcome, rejected]
      have deepest : deepestNesting (.error (.rejected source.name error) :: rest.map outcome) =
          deepestNesting (rest.map outcome) := rfl
      have count : rejections (.error (.rejected source.name error) :: rest.map outcome) =
          rejections (rest.map outcome) + 1 := by
        rw [rejections, List.countP_cons_of_pos rfl, rejections]
      rw [parseAll, rejected, List.map_cons, refused, deepest, count]
      dsimp only
      rw [ih]
      cases deepestNesting (rest.map outcome) <;>
        simp [Tally.reach, Tally.recordError, Nat.add_assoc, Nat.add_comm 1]

end Source

/-- A parse counts every block of the program once and keeps the tally otherwise; a rejected
source counts one error. So a sequence of parses ends outside of every block, with one error for
each rejected source and the deepest nesting among the programs that were read. -/
theorem tally_follows_parses :
    (∀ (source : Source) (tally : Tally),
      (∃ program, source.parse tally = (.ok program,
          ⟨tally.depth, max tally.deepest
            (tally.depth + 1 + Block.nesting program.root.method.body), tally.errors⟩)) ∨
        ∃ error, source.parse tally = (.error (.rejected source.name error),
          ⟨tally.depth, tally.deepest, tally.errors + 1⟩)) ∧
      ∀ sources : List Source, Source.parseAll sources .fresh = (sources.map Source.outcome,
        ⟨0, Source.deepestNesting (sources.map Source.outcome),
          Source.rejections (sources.map Source.outcome)⟩) := by
  constructor
  · intro source tally
    rcases source.parse_leaves with ⟨program, accepted⟩ | ⟨error, rejected⟩
    · refine .inl ⟨program, ?_⟩
      rw [accepted, Program.nesting, MethodDecl.nesting, Tally.reach, Nat.add_right_comm]
    · exact .inr ⟨error, rejected tally⟩
  · intro sources
    rw [Source.parseAll_eq]
    cases Source.deepestNesting (sources.map Source.outcome) <;> simp [Tally.reach, Tally.fresh]

end SyntaxTree
