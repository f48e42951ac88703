import Mathlib.Algebra.Ring.Nat
import SyntaxTree.Proofs.Drawing.Source
import SyntaxTree.Proofs.Leaves.Source

/-!
# The lines of a drawing

Every node is drawn in a row of its own, and a row is one line if its caption is.
Labels, names and numbers hold no line feeds. A string literal may hold some, since
a backslash takes the next character with it, whatever it is. So a drawing has one
line for each node and one more for each line feed in a string literal.
-/

namespace SyntaxTree

open Lexeme

namespace Lexeme

variable {cs t : List Char} {s s' : List Char} {ts : List Lexeme}

/-- How many line feeds a lexeme holds. -/
def feeds (t : Lexeme) : Nat := t.count '\n'

theorem feeds_eq_zero (h : '\n' ∉ t) : feeds t = 0 := List.count_eq_zero_of_not_mem h

theorem feed_not_mem_of_symbol (h : symbol? cs = some t) : '\n' ∉ t := by
  have single {c : Char} (mem : singles.contains c = true) : '\n' ∉ [c] := by
    rintro feed
    rw [← List.mem_singleton.mp feed] at mem
    exact absurd mem (by decide)
  unfold symbol? at h
  split at h
  · cases h
  · split at h <;> cases h
    exact single ‹_›
  · split at h
    · cases h
      rename_i c d _ double
      obtain ⟨pair, mem, same⟩ := List.any_eq_true.mp double
      rw [← eq_of_beq same]
      have every : ∀ pair ∈ pairs, '\n' ∉ pair.toList := by decide
      exact every pair mem
    · split at h <;> cases h
      exact single ‹_›

/-- Of all lexemes only a string literal holds line feeds. -/
theorem string?_of_feed (h : longest? cs = some t) (feed : '\n' ∈ t) : string? t = some t := by
  rcases longer_eq_some h with word | h
  · split at word <;> cases word
    exact absurd (List.all_eq_true.mp (all_word cs) _ feed) (by decide)
  rcases longer_eq_some h with number | h
  · exact absurd feed (feed_not_mem_of_number (number?_idem number))
  rcases longer_eq_some h with string | symbol
  · exact string?_idem string
  · exact absurd feed (feed_not_mem_of_symbol symbol)

theorem Spells.string?_of_feed (h : Spells s ts s') (mem : t ∈ ts) (feed : '\n' ∈ t) :
    string? t = some t := by
  induction h with
  | done => cases mem
  | more longest _ _ _ ih =>
    rcases List.mem_cons.mp mem with rfl | mem
    · exact Lexeme.string?_of_feed longest feed
    · exact ih mem

/-- Every line feed stands behind a backslash. -/
def IsEscaped (t : List Char) : Prop :=
  ∀ front back, t = front ++ '\n' :: back → front.getLast? = some '\\'

namespace IsEscaped

variable {c : Char}

theorem cons (h : IsEscaped t) (plain : c ≠ '\n') : IsEscaped (c :: t) := by
  rintro (_ | ⟨_, front⟩) back same
  · exact absurd (List.cons.inj same).1 plain
  · have behind := h front back (List.cons.inj same).2
    cases front with
    | nil => cases behind
    | cons => simpa using behind

theorem escape (h : IsEscaped t) : IsEscaped ('\\' :: c :: t) := by
  rintro (_ | ⟨_, _ | ⟨_, front⟩⟩) back same
  · cases same
  · rw [← (List.cons.inj same).1]
    rfl
  · obtain ⟨-, rest⟩ := List.cons.inj same
    have behind := h front back (List.cons.inj rest).2
    cases front with
    | nil => cases behind
    | cons => simpa using behind

end IsEscaped

theorem isEscaped_of_stringTail (h : stringTail? cs = some t) : IsEscaped t := by
  have nil : IsEscaped [] := fun front back same => by cases front <;> cases same
  fun_induction stringTail? cs generalizing t with
  | case1 => cases h
  | case2 =>
    cases h
    exact nil.cons (by decide)
  | case3 => cases h
  | case4 c cs ih =>
    obtain ⟨t, found, rfl⟩ := Option.map_eq_some_iff.mp h
    exact (ih found).escape
  | case5 c cs quote feed escape ih =>
    obtain ⟨t, found, rfl⟩ := Option.map_eq_some_iff.mp h
    exact (ih found).cons feed

theorem isEscaped_of_string (h : string? cs = some t) : IsEscaped t := by
  obtain ⟨rest, tail, rfl, rfl, found⟩ := string?_eq_some h
  exact (isEscaped_of_stringTail found).cons (by decide)

/-- Lexemes that no diagram keeps hold no line feeds. -/
theorem sum_feeds_kept (h : ∀ t ∈ ts, '\n' ∈ t → isKept t = true) :
    ((ts.filter isKept).map feeds).sum = (ts.map feeds).sum := by
  induction ts with
  | nil => rfl
  | cons t ts ih =>
    obtain ⟨first, others⟩ := List.forall_mem_cons.mp h
    by_cases kept : isKept t = true
    · rw [List.filter_cons_of_pos kept, List.map_cons, List.map_cons, List.sum_cons, List.sum_cons,
        ih others]
    · rw [List.filter_cons_of_neg kept, List.map_cons, List.sum_cons, ih others,
        feeds_eq_zero fun feed => kept (first feed), Nat.zero_add]

end Lexeme

namespace Diagram

mutual

/-- The number of nodes. -/
def size : Diagram → Nat
  | leaf _ _ => 1
  | branch _ children => 1 + sizeAll children

def sizeAll : List Diagram → Nat
  | [] => 0
  | d :: rest => size d + sizeAll rest

end

/-- How many line feeds the leaves take from the source. -/
def leafFeeds (d : Diagram) : Nat := (d.leafLexemes.map feeds).sum

def leafFeedsAll (ds : List Diagram) : Nat := (ds.map leafFeeds).sum

theorem leafFeedsAll_cons (d : Diagram) (rest : List Diagram) :
    leafFeedsAll (d :: rest) = d.leafFeeds + leafFeedsAll rest := by
  rw [leafFeedsAll, List.map_cons, List.sum_cons, ← leafFeedsAll]

theorem leafFeeds_branch (label : String) (children : List Diagram) :
    (branch label children).leafFeeds = leafFeedsAll children := by
  induction children with
  | nil => rfl
  | cons d rest ih =>
    rw [leafFeedsAll_cons, ← ih]
    simp [leafFeeds, leafLexemes, leaves, leavesAll]

/-- Of a legible leaf only its value may hold line feeds, and then it is a string literal. -/
theorem feeds_caption_leaf {label value : String} (legible : (leaf label value).isLegible = true) :
    feeds (leaf label value).caption.toList = (leaf label value).leafFeeds := by
  rw [isLegible, Bool.and_eq_true, isLeafLabel, decide_eq_true_eq] at legible
  obtain ⟨⟨plain, -⟩, valued⟩ := legible
  have row : feeds (leaf label value).caption.toList = feeds value.toList := by
    have labelled : List.count '\n' label.toList = 0 := List.count_eq_zero_of_not_mem plain
    simp [caption, feeds, labelled]
  rw [row, leafFeeds, leafLexemes_leaf]
  rw [isValueOf] at valued
  split at valued
  · rename_i literal
    subst literal
    simp [leafLexeme]
  · have none : feeds value.toList = 0 := feeds_eq_zero (of_decide_eq_true valued)
    rw [none]
    have inside : feeds (value.toList.takeWhile fun c => c != '[') = 0 :=
      feeds_eq_zero fun feed => of_decide_eq_true valued ((List.takeWhile_prefix _).mem feed)
    unfold leafLexeme
    split
    · rfl
    · rename_i same
      cases same
      simp [inside]
    · rename_i same
      cases same
      simp [none]

theorem feeds_caption_branch {label : String} {children : List Diagram}
    (legible : (branch label children).isLegible = true) :
    feeds (branch label children).caption.toList = 0 := by
  rw [isLegible, Bool.and_eq_true, isBranchLabel, decide_eq_true_eq] at legible
  exact feeds_eq_zero legible.1.1

/-- The first row of a node, and behind it the rows of its children. -/
theorem feeds_rows_toList (columns : String) (last : Bool) (d : Diagram)
    (plain : '\n' ∉ columns.toList) : feeds (rows columns last d).toList =
      feeds d.caption.toList + 1 + feeds (rowsAll (columns ++ column last) d.children).toList := by
  have around : List.count '\n' columns.toList = 0 := List.count_eq_zero_of_not_mem plain
  have mark : List.count '\n' (glyph last).toList = 0 := by cases last <;> decide
  rw [rows_toList, feeds, List.count_append, List.count_append, List.count_append,
    List.count_cons_self, around, mark, feeds, feeds]
  omega

theorem feed_not_mem_column {columns : String} (plain : '\n' ∉ columns.toList) (last : Bool) :
    '\n' ∉ (columns ++ column last).toList := by
  have inner : '\n' ∉ (column last).toList := by cases last <;> decide
  simp [plain, inner]

mutual

/-- The rows of a legible diagram hold one line feed for each node, and those of its leaves. -/
theorem feeds_rows (d : Diagram) {columns : String} (last : Bool) (legible : d.isLegible = true)
    (plain : '\n' ∉ columns.toList) :
    feeds (rows columns last d).toList = d.size + d.leafFeeds := by
  rw [feeds_rows_toList columns last d plain]
  cases d with
  | leaf label value =>
    have none : feeds (rowsAll (columns ++ column last) (leaf label value).children).toList = 0 :=
      rfl
    rw [feeds_caption_leaf legible, none, size]
    omega
  | branch label ds =>
    rw [feeds_caption_branch legible, leafFeeds_branch, size]
    rw [isLegible, Bool.and_eq_true] at legible
    have below := feeds_rowsAll ds legible.2 (feed_not_mem_column plain last)
    rw [children, below]
    omega

theorem feeds_rowsAll (ds : List Diagram) {columns : String} (legible : isLegibleAll ds = true)
    (plain : '\n' ∉ columns.toList) :
    feeds (rowsAll columns ds).toList = sizeAll ds + leafFeedsAll ds := by
  cases ds with
  | nil => rfl
  | cons d rest =>
    rw [isLegibleAll, Bool.and_eq_true] at legible
    have first := feeds_rows d rest.isEmpty legible.1 plain
    have others := feeds_rowsAll rest legible.2 plain
    rw [feeds] at first others
    rw [rowsAll_toList, feeds, List.count_append, first, others, sizeAll, leafFeedsAll_cons]
    omega

end

theorem feeds_render {d : Diagram} (legible : d.isLegible = true) :
    feeds d.render.toList = d.size + d.leafFeeds :=
  feeds_rows d true legible (by decide)

end Diagram

open Diagram (feeds_render)

/-- The line feeds of a drawing, counted by the nodes and by the lexemes of the source. -/
theorem Source.feeds_of_parse {source : Source} {tally after : Tally} {program : Program}
    (h : source.parse tally = (.ok program, after)) : ∃ ts, lexemes? source.text.toList = some ts ∧
      (∀ t ∈ ts, '\n' ∈ t → string? t = some t) ∧
      feeds program.toDiagram.render.toList = program.toDiagram.size + (ts.map feeds).sum := by
  obtain ⟨ts, spells, written, sound⟩ := Source.spells_of_parse h
  have literal : ∀ t ∈ ts, '\n' ∈ t → string? t = some t := fun t mem => spells.string?_of_feed mem
  refine ⟨ts, (spells_nil_iff.mp spells).1, literal, ?_⟩
  have order : leafOrder ts = program.toDiagram.leafLexemes :=
    (ClassDecl.Written.yields written sound).leafOrder_eq
  have perm : program.toDiagram.leafLexemes.Perm (ts.filter isKept) := by
    rw [← order]
    exact (nameFirst_perm ts).filter isKept
  have kept : ∀ t ∈ ts, '\n' ∈ t → isKept t = true := by
    intro t mem feed
    simp [isKept, literal t mem feed]
  rw [feeds_render (Program.isLegible_toDiagram sound), Diagram.leafFeeds,
    (perm.map feeds).sum_nat, sum_feeds_kept kept]

/-- The drawing of an accepted source holds one line feed for each node, and those that stand in the
string literals of the source, each behind a backslash. So every node takes exactly one line unless
a string literal goes on over several. -/
theorem drawing_takes_line_per_node {source : Source} {tally after : Tally} {program : Program}
    (h : source.parse tally = (.ok program, after)) : ∃ ts, lexemes? source.text.toList = some ts ∧
      feeds program.toDiagram.render.toList = program.toDiagram.size + (ts.map feeds).sum ∧
      (∀ t ∈ ts, '\n' ∈ t → string? t = some t ∧ IsEscaped t) ∧
      (feeds program.toDiagram.render.toList = program.toDiagram.size ↔ ∀ t ∈ ts, '\n' ∉ t) := by
  obtain ⟨ts, cut, literal, drawn⟩ := Source.feeds_of_parse h
  refine ⟨ts, cut, drawn, ?_, ?_⟩
  · intro t mem feed
    exact ⟨literal t mem feed, isEscaped_of_string (literal t mem feed)⟩
  · rw [drawn, Nat.add_eq_left, List.sum_eq_zero_iff_forall_eq_nat]
    simp [feeds, List.count_eq_zero]

/-- A source with a string literal over two lines. -/
def Source.twoLines : Source :=
  ⟨"A.java", "class A\x7bpublic void main(int p)\x7bx=\"\\\n\";\x7d\x7d"⟩

theorem Source.twoLines_accepted :
    ∃ program after, Source.twoLines.parse .fresh = (.ok program, after) :=
  Source.exists_of_isOk (by decide +kernel)

theorem Source.twoLines_feeds :
    (lexemes? Source.twoLines.text.toList).map (fun ts => (ts.map feeds).sum) = some 1 := by
  decide +kernel

theorem drawing_takes_line_per_node_twoLines : ∃ program after,
    Source.twoLines.parse .fresh = (.ok program, after) ∧
      feeds program.toDiagram.render.toList = program.toDiagram.size + 1 := by
  obtain ⟨program, after, run⟩ := Source.twoLines_accepted
  obtain ⟨ts, cut, drawn, -⟩ := drawing_takes_line_per_node run
  have one := Source.twoLines_feeds
  rw [cut, Option.map_some, Option.some_inj] at one
  rw [one] at drawn
  exact ⟨program, after, run, drawn⟩

/-- A node may take more than one line: a backslash takes a line feed into a string literal. -/
theorem literal_breaks_line :
    ¬ ∀ (source : Source) (tally after : Tally) (program : Program),
      source.parse tally = (.ok program, after) →
        feeds program.toDiagram.render.toList = program.toDiagram.size := by
  intro claim
  obtain ⟨program, after, run⟩ := Source.twoLines_accepted
  obtain ⟨ts, cut, -, drawn⟩ := Source.feeds_of_parse run
  have one := Source.twoLines_feeds
  rw [cut, Option.map_some, Option.some_inj] at one
  rw [claim _ _ after program run, one] at drawn
  omega

end SyntaxTree
