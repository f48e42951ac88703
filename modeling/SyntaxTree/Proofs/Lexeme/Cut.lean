import SyntaxTree.Proofs.Lexeme.Skipping

/-!
# Texts cut into lexemes

`cuts?` goes through a text once and takes the longest lexeme at every point.
`Spells` is the same as a relation between two points of a text and the lexemes
that stand between them, so that stretches of a text can be joined. It also asks
that no two signs touch, which the grammar never lets pass.

A gap at either end of a stretch does not count.
-/

namespace SyntaxTree.Lexeme

/-- A lexeme where it stands, with all the text behind it. -/
structure Cut where
  lexeme : Lexeme
  behind : List Char
  deriving DecidableEq, Repr

/-- Whether a plus or minus has another one directly behind it. -/
def touches (t : Lexeme) (behind : List Char) : Bool :=
  (t == ['+'] || t == ['-']) && behind.head?.any fun d => d == '+' || d == '-'

theorem length_skip_le (cs : List Char) : (skip cs).length ≤ cs.length := by
  simp [skip]

/-- Cut a text into lexemes, if nothing else stands in it than lexemes and gaps. -/
def cuts? (cs : List Char) : Option (List Cut) :=
  if (skip cs).isEmpty then some []
  else
    match _h : longest? (skip cs) with
    | some t =>
      (cuts? ((skip cs).drop t.length)).map fun cuts => ⟨t, (skip cs).drop t.length⟩ :: cuts
    | none => none
termination_by cs.length
decreasing_by
  obtain ⟨front, nonempty⟩ := longest?_isPrefix _h
  have positive : 0 < t.length := List.length_pos_iff.mpr nonempty
  have inside := front.length_le
  have shorter := length_skip_le cs
  simp only [List.length_drop]
  omega

/-- The lexemes of a text. -/
def lexemes? (cs : List Char) : Option (List Lexeme) :=
  (cuts? cs).map fun cuts => cuts.map Cut.lexeme

/-- Somewhere in the text two signs touch that are two lexemes. -/
def signsTouch (cs : List Char) : Bool :=
  (cuts? cs).any fun cuts => cuts.any fun cut => touches cut.lexeme cut.behind

/-- The lexemes between two points of a text, where no two signs touch. -/
inductive Spells : List Char → List Lexeme → List Char → Prop
  | done {s s' : List Char} (same : skip s = skip s') : Spells s [] s'
  | more {s rest s' : List Char} {t : Lexeme} {ts : List Lexeme} (longest : longest? (skip s) = some t)
      (split : skip s = t ++ rest) (free : touches t rest = false) (others : Spells rest ts s') :
      Spells s (t :: ts) s'

namespace Spells

variable {s m s' : List Char} {t : Lexeme} {ts us : List Lexeme}

theorem congr (h : Spells s ts s') (same : skip s = skip m) : Spells m ts s' := by
  cases h with
  | done same' => exact .done (same.symm.trans same')
  | more longest split free others =>
    rw [same] at longest split
    exact .more longest split free others

theorem trans (h : Spells s ts m) (h' : Spells m us s') : Spells s (ts ++ us) s' := by
  induction h with
  | done same => exact h'.congr same.symm
  | more longest split free _ ih => exact .more longest split free (ih h')

theorem single {rest : List Char} (longest : longest? (t ++ rest) = some t)
    (settled : skip (t ++ rest) = t ++ rest) (free : touches t rest = false) :
    Spells (t ++ rest) [t] rest := by
  refine .more ?_ settled free (.done rfl)
  rwa [settled]

/-- At a point where no gap stands, the first lexeme stands there and the others behind it. -/
theorem cons_inv (h : Spells s (t :: ts) s') (settled : skip s = s) :
    ∃ rest, s = t ++ rest ∧ longest? s = some t ∧ touches t rest = false ∧ Spells rest ts s' := by
  cases h with
  | more longest split free others =>
    rw [settled] at longest split
    exact ⟨_, split, longest, free, others⟩

end Spells

theorem cuts?_of_skip_nil {cs : List Char} (h : skip cs = []) : cuts? cs = some [] := by
  rw [cuts?, h]
  rfl

theorem cuts?_of_longest {cs t rest : List Char} (longest : longest? (skip cs) = some t)
    (split : skip cs = t ++ rest) :
    cuts? cs = (cuts? rest).map fun cuts => ⟨t, rest⟩ :: cuts := by
  have nonempty := (longest?_isPrefix longest).2
  have some' : (skip cs).isEmpty = false := by
    rw [split]
    simp [nonempty]
  have behind : (skip cs).drop t.length = rest := by
    rw [split, List.drop_left]
  rw [cuts?, some', if_neg (by simp)]
  split
  · rename_i found
    rw [longest] at found
    cases found
    rw [behind]
  · rename_i found
    rw [longest] at found
    cases found

/-- A text is spelled to its end by its lexemes, if no two signs touch in it. -/
theorem spells_nil_iff {cs : List Char} {ts : List Lexeme} :
    Spells cs ts [] ↔ lexemes? cs = some ts ∧ signsTouch cs = false := by
  rw [lexemes?, signsTouch]
  constructor
  · intro h
    generalize stop : ([] : List Char) = s' at h
    induction h with
    | done same =>
      subst stop
      simp [cuts?_of_skip_nil (same.trans skip_nil)]
    | more longest split free _ ih =>
      obtain ⟨cut, apart⟩ := ih stop
      obtain ⟨cuts, found, rfl⟩ := Option.map_eq_some_iff.mp cut
      rw [cuts?_of_longest longest split]
      rw [found] at apart ⊢
      simpa [free] using apart
  · rintro ⟨cut, apart⟩
    obtain ⟨cuts, found, rfl⟩ := Option.map_eq_some_iff.mp cut
    rw [found] at apart
    fun_induction cuts? cs generalizing cuts with
    | case1 cs none =>
      cases found
      exact .done (by simpa using none)
    | case2 cs some' t longest ih =>
      obtain ⟨others, found', rfl⟩ := Option.map_eq_some_iff.mp found
      simp only [Option.any_some, List.any_cons, Bool.or_eq_false_iff] at apart
      obtain ⟨rest, split⟩ := (longest?_isPrefix longest).1
      refine .more longest ?_ apart.1 (ih others apart.2 found' ?_)
      · rw [← split, List.drop_left]
      · rw [found', Option.map_some]
    | case3 => cases found

end SyntaxTree.Lexeme
