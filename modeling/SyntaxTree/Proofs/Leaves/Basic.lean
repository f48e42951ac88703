import SyntaxTree.Proofs.Writing.WellFormed

/-!
# Lexemes that become leaves

A diagram keeps the names, numbers, string literals, types, modifiers and steps of
a source as the values of its leaves, and drops everything else. In the
declaration of an array the dimensions may stand before the name, while a diagram
has the name first. `nameFirst` rearranges lexemes in this way, without a look at
the grammar.
-/

namespace SyntaxTree

namespace Lexeme

def types : List String := ["int", "char", "double", "String"]

def isType (t : Lexeme) : Bool := types.any fun type => type.toList == t

/-- The fixed lexemes that are kept as leaves. -/
def leafWords : List String :=
  ["public", "private", "static", "final", "int", "char", "double", "String", "void", "++", "--"]

/-- Whether a lexeme is kept as the value of a leaf. -/
def isKept (t : Lexeme) : Bool :=
  isName t || number? t == some t || string? t == some t ||
    leafWords.any fun word => word.toList == t

/-- Brackets at the start, with at most one lexeme in each of them, and what comes behind. -/
def brackets : List Lexeme → List Lexeme × List Lexeme
  | ['['] :: [']'] :: ts => (['['] :: [']'] :: (brackets ts).1, (brackets ts).2)
  | ['['] :: t :: [']'] :: ts => (['['] :: t :: [']'] :: (brackets ts).1, (brackets ts).2)
  | ts => ([], ts)

theorem brackets_append (ts : List Lexeme) : (brackets ts).1 ++ (brackets ts).2 = ts := by
  fun_induction brackets ts with
  | case1 ts ih => simp [ih]
  | case2 t ts _ ih => simp [ih]
  | case3 => rfl

/-- A name behind brackets comes to the front of them. -/
def hoist (ts : List Lexeme) : List Lexeme :=
  match (brackets ts).2 with
  | [] => ts
  | name :: rest => if isName name then name :: (brackets ts).1 ++ rest else ts

theorem hoist_perm (ts : List Lexeme) : (hoist ts).Perm ts := by
  have whole := brackets_append ts
  unfold hoist
  cases behind : (brackets ts).2 with
  | nil => exact .refl ts
  | cons name rest =>
    rw [behind] at whole
    dsimp only
    split
    · have order : (name :: ((brackets ts).1 ++ rest)).Perm ((brackets ts).1 ++ name :: rest) :=
        List.perm_middle.symm
      rwa [whole] at order
    · exact .refl ts

/-- The lexemes with every declared name in front of its dimensions. The type of a new array
declares no name. -/
def nameFirst : List Lexeme → List Lexeme
  | [] => []
  | t :: ts =>
    if t == "new".toList then t :: ts.take 1 ++ nameFirst (ts.drop 1)
    else if isType t then t :: nameFirst (hoist ts)
    else t :: nameFirst ts
termination_by ts => ts.length
decreasing_by
  · simp only [List.length_drop, List.length_cons]
    omega
  · simp [(hoist_perm ts).length_eq]
  · simp

/-- Nothing is lost or repeated in this. -/
theorem nameFirst_perm (ts : List Lexeme) : (nameFirst ts).Perm ts := by
  fun_induction nameFirst ts with
  | case1 => exact .nil
  | case2 t ts _ ih =>
    have order : (ts.take 1 ++ nameFirst (ts.drop 1)).Perm (ts.take 1 ++ ts.drop 1) :=
      ih.append_left (ts.take 1)
    rw [List.take_append_drop] at order
    exact order.cons t
  | case3 t ts _ _ ih => exact (ih.trans (hoist_perm ts)).cons t
  | case4 t ts _ _ ih => exact ih.cons t

/-- The lexemes of a source that become leaves, in the order of a diagram. -/
def leafOrder (ts : List Lexeme) : List Lexeme := (nameFirst ts).filter isKept

/-- Lexemes that bring nothing out of its place. -/
def isPlain (t : Lexeme) : Bool := !("new" :: types).any fun word => word.toList == t

variable {t : Lexeme} {ts us ls ms : List Lexeme}

theorem nameFirst_cons (plain : isPlain t = true) : nameFirst (t :: ts) = t :: nameFirst ts := by
  rw [isPlain, List.any_cons, Bool.not_or, Bool.and_eq_true, Bool.not_eq_true', beq_eq_false_iff_ne,
    Bool.not_eq_true'] at plain
  have other : (t == "new".toList) = false := by
    rw [beq_eq_false_iff_ne]
    exact plain.1.symm
  have type : isType t = false := plain.2
  rw [nameFirst, other, type]
  rfl

theorem leafOrder_nil : leafOrder [] = [] := by
  rw [leafOrder, nameFirst, List.filter_nil]

theorem leafOrder_keep (plain : isPlain t = true) (kept : isKept t = true) :
    leafOrder (t :: ts) = t :: leafOrder ts := by
  rw [leafOrder, nameFirst_cons plain, List.filter_cons_of_pos kept, leafOrder]

theorem leafOrder_drop (plain : isPlain t = true) (dropped : isKept t = false) :
    leafOrder (t :: ts) = leafOrder ts := by
  rw [leafOrder, nameFirst_cons plain, List.filter_cons_of_neg (by simp [dropped]), leafOrder]

/-- A lexeme is plain if it is of a kind that the other ones are not of. -/
theorem isPlain_of (kind : Lexeme → Bool) (h : kind t = true)
    (others : ∀ word ∈ "new" :: types, kind word.toList = false) : isPlain t = true := by
  rw [isPlain, Bool.not_eq_true', Bool.eq_false_iff]
  intro mover
  obtain ⟨word, mem, same⟩ := List.any_eq_true.mp mover
  rw [← eq_of_beq same, others word mem] at h
  cases h

theorem isKept_keyword (type : DataType) : isKept type.keyword.toList = true := by
  cases type <;> decide

theorem leafOrder_new (type : DataType) :
    leafOrder ("new".toList :: type.keyword.toList :: ts) =
      type.keyword.toList :: leafOrder ts := by
  have order : nameFirst ("new".toList :: type.keyword.toList :: ts) =
      "new".toList :: type.keyword.toList :: nameFirst ts := by
    rw [nameFirst]
    rfl
  rw [leafOrder, order, List.filter_cons_of_neg (by decide),
    List.filter_cons_of_pos (isKept_keyword type), leafOrder]

/-- Behind a type the declared name comes first. -/
theorem leafOrder_type {type : DataType} (sound : type.isWellFormed = true) :
    leafOrder (type.keyword.toList :: ts) = type.keyword.toList :: leafOrder (hoist ts) := by
  have order : nameFirst (type.keyword.toList :: ts) =
      type.keyword.toList :: nameFirst (hoist ts) := by
    cases type with
    | void => cases sound
    | _ =>
      rw [nameFirst]
      rfl
  rw [leafOrder, order, List.filter_cons_of_pos (isKept_keyword type), leafOrder]

theorem brackets_of_head (h : ts.head? ≠ some ['[']) : brackets ts = ([], ts) := by
  unfold brackets
  split
  · exact absurd rfl h
  · exact absurd rfl h
  · rfl

/-- A name that stands first already stays there. -/
theorem hoist_of_head (h : ts.head? ≠ some ['[']) : hoist ts = ts := by
  rw [hoist, brackets_of_head h]
  rcases ts with _ | ⟨t, ts⟩
  · rfl
  · exact ite_self _

theorem ne_bracket_of_isName (named : isName t = true) : t ≠ ['['] := by
  rintro rfl
  cases named

/-- Lexemes that have certain leaves, whatever comes behind them. -/
def Yields (ts ls : List Lexeme) : Prop := ∀ us, leafOrder (ts ++ us) = ls ++ leafOrder us

namespace Yields

theorem leafOrder_eq (h : Yields ts ls) : leafOrder ts = ls := by
  have alone := h []
  rwa [List.append_nil, leafOrder_nil, List.append_nil] at alone

theorem nil : Yields [] [] := fun _ => rfl

theorem append (front : Yields ts ls) (back : Yields us ms) : Yields (ts ++ us) (ls ++ ms) := by
  intro vs
  rw [List.append_assoc, front, back, List.append_assoc]

/-- A fixed lexeme that is neither kept nor brings anything out of its place. -/
theorem dropped (fixed : (isPlain t && !isKept t) = true) (back : Yields ts ls) :
    Yields (t :: ts) ls := by
  rw [Bool.and_eq_true, Bool.not_eq_true'] at fixed
  intro us
  rw [List.cons_append, leafOrder_drop fixed.1 fixed.2, back]

theorem kept (fixed : (isPlain t && isKept t) = true) (back : Yields ts ls) :
    Yields (t :: ts) (t :: ls) := by
  rw [Bool.and_eq_true] at fixed
  intro us
  rw [List.cons_append, leafOrder_keep fixed.1 fixed.2, back]
  rfl

theorem name (named : isName t = true) (back : Yields ts ls) : Yields (t :: ts) (t :: ls) := by
  have plain := isPlain_of isName named (by decide)
  exact kept (by simp [plain, isKept, named]) back

theorem number (digits : number? t = some t) (back : Yields ts ls) : Yields (t :: ts) (t :: ls) := by
  have plain : isPlain t = true :=
    isPlain_of (fun t => number? t == some t) (beq_iff_eq.mpr digits) (by decide)
  exact kept (by simp [plain, isKept, digits]) back

theorem string (literal : string? t = some t) : Yields [t] [t] := by
  have plain : isPlain t = true :=
    isPlain_of (fun t => string? t == some t) (beq_iff_eq.mpr literal) (by decide)
  exact kept (by simp [plain, isKept, literal]) nil

theorem step (op : IncDecOp) (back : Yields ts ls) :
    Yields (op.symbol.toList :: ts) (op.symbol.toList :: ls) :=
  kept (by cases op <;> decide) back

/-- The type of a new array is kept and the word in front of it is not. -/
theorem new (type : DataType) (sizes : Yields ts ls) :
    Yields ("new".toList :: type.keyword.toList :: ts) (type.keyword.toList :: ls) := by
  intro us
  rw [List.cons_append, List.cons_append, leafOrder_new, sizes]
  rfl

/-- A type stays in front of anything but brackets. -/
theorem type (type : DataType) (other : t ≠ ['[']) (back : Yields (t :: ts) ls) :
    Yields (type.keyword.toList :: t :: ts) (type.keyword.toList :: ls) := by
  by_cases sound : type.isWellFormed = true
  · intro us
    have first : (t :: ts ++ us).head? ≠ some ['['] := fun same => other (Option.some_inj.mp same)
    rw [List.cons_append, leafOrder_type sound, hoist_of_head first, back]
    rfl
  · cases type with
    | void => exact kept (by decide) back
    | _ => exact absurd rfl sound

end Yields

end Lexeme

end SyntaxTree
