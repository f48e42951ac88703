import SyntaxTree.Proofs.Matching.Reads

/-!
# Patterns that only scan

A pattern without phrases is a function on texts: `Scans` ties it to the function
that gives what it reads. Patterns without rules and repetitions are scanned by
`scan`, which computes; the others are composed from the lemmas below.
-/

namespace SyntaxTree.Pattern

variable {visible : Bool}

/-- The pattern reads what the function scans, and it leaves no phrases. -/
structure Scans (visible : Bool) (pattern : Pattern) (scan : List Char → Option (List Char)) :
    Prop where
  reads : ∀ {p : Position} {text : List Char}, scan p.rest = some text →
    text <+: p.rest ∧ Reads visible pattern p [] (p.advance text)
  fails : ∀ {p : Position}, scan p.rest = none → Fails visible pattern p

namespace Scans

variable {a b : Pattern} {s t : List Char → Option (List Char)} {p q : Position}
variable {text : List Char} {phrases : List Phrase}

/-- Whatever the pattern reads was scanned. -/
theorem scanned (h : Scans visible a s) (read : Reads visible a p phrases q) :
    ∃ text, s p.rest = some text ∧ q = p.advance text ∧ phrases = [] := by
  cases found : s p.rest with
  | none => exact absurd (h.fails found) read.not_fails
  | some text =>
    obtain ⟨rfl, rfl⟩ := (h.reads found).2.unique read
    exact ⟨text, rfl, rfl, rfl⟩

theorem missed (h : Scans visible a s) (failed : Fails visible a p) : s p.rest = none := by
  cases found : s p.rest with
  | none => rfl
  | some text => exact absurd failed (h.reads found).2.not_fails

theorem congr (h : Scans visible a s) (same : ∀ cs, s cs = t cs) : Scans visible a t := by
  obtain rfl : s = t := funext same
  exact h

theorem literal (text : List Char) :
    Scans visible (.literal text) fun cs => if text.isPrefixOf cs then some text else none where
  reads := by
    intro p found h
    split at h
    · cases h
      obtain ⟨rest, stands⟩ := List.isPrefixOf_iff_prefix.mp ‹_›
      exact ⟨⟨rest, stands⟩, reads_literal stands.symm⟩
    · cases h
  fails := by
    intro p h
    split at h
    · cases h
    · rename_i missing
      exact fails_literal fun stands => missing (List.isPrefixOf_iff_prefix.mpr stands)

theorem char (among : CharClass) :
    Scans visible (.char among) fun cs =>
      match cs with
      | [] => none
      | c :: _ => if among.contains c then some [c] else none where
  reads := by
    intro p found h
    rcases stands : p.rest with _ | ⟨c, rest⟩ <;> rw [stands] at h
    · cases h
    · dsimp only at h
      split at h
      · cases h
        exact ⟨by simp, reads_char stands ‹_›⟩
      · cases h
  fails := by
    intro p h
    refine fails_char fun c rest stands => ?_
    rw [stands] at h
    dsimp only at h
    split at h
    · cases h
    · rename_i outside
      exact Bool.eq_false_iff.mpr outside

theorem call {rule : Rule} (hidden : visible = false ∨ rule.kind = .silent)
    (h : Scans visible rule.body s) : Scans visible (.call rule) s where
  reads found := ⟨(h.reads found).1, reads_call_hidden hidden (h.reads found).2⟩
  fails missing := fails_call_hidden hidden (h.fails missing)

theorem seq (ha : Scans visible a s) (hb : Scans visible b t) :
    Scans visible (.seq a b) fun cs =>
      (s cs).bind fun text => (t (cs.drop text.length)).map (text ++ ·) where
  reads := by
    intro p found h
    obtain ⟨text, front, h⟩ := Option.bind_eq_some_iff.mp h
    obtain ⟨text', back, rfl⟩ := Option.map_eq_some_iff.mp h
    obtain ⟨⟨rest, stands⟩, first⟩ := ha.reads front
    have behind : (p.advance text).rest = rest := Position.rest_advance stands.symm
    obtain ⟨⟨rest', stands'⟩, second⟩ := hb.reads (p := p.advance text) back
    rw [Position.advance_append]
    refine ⟨⟨rest', ?_⟩, reads_seq first second⟩
    rw [List.append_assoc, stands', behind, stands]
  fails := by
    intro p h
    cases front : s p.rest with
    | none => exact fails_seq_left (ha.fails front)
    | some text =>
      rw [front, Option.bind_some, Option.map_eq_none_iff] at h
      exact (ha.reads front).2.fails_seq (hb.fails (p := p.advance text) h)

theorem choice (ha : Scans visible a s) (hb : Scans visible b t) :
    Scans visible (.choice a b) fun cs => (s cs).or (t cs) where
  reads := by
    intro p found h
    cases front : s p.rest with
    | some text =>
      rw [front, Option.some_or] at h
      cases h
      exact ⟨(ha.reads front).1, (ha.reads front).2.choice_left⟩
    | none =>
      rw [front, Option.none_or] at h
      exact ⟨(hb.reads h).1, (hb.reads h).2.choice_right (ha.fails front)⟩
  fails := by
    intro p h
    obtain ⟨front, back⟩ := Option.or_eq_none_iff.mp h
    exact fails_choice (ha.fails front) (hb.fails back)

theorem absent (ha : Scans false a s) :
    Scans visible (.absent a) fun cs => if (s cs).isSome then none else some [] where
  reads := by
    intro p found h
    split at h
    · cases h
    · rename_i missing
      cases h
      rw [Position.advance_nil]
      exact ⟨List.nil_prefix, reads_absent (ha.fails (Option.not_isSome_iff_eq_none.mp missing))⟩
  fails := by
    intro p h
    split at h
    · obtain ⟨text, inside⟩ := Option.isSome_iff_exists.mp ‹_›
      exact fails_absent (ha.reads inside).2
    · cases h

/-- A repetition reads what a function gives that stops exactly where no item stands and goes on
behind an item. -/
theorem reads_many (ha : Scans visible a s) {taken : List Char → List Char}
    (stop : ∀ cs, s cs = none → taken cs = [])
    (step : ∀ cs text, s cs = some text →
      text ≠ [] ∧ taken cs = text ++ taken (cs.drop text.length)) (p : Position) :
    taken p.rest <+: p.rest ∧ Reads visible (.many a) p [] (p.advance (taken p.rest)) := by
  induction left : p.rest.length using Nat.strongRecOn generalizing p with
  | ind n ih =>
    cases front : s p.rest with
    | none =>
      rw [stop _ front, Position.advance_nil]
      exact ⟨List.nil_prefix, reads_many_nil (ha.fails front)⟩
    | some text =>
      obtain ⟨⟨rest, stands⟩, first⟩ := ha.reads front
      obtain ⟨nonempty, more⟩ : text ≠ [] ∧ taken p.rest = text ++ taken (p.advance text).rest :=
        step _ _ front
      have behind : (p.advance text).rest = rest := Position.rest_advance stands.symm
      have shorter : (p.advance text).rest.length < n := by
        have positive : 0 < text.length := List.length_pos_iff.mpr nonempty
        rw [behind, ← left, ← stands, List.length_append]
        omega
      obtain ⟨⟨rest', stands'⟩, others⟩ := ih _ shorter (p.advance text) rfl
      rw [more, Position.advance_append]
      refine ⟨⟨rest', ?_⟩, first.many_cons others⟩
      rw [List.append_assoc, stands', behind, stands]

theorem many (ha : Scans visible a s) {taken : List Char → List Char}
    (stop : ∀ cs, s cs = none → taken cs = [])
    (step : ∀ cs text, s cs = some text →
      text ≠ [] ∧ taken cs = text ++ taken (cs.drop text.length)) :
    Scans visible (.many a) fun cs => some (taken cs) where
  reads := by
    intro p found h
    cases h
    exact ha.reads_many stop step p
  fails := by
    intro p h
    cases h

end Scans

/-- One character with a property, if the text begins with one. -/
def scanChar (property : Char → Bool) : List Char → Option (List Char)
  | [] => none
  | c :: _ => if property c then some [c] else none

theorem Scans.many_char {a : Pattern} {property : Char → Bool}
    (h : Scans visible a (scanChar property)) :
    Scans visible (.many a) fun cs => some (cs.takeWhile property) := by
  refine h.many ?_ ?_
  · intro cs missing
    cases cs with
    | nil => rfl
    | cons c cs =>
      refine List.takeWhile_cons_of_neg fun inside => ?_
      simp [scanChar, inside] at missing
  · intro cs text found
    cases cs with
    | nil => cases found
    | cons c cs =>
      simp only [scanChar, Option.ite_none_right_eq_some] at found
      obtain ⟨inside, same⟩ := found
      cases same
      exact ⟨by simp, List.takeWhile_cons_of_pos inside⟩

/-- Neither rules nor repetitions occur. -/
def isFlat : Pattern → Bool
  | literal _ | char _ => true
  | call _ | many _ => false
  | seq a b | choice a b => isFlat a && isFlat b
  | absent a => isFlat a

/-- What a flat pattern reads at the start of a text. -/
def scan : Pattern → List Char → Option (List Char)
  | literal text, cs => if text.isPrefixOf cs then some text else none
  | char _, [] => none
  | char among, c :: _ => if among.contains c then some [c] else none
  | call _, _ | many _, _ => none
  | seq a b, cs => (scan a cs).bind fun text => (scan b (cs.drop text.length)).map (text ++ ·)
  | choice a b, cs => (scan a cs).or (scan b cs)
  | absent a, cs => if (scan a cs).isSome then none else some []

theorem scans_scan {pattern : Pattern} (flat : pattern.isFlat = true) :
    Scans visible pattern pattern.scan := by
  induction pattern generalizing visible with
  | literal text => exact Scans.literal text
  | char among =>
    refine (Scans.char among).congr fun cs => ?_
    cases cs <;> rfl
  | call rule => simp [isFlat] at flat
  | seq a b iha ihb =>
    rw [isFlat, Bool.and_eq_true] at flat
    exact (iha flat.1).seq (ihb flat.2)
  | choice a b iha ihb =>
    rw [isFlat, Bool.and_eq_true] at flat
    exact (iha flat.1).choice (ihb flat.2)
  | many item => simp [isFlat] at flat
  | absent a iha => exact (iha flat).absent

end SyntaxTree.Pattern
