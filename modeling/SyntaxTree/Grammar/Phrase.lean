import SyntaxTree.Grammar.Rule
import SyntaxTree.Text.Bytes

/-!
# Phrases

A phrase is a stretch of the source that a rule matched, with the phrases that
lie inside it in source order. Positions are byte offsets.
-/

namespace SyntaxTree

structure Phrase where
  rule : Rule
  /-- The byte offset of its first character. -/
  start : Nat
  text : List Char
  children : List Phrase

namespace Phrase

/-- The number of bytes that the phrase covers. -/
def length (p : Phrase) : Nat := Text.byteLength p.text

/-- The byte offset behind its last character. -/
def stop (p : Phrase) : Nat := p.start + p.length

def content (p : Phrase) : String := String.ofList p.text

/-- A phrase directly inside another one. The evidence is kept because reading
a phrase goes on with the phrases inside it and has to end. -/
structure Child (p : Phrase) where
  phrase : Phrase
  mem : phrase ∈ p.children

theorem Child.sizeOf_lt {p : Phrase} (c : p.Child) : sizeOf c.phrase < sizeOf p := by
  have inside := List.sizeOf_lt_of_mem c.mem
  cases p
  simp only [Phrase.mk.sizeOf_spec] at inside ⊢
  omega

/-- The phrases inside, each with the evidence that it is. -/
def inner (p : Phrase) : List p.Child :=
  p.children.attach.map fun c => ⟨c.val, c.property⟩

/-- The significant parts: the phrases inside without the fixed words. -/
def parts (p : Phrase) : List p.Child :=
  p.inner.filter fun c => !c.phrase.rule.isFixedWord

@[simp] theorem map_phrase_inner (p : Phrase) : p.inner.map Child.phrase = p.children := by
  simp [inner, Function.comp_def]

/-- The significant parts are the phrases inside that are not fixed words. -/
theorem map_phrase_parts (p : Phrase) :
    p.parts.map Child.phrase = p.children.filter fun c => !c.rule.isFixedWord := by
  rw [← map_phrase_inner, List.filter_map]
  rfl

mutual

/-- The phrase and all phrases inside it, outer ones first, each with the number
of phrases around it. -/
def listing (depth : Nat) : Phrase → List (Nat × Phrase)
  | ⟨rule, start, text, children⟩ =>
    (depth, ⟨rule, start, text, children⟩) :: listingAll (depth + 1) children

def listingAll (depth : Nat) : List Phrase → List (Nat × Phrase)
  | [] => []
  | p :: rest => listing depth p ++ listingAll depth rest

end

end Phrase

end SyntaxTree
