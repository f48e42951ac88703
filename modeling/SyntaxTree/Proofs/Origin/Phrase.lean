import SyntaxTree.Proofs.Matching.Budget

/-!
# Phrases inside phrases

A phrase that a rule leaves has other phrases inside it at any depth. Each of them is
a stretch of the outer one: its text is a part of the text around it, and its offset
says where. So what lies inside a matched phrase lies inside its bytes, and in the
text that was matched.
-/

namespace SyntaxTree

namespace Phrase

variable {p q r : Phrase} {start depth : Nat} {text : List Char}

/-- The phrase itself, or one that it has inside at any depth. -/
inductive Inside (q : Phrase) : Phrase → Prop
  | here : Inside q q
  | within {p child : Phrase} (mem : child ∈ p.children) (inside : Inside q child) : Inside q p

theorem Inside.trans (outer : q.Inside p) (inner : r.Inside q) : r.Inside p := by
  induction outer with
  | here => exact inner
  | within mem _ ih => exact .within mem ih

theorem inside_of_mem (mem : q ∈ p.children) : q.Inside p := .within mem .here

theorem Child.inside (c : p.Child) : c.phrase.Inside p := inside_of_mem c.mem

/-- The phrase is the stretch of the text that its offset says, if the text starts at `start`. -/
def StandsIn (q : Phrase) (start : Nat) (text : List Char) : Prop :=
  ∃ before after, text = before ++ q.text ++ after ∧ q.start = start + Text.byteLength before

/-- The phrase is a stretch of another one. -/
def Within (q p : Phrase) : Prop := q.StandsIn p.start p.text

namespace StandsIn

theorem self : q.StandsIn q.start q.text := ⟨[], [], by simp, by simp⟩

theorem append (h : q.StandsIn start text) (behind : List Char) :
    q.StandsIn start (text ++ behind) := by
  obtain ⟨before, after, rfl, place⟩ := h
  exact ⟨before, after ++ behind, by simp, place⟩

theorem prepend (front : List Char) (h : q.StandsIn (start + Text.byteLength front) text) :
    q.StandsIn start (front ++ text) := by
  obtain ⟨before, after, rfl, place⟩ := h
  exact ⟨front ++ before, after, by simp, by simp [place, Nat.add_assoc]⟩

theorem trans (outer : q.StandsIn start text) (inner : r.Within q) : r.StandsIn start text := by
  obtain ⟨before, after, rfl, place⟩ := outer
  rw [Within, place] at inner
  exact (inner.prepend before).append after

theorem isInfix (h : q.StandsIn start text) : q.text <:+: text := by
  obtain ⟨before, after, rfl, -⟩ := h
  exact ⟨before, after, rfl⟩

end StandsIn

/-- The bytes of a stretch are bytes of the whole. -/
theorem Within.bounds (h : q.Within p) : p.start ≤ q.start ∧ q.stop ≤ p.stop := by
  obtain ⟨before, after, text, place⟩ := h
  have bytes : p.length = Text.byteLength before + q.length + Text.byteLength after := by
    rw [length, text, Text.byteLength_append, Text.byteLength_append, ← length]
  rw [stop, stop]
  omega

/-- The phrase and all phrases inside it have stretches of their own text as children. -/
def IsNested (p : Phrase) : Prop :=
  ∀ q : Phrase, q.Inside p → ∀ child ∈ q.children, child.Within q

namespace IsNested

theorem of_children (h : ∀ child ∈ p.children, child.Within p ∧ child.IsNested) : p.IsNested := by
  rintro q (_ | ⟨mem, inside⟩)
  · exact fun child mem => (h child mem).1
  · exact (h _ mem).2 q inside

theorem inside (h : p.IsNested) (inside : q.Inside p) : q.IsNested :=
  fun r deeper => h r (inside.trans deeper)

/-- What a nested phrase has inside at any depth is a stretch of it. -/
theorem within (h : p.IsNested) (inside : q.Inside p) : q.Within p := by
  induction inside with
  | here => exact .self
  | within mem _ ih => exact (h _ .here _ mem).trans (ih (h.inside (inside_of_mem mem)))

end IsNested

/-- Each of the phrases stands in the text and is nested. -/
def AllStandIn (phrases : List Phrase) (start : Nat) (text : List Char) : Prop :=
  ∀ child ∈ phrases, child.StandsIn start text ∧ child.IsNested

theorem AllStandIn.append {front back : List Phrase} {text text' : List Char}
    (first : AllStandIn front start text)
    (second : AllStandIn back (start + Text.byteLength text) text') :
    AllStandIn (front ++ back) start (text ++ text') := by
  intro child mem
  rcases List.mem_append.mp mem with mem | mem
  · obtain ⟨stands, nested⟩ := first child mem
    exact ⟨stands.append text', nested⟩
  · obtain ⟨stands, nested⟩ := second child mem
    exact ⟨stands.prepend text, nested⟩

mutual

theorem inside_of_mem_listing {around : Nat} {p : Phrase} (mem : (depth, q) ∈ p.listing around) :
    q.Inside p := by
  obtain ⟨rule, start, text, children⟩ := p
  rw [listing, List.mem_cons] at mem
  rcases mem with same | mem
  · cases same
    exact .here
  · obtain ⟨child, mem, inside⟩ := inside_of_mem_listingAll mem
    exact .within mem inside

/-- What is listed for some phrases is inside one of them. -/
theorem inside_of_mem_listingAll {around : Nat} {ps : List Phrase}
    (mem : (depth, q) ∈ listingAll around ps) : ∃ p ∈ ps, q.Inside p := by
  cases ps with
  | nil =>
    rw [listingAll] at mem
    cases mem
  | cons p rest =>
    rw [listingAll, List.mem_append] at mem
    rcases mem with mem | mem
    · exact ⟨p, List.mem_cons_self, inside_of_mem_listing mem⟩
    · obtain ⟨p', mem, inside⟩ := inside_of_mem_listingAll mem
      exact ⟨p', List.mem_cons_of_mem p mem, inside⟩

end

end Phrase

namespace Pattern

open Phrase

variable {budget : Nat} {visible : Bool} {pattern : Pattern} {p q : Position} {text : List Char}
  {phrases : List Phrase}

/-- The phrases of a match stand in the text that was read, each with its inside. -/
theorem outcome_phrases (h : outcome budget visible pattern p = .matched text q phrases) :
    AllStandIn phrases p.offset text := by
  have none {start : Nat} {text : List Char} : AllStandIn [] start text :=
    fun _ mem => by cases mem
  induction budget generalizing visible pattern p q phrases text with
  | zero => simp at h
  | succ budget ih =>
    -- Of two matches one after the other, the second starts where the first has stopped.
    have both {a b : Pattern} {m : Position} {text₁ text₂ : List Char} {phrases₁ phrases₂}
        (front : outcome budget visible a p = .matched text₁ m phrases₁)
        (back : outcome budget visible b m = .matched text₂ q phrases₂) :
        AllStandIn (phrases₁ ++ phrases₂) p.offset (text₁ ++ text₂) := by
      obtain ⟨-, rfl⟩ := outcome_text front
      exact (ih front).append (ih back)
    obtain ⟨n, same, success⟩ := exists_success h
    obtain rfl := Nat.succ.inj same
    cases success with
    | literal _ | char _ _ | stop _ | absent _ => exact none
    | shown _ body =>
      intro child mem
      obtain rfl := List.mem_singleton.mp mem
      exact ⟨.self, .of_children (ih body)⟩
    | hidden _ body => exact ih body
    | seq front back | more front back => exact both front back
    | left first => exact ih first
    | right _ second => exact ih second

end Pattern

open Pattern

/-- The phrases that a rule leaves are stretches of the text, and so is all inside them. -/
theorem Rule.phrases_stand {r : Rule} {text : List Char} {ps : List Phrase} {p : Phrase}
    (h : r.phrases text = .ok ps) (mem : p ∈ ps) : p.StandsIn 0 text ∧ p.IsNested := by
  obtain ⟨q, n, read, reached⟩ := Rule.reads_of_phrases h
  obtain ⟨stands, -⟩ := outcome_text reached
  obtain ⟨place, nested⟩ := outcome_phrases reached p mem
  rw [show text = read ++ q.rest from stands]
  exact ⟨place.append q.rest, nested⟩

end SyntaxTree
