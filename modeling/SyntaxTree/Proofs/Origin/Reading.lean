import SyntaxTree.Program.Reading.Block
import SyntaxTree.Proofs.Origin.Phrase

/-!
# Readings that keep to their phrase

A reader is given one phrase, of any rule, and looks at nothing else. If it refuses,
the flaw lies on this phrase or on one inside it, and what it returns is made of the
texts of such phrases. On a tally it closes every block that it opens, also when a
flaw is found in the middle of one.

Both are shown of a reader by going through it step by step, so there is one lemma
for each way in which readers are put together.
-/

namespace SyntaxTree

/-- What holds of readings that are put together from others, if it holds of these: `Holds r Q`
says that whatever `r` returns fulfils `Q`, and something about `r` besides. -/
structure Compositional (m : Type → Type) [Monad m]
    (Holds : (α : Type) → m α → (α → Prop) → Prop) : Prop where
  pure {α : Type} {x : α} {Q : α → Prop} : Q x → Holds α (pure x) Q
  bind {α β : Type} {r : m α} {f : α → m β} {Q : α → Prop} {R : β → Prop} :
    Holds α r Q → (∀ x, Q x → Holds β (f x) R) → Holds β (r >>= f) R

namespace Compositional

variable {m : Type → Type} [Monad m]
  {Holds : (α : Type) → m α → (α → Prop) → Prop} {α γ : Type}

theorem mapM [LawfulMonad m] (h : Compositional m Holds) {read : γ → m α} {items : List γ}
    {Q : α → Prop} (each : ∀ item ∈ items, Holds α (read item) Q) :
    Holds (List α) (items.mapM read) fun xs => ∀ x ∈ xs, Q x := by
  induction items with
  | nil =>
    rw [List.mapM_nil]
    exact h.pure fun _ mem => by cases mem
  | cons item rest ih =>
    rw [List.forall_mem_cons] at each
    rw [List.mapM_cons]
    refine h.bind each.1 fun x first => h.bind (ih each.2) fun xs others => h.pure ?_
    exact List.forall_mem_cons.mpr ⟨first, others⟩

/-- What holds at the start of a fold and is kept by each of its steps holds at the end. -/
theorem foldlM (h : Compositional m Holds) {step : α → γ → m α} {items : List γ} {Q : α → Prop}
    {start : α} (init : Q start)
    (each : ∀ x, Q x → ∀ item ∈ items, Holds α (step x item) Q) :
    Holds α (items.foldlM step start) Q := by
  induction items generalizing start with
  | nil =>
    rw [List.foldlM_nil]
    exact h.pure init
  | cons item rest ih =>
    rw [List.foldlM_cons]
    refine h.bind (each start init item List.mem_cons_self) fun x kept => ?_
    exact ih kept fun x kept item mem => each x kept item (List.mem_cons_of_mem _ mem)

end Compositional

namespace Phrase

variable {p q : Phrase} {α β : Type} {result : Except ShapeError α} {Q R : α → Prop}
  {words words' : List String}

/-- Each of the words is the text of the phrase or of one inside it. -/
def Supplies (p : Phrase) (words : List String) : Prop :=
  ∀ w ∈ words, ∃ q : Phrase, q.Inside p ∧ q.content = w

@[simp] theorem supplies_nil : p.Supplies [] := fun _ mem => by cases mem

@[simp] theorem supplies_append :
    p.Supplies (words ++ words') ↔ p.Supplies words ∧ p.Supplies words' :=
  List.forall_mem_append

theorem supplies_content (inside : q.Inside p) : p.Supplies [q.content] := by
  intro w mem
  exact ⟨q, inside, (List.mem_singleton.mp mem).symm⟩

theorem Supplies.cons {w : String} (first : p.Supplies [w]) (others : p.Supplies words) :
    p.Supplies (w :: words) := supplies_append.mpr ⟨first, others⟩

theorem Supplies.widen (h : q.Supplies words) (inside : q.Inside p) : p.Supplies words := by
  intro w mem
  obtain ⟨r, deeper, text⟩ := h w mem
  exact ⟨r, inside.trans deeper, text⟩

/-- A value that was read fulfils `Q`, and a flaw that was found lies on the phrase or on one
inside it. -/
def Confines (p : Phrase) (result : Except ShapeError α) (Q : α → Prop) : Prop :=
  match result with
  | .ok x => Q x
  | .error error => ∃ q : Phrase, q.Inside p ∧ error.start = q.start ∧ error.length = q.length

theorem confines_compositional (p : Phrase) :
    Compositional (Except ShapeError) fun _ result Q => p.Confines result Q where
  pure h := h
  bind {_ _ r _ _ _} h rest := by
    cases r with
    | error => exact h
    | ok x => exact rest x h

theorem Confines.bind {f : α → Except ShapeError β} {S : β → Prop} (h : p.Confines result Q)
    (rest : ∀ x, Q x → p.Confines (f x) S) : p.Confines (result >>= f) S :=
  p.confines_compositional.bind h rest

theorem confines_ok_bind {x : α} {f : α → Except ShapeError β} {S : β → Prop}
    (h : p.Confines (f x) S) : p.Confines (.ok x >>= f) S := h

theorem Confines.mono (h : p.Confines result Q) (le : ∀ x, Q x → R x) : p.Confines result R := by
  cases result with
  | error => exact h
  | ok x => exact le x h

/-- What keeps to a phrase keeps to every phrase around it. -/
theorem Confines.widen (h : q.Confines result Q) (inside : q.Inside p) : p.Confines result Q := by
  cases result with
  | ok => exact h
  | error =>
    obtain ⟨r, deeper, place⟩ := h
    exact ⟨r, inside.trans deeper, place⟩

/-- Words of what is read from a phrase inside are words from this one. -/
theorem Confines.around {words : α → List String}
    (h : q.Confines result fun x => q.Supplies (words x)) (inside : q.Inside p) :
    p.Confines result fun x => p.Supplies (words x) :=
  (h.widen inside).mono fun _ supplied => supplied.widen inside

theorem confines_refuse {flaw : Flaw} (inside : q.Inside p) : p.Confines (q.refuse flaw) Q :=
  ⟨q, inside, rfl, rfl⟩

theorem confines_require {part : NeededPart} {found : Option α} (h : ∀ x, found = some x → Q x) :
    p.Confines (p.require part found) Q := by
  cases found with
  | none => exact confines_refuse .here
  | some x => exact h x rfl

theorem confines_operator {ofSymbol? : String → Option α} (inside : q.Inside p) :
    p.Confines (q.operator ofSymbol?) fun _ => True := by
  rw [operator]
  split
  · trivial
  · exact confines_refuse inside

end Phrase

namespace Tally

/-- As many blocks are open and as many errors counted as before; more blocks may have been open in
between. -/
structure Restores (after before : Tally) : Prop where
  depth : after.depth = before.depth
  errors : after.errors = before.errors
  deepest : before.deepest ≤ after.deepest

namespace Restores

variable {before middle after : Tally}

theorem refl : before.Restores before := ⟨rfl, rfl, Nat.le_refl _⟩

theorem trans (first : middle.Restores before) (second : after.Restores middle) :
    after.Restores before :=
  ⟨second.depth.trans first.depth, second.errors.trans first.errors,
    Nat.le_trans first.deepest second.deepest⟩

/-- A block that was opened is closed again behind its inside. -/
theorem leave (h : after.Restores before.enter) : after.leave.Restores before where
  depth := by rw [Tally.leave, h.depth, enter, Nat.add_sub_cancel]
  errors := h.errors
  deepest := Nat.le_trans (Nat.le_max_left _ _) h.deepest

end Restores

end Tally

namespace TallyReader

open Phrase

variable {p q : Phrase} {α β : Type} {reader : TallyReader α} {Q R : α → Prop}

/-- Whatever the tally was, the reader restores it, and what it returns keeps to the phrase. -/
def Keeps (reader : TallyReader α) (p : Phrase) (Q : α → Prop) : Prop :=
  ∀ before : Tally, (reader.run.run before).2.Restores before ∧
    p.Confines (reader.run.run before).1 Q

/-- A reading that a tally does not follow. -/
theorem keeps_lift {result : Except ShapeError α} (h : p.Confines result Q) :
    Keeps (liftM result) p Q := by
  intro before
  cases result with
  | error => exact ⟨.refl, h⟩
  | ok => exact ⟨.refl, h⟩

theorem keeps_refuse {flaw : Flaw} (inside : q.Inside p) : Keeps (liftM (q.refuse flaw)) p Q :=
  keeps_lift (confines_refuse inside)

theorem keeps_compositional (p : Phrase) :
    Compositional TallyReader fun _ reader Q => Keeps reader p Q where
  pure h _ := ⟨.refl, h⟩
  bind {_ _ r f _ _} h rest before := by
    obtain ⟨restored, stays⟩ := h before
    rw [ExceptT.run_bind, StateT.run_bind]
    rcases first : r.run.run before with ⟨_ | x, middle⟩
    · rw [first] at restored stays
      exact ⟨restored, stays⟩
    · rw [first] at restored stays
      obtain ⟨restored', stays'⟩ := rest x stays middle
      exact ⟨restored.trans restored', stays'⟩

theorem keeps_pure {x : α} (h : Q x) : TallyReader.Keeps (pure x) p Q :=
  (keeps_compositional p).pure h

theorem Keeps.bind {f : α → TallyReader β} {S : β → Prop} (h : reader.Keeps p Q)
    (rest : ∀ x, Q x → (f x).Keeps p S) : (reader >>= f).Keeps p S :=
  (keeps_compositional p).bind h rest

theorem Keeps.mono (h : reader.Keeps p Q) (le : ∀ x, Q x → R x) : reader.Keeps p R :=
  fun before => ⟨(h before).1, (h before).2.mono le⟩

theorem Keeps.around {words : α → List String}
    (h : reader.Keeps q fun x => q.Supplies (words x)) (inside : q.Inside p) :
    reader.Keeps p fun x => p.Supplies (words x) :=
  fun before => ⟨(h before).1, (h before).2.around inside⟩

/-- The inside of a block is read with the block open, and it is closed on every path. -/
theorem Keeps.scoped (h : reader.Keeps p Q) : (TallyReader.scoped reader).Keeps p Q := by
  intro before
  obtain ⟨restored, stays⟩ := h before.enter
  exact ⟨restored.leave, stays⟩

end TallyReader

end SyntaxTree
