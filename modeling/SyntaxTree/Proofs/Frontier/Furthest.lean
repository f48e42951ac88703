import SyntaxTree.Proofs.Frontier.Misses
import SyntaxTree.Proofs.Matching.Budget

/-!
# The frontier is the furthest miss

The frontier is one record that every rule of a match may change, also in branches
that are given up later. `Follows` says what a stretch of a match has to leave on
it, in terms of the misses in that stretch alone: the furthest offset among them,
and rules that were missed there. Stretches compose, and recording a miss is a
stretch of its own. So the frontier of a whole match is told by its misses.
-/

namespace SyntaxTree

namespace Frontier

variable {f g h : Frontier} {missed missed' : Rule → Position → Prop} {r : Rule} {p : Position}

/-- An empty list of rules stands at the start only, where nothing was missed yet. -/
def IsProper (f : Frontier) : Prop := f.expected = [] → f.offset = 0

/-- What a stretch of a match with these misses leaves on a frontier. -/
structure Follows (f : Frontier) (missed : Rule → Position → Prop) (g : Frontier) : Prop where
  le : f.offset ≤ g.offset
  furthest : ∀ r q, missed r q → q.offset ≤ g.offset
  reached : g.offset = f.offset ∨ ∃ r q, missed r q ∧ q.offset = g.offset
  expected : ∀ r ∈ g.expected, g.offset = f.offset ∧ r ∈ f.expected ∨
    ∃ q, missed r q ∧ q.offset = g.offset
  empty : f.IsProper → g.expected = [] → f.expected = [] ∧ g.offset = 0 ∧ ∀ r q, ¬ missed r q

namespace Follows

theorem refl (none : ∀ r q, ¬ missed r q) : f.Follows missed f where
  le := Nat.le_refl _
  furthest r q miss := absurd miss (none r q)
  reached := .inl rfl
  expected _ mem := .inl ⟨rfl, mem⟩
  empty proper nil := ⟨nil, proper nil, none⟩

theorem congr (same : ∀ r q, missed r q ↔ missed' r q) (h : f.Follows missed g) :
    f.Follows missed' g := by
  obtain rfl : missed = missed' := funext fun r => funext fun q => propext (same r q)
  exact h

theorem trans (first : f.Follows missed g) (second : g.Follows missed' h) :
    f.Follows (fun r q => missed r q ∨ missed' r q) h where
  le := Nat.le_trans first.le second.le
  furthest r q miss := by
    rcases miss with miss | miss
    · exact Nat.le_trans (first.furthest r q miss) second.le
    · exact second.furthest r q miss
  reached := by
    rcases second.reached with same | ⟨r, q, miss, here⟩
    · rcases first.reached with same' | ⟨r, q, miss, here⟩
      · exact .inl (same.trans same')
      · exact .inr ⟨r, q, .inl miss, here.trans same.symm⟩
    · exact .inr ⟨r, q, .inr miss, here⟩
  expected r mem := by
    rcases second.expected r mem with ⟨same, mem⟩ | ⟨q, miss, here⟩
    · rcases first.expected r mem with ⟨same', mem⟩ | ⟨q, miss, here⟩
      · exact .inl ⟨same.trans same', mem⟩
      · exact .inr ⟨q, .inl miss, here.trans same.symm⟩
    · exact .inr ⟨q, .inr miss, here⟩
  empty proper nil := by
    have middle : g.IsProper := fun nil => (first.empty proper nil).2.1
    obtain ⟨nil, start, none'⟩ := second.empty middle nil
    obtain ⟨nil, -, none⟩ := first.empty proper nil
    exact ⟨nil, start, fun r q => not_or.mpr ⟨none r q, none' r q⟩⟩

end Follows

/-- What recording a miss leaves on a frontier. The number of rules known before decides only
which rules of the same offset are kept. -/
theorem follows_record (f : Frontier) (r : Rule) (p : Position) (known : Nat) :
    f.Follows (fun s q => s = r ∧ q = p) (f.record r p.offset known) := by
  fun_cases record f r p.offset known with
  | case1 one =>
    -- Exactly one rule was recorded inside, so the list is not empty and stands at this offset.
    have count : f.countAt p.offset ≠ 0 := by omega
    obtain ⟨here, some⟩ : p.offset = f.offset ∧ f.expected ≠ [] := by
      simpa [countAt] using count
    refine ⟨Nat.le_refl _, ?_, .inl rfl, fun s mem => .inl ⟨rfl, mem⟩, fun _ nil => absurd nil some⟩
    rintro _ _ ⟨rfl, rfl⟩
    exact Nat.le_of_eq here
  | case2 _ here =>
    refine ⟨Nat.le_of_eq here.symm, ?_, .inl here, fun s mem => ?_, fun _ nil => by simp at nil⟩
    · rintro _ _ ⟨rfl, rfl⟩
      exact Nat.le_refl _
    · rcases List.mem_append.mp mem with old | new
      · exact .inl ⟨here, List.mem_of_mem_take old⟩
      · exact .inr ⟨p, ⟨List.mem_singleton.mp new, rfl⟩, rfl⟩
  | case3 _ _ further =>
    refine ⟨Nat.le_of_lt further, ?_, .inr ⟨r, p, ⟨rfl, rfl⟩, rfl⟩, fun s mem => ?_,
      fun _ nil => by simp at nil⟩
    · rintro _ _ ⟨rfl, rfl⟩
      exact Nat.le_refl _
    · exact .inr ⟨p, ⟨List.mem_singleton.mp mem, rfl⟩, rfl⟩
  | case4 _ other behind =>
    refine ⟨Nat.le_refl _, ?_, .inl rfl, fun s mem => .inl ⟨rfl, mem⟩, fun proper nil => ?_⟩
    · rintro _ _ ⟨rfl, rfl⟩
      omega
    · have start := proper nil
      omega

end Frontier

namespace Pattern

open Rule

variable {budget : Nat} {pattern : Pattern} {p q : Position} {f g : Frontier} {o : Outcome}
variable {visible : Bool} {text : List Char} {phrases : List Phrase}

theorem reads_of_run (h : run budget visible pattern p f = (.matched text q phrases, g)) :
    Reads visible pattern p phrases q :=
  ⟨budget, text, by rw [← run_fst budget visible pattern p f, h]⟩

theorem fails_of_run (h : run budget visible pattern p f = (.failed, g)) :
    Fails visible pattern p :=
  ⟨budget, by rw [FailsWithin, ← run_fst budget visible pattern p f, h]⟩

/-- Where rules are hidden, nothing is recorded. -/
theorem run_hidden (budget : Nat) (pattern : Pattern) (p : Position) (f : Frontier) :
    (run budget false pattern p f).2 = f := by
  induction budget generalizing pattern p f with
  | zero => rfl
  | succ budget ih =>
    have kept {part : Pattern} {q : Position} {f g : Frontier} {o : Outcome}
        (h : run budget false part q f = (o, g)) : g = f := by
      rw [← ih part q f, h]
    cases pattern with
    | literal text =>
      simp only [run]
      split <;> rfl
    | char among =>
      simp only [run]
      split
      · rfl
      · split <;> rfl
    | call rule =>
      simp only [run, Bool.false_eq_true, false_and, if_false]
      exact ih rule.body p f
    | seq first second =>
      simp only [run]
      rcases front : run budget false first p f with ⟨⟨text, m, phrases⟩ | _ | _, g⟩
      · obtain rfl := kept front
        rcases back : run budget false second m g with ⟨_ | _ | _, h⟩ <;>
          simpa only [back] using kept back
      · exact kept front
      · exact kept front
    | choice first second =>
      simp only [run]
      rcases front : run budget false first p f with ⟨_ | _ | _, g⟩
      · exact kept front
      · obtain rfl := kept front
        exact ih second p g
      · exact kept front
    | many item =>
      simp only [run]
      rcases front : run budget false item p f with ⟨⟨text, m, phrases⟩ | _ | _, g⟩
      · obtain rfl := kept front
        rcases back : run budget false (many item) m g with ⟨_ | _ | _, h⟩ <;>
          simpa only [back] using kept back
      · exact kept front
      · exact kept front
    | absent inner =>
      simp only [run]
      rcases front : run budget false inner p f with ⟨_ | _ | _, g⟩ <;> exact kept front

/-- Every match that is settled within the budget leaves on the frontier what its misses tell. -/
def Tells (budget : Nat) : Prop :=
  ∀ ⦃pattern : Pattern⦄ ⦃p : Position⦄ ⦃f g : Frontier⦄ ⦃o : Outcome⦄, pattern.looksBare = true →
    run budget true pattern p f = (o, g) → o ≠ .exhausted → f.Follows (Misses pattern p) g

namespace Tells

variable {rule : Rule} {a b : Pattern}

/-- The inside of a lexical rule leaves nothing, that of a plain rule its misses. -/
theorem body (ih : Tells budget) (named : rule.kind ≠ .silent)
    (inside : run budget (rule.kind == .plain) rule.body p f = (o, g)) (settled : o ≠ .exhausted) :
    f.Follows (fun s q => rule.kind ≠ .lexical ∧ Misses rule.body p s q) g := by
  cases kind : rule.kind with
  | plain =>
    rw [kind] at inside
    refine (ih (looksBare_body (by simp [kind])) inside settled).congr fun s q => ?_
    simp
  | lexical =>
    rw [kind] at inside
    have same : g = f := by
      rw [← run_hidden budget rule.body p f,
        show run budget false rule.body p f = (o, g) from inside]
    subst same
    exact .refl fun s q miss => miss.1 rfl
  | silent => exact absurd kind named

/-- A rule that is not silent adds its own miss behind those of its inside. -/
theorem call (ih : Tells budget) (h : run (budget + 1) true (call rule) p f = (o, g))
    (settled : o ≠ .exhausted) : f.Follows (Misses (Pattern.call rule) p) g := by
  simp only [run] at h
  split at h
  · rename_i seen
    obtain ⟨-, named⟩ := seen
    rcases inside : run budget (rule.kind == .plain) rule.body p f with
        ⟨⟨text, q, phrases⟩ | _ | _, k⟩ <;> rw [inside] at h <;> cases h
    · obtain ⟨_, -, -, read⟩ := reads_call named (reads_of_run inside)
      refine (ih.body named inside (by simp)).congr fun s q => ?_
      rw [misses_call]
      exact ⟨.inl, fun miss => miss.resolve_right fun h => read.not_fails h.2.1⟩
    · have failed := fails_call named (fails_of_run inside)
      refine ((ih.body named inside (by simp)).trans
        (Frontier.follows_record k rule p (f.countAt p.offset))).congr fun s q => ?_
      rw [misses_call]
      exact or_congr_right ⟨fun same => ⟨named, failed, same⟩, fun h => h.2.2⟩
    · exact absurd rfl settled
  · rename_i unseen
    have silent : rule.kind = .silent := by simpa using unseen
    refine (ih (looksBare_body (by simp [silent])) h settled).congr fun s q => ?_
    simp [misses_call, silent]

theorem seq (ih : Tells budget) (bare : a.looksBare = true) (bare' : b.looksBare = true)
    (h : run (budget + 1) true (seq a b) p f = (o, g)) (settled : o ≠ .exhausted) :
    f.Follows (Misses (Pattern.seq a b) p) g := by
  simp only [run] at h
  rcases front : run budget true a p f with ⟨⟨text, m, phrases⟩ | _ | _, k⟩ <;> rw [front] at h
  · have first := ih bare front (by simp)
    have second : k.Follows (Misses b m) g := by
      rcases back : run budget true b m k with ⟨_ | _ | _, k'⟩ <;> simp only [back] at h <;> cases h
      · exact ih bare' back (by simp)
      · exact ih bare' back settled
      · exact absurd rfl settled
    exact (first.trans second).congr fun _ _ => (misses_seq_of_reads (reads_of_run front)).symm
  · cases h
    exact (ih bare front settled).congr fun _ _ => (misses_seq_of_fails (fails_of_run front)).symm
  · cases h
    exact absurd rfl settled

theorem choice (ih : Tells budget) (bare : a.looksBare = true) (bare' : b.looksBare = true)
    (h : run (budget + 1) true (choice a b) p f = (o, g)) (settled : o ≠ .exhausted) :
    f.Follows (Misses (Pattern.choice a b) p) g := by
  simp only [run] at h
  rcases front : run budget true a p f with ⟨⟨text, m, phrases⟩ | _ | _, k⟩ <;> rw [front] at h
  · cases h
    exact (ih bare front settled).congr fun _ _ =>
      (misses_choice_of_reads (reads_of_run front)).symm
  · exact ((ih bare front (by simp)).trans (ih bare' h settled)).congr fun _ _ =>
      (misses_choice_of_fails (fails_of_run front)).symm
  · cases h
    exact absurd rfl settled

/-- As long as its item matches, a repetition is the item with the repetition behind it. -/
theorem many (ih : Tells budget) (bare : a.looksBare = true)
    (h : run (budget + 1) true (many a) p f = (o, g)) (settled : o ≠ .exhausted) :
    f.Follows (Misses (Pattern.many a) p) g := by
  rcases front : run budget true a p f with ⟨⟨text, m, phrases⟩ | _ | _, k⟩
  · have reads := reads_of_run front
    have again : (Pattern.many a).looksBare = true := bare
    have unrolled : run (budget + 1) true (Pattern.seq a (Pattern.many a)) p f = (o, g) := by
      rw [← h]
      simp only [run, front]
    refine (ih.seq bare again unrolled settled).congr fun _ _ => ?_
    rw [misses_seq_of_reads reads, misses_many_of_reads reads]
  · simp only [run, front] at h
    cases h
    exact (ih bare front (by simp)).congr fun _ _ =>
      (misses_many_of_fails (fails_of_run front)).symm
  · simp only [run, front] at h
    cases h
    exact absurd rfl settled

end Tells

theorem tells (budget : Nat) : Tells budget := by
  induction budget with
  | zero =>
    intro pattern p f g o _ h settled
    cases h
    exact absurd rfl settled
  | succ budget ih =>
    intro pattern p f g o bare h settled
    cases pattern with
    | literal text =>
      have same : g = f := by
        simp only [run] at h
        split at h <;> cases h <;> rfl
      subst same
      exact .refl fun _ _ => not_misses_of_isBare rfl
    | char among =>
      have same : g = f := by
        simp only [run] at h
        split at h
        · cases h
          rfl
        · split at h <;> cases h <;> rfl
      subst same
      exact .refl fun _ _ => not_misses_of_isBare rfl
    | call rule => exact ih.call h settled
    | seq a b =>
      rw [looksBare, Bool.and_eq_true] at bare
      exact ih.seq bare.1 bare.2 h settled
    | choice a b =>
      rw [looksBare, Bool.and_eq_true] at bare
      exact ih.choice bare.1 bare.2 h settled
    | many a => exact ih.many bare h settled
    | absent a =>
      have same : g = f := by
        simp only [run] at h
        have kept := run_hidden budget a p f
        rcases inside : run budget false a p f with ⟨_ | _ | _, k⟩ <;> rw [inside] at h kept <;>
          cases h <;> exact kept
      subst same
      exact .refl fun _ _ => not_misses_of_isBare bare

end Pattern

namespace Rule

open Pattern

variable {r : Rule} {text : List Char} {f : Frontier}

/-- The frontier of a failed match tells how the rule failed: it follows from all misses. -/
theorem follows_of_phrases (h : r.phrases text = .error f) :
    Fails true (call r) (.atStart text) ∧
      Frontier.start.Follows (Misses (call r) (.atStart text)) f := by
  have settled := matchAt_ne_exhausted r (.atStart text)
  rw [phrases] at h
  rcases found : r.matchAt (.atStart text) with ⟨_ | _ | _, g⟩ <;> rw [found] at h settled <;>
    cases h
  · exact ⟨fails_of_run found, tells _ rfl found settled⟩
  · exact absurd rfl settled

end Rule

end SyntaxTree
