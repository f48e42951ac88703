import SyntaxTree.Proofs.Reading.Block

/-!
# What reading leaves on a tally

Reading a construct closes every block that it opens, on every path. What stays
on the tally is how many blocks were open at once, and this is the nesting of the
construct that was read. A block counts when it is read, so a construct that the
matcher tried and gave up leaves nothing.
-/

namespace SyntaxTree

mutual

/-- How many blocks stand inside each other in a statement. -/
def Stmt.nesting : Stmt → Nat
  | .declaration _ | .initialization _ | .step _ => 0
  | .ifThen _ body | .forLoop _ body => Block.nesting body + 1
  | .ifElse _ body alternative => max (Block.nesting body + 1) (Block.nesting alternative + 1)

/-- The deepest nesting among the statements of a block, which itself does not count. -/
def Block.nesting : List Stmt → Nat
  | [] => 0
  | stmt :: rest => max stmt.nesting (Block.nesting rest)

end

/-- The body of the method is a block, too. -/
def MethodDecl.nesting (method : MethodDecl) : Nat := Block.nesting method.body + 1

def Program.nesting (program : Program) : Nat := program.root.method.nesting

namespace Tally

/-- So many more blocks were open at once, and are closed again. -/
def reach (t : Tally) : Nat → Tally
  | 0 => t
  | levels + 1 => { t with deepest := max t.deepest (t.depth + levels + 1) }

@[simp] theorem errors_reach (t : Tally) (levels : Nat) : (t.reach levels).errors = t.errors := by
  cases levels <;> rfl

/-- Of two constructs one after the other the deeper one counts. -/
theorem reach_reach (t : Tally) (first second : Nat) :
    (t.reach first).reach second = t.reach (max first second) := by
  cases first with
  | zero => rw [Nat.zero_max, reach]
  | succ first =>
    cases second with
    | zero => rw [Nat.max_zero, reach]
    | succ second =>
      rw [Nat.succ_max_succ]
      simp only [reach, mk.injEq, true_and, and_true]
      omega

/-- A block counts in addition to the blocks inside it. -/
theorem leave_reach_enter (t : Tally) (levels : Nat) :
    (t.enter.reach levels).leave = t.reach (levels + 1) := by
  cases levels with
  | zero => rfl
  | succ levels =>
    simp only [reach, enter, leave, mk.injEq, Nat.add_sub_cancel, true_and, and_true]
    omega

end Tally

namespace TallyReader

variable {α β : Type} {reader : TallyReader α} {next : α → TallyReader β} {t : Tally}
  {result : Except ShapeError α}

/-- Wherever the reader gives a value, the tally that it leaves is as described. -/
def Leaves (reader : TallyReader α) (t : Tally) (Q : α → Tally → Prop) : Prop :=
  ∀ x after, reader.run.run t = (.ok x, after) → Q x after

variable {Q R : α → Tally → Prop} {S : β → Tally → Prop}

theorem Leaves.mono (h : reader.Leaves t Q) (le : ∀ x after, Q x after → R x after) :
    reader.Leaves t R :=
  fun x after run => le x after (h x after run)

theorem leaves_pure {x : α} (h : Q x t) : TallyReader.Leaves (pure x) t Q := by
  intro y after run
  cases run
  exact h

/-- Reading that opens no block leaves the tally as it is. -/
theorem leaves_lift (h : ∀ x, result = .ok x → Q x t) : Leaves (liftM result) t Q := by
  intro y after run
  cases result with
  | error => cases run
  | ok x =>
    cases run
    exact h _ rfl

theorem leaves_refuse {p : Phrase} {flaw : Flaw} : Leaves (liftM (p.refuse flaw)) t Q :=
  leaves_lift fun _ ok => by cases ok

theorem Leaves.bind (h : reader.Leaves t fun x middle => (next x).Leaves middle S) :
    (reader >>= next).Leaves t S := by
  intro y after run
  rw [ExceptT.run_bind, StateT.run_bind] at run
  rcases first : reader.run.run t with ⟨_ | x, middle⟩
  · rw [first] at run
    cases run
  · rw [first] at run
    exact h x middle first y after run

theorem Leaves.scoped (h : reader.Leaves t.enter fun x inside => Q x inside.leave) :
    (TallyReader.scoped reader).Leaves t Q := by
  intro x after run
  have run' : ((reader.run.run t.enter).1, (reader.run.run t.enter).2.leave) =
      (.ok x, after) := run
  rcases first : reader.run.run t.enter with ⟨result, inside⟩
  rw [first] at run'
  cases run'
  exact h x inside first

end TallyReader

open TallyReader

/-- Statements one after the other leave what the deepest of them leaves. -/
theorem Block.leaves_mapM {γ : Type} {read : γ → TallyReader Stmt} (items : List γ) (t : Tally)
    (each : ∀ item t, (read item).Leaves t fun stmt after => after = t.reach stmt.nesting) :
    (items.mapM read).Leaves t fun block after => after = t.reach (Block.nesting block) := by
  induction items generalizing t with
  | nil => exact leaves_pure rfl
  | cons item rest ih =>
    rw [List.mapM_cons]
    refine Leaves.bind ((each item t).mono ?_)
    rintro stmt _ rfl
    refine Leaves.bind ((ih _).mono ?_)
    rintro block _ rfl
    refine leaves_pure ?_
    rw [Tally.reach_reach, Block.nesting]

mutual

/-- Reading a block leaves the nesting of its statements and one block more. -/
theorem Block.leaves (p : Phrase) (t : Tally) :
    (Block.ofPhrase p).Leaves t fun block after => after = t.reach (Block.nesting block + 1) := by
  rw [Block.ofPhrase]
  have inside := Block.leaves_mapM p.inner t.enter
    fun stmt t => Stmt.leaves stmt.phrase t
  refine Leaves.scoped (inside.mono ?_)
  rintro block _ rfl
  exact t.leave_reach_enter _
termination_by sizeOf p
decreasing_by exact stmt.sizeOf_lt

theorem Stmt.leaves (p : Phrase) (t : Tally) :
    (Stmt.ofPhrase p).Leaves t fun stmt after => after = t.reach stmt.nesting := by
  rw [Stmt.ofPhrase]
  split
  · split
    · rename_i test first second _
      refine Leaves.bind (leaves_lift fun condition _ => ?_)
      refine Leaves.bind ((Block.leaves first.phrase t).mono ?_)
      rintro body _ rfl
      refine Leaves.bind ((Block.leaves second.phrase _).mono ?_)
      rintro alternative _ rfl
      refine leaves_pure ?_
      rw [Tally.reach_reach, Stmt.nesting]
    · exact leaves_refuse
  · split
    · rename_i test first _
      refine Leaves.bind (leaves_lift fun condition _ => ?_)
      refine Leaves.bind ((Block.leaves first.phrase t).mono ?_)
      rintro body _ rfl
      exact leaves_pure rfl
    · exact leaves_refuse
  · split
    · rename_i header first _
      refine Leaves.bind (leaves_lift fun clauses _ => ?_)
      refine Leaves.bind ((Block.leaves first.phrase t).mono ?_)
      rintro body _ rfl
      exact leaves_pure rfl
    · exact leaves_refuse
  · split
    · split
      · exact Leaves.bind (leaves_lift fun decl _ => leaves_pure rfl)
      · exact Leaves.bind (leaves_lift fun decl _ => leaves_pure rfl)
      · exact leaves_refuse
    · exact leaves_refuse
  · split
    · split
      · exact Leaves.bind (leaves_lift fun assignment _ => leaves_pure rfl)
      · exact Leaves.bind (leaves_lift fun init _ => leaves_pure rfl)
      · exact leaves_refuse
    · exact leaves_refuse
  · split
    · exact Leaves.bind (leaves_lift fun step _ => leaves_pure rfl)
    · exact leaves_refuse
  · exact leaves_refuse
termination_by sizeOf p
decreasing_by all_goals exact Phrase.Child.sizeOf_lt _

end

end SyntaxTree
