import Mathlib.Logic.ExistsUnique
import SyntaxTree.FileSystem.Setup
import SyntaxTree.Generate
import SyntaxTree.Proofs.Files.Store
import SyntaxTree.Proofs.Nesting.Source

/-!
# Whole or empty outputs

Calls of `generate` come one after the other, on one store and with one tally. A call
makes its output empty before it looks at its input, and fills it only with a whole
document. So whatever the paths of the calls are, an output that a call could make
is empty or whole ever after, and no other entry changes.
-/

namespace SyntaxTree

open FileSystem

/-- The paths that `generate` is called with. -/
structure Call where
  input : String
  output : String

/-- What all calls share. -/
structure Session where
  files : FileSystem
  tally : Tally

/-- One call, with what it found, returned and left. -/
structure Step where
  before : Session
  call : Call
  outcome : Except Fault Unit
  after : Session

namespace Session

def step (s : Session) (call : Call) : Step :=
  let ((outcome, tally), files) :=
    (generate FileSystem.files call.input call.output s.tally).run s.files
  ⟨s, call, outcome, ⟨files, tally⟩⟩

/-- The steps of calls that are made one after the other. -/
def steps (s : Session) : List Call → List Step
  | [] => []
  | call :: rest => s.step call :: (s.step call).after.steps rest

/-- What is left behind all calls. -/
def finish (s : Session) : List Call → Session
  | [] => s
  | call :: rest => (s.step call).after.finish rest

end Session

/-- The ways in which a call may end. -/
inductive Way where
  | uncreated | unread | rejected | unwritten | written
  deriving DecidableEq, Repr

/-- Empty, or a whole document. -/
def Entry.IsWhole (entry : Entry) : Prop :=
  entry.Holds .empty ∨ ∃ program : Program, entry.Holds program.toDiagram.document.toUTF8

namespace Step

/-- The call makes its output at the location. -/
def Opens (step : Step) (location : Location) : Prop :=
  step.before.files.Opens step.call.output location

/-- The output was made at the location, and with these files the input was looked at. -/
def Makes (step : Step) (location : Location) (made : FileSystem) : Prop :=
  step.before.files.Made step.call.output location made

/-- What a call may leave of its output: nothing, or a whole document if it says that all went
well. -/
def Leaves (step : Step) (entry : Entry) : Prop :=
  entry.Holds .empty ∨
    step.outcome = .ok () ∧ ∃ program : Program, entry.Holds program.toDiagram.document.toUTF8

/-- A text that was read from the input. -/
def source (step : Step) (text : String) : Source := ⟨step.call.input, text⟩

/-- What is true of a call that ends in a way. -/
def Ends (step : Step) : Way → Prop
  | .uncreated => (∀ location, ¬ step.Opens location) ∧ step.after = step.before ∧
      ∃ reason, step.outcome = .error (.unwritable step.call.output reason)
  | .unread => ∃ location made reason, step.Makes location made ∧
      made.readText step.call.input = .error reason ∧
      step.outcome = .error (.unreadable step.call.input reason) ∧
      step.after = ⟨made, step.before.tally⟩
  | .rejected => ∃ location made text error, step.Makes location made ∧
      made.readText step.call.input = .ok text ∧
      (step.source text).outcome = .error (.rejected step.call.input error) ∧
      step.outcome = .error (.rejected step.call.input error) ∧
      step.after = ⟨made, step.before.tally.recordError⟩
  | .unwritten => ∃ location made text program, step.Makes location made ∧
      made.readText step.call.input = .ok text ∧ (step.source text).outcome = .ok program ∧
      made.fill step.call.output program.toDiagram.document.toUTF8 = .error .storageFull ∧
      (∃ reading, made.entry? location = some (.device false reading)) ∧
      step.outcome = .error (.unwritable step.call.output .storageFull) ∧
      step.after = ⟨made, step.before.tally.reach program.nesting⟩
  | .written => ∃ location made text program filled entry, step.Makes location made ∧
      made.readText step.call.input = .ok text ∧ (step.source text).outcome = .ok program ∧
      made.fill step.call.output program.toDiagram.document.toUTF8 = .ok filled ∧
      filled.entry? location = some entry ∧
      entry.Holds ("Abstract Syntax Tree\n" ++ program.toDiagram.render ++ "\n").toUTF8 ∧
      (∀ other, other ≠ location → filled.entry? other = step.before.files.entry? other) ∧
      step.outcome = .ok () ∧ step.after = ⟨filled, step.before.tally.reach program.nesting⟩

/-- The way is settled by what the call found. -/
def way (step : Step) : Way :=
  match step.before.files.create step.call.output with
  | .error _ => .uncreated
  | .ok made =>
    match made.readText step.call.input with
    | .error _ => .unread
    | .ok text =>
      match (step.source text).outcome with
      | .error _ => .rejected
      | .ok program =>
        match made.fill step.call.output program.toDiagram.document.toUTF8 with
        | .error _ => .unwritten
        | .ok _ => .written

end Step

/-- A call is made on the store as it is; what it does to it is settled step by step. -/
theorem run_generate (fs : FileSystem) (input output : String) (tally : Tally) :
    (generate files input output tally).run fs =
      match fs.create output with
      | .error reason => ((.error (.unwritable output reason), tally), fs)
      | .ok made =>
        match made.readText input with
        | .error reason => ((.error (.unreadable input reason), tally), made)
        | .ok text =>
          match Source.parse ⟨input, text⟩ tally with
          | (.error fault, after) => ((.error fault, after), made)
          | (.ok program, after) =>
            match made.fill output program.toDiagram.document.toUTF8 with
            | .error reason => ((.error (.unwritable output reason), after), made)
            | .ok filled => ((.ok (), after), filled) := by
  simp only [generate, files, change, StateT.run, bind, StateT.bind]
  cases fs.create output with
  | error reason => rfl
  | ok made =>
    dsimp only [bind, StateT.bind]
    cases made.readText input with
    | error reason => rfl
    | ok text =>
      dsimp only
      rcases Source.parse ⟨input, text⟩ tally with ⟨_ | program, after⟩
      · rfl
      · dsimp only [bind, StateT.bind, change]
        cases made.fill output program.toDiagram.document.toUTF8 with
        | error reason => rfl
        | ok filled => rfl

/-- The empty text is no program. -/
theorem Source.empty_rejected (name : String) :
    ∃ error, (⟨name, ""⟩ : Source).outcome = .error (.rejected name error) := by
  rcases Source.parse_cases ⟨name, ""⟩ with ⟨error, rejected⟩ | ⟨p, _, found, -, -⟩
  · exact ⟨error, by rw [outcome, rejected]⟩
  · have none : (Rule.program.phrases []).isOk = false := by decide
    rw [show Rule.program.phrases [] = .ok [p] from found] at none
    cases none

namespace Step

variable {step : Step} {w : Way} {location : Location}

theorem Ends.way_eq (h : step.Ends w) : step.way = w := by
  cases w with
  | uncreated =>
    obtain ⟨closed, -, -⟩ := h
    rw [way]
    split
    · rfl
    · rename_i made created
      obtain ⟨location, made⟩ := made_of_create created
      exact absurd made.opens (closed location)
  | unread =>
    obtain ⟨_, made, reason, makes, unread, -, -⟩ := h
    simp only [way, makes.created, unread]
  | rejected =>
    obtain ⟨_, made, text, error, makes, read, rejected, -, -⟩ := h
    simp only [way, makes.created, read, rejected]
  | unwritten =>
    obtain ⟨_, made, text, program, makes, read, accepted, refused, -, -, -⟩ := h
    simp only [way, makes.created, read, accepted, refused]
  | written =>
    obtain ⟨_, made, text, program, _, _, makes, read, accepted, taken, -⟩ := h
    simp only [way, makes.created, read, accepted, taken]

theorem Makes.blank {made : FileSystem} (makes : step.Makes location made) :
    ∃ entry, made.entry? location = some entry ∧ step.Leaves entry := by
  obtain ⟨entry, stands, holds⟩ := makes.empty
  exact ⟨entry, stands, .inl holds⟩

/-- A call that makes its output and writes nothing leaves the files as they were made. -/
theorem Ends.makes (h : step.Ends w) (created : w ≠ .uncreated) (unfilled : w ≠ .written) :
    ∃ location, step.Makes location step.after.files := by
  cases w with
  | uncreated => exact absurd rfl created
  | unread =>
    obtain ⟨location, made, _, makes, -, -, after⟩ := h
    rw [after]
    exact ⟨location, makes⟩
  | rejected =>
    obtain ⟨location, made, _, _, makes, -, -, -, after⟩ := h
    rw [after]
    exact ⟨location, makes⟩
  | unwritten =>
    obtain ⟨location, made, _, _, makes, -, -, -, -, -, after⟩ := h
    rw [after]
    exact ⟨location, makes⟩
  | written => exact absurd rfl unfilled

/-- A call changes nothing, or it leaves one output that is empty or whole. -/
theorem Ends.leaves (h : step.Ends w) :
    (∀ location, ¬ step.Opens location) ∧ step.after = step.before ∨
      ∃ location, step.Opens location ∧
        (∃ entry, step.after.files.entry? location = some entry ∧ step.Leaves entry) ∧
        ∀ other, other ≠ location →
          step.after.files.entry? other = step.before.files.entry? other := by
  cases w with
  | uncreated =>
    obtain ⟨closed, same, -⟩ := h
    exact .inl ⟨closed, same⟩
  | unread | rejected | unwritten =>
    obtain ⟨location, makes⟩ := h.makes nofun nofun
    exact .inr ⟨location, makes.opens, makes.blank, makes.others⟩
  | written =>
    obtain ⟨location, _, _, program, _, entry, makes, -, -, -, stands, holds, others, ok,
      after⟩ := h
    rw [after]
    exact .inr ⟨location, makes.opens, ⟨entry, stands, .inr ⟨ok, program, holds⟩⟩, others⟩

/-- Entries where the output was not made stay as they are. -/
theorem Ends.others (h : step.Ends w) (closed : ¬ step.Opens location) :
    step.after.files.entry? location = step.before.files.entry? location := by
  rcases h.leaves with ⟨-, same⟩ | ⟨place, opens, -, others⟩
  · rw [same]
  · refine others location ?_
    rintro rfl
    exact closed opens

/-- An output that was made is empty or whole, and nothing of what it held before is left. -/
theorem Ends.output (h : step.Ends w) (opens : step.Opens location) :
    ∃ entry, step.after.files.entry? location = some entry ∧ step.Leaves entry := by
  rcases h.leaves with ⟨closed, -⟩ | ⟨place, opens', whole, -⟩
  · exact absurd opens (closed location)
  · obtain rfl : place = location := opens.unique opens'
    exact whole

theorem Ends.whole (h : step.Ends w) (opens : step.Opens location) :
    ∃ entry, step.after.files.entry? location = some entry ∧ entry.IsWhole := by
  obtain ⟨entry, stands, leaves⟩ := h.output opens
  exact ⟨entry, stands, leaves.imp_right And.right⟩

/-- Only a call whose text is rejected counts an error. -/
theorem Ends.errors (h : step.Ends w) : step.after.tally.errors =
    step.before.tally.errors + if w = .rejected then 1 else 0 := by
  cases w with
  | uncreated =>
    obtain ⟨-, same, -⟩ := h
    rw [same]
    rfl
  | unread =>
    obtain ⟨_, _, _, -, -, -, after⟩ := h
    rw [after]
    rfl
  | rejected =>
    obtain ⟨_, _, _, _, -, -, -, -, after⟩ := h
    rw [after]
    rfl
  | unwritten =>
    obtain ⟨_, _, _, _, -, -, -, -, -, -, after⟩ := h
    rw [after]
    exact Tally.errors_reach _ _
  | written =>
    obtain ⟨_, _, _, _, _, _, -, -, -, -, -, -, -, -, after⟩ := h
    rw [after]
    exact Tally.errors_reach _ _

/-- An input that is its own output is read as empty, unless it is a device that gives bytes. -/
theorem Ends.rejected_of_same (h : step.Ends w) (opens : step.Opens location)
    (same : step.before.files.locate step.call.input = .ok location)
    (silent : step.before.files.IsSilent location) : w = .rejected := by
  have empty {place : Location} {made : FileSystem} (makes : step.Makes place made) :
      made.readText step.call.input = .ok "" := by
    obtain rfl : location = place := makes.opens.unique opens
    exact makes.readText same silent
  have refused {place : Location} {made : FileSystem} {text : String} {program : Program}
      (makes : step.Makes place made) (read : made.readText step.call.input = .ok text) :
      (step.source text).outcome ≠ .ok program := by
    obtain rfl := Except.ok.inj ((empty makes).symm.trans read)
    obtain ⟨error, rejected⟩ := Source.empty_rejected step.call.input
    rw [show (step.source "").outcome = _ from rejected]
    simp
  cases w with
  | uncreated => exact absurd opens (h.1 location)
  | unread =>
    obtain ⟨_, _, _, makes, unread, -, -⟩ := h
    rw [empty makes] at unread
    cases unread
  | rejected => rfl
  | unwritten =>
    obtain ⟨_, _, _, _, makes, read, accepted, -⟩ := h
    exact absurd accepted (refused makes read)
  | written =>
    obtain ⟨_, _, _, _, _, _, makes, read, accepted, -⟩ := h
    exact absurd accepted (refused makes read)

end Step

namespace Session

@[simp]
theorem step_before (s : Session) (call : Call) : (s.step call).before = s := rfl

@[simp]
theorem step_call (s : Session) (call : Call) : (s.step call).call = call := rfl

theorem step_of_run {s : Session} {call : Call} {outcome : Except Fault Unit} {tally : Tally}
    {fs : FileSystem}
    (run : (generate FileSystem.files call.input call.output s.tally).run s.files =
      ((outcome, tally), fs)) : s.step call = ⟨s, call, outcome, ⟨fs, tally⟩⟩ := by
  rw [step, run]

/-- Every call ends in one of the ways. -/
theorem exists_way (s : Session) (call : Call) : ∃ w, (s.step call).Ends w := by
  have run := run_generate s.files call.input call.output s.tally
  cases created : s.files.create call.output with
  | error reason =>
    rw [created] at run
    rw [step_of_run run]
    refine ⟨.uncreated, fun location opens => ?_, rfl, reason, rfl⟩
    obtain ⟨made, makes⟩ := exists_made opens
    rw [makes.created] at created
    cases created
  | ok made =>
    obtain ⟨location, makes⟩ := made_of_create created
    rw [created] at run
    dsimp only at run
    cases read : made.readText call.input with
    | error reason =>
      rw [read] at run
      rw [step_of_run run]
      exact ⟨.unread, location, made, reason, makes, read, rfl, rfl⟩
    | ok text =>
      rw [read] at run
      dsimp only at run
      rcases Source.parse_leaves ⟨call.input, text⟩ with ⟨program, accepted⟩ | ⟨error, rejected⟩
      · have outcome : (⟨call.input, text⟩ : Source).outcome = .ok program := by
          rw [Source.outcome, accepted]
        rw [accepted] at run
        dsimp only at run
        cases taken : made.fill call.output program.toDiagram.document.toUTF8 with
        | error reason =>
          obtain ⟨device, rfl⟩ := makes.refused taken
          rw [taken] at run
          rw [step_of_run run]
          exact ⟨.unwritten, location, made, text, program, makes, read, outcome, taken, device,
            rfl, rfl⟩
        | ok filled =>
          obtain ⟨⟨entry, stands, holds⟩, others⟩ := makes.filled taken
          rw [taken] at run
          rw [step_of_run run]
          exact ⟨.written, location, made, text, program, filled, entry, makes, read, outcome,
            taken, stands, holds, others, rfl, rfl⟩
      · have outcome : (⟨call.input, text⟩ : Source).outcome =
            .error (.rejected call.input error) := by
          rw [Source.outcome, rejected]
        rw [rejected] at run
        rw [step_of_run run]
        exact ⟨.rejected, location, made, text, error, makes, read, outcome, rfl, rfl⟩

variable {start s : Session} {calls : List Call} {location : Location}

theorem step_of_mem {step : Step} (mem : step ∈ s.steps calls) :
    ∃ (before : Session) (call : Call), step = before.step call := by
  induction calls generalizing s with
  | nil => cases mem
  | cons call rest ih =>
    rcases List.mem_cons.mp mem with rfl | mem
    · exact ⟨s, call, rfl⟩
    · exact ih mem

theorem finish_cons (call : Call) (rest : List Call) :
    s.finish (call :: rest) = (s.step call).after.finish rest := rfl

/-- Where no call makes its output, the calls change nothing. -/
theorem entry?_finish (closed : ∀ step ∈ s.steps calls, ¬ step.Opens location) :
    entry? (s.finish calls).files location = s.files.entry? location := by
  induction calls generalizing s with
  | nil => rfl
  | cons call rest ih =>
    rw [steps, List.forall_mem_cons] at closed
    obtain ⟨w, ends⟩ := s.exists_way call
    rw [finish_cons, ih closed.2, ends.others closed.1]
    rfl

/-- What is empty or whole stays so. -/
theorem isWhole_finish (whole : ∃ entry, s.files.entry? location = some entry ∧ entry.IsWhole) :
    ∃ entry, entry? (s.finish calls).files location = some entry ∧ entry.IsWhole := by
  induction calls generalizing s with
  | nil => exact whole
  | cons call rest ih =>
    obtain ⟨w, ends⟩ := s.exists_way call
    refine ih ?_
    by_cases opens : (s.step call).Opens location
    · exact ends.whole opens
    · rw [ends.others opens]
      exact whole

theorem isWhole_finish_of_opens (made : ∃ step ∈ s.steps calls, step.Opens location) :
    ∃ entry, entry? (s.finish calls).files location = some entry ∧ entry.IsWhole := by
  induction calls generalizing s with
  | nil =>
    obtain ⟨_, mem, -⟩ := made
    cases mem
  | cons call rest ih =>
    obtain ⟨step, mem, opens⟩ := made
    rcases List.mem_cons.mp mem with rfl | mem
    · obtain ⟨w, ends⟩ := s.exists_way call
      rw [finish_cons]
      exact isWhole_finish (ends.whole opens)
    · exact ih ⟨step, mem, opens⟩

theorem files_of_created {call : Call} {made : FileSystem}
    (created : s.files.create call.output = .ok made) (unfilled : (s.step call).way ≠ .written) :
    (s.step call).after.files = made := by
  obtain ⟨w, ends⟩ := s.exists_way call
  rw [ends.way_eq] at unfilled
  have opened : w ≠ .uncreated := by
    rintro rfl
    obtain ⟨place, makes⟩ := made_of_create created
    exact ends.1 place makes.opens
  obtain ⟨_, makes⟩ := ends.makes opened unfilled
  exact Except.ok.inj (makes.created.symm.trans created)

theorem errors_finish (s : Session) (calls : List Call) : (s.finish calls).tally.errors =
    s.tally.errors + (s.steps calls).countP fun step => step.way = .rejected := by
  induction calls generalizing s with
  | nil => rfl
  | cons call rest ih =>
    obtain ⟨w, ends⟩ := s.exists_way call
    rw [finish_cons, ih, ends.errors, steps, List.countP_cons, ends.way_eq, step_before]
    simp only [decide_eq_true_eq]
    omega

end Session

/-! ## A sample store -/

namespace Sample

def text : String := "class A\x7bpublic void main(int p)\x7b\x7d\x7d"

/-- A fresh store with a program, and with a tree file that holds some bytes. -/
def store (tree : ByteArray) : FileSystem :=
  (FileSystem.fresh.put ["tmp", "work", "a"] (.file text.toUTF8)).put ["tmp", "work", "AST.txt"]
    (.file tree)

theorem isPlain_source : IsPlain "a" := ⟨by decide, by simp, by simp, by decide, by decide⟩

theorem isPlain_tree : IsPlain "AST.txt" := ⟨by decide, by simp, by simp, by decide, by decide⟩

theorem accepted : ∃ program, Source.outcome ⟨"a", text⟩ = .ok program := by
  have ok : (Source.outcome ⟨"a", text⟩).isOk = true := by decide +kernel
  cases found : Source.outcome ⟨"a", text⟩ with
  | ok program => exact ⟨program, rfl⟩
  | error fault =>
    rw [found] at ok
    cases ok

variable (tree : ByteArray)

theorem locateNew_tree : (store tree).locateNew "AST.txt" = .ok ["tmp", "work", "AST.txt"] :=
  isPlain_tree.locateNew rfl

theorem locateNew_device : (store tree).locateNew "/dev/full" = .ok ["dev", "full"] := by
  have split : names "/dev/full" = ["", "dev", "full"] := by decide
  refine locateNew_eq_ok_iff.mpr
    ⟨?_, ["", "dev"], "full", split, by decide, by decide, by decide, ?_⟩
  · rw [refusal?, if_neg (by simp), if_neg (by decide), if_neg (by decide)]
  · rw [origin, if_pos (by simp), split]
    rfl

theorem create_tree : (store tree).create "AST.txt" = .ok (store .empty) :=
  create_file (locateNew_tree tree) (.inr ⟨tree, rfl⟩)

theorem create_device : (store tree).create "/dev/full" = .ok (store tree) :=
  FileSystem.create_device (locateNew_device tree) rfl

theorem readText_source : (store tree).readText "a" = .ok text :=
  readText_file (locateNew_locate (isPlain_source.locateNew rfl)) rfl

theorem readText_device : (store tree).readText "/dev/full" = .error .other := by
  rw [readText, locateNew_locate (locateNew_device tree)]
  rfl

theorem fill_tree (content : ByteArray) :
    (store tree).fill "AST.txt" content = .ok (store content) := by
  rw [fill, locateNew_tree]
  rfl

theorem fill_device (content : ByteArray) :
    (store tree).fill "/dev/full" content = .error .storageFull := by
  rw [fill, locateNew_device]
  rfl

section

variable {s : Session} {tree : ByteArray} (found : s.files = store tree)
include found

theorem way_refused : (s.step ⟨"a", "/dev/full"⟩).way = .unwritten := by
  obtain ⟨program, accepted⟩ := accepted
  simp only [Step.way, Step.source, Session.step_before, Session.step_call, found, create_device,
    readText_source, accepted, fill_device]

theorem way_unread : (s.step ⟨"/dev/full", "AST.txt"⟩).way = .unread := by
  simp only [Step.way, Session.step_before, Session.step_call, found, create_tree, readText_device]

theorem way_written : (s.step ⟨"a", "AST.txt"⟩).way = .written := by
  obtain ⟨program, accepted⟩ := accepted
  simp only [Step.way, Step.source, Session.step_before, Session.step_call, found, create_tree,
    readText_source, accepted, fill_tree]

theorem files_refused : (s.step ⟨"a", "/dev/full"⟩).after.files = store tree := by
  refine Session.files_of_created (by rw [found, create_device]) ?_
  rw [way_refused found]
  exact nofun

theorem files_unread : (s.step ⟨"/dev/full", "AST.txt"⟩).after.files = store .empty := by
  refine Session.files_of_created (by rw [found, create_tree]) ?_
  rw [way_unread found]
  exact nofun

end

end Sample

/-- However many calls come one after the other: each one ends in exactly one of the five ways, it
changes no entry but its output, it leaves an output that it could make empty or whole, and it
rejects an input that is its own output, unless that is a device that gives bytes. So behind all
calls every entry is as it was at the start, or empty, or whole, and one error was counted for each
rejected text. -/
theorem output_is_whole_or_empty (start : Session) (calls : List Call) :
    (∀ step ∈ start.steps calls, (∃! way, step.Ends way) ∧
      ∀ location,
        (¬ step.Opens location →
          step.after.files.entry? location = step.before.files.entry? location) ∧
        (step.Opens location →
          (∃ entry, step.after.files.entry? location = some entry ∧ step.Leaves entry) ∧
          (step.before.files.locate step.call.input = .ok location →
            step.before.files.IsSilent location → step.Ends .rejected))) ∧
      (∀ location,
        ((∀ step ∈ start.steps calls, ¬ step.Opens location) →
          entry? (start.finish calls).files location = start.files.entry? location) ∧
        ((∃ step ∈ start.steps calls, step.Opens location) →
          ∃ entry, entry? (start.finish calls).files location = some entry ∧ entry.IsWhole)) ∧
      (start.finish calls).tally.errors =
        start.tally.errors + (start.steps calls).countP fun step => step.way = .rejected := by
  refine ⟨fun step mem => ?_, fun location => ?_, Session.errors_finish start calls⟩
  · obtain ⟨before, call, rfl⟩ := Session.step_of_mem mem
    obtain ⟨w, ends⟩ := before.exists_way call
    refine ⟨⟨w, ends, fun w' ends' => ends'.way_eq.symm.trans ends.way_eq⟩, fun location => ?_⟩
    refine ⟨ends.others, fun opens => ⟨ends.output opens, fun same silent => ?_⟩⟩
    obtain rfl := ends.rejected_of_same opens same silent
    exact ends
  · exact ⟨Session.entry?_finish, Session.isWhole_finish_of_opens⟩

/-- An older tree that is read into its own file is emptied and rejected. A device refuses the tree
of a program and cannot be read itself, and in the end the file takes that tree. -/
theorem output_is_whole_or_empty_four_ways :
    let start : Session := ⟨Sample.store "older tree".toUTF8, .fresh⟩
    let calls : List Call := [⟨"AST.txt", "AST.txt"⟩, ⟨"a", "/dev/full"⟩,
      ⟨"/dev/full", "AST.txt"⟩, ⟨"a", "AST.txt"⟩]
    (start.steps calls).map Step.way = [.rejected, .unwritten, .unread, .written] ∧
      (∀ step ∈ start.steps calls, step.Ends step.way) ∧
      (start.finish calls).tally.errors = 1 := by
  intro start calls
  obtain ⟨each, -, errors⟩ := output_is_whole_or_empty start calls
  have ends (step : Step) (mem : step ∈ start.steps calls) : step.Ends step.way := by
    obtain ⟨w, ends, -⟩ := (each step mem).1
    rwa [ends.way_eq]
  let first := start.step ⟨"AST.txt", "AST.txt"⟩
  have rejected : first.Ends .rejected := by
    have opens : first.Opens ["tmp", "work", "AST.txt"] := ⟨Sample.locateNew_tree _, nofun⟩
    have silent : first.before.files.IsSilent ["tmp", "work", "AST.txt"] := nofun
    exact ((each first (.head _)).2 _).2 opens |>.2 (locateNew_locate opens.1) silent
  have emptied : first.after.files = Sample.store .empty := by
    refine Session.files_of_created (Sample.create_tree _) ?_
    rw [rejected.way_eq]
    exact nofun
  have ways : (start.steps calls).map Step.way = [.rejected, .unwritten, .unread, .written] := by
    have refused := Sample.files_refused emptied
    have unread := Sample.files_unread refused
    simp only [calls, Session.steps, List.map_cons, List.map_nil]
    rw [rejected.way_eq, Sample.way_refused emptied, Sample.way_unread refused,
      Sample.way_written unread]
  refine ⟨ways, ends, ?_⟩
  have counted : (start.steps calls).countP (fun step => step.way = .rejected) =
      ((start.steps calls).map Step.way).countP (· = .rejected) := by
    rw [List.countP_map]
    rfl
  rw [errors, counted, ways]
  rfl

end SyntaxTree
