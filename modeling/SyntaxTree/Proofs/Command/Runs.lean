import SyntaxTree.Command.Run
import SyntaxTree.Proofs.Files.Generate

/-!
# Runs of the command, one after the other

A run is over with its arguments, or it is one call of `generate` with a tally of its
own. All runs in a working directory share one output, which the next run may take as
its input. Since each call makes the output empty first, what it holds behind any
number of runs is settled by the last of them that looked for a file.
-/

namespace SyntaxTree

open FileSystem

/-- One run of the command, with what it found, ended in and left. -/
structure Run where
  before : FileSystem
  arguments : List String
  ending : Ending
  after : FileSystem

namespace FileSystem

/-- Run the command once. -/
def command (fs : FileSystem) (arguments : List String) : Run :=
  let (ending, after) := (run files arguments).run fs
  ⟨fs, arguments, ending, after⟩

/-- The runs of the command one after the other. -/
def commands (fs : FileSystem) : List (List String) → List Run
  | [] => []
  | arguments :: rest => fs.command arguments :: (fs.command arguments).after.commands rest

/-- What is left behind all runs. -/
def settle (fs : FileSystem) : List (List String) → FileSystem
  | [] => fs
  | arguments :: rest => (fs.command arguments).after.settle rest

/-- Where the output of all runs stands. -/
def output (fs : FileSystem) : Location := fs.workingDirectory ++ [outputFile]

/-- The output is a regular file, or one can be made in its place. -/
structure TakesOutput (fs : FileSystem) : Prop where
  directory : fs.entry? fs.workingDirectory = some .directory
  regular : fs.entry? fs.output = none ∨ ∃ content, fs.entry? fs.output = some (.file content)

/-- The program that the file at a path holds. The output itself is empty by the time that it is
read. -/
def program? (fs : FileSystem) (path : String) : Option Program :=
  match fs.locate path, fs.readText path with
  | .ok location, .ok text =>
    if location = fs.output then none else (Source.outcome ⟨path, text⟩).toOption
  | _, _ => none

/-- What the output holds behind a run on a file: the document of its program, or nothing. -/
def treeBytes : Option Program → ByteArray
  | none => .empty
  | some program => program.toDiagram.document.toUTF8

end FileSystem

/-- The path of the file that is asked for. -/
def Request.path? : Request → Option String
  | file path => some path
  | _ => none

/-- The path in the last of the calls that names a file. -/
def lastPath? (calls : List (List String)) : Option String :=
  (calls.filterMap fun arguments => (Request.ofArguments arguments).path?).getLast?

@[simp]
theorem Request.path?_eq_some_iff {request : Request} {path : String} :
    request.path? = some path ↔ request = .file path := by
  cases request <;> simp [path?]

namespace Run

/-- The status of a run, its text on standard output, and whether a count of syntax errors stands
on standard error. -/
structure Shows (r : Run) (status : UInt32) (printed : String) (counted : Bool) : Prop where
  status : r.ending.status = status
  printed : r.ending.printed = printed
  countLine : r.ending.countLine? = if counted then some "1 syntax error" else none
  complaints : "1 syntax error" ∈ r.ending.complaints ↔ counted = true

/-- What a run shows and leaves for a request. -/
def Answers (r : Run) : Request → Prop
  | .refused _ => r.Shows 2 "" false ∧ r.after = r.before
  | .help => r.Shows 0 Ending.helpText false ∧ r.after = r.before
  | .version => r.Shows 0 "astgen 0.1.0\n" false ∧ r.after = r.before
  | .file path =>
    match (generate files path outputFile .fresh).run r.before with
    | ((.ok (), _), after) =>
      r.Shows 0 "Parsing succesful\nAST generated\n" false ∧ r.after = after
    | ((.error fault, _), after) => r.Shows 1 "Unsuccessful\n" fault.isSyntax ∧ r.after = after

end Run

/-- Only a rejected text is a fault of syntax. -/
theorem Step.Ends.rejected_of_syntax {step : Step} {w : Way} {fault : Fault} (h : step.Ends w)
    (failed : step.outcome = .error fault) (syntactic : fault.isSyntax = true) : w = .rejected := by
  cases w with
  | uncreated =>
    obtain ⟨-, -, reason, outcome⟩ := h
    rw [outcome] at failed
    cases failed
    cases syntactic
  | unread =>
    obtain ⟨_, _, _, -, -, outcome, -⟩ := h
    rw [outcome] at failed
    cases failed
    cases syntactic
  | rejected => rfl
  | unwritten =>
    obtain ⟨_, _, _, _, -, -, -, -, -, outcome, -⟩ := h
    rw [outcome] at failed
    cases failed
    cases syntactic
  | written =>
    obtain ⟨_, _, _, _, _, _, -, -, -, -, -, -, -, outcome, -⟩ := h
    rw [outcome] at failed
    cases failed

/-! ## What a run shows -/

theorem run_files (fs : FileSystem) (arguments : List String) : (run files arguments).run fs =
    match Request.ofArguments arguments with
    | .refused reason => (.refused reason, fs)
    | .help => (.help, fs)
    | .version => (.version, fs)
    | .file path =>
      match (generate files path outputFile .fresh).run fs with
      | ((.ok (), _), after) => (.generated, after)
      | ((.error fault, tally), after) => (.failed fault tally.errors, after) := by
  rw [run]
  cases Request.ofArguments arguments with
  | refused reason => rfl
  | help => rfl
  | version => rfl
  | file path =>
    dsimp only
    rw [StateT.run_bind]
    rcases (generate files path outputFile .fresh).run fs with ⟨⟨_ | ⟨⟨⟩⟩, tally⟩, after⟩ <;> rfl

/-- The count of syntax errors is told from any other line by its first character. -/
theorem ne_count_of_head {line : String} {c : Char} (first : line.toList.head? = some c)
    (other : c ≠ '1') : "1 syntax error" ≠ line := by
  rintro rfl
  have one : "1 syntax error".toList.head? = some '1' := by decide
  exact other (Option.some_inj.mp (first.symm.trans one))

theorem head_append {front back : String} {c : Char} (first : front.toList.head? = some c) :
    (front ++ back).toList.head? = some c := by
  rw [String.toList_append, List.head?_append, first]
  rfl

theorem Fault.ne_count (fault : Fault) : "1 syntax error" ≠ fault.message := by
  have parse {front rest : String} (first : front.toList.head? = some 'P') :
      "1 syntax error" ≠ front ++ rest :=
    ne_count_of_head (head_append first) (by decide)
  have file {front path : String} (first : front.toList.head? = some 'I') :
      "1 syntax error" ≠ front ++ path ++ "'" :=
    ne_count_of_head (head_append (head_append first)) (by decide)
  cases fault with
  | rejected _ error => exact parse (by decide)
  | malformed _ error => exact parse (by decide)
  | unreadable path _ => exact file (by decide)
  | unwritable path _ => exact file (by decide)

theorem SyntaxError.ne_count (error : SyntaxError) : "1 syntax error" ≠ error.help := by
  unfold help
  split
  · decide
  · split
    · decide
    · have first : "found '".toList.head? = some 'f' := by decide
      exact ne_count_of_head (head_append (head_append first)) (by decide)

theorem Fault.count_not_mem (fault : Fault) :
    "1 syntax error" ∉ fault.message :: fault.help.toList := by
  rw [List.mem_cons, not_or]
  refine ⟨fault.ne_count, ?_⟩
  cases fault with
  | rejected _ error => exact fun mem => error.ne_count (List.mem_singleton.mp mem)
  | malformed => simp [Fault.help]
  | unreadable => exact List.not_mem_nil
  | unwritable => exact List.not_mem_nil

namespace Run

variable {r : Run}

/-- A run without a fault counts no errors. -/
theorem shows_of_ending (ending : Ending) (h : r.ending = ending) (quiet : ending.countLine? = none)
    (silent : "1 syntax error" ∉ ending.complaints) :
    r.Shows ending.status ending.printed false := by
  subst h
  exact ⟨rfl, rfl, quiet, by simp [silent]⟩

/-- A run that fails has counted one error if its fault is one of syntax. -/
theorem shows_of_failed {fault : Fault} {errors : Nat} (h : r.ending = .failed fault errors)
    (counted : fault.isSyntax = true → errors = 1) :
    r.Shows 1 "Unsuccessful\n" fault.isSyntax := by
  have line : r.ending.countLine? = if fault.isSyntax then some "1 syntax error" else none := by
    rw [h, Ending.countLine?]
    cases syntactic : fault.isSyntax with
    | false => rfl
    | true => rw [counted syntactic]; decide
  refine ⟨by rw [h]; rfl, by rw [h]; rfl, line, ?_⟩
  rw [h] at line ⊢
  rw [Ending.complaints, line, List.mem_append, or_iff_left fault.count_not_mem]
  cases fault.isSyntax <;> simp

end Run

namespace FileSystem

variable {fs : FileSystem} {arguments : List String} {path : String}

/-- A call with a fresh tally counts one error for a fault of syntax. -/
theorem errors_of_generate {output : String} {fault : Fault} {tally : Tally} {after : FileSystem}
    (h : (generate files path output .fresh).run fs = ((.error fault, tally), after))
    (syntactic : fault.isSyntax = true) : tally.errors = 1 := by
  have step : Session.step ⟨fs, .fresh⟩ ⟨path, output⟩ =
      ⟨⟨fs, .fresh⟩, ⟨path, output⟩, .error fault, ⟨after, tally⟩⟩ := Session.step_of_run h
  obtain ⟨w, ends⟩ := Session.exists_way ⟨fs, .fresh⟩ ⟨path, output⟩
  rw [step] at ends
  have errors := ends.errors
  rwa [if_pos (ends.rejected_of_syntax rfl syntactic)] at errors

/-- A run answers what its arguments ask for. -/
theorem command_answers (fs : FileSystem) (arguments : List String) :
    (fs.command arguments).Answers (Request.ofArguments arguments) := by
  have ran := run_files fs arguments
  have command {ending : Ending} {after : FileSystem}
      (ran : (run files arguments).run fs = (ending, after)) :
      fs.command arguments = ⟨fs, arguments, ending, after⟩ := by rw [FileSystem.command, ran]
  cases request : Request.ofArguments arguments with
  | refused reason =>
    rw [request] at ran
    rw [command ran]
    exact ⟨Run.shows_of_ending (.refused reason) rfl rfl (by cases reason <;> decide), rfl⟩
  | help =>
    rw [request] at ran
    rw [command ran]
    exact ⟨Run.shows_of_ending .help rfl rfl (by decide), rfl⟩
  | version =>
    rw [request] at ran
    rw [command ran]
    exact ⟨Run.shows_of_ending .version rfl rfl (by decide), rfl⟩
  | file path =>
    rw [request] at ran
    dsimp only at ran
    rw [Run.Answers]
    rcases called : (generate files path outputFile .fresh).run fs
      with ⟨⟨fault | ⟨⟨⟩⟩, tally⟩, after⟩
    · rw [called] at ran
      rw [command ran, called]
      exact ⟨Run.shows_of_failed rfl (errors_of_generate called), rfl⟩
    · rw [called] at ran
      rw [command ran, called]
      exact ⟨Run.shows_of_ending .generated rfl rfl (by decide), rfl⟩

/-! ## What a run leaves -/

theorem program?_eq_some_iff {program : Program} : fs.program? path = some program ↔
    ∃ location text, fs.locate path = .ok location ∧ location ≠ fs.output ∧
      fs.readText path = .ok text ∧ Source.outcome ⟨path, text⟩ = .ok program := by
  rw [program?]
  cases fs.locate path with
  | error reason => simp
  | ok location =>
    cases fs.readText path with
    | error reason => simp
    | ok text =>
      by_cases here : location = fs.output
      · simp [here]
      · cases accepted : Source.outcome ⟨path, text⟩ <;> simp [here, accepted, Except.toOption]

/-- A text that is read where a path leads is the same in every store with the same entry there. -/
theorem readText_congr {other : FileSystem} {location : Location}
    (leads : fs.locate path = .ok location) (leads' : other.locate path = .ok location)
    (stands : other.entry? location = fs.entry? location) :
    other.readText path = fs.readText path := by
  rw [readText, readText, leads, leads']
  dsimp only [bind, Except.bind]
  rw [stands]

theorem put_put {location : Location} {first second : Entry} :
    (fs.put location first).put location second = fs.put location second := by
  simp [put]

theorem output_put {entry : Entry} : (fs.put fs.output entry).output = fs.output := rfl

theorem isPlain_outputFile : IsPlain outputFile :=
  ⟨by decide, by simp [outputFile], by simp [outputFile], by decide, by decide⟩

namespace TakesOutput

variable (takes : fs.TakesOutput) {content : ByteArray}
include takes

theorem opens : fs.Opens outputFile fs.output := by
  refine ⟨isPlain_outputFile.locateNew takes.directory, ?_⟩
  obtain none | ⟨held, file⟩ := takes.regular
  · simp [none]
  · simp [file]

theorem silent : fs.IsSilent fs.output := by
  intro takesBytes reading device
  obtain none | ⟨held, file⟩ := takes.regular
  · simp [none] at device
  · simp [file] at device

theorem put : (fs.put fs.output (.file content)).TakesOutput where
  directory := (entry?_put_of_ne (by simp [output, FileSystem.put])).trans takes.directory
  regular := .inr ⟨content, entry?_put_self (ne_root takes.opens.2)⟩

theorem create : fs.create outputFile = .ok (fs.put fs.output (.file .empty)) :=
  create_file takes.opens.1 takes.regular

theorem made : fs.Made outputFile fs.output (fs.put fs.output (.file .empty)) where
  created := takes.create
  opens := takes.opens
  stands := .inl (entry?_put_self (ne_root takes.opens.2))
  others _ ne := entry?_put_of_ne ne
  workingDirectory := rfl

theorem fill : (fs.put fs.output (.file .empty)).fill outputFile content =
    .ok (fs.put fs.output (.file content)) := by
  rw [takes.made.fill_file (entry?_put_self (ne_root takes.opens.2)), put_put]

/-- The directories are the same whatever the output holds. -/
theorem sameDirectories : fs.SameDirectories (fs.put fs.output (.file content)) where
  directories location := by
    by_cases here : location = fs.output
    · subst here
      rw [entry?_put_self (ne_root takes.opens.2)]
      exact iff_of_false takes.opens.2 (by simp)
    · rw [entry?_put_of_ne here]
  workingDirectory := rfl

/-- What a file is read as depends on the output only if it is the output. -/
theorem program?_put : (fs.put fs.output (.file content)).program? path = fs.program? path := by
  have same {location : Location} {text : String} (ne : location ≠ fs.output) :
      (fs.put fs.output (.file content)).locate path = .ok location ∧
          (fs.put fs.output (.file content)).readText path = .ok text ↔
        fs.locate path = .ok location ∧ fs.readText path = .ok text := by
    rw [← takes.sameDirectories.locate_iff]
    refine and_congr_right fun leads => ?_
    rw [readText_congr leads (takes.sameDirectories.locate_iff.mp leads) (entry?_put_of_ne ne)]
  refine Option.ext fun program => ?_
  simp only [program?_eq_some_iff, output_put]
  refine exists_congr fun location => exists_congr fun text => ?_
  constructor
  · rintro ⟨leads, ne, read, rest⟩
    obtain ⟨leads, read⟩ := (same ne).mp ⟨leads, read⟩
    exact ⟨leads, ne, read, rest⟩
  · rintro ⟨leads, ne, read, rest⟩
    obtain ⟨leads, read⟩ := (same ne).mpr ⟨leads, read⟩
    exact ⟨leads, ne, read, rest⟩

/-- A call fills the output with the document of its program, or fails and leaves it empty. -/
theorem generate (path : String) (tally : Tally) : ∃ outcome after,
    (SyntaxTree.generate files path outputFile tally).run fs = ((outcome, after),
      fs.put fs.output (.file (treeBytes (fs.program? path)))) ∧
    (outcome = .ok () ↔ (fs.program? path).isSome) := by
  have same : (fs.put fs.output (.file .empty)).program? path = fs.program? path :=
    takes.program?_put
  rw [run_generate, takes.create, ← same]
  dsimp only
  cases found : (fs.put fs.output (.file .empty)).program? path with
  | some program =>
    obtain ⟨_, text, -, -, read, accepted⟩ := program?_eq_some_iff.mp found
    rw [read]
    dsimp only
    rcases Source.parse_leaves ⟨path, text⟩ with ⟨program', parsed⟩ | ⟨error, parsed⟩
    · rw [Source.outcome, parsed] at accepted
      cases accepted
      rw [parsed]
      dsimp only
      rw [takes.fill]
      exact ⟨_, _, rfl, by simp⟩
    · rw [Source.outcome, parsed] at accepted
      cases accepted
  | none =>
    cases read : (fs.put fs.output (.file .empty)).readText path with
    | error reason => exact ⟨_, _, rfl, by simp⟩
    | ok text =>
      dsimp only
      rcases Source.parse_leaves ⟨path, text⟩ with ⟨program, parsed⟩ | ⟨error, parsed⟩
      · -- Only the output itself could still be accepted, and it is empty.
        have accepted : Source.outcome ⟨path, text⟩ = .ok program := by rw [Source.outcome, parsed]
        obtain ⟨location, _, _, leads, -⟩ := readText_eq_ok_iff.mp read
        by_cases here : location = fs.output
        · subst here
          have empty := takes.made.readText (takes.sameDirectories.locate_iff.mpr leads) takes.silent
          obtain rfl := Except.ok.inj (read.symm.trans empty)
          obtain ⟨error, rejected⟩ := Source.empty_rejected path
          rw [accepted] at rejected
          cases rejected
        · rw [program?_eq_some_iff.mpr ⟨location, text, leads, here, read, accepted⟩] at found
          cases found
      · rw [parsed]
        exact ⟨_, _, rfl, by simp⟩

/-- A run that names a file succeeds if the file holds a program, and it leaves the document of that
program or an empty output. -/
theorem command (named : Request.ofArguments arguments = .file path) :
    (fs.command arguments).ending.status = (if (fs.program? path).isSome then 0 else 1) ∧
      (fs.command arguments).after =
        fs.put fs.output (.file (treeBytes (fs.program? path))) := by
  obtain ⟨outcome, tally, called, ok⟩ := takes.generate path .fresh
  have answers := command_answers fs arguments
  rw [named] at answers
  dsimp only [Run.Answers] at answers
  rw [show (fs.command arguments).before = fs from rfl, called] at answers
  cases outcome with
  | error fault =>
    have none : (fs.program? path).isSome = false := by simpa using ok
    rw [none]
    exact ⟨answers.1.status, answers.2⟩
  | ok done =>
    rw [if_pos (ok.mp rfl)]
    exact ⟨answers.1.status, answers.2⟩

end TakesOutput

/-- A run that names no file changes nothing. -/
theorem command_of_path?_eq_none (none : (Request.ofArguments arguments).path? = none) :
    (fs.command arguments).after = fs := by
  have answers := command_answers fs arguments
  cases request : Request.ofArguments arguments with
  | file path =>
    rw [request] at none
    cases none
  | help => rw [request] at answers; exact answers.2
  | version => rw [request] at answers; exact answers.2
  | refused reason => rw [request] at answers; exact answers.2

/-- Behind a run the output can be written as before, and every path leads to the same program. -/
theorem TakesOutput.next (takes : fs.TakesOutput) (arguments : List String) :
    (fs.command arguments).after.TakesOutput ∧
      ∀ path, (fs.command arguments).after.program? path = fs.program? path := by
  cases named : (Request.ofArguments arguments).path? with
  | none =>
    rw [command_of_path?_eq_none named]
    exact ⟨takes, fun _ => rfl⟩
  | some path =>
    rw [(takes.command (Request.path?_eq_some_iff.mp named)).2]
    exact ⟨takes.put, fun _ => takes.program?_put⟩

theorem lastPath?_cons (rest : List (List String)) :
    lastPath? (arguments :: rest) =
      (lastPath? rest).or (Request.ofArguments arguments).path? := by
  cases named : (Request.ofArguments arguments).path? with
  | none => simp [lastPath?, named]
  | some path => simp [lastPath?, named, List.getLast?_cons]

/-- What is left behind all runs, by the last of them that named a file. -/
theorem TakesOutput.settle (takes : fs.TakesOutput) (calls : List (List String)) :
    fs.settle calls = match lastPath? calls with
      | none => fs
      | some path => fs.put fs.output (.file (treeBytes (fs.program? path))) := by
  induction calls generalizing fs with
  | nil => rfl
  | cons arguments rest ih =>
    obtain ⟨takes', same⟩ := takes.next arguments
    rw [FileSystem.settle, ih takes', lastPath?_cons]
    cases named : (Request.ofArguments arguments).path? with
    | none =>
      rw [command_of_path?_eq_none named, Option.or_none]
    | some path =>
      obtain ⟨-, after⟩ := takes.command (Request.path?_eq_some_iff.mp named)
      cases lastPath? rest with
      | none => exact after
      | some last =>
        dsimp only [Option.some_or]
        rw [same, after, output_put, put_put]

/-- No program is read from the output itself, whatever it holds. -/
theorem TakesOutput.program?_outputFile (takes : fs.TakesOutput) :
    fs.program? outputFile = none := by
  rw [program?, locateNew_locate takes.opens.1]
  cases fs.readText outputFile with
  | error reason => rfl
  | ok text => exact if_pos rfl

theorem mem_commands {r : Run} {calls : List (List String)} (mem : r ∈ fs.commands calls) :
    r = r.before.command r.arguments := by
  induction calls generalizing fs with
  | nil => cases mem
  | cons arguments rest ih =>
    rcases List.mem_cons.mp mem with rfl | mem
    · rfl
    · exact ih mem

/-- Every run finds the output as ready as the first one, and the programs that the first finds. -/
theorem TakesOutput.of_mem (takes : fs.TakesOutput) {r : Run} {calls : List (List String)}
    (mem : r ∈ fs.commands calls) :
    r.before.TakesOutput ∧ ∀ path, r.before.program? path = fs.program? path := by
  induction calls generalizing fs with
  | nil => cases mem
  | cons arguments rest ih =>
    obtain ⟨takes', same⟩ := takes.next arguments
    rcases List.mem_cons.mp mem with rfl | mem
    · exact ⟨takes, fun _ => rfl⟩
    · obtain ⟨ready, same'⟩ := ih takes' mem
      exact ⟨ready, fun path => (same' path).trans (same path)⟩

end FileSystem

/-- However many runs of the command come one after the other: each one shows and leaves what its
arguments ask for. If the output is a regular file, or one can be made in its place, then every run
that names a file ends well if the file holds a program, and behind all runs nothing has changed
but the output. It holds the whole document of the program in the file that was named last, or
nothing if that file holds no program. -/
theorem last_run_settles_output (fs : FileSystem) (calls : List (List String)) :
    (∀ r ∈ fs.commands calls, r.Answers (Request.ofArguments r.arguments)) ∧
      (fs.TakesOutput →
        (∀ r ∈ fs.commands calls, ∀ path, Request.ofArguments r.arguments = .file path →
          r.before.program? path = fs.program? path ∧
            r.ending.status = if (fs.program? path).isSome then 0 else 1) ∧
        fs.settle calls = match (lastPath? calls).map fs.program? with
          | none => fs
          | some none => fs.put fs.output (.file .empty)
          | some (some program) => fs.put fs.output
              (.file ("Abstract Syntax Tree\n" ++ program.toDiagram.render ++ "\n").toUTF8)) := by
  refine ⟨fun r mem => ?_, fun takes => ⟨fun r mem path named => ?_, ?_⟩⟩
  · rw [mem_commands mem]
    exact command_answers r.before r.arguments
  · obtain ⟨ready, same⟩ := takes.of_mem mem
    obtain ⟨status, -⟩ := ready.command named
    rw [← mem_commands mem, same] at status
    exact ⟨same path, status⟩
  · rw [takes.settle calls]
    cases lastPath? calls with
    | none => rfl
    | some path =>
      dsimp only [Option.map_some]
      cases fs.program? path <;> rfl

/-- An older tree is emptied by the run that reads it. A run on a program leaves the document of the
program, which a run that only tells the version does not touch. -/
theorem last_run_settles_output_program :
    let older := Sample.store "older tree".toUTF8
    let calls := [["--help"], ["AST.txt"], ["a"], ["-V"]]
    ∃ program, Source.outcome ⟨"a", Sample.text⟩ = .ok program ∧ older.TakesOutput ∧
      (older.commands calls).map (fun r => r.ending.status) = [0, 1, 0, 0] ∧
      older.settle calls = Sample.store
        ("Abstract Syntax Tree\n" ++ program.toDiagram.render ++ "\n").toUTF8 ∧
      older.settle (calls ++ [["AST.txt"]]) = Sample.store .empty := by
  intro older calls
  obtain ⟨program, accepted⟩ := Sample.accepted
  have takes : older.TakesOutput := ⟨rfl, .inr ⟨_, rfl⟩⟩
  have source : older.program? "a" = some program :=
    program?_eq_some_iff.mpr ⟨["tmp", "work", "a"], _,
      locateNew_locate (Sample.isPlain_source.locateNew rfl), by decide, Sample.readText_source _,
      accepted⟩
  have tree : older.program? "AST.txt" = none := takes.program?_outputFile
  obtain ⟨answers, output⟩ := last_run_settles_output older calls
  obtain ⟨each, left⟩ := output takes
  obtain ⟨-, output'⟩ := last_run_settles_output older (calls ++ [["AST.txt"]])
  obtain ⟨-, left'⟩ := output' takes
  have last : lastPath? calls = some "a" := by decide
  have last' : lastPath? (calls ++ [["AST.txt"]]) = some "AST.txt" := by decide
  rw [last, Option.map_some, source] at left
  rw [last', Option.map_some, tree] at left'
  refine ⟨program, accepted, takes, ?_, left, left'⟩
  let first := older.command ["--help"]
  let second := first.after.command ["AST.txt"]
  let third := second.after.command ["a"]
  let fourth := third.after.command ["-V"]
  have help : first.Answers .help := answers first (.head _)
  have emptied := (each second (.tail _ (.head _)) "AST.txt" (by decide)).2
  have filled := (each third (.tail _ (.tail _ (.head _))) "a" (by decide)).2
  have version : fourth.Answers .version :=
    answers fourth (.tail _ (.tail _ (.tail _ (.head _))))
  rw [tree] at emptied
  rw [source] at filled
  simp only [calls, commands, List.map_cons, List.map_nil]
  rw [help.1.status, emptied, filled, version.1.status]
  rfl

end SyntaxTree
