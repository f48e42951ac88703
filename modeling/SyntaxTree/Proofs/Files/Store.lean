import SyntaxTree.FileSystem.Basic

/-!
# Making and filling a file

Where a path leads depends on the directories alone. To make a file changes no
directory, so every path leads to the same place before and after, and a file that
was made is found again when it is filled.
-/

namespace SyntaxTree

/-- The entry holds exactly these bytes. A device holds none, but it may have taken some. -/
def Entry.Holds (content : ByteArray) : Entry → Prop
  | file held => held = content
  | directory => False
  | device takesBytes _ => content = .empty ∨ takesBytes = true

namespace FileSystem

theorem bind_eq_ok {ε α β : Type} {x : Except ε α} {f : α → Except ε β} {y : β} :
    (x >>= f) = .ok y ↔ ∃ a, x = .ok a ∧ f a = .ok y := by
  cases x <;> simp [bind, Except.bind]

variable {fs made : FileSystem} {location other here there : Location} {entry : Entry}
variable {path : String} {content : ByteArray}

/-! ## What is stored -/

theorem entry?_put_self (inner : location ≠ []) :
    entry? (fs.put location entry) location = some entry := by
  simp [put, entry?, inner]

theorem entry?_put_of_ne (ne : other ≠ location) :
    entry? (fs.put location entry) other = fs.entry? other := by
  have skipped : (other == location) = false := beq_eq_false_iff_ne.mpr ne
  have same (entries : List (Location × Entry)) :
      (entries.filter fun old => old.1 != location).lookup other = entries.lookup other := by
    induction entries with
    | nil => rfl
    | cons old entries ih =>
      obtain ⟨place, held⟩ := old
      by_cases here : place = location
      · subst here
        simp [List.lookup_cons, skipped, ih]
      · simp [List.lookup_cons, here, ih]
  simp [put, entry?, List.lookup_cons, skipped, same]

/-- A directory stands at the root, so no other entry does. -/
theorem ne_root (h : fs.entry? location ≠ some .directory) : location ≠ [] := by
  rintro rfl
  exact h rfl

/-! ## Where paths lead -/

theorem walk_cons {name : String} {names : List String} :
    fs.walk here (name :: names) = .ok there ↔ fs.entry? here = some .directory ∧
      ∃ next, step here name = .ok next ∧ fs.walk next names = .ok there := by
  rw [walk]
  split
  · rename_i none
    simp [none]
  · rename_i file
    simp [file]
  · rename_i device
    simp [device]
  · rename_i directory
    cases step here name <;> simp [directory]

theorem walk_append {front back : List String} : fs.walk here (front ++ back) = .ok there ↔
    ∃ middle, fs.walk here front = .ok middle ∧ fs.walk middle back = .ok there := by
  induction front generalizing here with
  | nil => simp [walk]
  | cons name front ih =>
    rw [List.cons_append]
    simp only [walk_cons, ih]
    constructor
    · rintro ⟨directory, next, first, middle, others, rest⟩
      exact ⟨middle, ⟨directory, next, first, others⟩, rest⟩
    · rintro ⟨middle, ⟨directory, next, first, others⟩, rest⟩
      exact ⟨directory, next, first, middle, others, rest⟩

theorem walk_dot : fs.walk here ["."] = .ok there ↔
    fs.entry? here = some .directory ∧ there = here := by
  have stay : step here "." = .ok here := by simp [step]
  rw [walk_cons]
  constructor
  · rintro ⟨directory, next, moved, stop⟩
    rw [stay] at moved
    cases moved
    cases stop
    exact ⟨directory, rfl⟩
  · rintro ⟨directory, rfl⟩
    exact ⟨directory, there, stay, rfl⟩

/-- Nothing is trimmed from the end of a path if and only if its last name is not empty. -/
theorem trimmed_eq_iff {names before : List String} {last : String} :
    (names.reverse.dropWhile (fun name => decide (name = "")) = last :: before ∧
        names.length ≤ before.length + 1) ↔ names = before.reverse ++ [last] ∧ last ≠ "" := by
  constructor
  · rintro ⟨trimmed, long⟩
    have suffix : last :: before <:+ names.reverse := trimmed ▸ List.dropWhile_suffix _
    have whole : last :: before = names.reverse :=
      suffix.eq_of_length_le (by rwa [List.length_reverse])
    have nonempty := List.head?_dropWhile_not (fun name => decide (name = "")) names.reverse
    rw [trimmed] at nonempty
    refine ⟨?_, by simpa using nonempty⟩
    rw [← List.reverse_cons, whole, List.reverse_reverse]
  · rintro ⟨rfl, nonempty⟩
    refine ⟨?_, by simp⟩
    rw [List.reverse_append, List.reverse_reverse, List.reverse_singleton, List.singleton_append,
      List.dropWhile_cons_of_neg (by simpa using nonempty)]

/-- A path lets a file be made where all of its names lead, if the last one does not stand for a
directory. -/
theorem locateNew_eq_ok_iff : fs.locateNew path = .ok location ↔ refusal? path = none ∧
    ∃ front last, names path = front ++ [last] ∧ last ≠ "" ∧ last ≠ "." ∧ last ≠ ".." ∧
      fs.walk (fs.origin path) (names path) = .ok location := by
  rw [locateNew]
  cases refused : refusal? path with
  | some reason => simp
  | none =>
    dsimp only
    constructor
    · intro h
      split at h
      · cases h
      · rename_i last before trimmed
        obtain ⟨parent, above, h⟩ := bind_eq_ok.mp h
        split at h
        · cases h
        · rename_i plain
          simp only [not_or, Nat.not_lt] at plain
          obtain ⟨long, dot, dots⟩ := plain
          rw [trimmed] at long
          obtain ⟨split, nonempty⟩ := trimmed_eq_iff.mp ⟨trimmed, long⟩
          obtain ⟨middle, leads, stays⟩ := walk_append.mp above
          obtain ⟨-, rfl⟩ := walk_dot.mp stays
          refine ⟨rfl, before.reverse, last, split, nonempty, dot, dots, ?_⟩
          rw [split]
          exact walk_append.mpr ⟨parent, leads, h⟩
    · rintro ⟨-, front, last, split, nonempty, dot, dots, leads⟩
      obtain ⟨trimmed, -⟩ :=
        trimmed_eq_iff.mpr ⟨split.trans (by rw [front.reverse_reverse]), nonempty⟩
      rw [split] at leads
      obtain ⟨parent, above, final⟩ := walk_append.mp leads
      have directory := (walk_cons.mp final).1
      rw [trimmed]
      dsimp only
      refine bind_eq_ok.mpr ⟨parent, ?_, ?_⟩
      · rw [List.reverse_reverse]
        exact walk_append.mpr ⟨parent, above, walk_dot.mpr ⟨directory, rfl⟩⟩
      · rw [if_neg, final]
        simp [split, dot, dots]

theorem locateNew_locate (h : fs.locateNew path = .ok location) :
    fs.locate path = .ok location := by
  obtain ⟨accepted, _, _, -, -, -, -, leads⟩ := locateNew_eq_ok_iff.mp h
  rw [locate, accepted]
  exact leads

/-- A name that leads down from every directory, and that stands for itself as a path. -/
structure IsPlain (name : String) : Prop where
  single : names name = [name]
  nonnull : name.contains '\x00' = false
  relative : name.startsWith "/" = false
  moves : name ≠ "" ∧ name ≠ "." ∧ name ≠ ".."
  short : name.utf8ByteSize ≤ longestName

namespace IsPlain

variable {name : String}

theorem refusal?_eq_none (plain : IsPlain name) : refusal? name = none := by
  have short : ¬ longestPath < name.utf8ByteSize := by
    have := plain.short
    simp only [longestName, longestPath] at this ⊢
    omega
  simp [refusal?, plain.nonnull, plain.moves.1, short]

theorem step_eq (plain : IsPlain name) (here : Location) :
    step here name = .ok (here ++ [name]) := by
  obtain ⟨nonempty, dot, dots⟩ := plain.moves
  rw [step, if_neg (by simp [nonempty, dot]), if_neg dots, if_neg (Nat.not_lt.mpr plain.short)]

theorem locateNew (plain : IsPlain name)
    (directory : fs.entry? fs.workingDirectory = some .directory) :
    fs.locateNew name = .ok (fs.workingDirectory ++ [name]) := by
  have start : fs.origin name = fs.workingDirectory := by simp [origin, plain.relative]
  obtain ⟨nonempty, dot, dots⟩ := plain.moves
  refine locateNew_eq_ok_iff.mpr
    ⟨plain.refusal?_eq_none, [], name, plain.single, nonempty, dot, dots, ?_⟩
  rw [start, plain.single]
  exact walk_cons.mpr ⟨directory, _, plain.step_eq _, rfl⟩

end IsPlain

/-- Two stores with the same directories, also with the same one to start from. -/
structure SameDirectories (fs made : FileSystem) : Prop where
  directories : ∀ location, fs.entry? location = some .directory ↔
    made.entry? location = some .directory
  workingDirectory : fs.workingDirectory = made.workingDirectory

namespace SameDirectories

theorem walk_iff (h : fs.SameDirectories made) {names : List String} :
    fs.walk here names = .ok there ↔ made.walk here names = .ok there := by
  induction names generalizing here with
  | nil => rfl
  | cons name names ih => simp only [walk_cons, ih, h.directories]

theorem locate_iff (h : fs.SameDirectories made) :
    fs.locate path = .ok location ↔ made.locate path = .ok location := by
  simp only [locate, origin, h.workingDirectory]
  split
  · rfl
  · exact h.walk_iff

theorem locateNew_iff (h : fs.SameDirectories made) :
    fs.locateNew path = .ok location ↔ made.locateNew path = .ok location := by
  simp only [locateNew_eq_ok_iff, origin, h.workingDirectory, h.walk_iff]

end SameDirectories

/-! ## Making, reading and filling -/

/-- Text is read where a path leads to an entry whose bytes are UTF-8 text. -/
theorem readText_eq_ok_iff {text : String} : fs.readText path = .ok text ↔
    ∃ location entry content, fs.locate path = .ok location ∧
      fs.entry? location = some entry ∧ entry.read = .ok content ∧
      String.fromUTF8? content = some text := by
  rw [readText, bind_eq_ok]
  constructor
  · rintro ⟨location, leads, h⟩
    split at h
    · cases h
    · rename_i entry stands
      obtain ⟨content, given, h⟩ := bind_eq_ok.mp h
      split at h
      · rename_i decoded
        cases h
        exact ⟨location, entry, content, leads, stands, given, decoded⟩
      · cases h
  · rintro ⟨location, entry, content, leads, stands, given, decoded⟩
    refine ⟨location, leads, ?_⟩
    rw [stands]
    refine bind_eq_ok.mpr ⟨content, given, ?_⟩
    rw [decoded]

theorem readText_file {text : String} (leads : fs.locate path = .ok location)
    (file : fs.entry? location = some (.file text.toUTF8)) : fs.readText path = .ok text := by
  have decoded : String.fromUTF8? text.toUTF8 = some text := dif_pos text.isValidUTF8
  exact readText_eq_ok_iff.mpr ⟨location, _, _, leads, file, rfl, decoded⟩

theorem create_file (leads : fs.locateNew path = .ok location)
    (regular : fs.entry? location = none ∨ ∃ held, fs.entry? location = some (.file held)) :
    fs.create path = .ok (fs.put location (.file .empty)) := by
  rw [create, leads]
  dsimp only [bind, Except.bind]
  obtain none | ⟨held, file⟩ := regular
  · rw [none]
  · rw [file]

theorem create_device {takesBytes : Bool} {reading : Except FileError ByteArray}
    (leads : fs.locateNew path = .ok location)
    (device : fs.entry? location = some (.device takesBytes reading)) :
    fs.create path = .ok fs := by
  rw [create, leads]
  dsimp only [bind, Except.bind]
  rw [device]

/-- A path lets a file be made at a location, unless a directory is there. -/
def Opens (fs : FileSystem) (path : String) (location : Location) : Prop :=
  fs.locateNew path = .ok location ∧ fs.entry? location ≠ some .directory

theorem Opens.unique (h : fs.Opens path location) (h' : fs.Opens path other) :
    other = location := by
  have same := h.1.symm.trans h'.1
  cases same
  rfl

/-- No device at a location gives bytes. -/
def IsSilent (fs : FileSystem) (location : Location) : Prop :=
  ∀ takesBytes reading, fs.entry? location = some (.device takesBytes reading) →
    reading = .ok .empty

/-- A file has been made at a path: an empty file is at the location, or the device that was there,
and all else is as it was. -/
structure Made (fs : FileSystem) (path : String) (location : Location) (made : FileSystem) :
    Prop where
  created : fs.create path = .ok made
  opens : fs.Opens path location
  stands : made.entry? location = some (.file .empty) ∨
    ∃ takesBytes reading, made.entry? location = some (.device takesBytes reading) ∧
      fs.entry? location = some (.device takesBytes reading)
  others : ∀ other, other ≠ location → made.entry? other = fs.entry? other
  workingDirectory : made.workingDirectory = fs.workingDirectory

/-- A file is made where the path opens a location, and nowhere else. -/
theorem exists_made (h : fs.Opens path location) : ∃ made, fs.Made path location made := by
  have put (regular : fs.entry? location = none ∨ ∃ held, fs.entry? location = some (.file held)) :
      fs.Made path location (fs.put location (.file .empty)) :=
    ⟨create_file h.1 regular, h, .inl (entry?_put_self (ne_root h.2)),
      fun _ ne => entry?_put_of_ne ne, rfl⟩
  rcases stands : fs.entry? location with _ | held | _ | ⟨takesBytes, reading⟩
  · exact ⟨_, put (.inl stands)⟩
  · exact ⟨_, put (.inr ⟨held, stands⟩)⟩
  · exact absurd stands h.2
  · exact ⟨fs, create_device h.1 stands, h, .inr ⟨takesBytes, reading, stands, stands⟩,
      fun _ _ => rfl, rfl⟩

theorem made_of_create (h : fs.create path = .ok made) :
    ∃ location, fs.Made path location made := by
  have created := h
  rw [create, bind_eq_ok] at h
  obtain ⟨location, leads, h⟩ := h
  have free : fs.entry? location ≠ some .directory := by
    intro directory
    rw [directory] at h
    cases h
  obtain ⟨made', same⟩ := exists_made ⟨leads, free⟩
  obtain rfl := Except.ok.inj (created.symm.trans same.created)
  exact ⟨location, same⟩

namespace Made

/-- What was made holds nothing. -/
theorem empty (h : fs.Made path location made) :
    ∃ entry, made.entry? location = some entry ∧ entry.Holds .empty := by
  rcases h.stands with file | ⟨takesBytes, reading, device, -⟩
  · exact ⟨_, file, rfl⟩
  · exact ⟨_, device, .inl rfl⟩

theorem sameDirectories (h : fs.Made path location made) : fs.SameDirectories made where
  directories place := by
    by_cases here : place = location
    · subst here
      refine iff_of_false h.opens.2 ?_
      rcases h.stands with file | ⟨takesBytes, reading, device, -⟩
      · simp [file]
      · simp [device]
    · rw [h.others place here]
  workingDirectory := h.workingDirectory.symm

/-- What was made is read as an empty text, unless it is a device that gives bytes. -/
theorem readText {input : String} (h : fs.Made path location made)
    (same : fs.locate input = .ok location) (silent : fs.IsSilent location) :
    made.readText input = .ok "" := by
  have leads := h.sameDirectories.locate_iff.mp same
  have decoded : String.fromUTF8? .empty = some "" := rfl
  rcases h.stands with file | ⟨takesBytes, reading, device, before⟩
  · exact readText_eq_ok_iff.mpr ⟨location, _, .empty, leads, file, rfl, decoded⟩
  · exact readText_eq_ok_iff.mpr
      ⟨location, _, .empty, leads, device, silent takesBytes reading before, decoded⟩

theorem leads (h : fs.Made path location made) : made.locateNew path = .ok location :=
  h.sameDirectories.locateNew_iff.mp h.opens.1

theorem fill_file (h : fs.Made path location made) {held : ByteArray}
    (file : made.entry? location = some (.file held)) :
    made.fill path content = .ok (made.put location (.file content)) := by
  rw [fill, h.leads]
  dsimp only [bind, Except.bind]
  rw [file]

theorem fill_device (h : fs.Made path location made) {takesBytes : Bool}
    {reading : Except FileError ByteArray}
    (device : made.entry? location = some (.device takesBytes reading)) :
    made.fill path content = if takesBytes then .ok made else .error .storageFull := by
  rw [fill, h.leads]
  dsimp only [bind, Except.bind]
  rw [device]

/-- Only a device refuses bytes, and then it refuses all of them. -/
theorem refused (h : fs.Made path location made) {reason : FileError}
    (refused : made.fill path content = .error reason) :
    (∃ reading, made.entry? location = some (.device false reading)) ∧
      reason = .storageFull := by
  rcases h.stands with file | ⟨takesBytes, reading, device, -⟩
  · rw [h.fill_file file] at refused
    cases refused
  · rw [h.fill_device device] at refused
    cases takesBytes with
    | true => cases refused
    | false =>
      cases refused
      exact ⟨⟨reading, device⟩, rfl⟩

/-- What was made and takes a text holds all of it and nothing else. -/
theorem filled (h : fs.Made path location made) {filled : FileSystem}
    (taken : made.fill path content = .ok filled) :
    (∃ entry, filled.entry? location = some entry ∧ entry.Holds content) ∧
      ∀ other, other ≠ location → filled.entry? other = fs.entry? other := by
  rcases h.stands with file | ⟨takesBytes, reading, device, -⟩
  · rw [h.fill_file file] at taken
    cases taken
    exact ⟨⟨_, entry?_put_self (ne_root h.opens.2), rfl⟩,
      fun other ne => (entry?_put_of_ne ne).trans (h.others other ne)⟩
  · rw [h.fill_device device] at taken
    cases takesBytes with
    | true =>
      cases taken
      exact ⟨⟨_, device, .inr rfl⟩, h.others⟩
    | false => cases taken

end Made

end FileSystem

end SyntaxTree
