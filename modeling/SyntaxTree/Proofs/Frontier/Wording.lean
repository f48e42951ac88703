import SyntaxTree.Proofs.Frontier.Location

/-!
# What a syntax error says

The frontier of a rejected source names at least one rule, since the program itself
was missed. Rules that are recorded are never silent, and never the one for
keywords, which only the lexical rule for names tries. So every error lists what was
expected, and every name on the list describes a rule of its own.
-/

namespace SyntaxTree

open Pattern Rule Lexeme

namespace Text

/-- The bytes of the encoding of a text. -/
def bytes (s : String) : List UInt8 := s.toUTF8.data.toList

/-- All characters are those of ASCII. -/
def isAscii (s : String) : Bool := s.toList.all fun c => c.toNat < 128

/-- A word begins the text, with blanks in front of it and a blank or nothing behind it. -/
def BeginsWith (word cs : List Char) : Prop :=
  ∃ blanks behind, cs = blanks ++ word ++ behind ∧ (∀ c ∈ blanks, isBlank c = true) ∧
    word ≠ [] ∧ (∀ c ∈ word, isBlank c = false) ∧ ∀ c ∈ behind.head?, isBlank c = true

theorem isAscii_ofList {cs : List Char} (h : (cs.all fun c => decide (c.toNat < 128)) = true) :
    isAscii (String.ofList cs) = true := by
  rwa [isAscii, String.toList_ofList]

theorem bytes_of_isAscii {s : String} (ascii : isAscii s = true) :
    bytes s = s.toList.map fun c => c.val.toUInt8 := by
  have each : ∀ c ∈ s.toList, String.utf8EncodeChar c = [c.val.toUInt8] := by
    intro c mem
    have small : c.val.toNat < 128 := by simpa [isAscii] using List.all_eq_true.mp ascii c mem
    refine String.utf8EncodeChar_eq_singleton (Char.utf8Size_eq_one_iff.mpr ?_)
    exact UInt32.le_iff_toNat_le.mpr (by simpa using Nat.lt_succ_iff.mp small)
  have encoded : s.toUTF8 = (s.toList.flatMap String.utf8EncodeChar).toByteArray := by
    conv => lhs; rw [← String.ofList_toList (s := s)]
    exact String.toByteArray_ofList
  rw [bytes, encoded, List.data_toByteArray, List.toList_toArray]
  generalize s.toList = cs at each
  induction cs with
  | nil => rfl
  | cons c cs ih =>
    obtain ⟨first, others⟩ := List.forall_mem_cons.mp each
    rw [List.flatMap_cons, first, ih others]
    rfl

/-- On such texts the order of the characters is the order of the bytes. -/
theorem bytes_lt_bytes {s t : String} (ascii : isAscii s = true) (ascii' : isAscii t = true)
    (lt : s < t) : bytes s < bytes t := by
  rw [bytes_of_isAscii ascii, bytes_of_isAscii ascii']
  rw [String.lt_iff] at lt
  rw [isAscii, List.all_eq_true] at ascii ascii'
  have one {c d : Char} (c128 : decide (c.toNat < 128) = true)
      (d128 : decide (d.toNat < 128) = true) (lt : c < d) : c.val.toUInt8 < d.val.toUInt8 := by
    have small : c.val.toNat < 128 := of_decide_eq_true c128
    have small' : d.val.toNat < 128 := of_decide_eq_true d128
    have below : c.val.toNat < d.val.toNat := UInt32.lt_iff_toNat_lt.mp (Char.lt_def.mp lt)
    rw [UInt8.lt_iff_toNat_lt, UInt32.toNat_toUInt8, UInt32.toNat_toUInt8]
    omega
  generalize s.toList = cs at ascii lt
  generalize t.toList = ds at ascii' lt
  induction cs generalizing ds with
  | nil =>
    rcases ds with _ | ⟨d, ds⟩
    · exact absurd lt (List.lt_irrefl _)
    · exact List.nil_lt_cons _ _
  | cons c cs ih =>
    rcases ds with _ | ⟨d, ds⟩
    · exact absurd lt (List.not_lt_nil _)
    · obtain ⟨first, others⟩ := List.forall_mem_cons.mp ascii
      obtain ⟨first', others'⟩ := List.forall_mem_cons.mp ascii'
      rw [List.map_cons, List.map_cons, List.cons_lt_cons_iff]
      rcases List.cons_lt_cons_iff.mp lt with before | ⟨rfl, behind⟩
      · exact .inl (one first first' before)
      · exact .inr ⟨rfl, ih others ds others' behind⟩

theorem firstWord?_eq_some {cs word : List Char} (h : firstWord? cs = some word) :
    BeginsWith word cs := by
  unfold firstWord? at h
  split at h
  · cases h
  · rename_i c rest found
    cases h
    have dark : isBlank c = false := by
      have stop := List.head?_dropWhile_not isBlank cs
      rwa [found] at stop
    refine ⟨cs.takeWhile isBlank, (c :: rest).dropWhile fun d => !isBlank d, ?_, ?_, ?_, ?_, ?_⟩
    · rw [List.append_assoc, List.takeWhile_append_dropWhile, ← found,
        List.takeWhile_append_dropWhile]
    · exact fun d mem => List.all_eq_true.mp List.all_takeWhile d mem
    · simp [dark]
    · intro d mem
      simpa using List.all_eq_true.mp List.all_takeWhile d mem
    · intro d head
      have stop := List.head?_dropWhile_not (fun d => !isBlank d) (c :: rest)
      rw [Option.mem_def.mp head] at stop
      simpa using stop

/-- A text begins with one word only. -/
theorem BeginsWith.firstWord?_eq {cs word : List Char} (h : BeginsWith word cs) :
    firstWord? cs = some word := by
  obtain ⟨blanks, behind, rfl, blank, nonempty, dark, stop⟩ := h
  obtain ⟨c, rest, rfl⟩ := List.exists_cons_of_ne_nil nonempty
  have skipped : (blanks ++ (c :: rest) ++ behind).dropWhile isBlank = c :: rest ++ behind := by
    rw [List.append_assoc, List.dropWhile_append_of_pos blank, List.cons_append,
      List.dropWhile_cons_of_neg (by simp [dark c (.head _)])]
  have taken : (c :: rest ++ behind).takeWhile (fun d => !isBlank d) = c :: rest := by
    rw [List.takeWhile_append_of_pos (by simpa using dark)]
    cases behind with
    | nil => simp
    | cons d behind =>
      rw [List.takeWhile_cons_of_neg (by simp [stop d rfl]), List.append_nil]
  rw [firstWord?, skipped]
  exact congrArg some taken

end Text

namespace SyntaxError

/-- Names as prose lists them: with `or` between two, and from three on also with commas. -/
def prose : List String → String
  | [] => ""
  | [name] => name
  | [first, second] => first ++ " or " ++ second
  | first :: second :: third :: rest =>
    let names := first :: second :: third :: rest
    ", ".intercalate names.dropLast ++ ", or " ++ names.getLast (List.cons_ne_nil _ _)

theorem listed_eq (last : String) {names : List String} (nonempty : names ≠ []) :
    listed last names = ", ".intercalate names ++ ", or " ++ last := by
  induction names with
  | nil => exact absurd rfl nonempty
  | cons name rest ih =>
    rcases rest with _ | ⟨next, rest⟩
    · have comma : ", or " = ", " ++ "or " := rfl
      rw [listed, listed, String.intercalate_singleton, comma]
      simp only [String.append_assoc]
    · rw [listed, ih (by simp), String.intercalate_cons_cons]
      simp only [String.append_assoc]

theorem oneOf_eq_prose (names : List String) : oneOf names = prose names := by
  rcases names with _ | ⟨a, _ | ⟨b, _ | ⟨c, rest⟩⟩⟩
  · rfl
  · rfl
  · rfl
  · exact listed_eq _ (by simp)

/-- The help for a source that is blank behind the error. -/
def earlyHelp : String := "the input ended early; check for a missing '\x7d' or ';'"

variable {e : SyntaxError}

/-- An error that lists something never has the messages for errors that do not. -/
theorem message_of_expected (lists : e.expected ≠ []) :
    e.message = "expected " ++ prose e.expected := by
  rw [message]
  split
  · exact absurd ‹_› lists
  · exact absurd ‹_› lists
  · rw [oneOf_eq_prose]

theorem fault_message_of_expected (source : String) (lists : e.expected ≠ []) :
    (Fault.rejected source e).message = "Parse error: expected " ++ prose e.expected :=
  calc (Fault.rejected source e).message
    _ = "Parse error: " ++ e.message := rfl
    _ = "Parse error: " ++ ("expected " ++ prose e.expected) := by rw [message_of_expected lists]
    _ = "Parse error: " ++ "expected " ++ prose e.expected := String.append_assoc.symm
    _ = "Parse error: expected " ++ prose e.expected :=
      congrArg (· ++ prose e.expected) (by decide : "Parse error: " ++ "expected " = _)

theorem help_of_blank (blank : e.found = none) : e.help = earlyHelp := by
  rw [help, blank]
  rfl

theorem help_of_expected (lists : e.expected ≠ []) {word : String} (found : e.found = some word) :
    e.help = "found '" ++ word ++ "' instead" := by
  have listing : e.expected.isEmpty = false := by simpa using lists
  rw [help, found]
  dsimp only
  rw [listing, if_neg (by simp)]

/-- The texts of a help are told apart by their first letter. -/
theorem help_head (lists : e.expected ≠ []) :
    e.help.toList.head? = some (if e.found.isSome then 'f' else 't') := by
  rcases found : e.found with _ | word
  · rw [help_of_blank found]
    rfl
  · rw [help_of_expected lists found, String.toList_append, String.toList_append]
    rfl

theorem help_eq_earlyHelp_iff (lists : e.expected ≠ []) : e.help = earlyHelp ↔ e.found = none := by
  refine ⟨fun same => ?_, help_of_blank⟩
  have head := help_head lists
  rw [same] at head
  cases found : e.found with
  | none => rfl
  | some word =>
    rw [found, Option.isSome_some, if_pos rfl] at head
    cases head

end SyntaxError

namespace Pattern

/-- The rule is tried by the pattern itself. -/
def tries (s : Rule) : Pattern → Bool
  | literal _ | char _ => false
  | call r => r == s
  | seq a b | choice a b => tries s a || tries s b
  | many a | absent a => tries s a

variable {pattern : Pattern} {r s : Rule} {p q : Position}

theorem Misses.named (h : Misses pattern p r q) : r.kind ≠ .silent := by
  induction h with
  | here named _ => exact named
  | inside _ _ ih | first _ ih | second _ _ ih | left _ ih | right _ _ ih | item _ ih
  | items _ _ ih | ahead _ ih => exact ih

/-- A rule that only lexical rules try is never missed. -/
theorem Misses.ne_of_lexical (only : ∀ r : Rule, r.kind ≠ .lexical → r.body.tries s = false)
    (h : Misses pattern p r q) (other : pattern.tries s = false) : r ≠ s := by
  induction h with
  | here _ _ => simpa [tries] using other
  | inside structured _ ih => exact ih (only _ structured)
  | first _ ih | left _ ih =>
    rw [tries, Bool.or_eq_false_iff] at other
    exact ih other.1
  | second _ _ ih | right _ _ ih =>
    rw [tries, Bool.or_eq_false_iff] at other
    exact ih other.2
  | item _ ih | items _ _ ih | ahead _ ih => exact ih other

end Pattern

namespace Rule

theorem isAscii_description (r : Rule) : Text.isAscii r.description = true := by
  cases r <;> exact Text.isAscii_ofList (by decide)

theorem description_eq_input {r : Rule} (h : r.description = "input") : r.kind = .silent := by
  revert h
  cases r <;> decide

theorem description_eq_keyword {r : Rule} (h : r.description = "keyword") : r = .keyword := by
  revert h
  cases r <;> decide

theorem keyword_only_lexical (r : Rule) (structured : r.kind ≠ .lexical) :
    r.body.tries .keyword = false := by
  revert structured
  cases r <;> decide

end Rule

namespace Source

variable {source : Source} {frontier : Frontier}

/-- The frontier of a rejected source lists rules, and each of them was missed. -/
theorem expected_frontier (h : Rule.program.phrases source.text.toList = .error frontier) :
    frontier.expected ≠ [] ∧ ∀ r ∈ frontier.expected, ∃ q, source.Misses r q := by
  obtain ⟨-, follows⟩ := follows_of_phrases h
  obtain ⟨s, q, miss, -⟩ := exists_misses_body h
  constructor
  · intro nil
    obtain ⟨-, -, none⟩ := follows.empty (fun _ => rfl) nil
    exact none s q (.inside (by decide) miss)
  · intro r mem
    rcases follows.expected r mem with ⟨-, none⟩ | ⟨q, miss, -⟩
    · cases none
    · exact ⟨q, miss⟩

theorem ne_keyword_of_misses {r : Rule} {q : Position} (h : source.Misses r q) : r ≠ .keyword :=
  Pattern.Misses.ne_of_lexical keyword_only_lexical h rfl

end Source

/-- A rejected source has a syntax error with a list of what was expected, in the order of the
bytes and each once. The message is made of the list, and the help tells whether the source is
blank behind the error or which word stands there. -/
theorem error_says_what_was_expected {source : Source} {tally after : Tally} {fault : Fault}
    (h : source.parse tally = (.error fault, after)) :
    ∃ error before rest, fault = .rejected source.name error ∧
      source.text.toList = before ++ rest ∧ Text.byteLength before = error.offset ∧
      error.expected ≠ [] ∧
      error.expected.Pairwise (fun name next => Text.bytes name < Text.bytes next) ∧
      "input" ∉ error.expected ∧ "keyword" ∉ error.expected ∧
      fault.message = "Parse error: expected " ++ SyntaxError.prose error.expected ∧
      (fault.help = some SyntaxError.earlyHelp ↔ ∀ c ∈ rest, Text.isBlank c = true) ∧
      ((∃ c ∈ rest, Text.isBlank c = false) → ∃ word, Text.BeginsWith word rest ∧
        fault.help = some ("found '" ++ String.ofList word ++ "' instead")) ∧
      ¬ "Parse error: unexpected".toList <+: fault.message.toList ∧
      fault.help ≠ some "statements end with ';' and blocks are wrapped in '\x7b \x7d'" := by
  obtain ⟨frontier, rejected, rfl, -⟩ := Source.exists_frontier h
  obtain ⟨lists, missed⟩ := Source.expected_frontier rejected
  obtain ⟨r, q, miss, here⟩ := Source.exists_misses_body rejected
  obtain ⟨before, split, size, -⟩ := Source.exists_rest miss
  let error := SyntaxError.ofFrontier source.text.toList frontier
  have mem {name : String} :
      name ∈ error.expected ↔ ∃ r ∈ frontier.expected, r.description = name :=
    Text.mem_ordered.trans List.mem_map
  have lists' : error.expected ≠ [] := by
    obtain ⟨r, inside⟩ := List.exists_mem_of_ne_nil _ lists
    exact List.ne_nil_of_mem (mem.mpr ⟨r, inside, rfl⟩)
  have found : error.found = (Text.firstWord? q.rest).map String.ofList := by
    show (Text.firstWord? (Text.dropBytes frontier.offset source.text.toList)).map _ = _
    rw [split, ← here, ← size, Text.dropBytes_append]
  have message := SyntaxError.fault_message_of_expected source.name lists'
  refine ⟨error, before, q.rest, rfl, split, size.trans here, lists', ?_, ?_, ?_, message, ?_, ?_,
    ?_, ?_⟩
  · refine (Text.pairwise_ordered _).imp_of_mem fun {name next} inside inside' lt => ?_
    obtain ⟨r, -, rfl⟩ := mem.mp inside
    obtain ⟨s, -, rfl⟩ := mem.mp inside'
    exact Text.bytes_lt_bytes r.isAscii_description s.isAscii_description lt
  · intro inside
    obtain ⟨r, known, words⟩ := mem.mp inside
    obtain ⟨q, miss⟩ := missed r known
    exact miss.named (description_eq_input words)
  · intro inside
    obtain ⟨r, known, words⟩ := mem.mp inside
    obtain ⟨q, miss⟩ := missed r known
    exact Source.ne_keyword_of_misses miss (description_eq_keyword words)
  · rw [Fault.help, Option.some_inj, SyntaxError.help_eq_earlyHelp_iff lists', found,
      Option.map_eq_none_iff, Text.firstWord?_eq_none_iff]
  · rintro ⟨c, inside, dark⟩
    rcases first : Text.firstWord? q.rest with _ | word
    · rw [Text.firstWord?_eq_none_iff.mp first c inside] at dark
      cases dark
    · rw [first] at found
      exact ⟨word, Text.firstWord?_eq_some first, by
        rw [Fault.help, SyntaxError.help_of_expected lists' found]⟩
  · intro unexpected
    rw [message, String.toList_append] at unexpected
    have within := List.prefix_of_prefix_length_le (List.prefix_append _ _) unexpected (by decide)
    exact absurd within (by decide)
  · intro same
    have head := SyntaxError.help_head lists'
    rw [Option.some_inj.mp same] at head
    split at head <;> exact absurd head (by decide)

/-- One source ends where a method is missing. In the other one a brace stands where an expression
may go on. -/
theorem error_says_what_was_expected_brace :
    (∃ fault, ((⟨"A.java", "class A \x7b"⟩ : Source).parse .fresh).1 = .error fault ∧
      fault.message = "Parse error: expected access modifier" ∧
      fault.help = some SyntaxError.earlyHelp) ∧
    ∃ fault, ((⟨"A.java", "class A\x7bpublic void main(int p)\x7bx=a \x7d \x7d"⟩ : Source).parse
        .fresh).1 = .error fault ∧
      fault.message = "Parse error: expected '++' or '--', index, or operator" ∧
      fault.help = some "found '\x7d' instead" := by
  have refused (source : Source) (error : SyntaxError)
      (h : (match (source.parse .fresh).1 with
        | .error fault => some fault
        | .ok _ => none) = some (.rejected source.name error)) :
      ∃ after, source.parse .fresh = (.error (.rejected source.name error), after) := by
    rcases found : source.parse .fresh with ⟨fault | program, after⟩
    · rw [found] at h
      exact ⟨after, by rw [Option.some_inj.mp h]⟩
    · rw [found] at h
      cases h
  constructor
  · obtain ⟨after, found⟩ := refused ⟨"A.java", "class A \x7b"⟩ ⟨9, ["access modifier"], none⟩
      (by decide +kernel)
    obtain ⟨_, before, rest, same, split, size, -, -, -, -, message, early, -⟩ :=
      error_says_what_was_expected found
    cases same
    have behind : rest = [] := by
      rw [← Text.dropBytes_append before rest, ← split, size]
      decide
    refine ⟨_, congrArg Prod.fst found, message.trans (by decide), early.mpr ?_⟩
    rw [behind]
    exact nofun
  · obtain ⟨after, found⟩ := refused
      ⟨"A.java", "class A\x7bpublic void main(int p)\x7bx=a \x7d \x7d"⟩
      ⟨36, ["'++' or '--'", "index", "operator"], some "\x7d"⟩ (by decide +kernel)
    obtain ⟨_, before, rest, same, split, size, -, -, -, -, message, -, word, -⟩ :=
      error_says_what_was_expected found
    cases same
    have behind : rest = ['\x7d', ' ', '\x7d'] := by
      rw [← Text.dropBytes_append before rest, ← split, size]
      decide
    rw [behind] at word
    obtain ⟨first, begins, help⟩ := word ⟨'\x7d', .head _, by decide⟩
    have only : some ['\x7d'] = some first := by
      rw [← begins.firstWord?_eq]
      decide
    refine ⟨_, congrArg Prod.fst found, message.trans (by decide), help.trans ?_⟩
    rw [← Option.some_inj.mp only]
    decide

end SyntaxTree
