import Mathlib.Data.List.Infix
import SyntaxTree.Diagram.Render
import SyntaxTree.Proofs.Lexeme.Rules
import SyntaxTree.Proofs.Matching.Budget

/-!
# Captions that can be read back

A caption tells its node, although nothing but the text says where it ends. A
line feed ends the caption of a branch and of most leaves. Only the value of a
string literal may hold line feeds, and it ends where the literal does.
-/

namespace SyntaxTree

open Lexeme

/-- A rule reads a text from its start to its end. -/
def Rule.takesAll (r : Rule) (t : List Char) : Bool :=
  match r.phrases t with
  | .ok [phrase] => phrase.text == t
  | _ => false

namespace Rule

variable {t : Lexeme}

theorem takesAll_string : string.takesAll t = (string? t == some t) := by
  rw [Bool.eq_iff_iff, beq_iff_eq]
  constructor
  · intro h
    unfold takesAll at h
    split at h
    · rename_i phrase found
      obtain ⟨q, reads⟩ := reads_of_phrases found
      obtain ⟨t', same, -, admitted, -⟩ := lexical_inv rfl reads
      cases same
      rw [← eq_of_beq h]
      exact eq_of_beq admitted
    · cases h
  · intro literal
    have lexical : string.kind = .lexical := rfl
    have whole : (Position.atStart t).rest = t ++ [] := (List.append_nil t).symm
    have read := reads_lexical lexical (longest?_of_string literal) whole
      (by simp [admits, literal]) rfl
    simp [takesAll, phrases_of_reads read]

end Rule

namespace Lexeme

variable {cs t u t' u' : List Char}

theorem stringTail?_append (h : stringTail? cs = some t) (us : List Char) :
    stringTail? (cs ++ us) = some t := by
  fun_induction stringTail? cs generalizing t with
  | case1 => cases h
  | case2 cs =>
    cases h
    rfl
  | case3 => cases h
  | case4 c cs ih =>
    obtain ⟨t, found, rfl⟩ := Option.map_eq_some_iff.mp h
    simp [stringTail?, ih found]
  | case5 c cs quote feed escape ih =>
    obtain ⟨t, found, rfl⟩ := Option.map_eq_some_iff.mp h
    rw [List.cons_append, stringTail?]
    · simp [ih found]
    · exact quote
    · exact feed
    · intro d rest slash same
      rcases cs with _ | ⟨e, cs⟩
      · cases found
      · exact escape e cs slash rfl

/-- What stands behind a string literal does not change where it ends. -/
theorem string?_append (h : string? cs = some t) (us : List Char) :
    string? (cs ++ us) = some t := by
  obtain ⟨rest, tail, rfl, rfl, found⟩ := string?_eq_some h
  simp [string?, stringTail?_append found us]

theorem string_unique (literal : string? t = some t) (literal' : string? t' = some t')
    (same : t ++ u = t' ++ u') : t = t' ∧ u = u' := by
  have found := string?_append literal u
  rw [same, string?_append literal' u', Option.some_inj] at found
  subst found
  exact ⟨rfl, List.append_cancel_left same⟩

end Lexeme

namespace Diagram

variable {l l' t t' : List Char}

/-- A text ends at the first comma with a blank behind it. -/
theorem comma_unique (plain : ¬ [',', ' '] <:+: l) (plain' : ¬ [',', ' '] <:+: l')
    (same : l ++ ',' :: ' ' :: t = l' ++ ',' :: ' ' :: t') : l = l' ∧ t = t' := by
  rcases List.append_eq_append_iff.mp same with ⟨front, rfl, rest⟩ | ⟨front, rfl, rest⟩
  · rcases front with _ | ⟨c, _ | ⟨d, front⟩⟩
    · simpa using rest
    · cases rest
    · cases rest
      exact absurd ⟨l, front, by simp⟩ plain'
  · rcases front with _ | ⟨c, _ | ⟨d, front⟩⟩
    · simpa using rest.symm
    · cases rest
    · cases rest
      exact absurd ⟨l', front, by simp⟩ plain

/-- The label of a leaf ends before the first comma with a blank behind it. -/
def isLeafLabel (label : String) : Bool :=
  decide ('\n' ∉ label.toList ∧ ¬ [',', ' '] <:+: label.toList)

/-- The label of a branch fills its row and does not look like a leaf. -/
def isBranchLabel (label : String) : Bool :=
  decide ('\n' ∉ label.toList ∧ label.toList.head? ≠ some '(')

/-- A value stays in its row, or it is a string literal. -/
def isValueOf (label value : String) : Bool :=
  if label = "string" then Rule.string.takesAll value.toList else decide ('\n' ∉ value.toList)

mutual

/-- Every label and every value can be read back from its caption. -/
def isLegible : Diagram → Bool
  | leaf label value => isLeafLabel label && isValueOf label value
  | branch label children => isBranchLabel label && isLegibleAll children

def isLegibleAll : List Diagram → Bool
  | [] => true
  | d :: rest => isLegible d && isLegibleAll rest

end

theorem value_unique {label value value' : String} (sound : isValueOf label value = true)
    (sound' : isValueOf label value' = true)
    (same : value.toList ++ ')' :: '\n' :: t = value'.toList ++ ')' :: '\n' :: t') :
    value = value' ∧ t = t' := by
  unfold isValueOf at sound sound'
  split at sound
  · rename_i literal
    rw [if_pos literal, Rule.takesAll_string, beq_iff_eq] at sound'
    rw [Rule.takesAll_string, beq_iff_eq] at sound
    obtain ⟨equal, rest⟩ := string_unique sound sound' same
    cases rest
    exact ⟨String.toList_inj.mp equal, rfl⟩
  · rename_i other
    rw [if_neg other, decide_eq_true_eq] at sound'
    rw [decide_eq_true_eq] at sound
    have line : (value.toList ++ [')']) ++ '\n' :: t = (value'.toList ++ [')']) ++ '\n' :: t' := by
      simpa using same
    obtain ⟨equal, rest⟩ := split_unique (by simp [sound]) (by simp [sound']) line
    exact ⟨String.toList_inj.mp (List.append_cancel_right equal), rest⟩

theorem caption_leaf (label value : String) : (leaf label value).caption.toList ++ '\n' :: t =
    '(' :: (label.toList ++ ',' :: ' ' :: (value.toList ++ ')' :: '\n' :: t)) := by
  simp [caption]

/-- The caption of a leaf is none of a branch. -/
theorem caption_leaf_ne_branch {label value label' : String} {children : List Diagram}
    (sound : isBranchLabel label' = true) :
    (leaf label value).caption.toList ++ '\n' :: t ≠
      (branch label' children).caption.toList ++ '\n' :: t' := by
  intro same
  rw [isBranchLabel, decide_eq_true_eq] at sound
  rw [caption_leaf, caption] at same
  cases text : label'.toList with
  | nil =>
    rw [text] at same
    cases same
  | cons c rest =>
    rw [text] at same sound
    obtain ⟨rfl, -⟩ := List.cons.inj same
    exact sound.2 rfl

/-- The caption of a legible node tells its label and its value. -/
theorem caption_unique {d d' : Diagram} (sound : d.isLegible = true) (sound' : d'.isLegible = true)
    (same : d.caption.toList ++ '\n' :: t = d'.caption.toList ++ '\n' :: t') :
    d.label = d'.label ∧ d.value? = d'.value? ∧ t = t' := by
  cases d with
  | leaf l v =>
    rw [isLegible, Bool.and_eq_true] at sound
    cases d' with
    | leaf l' v' =>
      rw [isLegible, Bool.and_eq_true] at sound'
      rw [caption_leaf, caption_leaf] at same
      have labels := of_decide_eq_true sound.1
      have labels' := of_decide_eq_true sound'.1
      obtain ⟨label, rest⟩ := comma_unique labels.2 labels'.2 (List.tail_eq_of_cons_eq same)
      obtain rfl := String.toList_inj.mp label
      obtain ⟨rfl, rfl⟩ := value_unique sound.2 sound'.2 rest
      exact ⟨rfl, rfl, rfl⟩
    | branch l' children =>
      rw [isLegible, Bool.and_eq_true] at sound'
      exact absurd same (caption_leaf_ne_branch sound'.1)
  | branch l children =>
    rw [isLegible, Bool.and_eq_true] at sound
    cases d' with
    | leaf l' v' => exact absurd same.symm (caption_leaf_ne_branch sound.1)
    | branch l' children' =>
      rw [isLegible, Bool.and_eq_true] at sound'
      have labels := of_decide_eq_true sound.1
      have labels' := of_decide_eq_true sound'.1
      obtain ⟨label, rfl⟩ := split_unique labels.1 labels'.1 same
      exact ⟨String.toList_inj.mp label, rfl, rfl⟩

end Diagram

end SyntaxTree
