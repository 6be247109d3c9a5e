import Rulewright.Artifact.Plan
import Rulewright.Proofs.Text.Lines

/-!
# Identifiers

The names of functions are made of letters, digits and underscores whatever the operators are
called: a character that is no part of a name is written by its word or its code.

* `isNameText_sanitize`: what is left of the name of an operator.
* `isIdentifier_functionName`: the name of the function of a rule.
-/

namespace Rulewright

/-- The text may be part of a name: it has letters, digits and underscores. -/
def isNameText (text : String) : Bool := text.toList.all isNameCharacter

/-- A name of a function. It does not start with a digit. -/
def isIdentifier (name : String) : Bool := isNameText name && name.toList.head?.any (!·.isDigit)

theorem isNameText_append (x y : String) :
    isNameText (x ++ y) = (isNameText x && isNameText y) := by
  rw [isNameText, String.toList_append, List.all_append]
  rfl

theorem isIdentifier_append {x y : String} (hx : isIdentifier x = true) (hy : isNameText y = true) :
    isIdentifier (x ++ y) = true := by
  rw [isIdentifier, Bool.and_eq_true] at hx ⊢
  obtain ⟨hname, hhead⟩ := hx
  refine ⟨by rw [isNameText_append, hname, hy]; rfl, ?_⟩
  rw [String.toList_append, List.head?_append]
  cases h : x.toList.head? with
  | none => rw [h] at hhead; cases hhead
  | some c => rwa [h] at hhead

theorem isNameText_toString (n : Nat) : isNameText (toString n) = true := by
  rw [isNameText, Decimal.toList_toString, List.all_eq_true]
  intro c hc
  rw [isNameCharacter, Char.isAlphanum, Decimal.isDigit_toDigits hc, Bool.or_true, Bool.true_or]

/-- The words of characters that have one. -/
def characterWords : List String :=
  ["plus", "minus", "mult", "div", "mod", "pow", "eq", "not", "lt", "gt", "and", "or", "tilde",
    "dot", "colon", "qmark", "hash", "at"]

theorem characterName_cases (c : Char) :
    characterName c ∈ characterWords ∨
    (characterName c).toList = 'x' :: Nat.toDigits 16 c.toNat := by
  have hword : ∀ word, characterWord? c = some word → word ∈ characterWords := by
    intro word h
    unfold characterWord? at h
    split at h <;> cases h <;> decide
  rw [characterName]
  cases h : characterWord? c with
  | some word => exact .inl (hword word h)
  | none => exact .inr (by simp)

theorem isAlphanum_characterName {c d : Char} (h : d ∈ (characterName c).toList) :
    d.isAlphanum = true := by
  rcases characterName_cases c with hword | hcode
  · have hall : ∀ word ∈ characterWords, word.toList.all Char.isAlphanum = true := by decide
    exact List.all_eq_true.1 (hall _ hword) d h
  · rw [hcode] at h
    rcases List.mem_cons.1 h with rfl | h
    · rfl
    · exact Decimal.isAlphanum_toDigits h

theorem isNameText_characterName (c : Char) : isNameText (characterName c) = true := by
  rw [isNameText, List.all_eq_true]
  intro d hd
  rw [isNameCharacter, isAlphanum_characterName hd, Bool.true_or]

theorem isNameText_nameParts {run cs : List Char} (hrun : run.all isNameCharacter = true) :
    ∀ part ∈ nameParts run cs, isNameText part = true := by
  have hend : ∀ {run : List Char}, run.all isNameCharacter = true →
      ∀ part ∈ (if run.isEmpty then [] else [String.ofList run.reverse]),
        isNameText part = true := by
    intro run hrun part hpart
    split_ifs at hpart
    · cases hpart
    · rw [List.mem_singleton.1 hpart, isNameText, String.toList_ofList, List.all_reverse, hrun]
  induction cs generalizing run with
  | nil => exact hend hrun
  | cons c rest ih =>
    rw [nameParts]
    by_cases hc : isNameCharacter c = true
    · rw [if_pos hc]
      exact ih (by rw [List.all_cons, hc, hrun]; rfl)
    · rw [if_neg hc]
      exact List.forall_mem_append.2
        ⟨hend hrun, List.forall_mem_cons.2 ⟨isNameText_characterName c, ih rfl⟩⟩

theorem isNameText_sanitize (operator : String) : isNameText (sanitize operator) = true := by
  have hparts : ∀ part ∈ nameParts [] operator.toList, isNameText part = true :=
    isNameText_nameParts rfl
  rw [sanitize]
  generalize nameParts [] operator.toList = parts at hparts
  induction parts with
  | nil => rfl
  | cons part rest ih =>
    obtain ⟨hpart, hrest⟩ := List.forall_mem_cons.1 hparts
    cases rest with
    | nil => rwa [String.intercalate_singleton]
    | cons next rest =>
      rw [String.intercalate_cons_cons, isNameText_append, isNameText_append, hpart, ih hrest]
      rfl

theorem isIdentifier_functionName (p : PlannedRule) : isIdentifier p.functionName = true := by
  have hstem : isIdentifier p.bucket.functionStem = true := by
    cases p.bucket with
    | operator name arity => exact isIdentifier_append (by decide) (isNameText_sanitize name)
    | anyway count => exact (by decide : isIdentifier "apply_anyway" = true)
  exact isIdentifier_append (isIdentifier_append hstem (by decide)) (isNameText_toString _)

/-- So the name has one line. -/
theorem isOneLine_functionName (p : PlannedRule) : Text.isOneLine p.functionName = true := by
  have hname := isIdentifier_functionName p
  rw [isIdentifier, Bool.and_eq_true, isNameText, List.all_eq_true] at hname
  exact Text.isOneLine_of_forall (by decide) hname.1

end Rulewright
