import Mathlib.Data.List.Basic
import Rulewright.Expr.Parser
import Rulewright.Expr.Printer

/-!
# Layouts and canonical terms

The notation of a term can be laid out in many ways: where there is a space there may be other
blanks and more of them, and there may be blanks inside of parentheses and around the whole. A term
is canonical in a language if each of its words is told from all other words: names are names, and
numbers are in range.

* `IsLayout`: a text is a layout of another one.
* `IsNumeral`: the shape of a number, digits with perhaps a sign and a `u`. The reader tests it by
  `Token.isLiteral`.
* `Expr.IsCanonical`: canonical terms.
* `Relaid.append_inv`: the layout of a text is that of its parts, one after the other.
-/

namespace Rulewright

/-! ### Layouts -/

def IsBlanks (text : List Char) : Prop := ∀ c ∈ text, Token.isBlank c = true

instance (text : List Char) : Decidable (IsBlanks text) :=
  decidable_of_iff (text.all Token.isBlank = true) List.all_eq_true

/-- The second text is the first one with other blanks for each space, and blanks after opening and
before closing parentheses. -/
inductive Relaid : List Char → List Char → Prop
  | nil : Relaid [] []
  | space (run : List Char) {rest rest' : List Char} :
      run ≠ [] → IsBlanks run → Relaid rest rest' → Relaid (' ' :: rest) (run ++ rest')
  | opening (run : List Char) {rest rest' : List Char} :
      IsBlanks run → Relaid rest rest' → Relaid ('(' :: rest) ('(' :: run ++ rest')
  | closing (run : List Char) {rest rest' : List Char} :
      IsBlanks run → Relaid rest rest' → Relaid (')' :: rest) (run ++ ')' :: rest')
  | other {c : Char} {rest rest' : List Char} :
      Token.isDelimiter c = false → Relaid rest rest' → Relaid (c :: rest) (c :: rest')

/-- A layout of a text may also have blanks at both ends. -/
def IsLayout (display text : String) : Prop :=
  ∃ before body after, IsBlanks before ∧ IsBlanks after ∧ Relaid display.toList body ∧
    text.toList = before ++ body ++ after

namespace Relaid

variable {a b t : List Char}

theorem append {x y : List Char} (ha : Relaid a x) (hb : Relaid b y) :
    Relaid (a ++ b) (x ++ y) := by
  induction ha with
  | nil => exact hb
  | space run hrun hblank _ ih =>
    rw [List.cons_append, List.append_assoc]
    exact .space run hrun hblank ih
  | opening run hblank _ ih =>
    rw [List.cons_append, List.append_assoc]
    exact .opening run hblank ih
  | closing run hblank _ ih =>
    rw [List.cons_append, List.append_assoc, List.cons_append]
    exact .closing run hblank ih
  | other hc _ ih => exact .other hc ih

/-- **The layout of two texts** is a layout of the first and one of the second. -/
theorem append_inv (h : Relaid (a ++ b) t) : ∃ x y, t = x ++ y ∧ Relaid a x ∧ Relaid b y := by
  induction a generalizing t with
  | nil => exact ⟨[], t, rfl, .nil, h⟩
  | cons c a ih =>
    rw [List.cons_append] at h
    cases h with
    | space run hrun hblank h =>
      obtain ⟨x, y, rfl, hx, hy⟩ := ih h
      exact ⟨run ++ x, y, (List.append_assoc ..).symm, .space run hrun hblank hx, hy⟩
    | opening run hblank h =>
      obtain ⟨x, y, rfl, hx, hy⟩ := ih h
      exact ⟨'(' :: run ++ x, y, by simp, .opening run hblank hx, hy⟩
    | closing run hblank h =>
      obtain ⟨x, y, rfl, hx, hy⟩ := ih h
      exact ⟨run ++ ')' :: x, y, by simp, .closing run hblank hx, hy⟩
    | other hc h =>
      obtain ⟨x, y, rfl, hx, hy⟩ := ih h
      exact ⟨c :: x, y, rfl, .other hc hx, hy⟩

/-- A word has one layout. -/
theorem word (hw : ∀ c ∈ a, Token.isDelimiter c = false) : Relaid a a := by
  induction a with
  | nil => exact .nil
  | cons c a ih =>
    exact .other (hw c List.mem_cons_self) (ih fun d hd => hw d (List.mem_cons_of_mem c hd))

theorem word_inv (hw : ∀ c ∈ a, Token.isDelimiter c = false) (h : Relaid a t) : t = a := by
  induction a generalizing t with
  | nil =>
    cases h
    rfl
  | cons c a ih =>
    have hc := hw c List.mem_cons_self
    cases h with
    | space => cases hc
    | opening => cases hc
    | closing => cases hc
    | other _ h => rw [ih (fun d hd => hw d (List.mem_cons_of_mem c hd)) h]

theorem space_inv (h : Relaid (' ' :: a) t) :
    ∃ run y, t = run ++ y ∧ run ≠ [] ∧ IsBlanks run ∧ Relaid a y := by
  cases h with
  | space run hrun hblank h => exact ⟨run, _, rfl, hrun, hblank, h⟩
  | other hc _ => cases hc

theorem opening_inv (h : Relaid ('(' :: a) t) :
    ∃ run y, t = '(' :: run ++ y ∧ IsBlanks run ∧ Relaid a y := by
  cases h with
  | opening run hblank h => exact ⟨run, _, rfl, hblank, h⟩
  | other hc _ => cases hc

theorem closing_inv (h : Relaid [')'] t) : ∃ run, t = run ++ [')'] ∧ IsBlanks run := by
  cases h with
  | closing run hblank h =>
    cases h
    exact ⟨run, rfl, hblank⟩
  | other hc _ => cases hc

end Relaid

/-! ### Numerals -/

/-- The shape of a number: digits, perhaps a sign before and a `u` after them. -/
def IsNumeral (text : List Char) : Prop :=
  ∃ sign digits suffix, text = sign ++ digits ++ suffix ∧ (sign = [] ∨ sign = ['-']) ∧ digits ≠ [] ∧
    (∀ c ∈ digits, c.isDigit = true) ∧ (suffix = [] ∨ suffix = ['u'])

namespace Token

/-- The test without a sign looks for digits and what may come after them. -/
theorem isUnsignedLiteral_iff (text : List Char) :
    isUnsignedLiteral text = true ↔
    ∃ digits suffix, text = digits ++ suffix ∧ digits ≠ [] ∧ (∀ c ∈ digits, c.isDigit = true) ∧
      (suffix = [] ∨ suffix = ['u']) := by
  fun_induction isUnsignedLiteral text with
  | case1 => simp
  | case2 c =>
    constructor
    · intro hc
      exact ⟨[c], [], rfl, by simp, by simpa using hc, .inl rfl⟩
    · rintro ⟨digits, suffix, h, hne, hdigits, hsuffix⟩
      obtain ⟨d, rest, rfl⟩ := List.exists_cons_of_ne_nil hne
      rw [List.cons_append] at h
      obtain ⟨rfl, -⟩ := List.cons_eq_cons.1 h
      exact hdigits c List.mem_cons_self
  | case3 c =>
    constructor
    · intro hc
      exact ⟨[c], ['u'], rfl, by simp, by simpa using hc, .inr rfl⟩
    · rintro ⟨digits, suffix, h, hne, hdigits, hsuffix⟩
      obtain ⟨d, rest, rfl⟩ := List.exists_cons_of_ne_nil hne
      rw [List.cons_append] at h
      obtain ⟨rfl, -⟩ := List.cons_eq_cons.1 h
      exact hdigits c List.mem_cons_self
  | case4 c rest hrest hu ih =>
    rw [Bool.and_eq_true, ih]
    constructor
    · rintro ⟨hc, digits, suffix, rfl, hne, hdigits, hsuffix⟩
      refine ⟨c :: digits, suffix, rfl, by simp, ?_, hsuffix⟩
      intro d hd
      rcases List.mem_cons.1 hd with rfl | hd
      · exact hc
      · exact hdigits d hd
    · rintro ⟨digits, suffix, h, hne, hdigits, hsuffix⟩
      obtain ⟨d, digits, rfl⟩ := List.exists_cons_of_ne_nil hne
      rw [List.cons_append] at h
      obtain ⟨rfl, rfl⟩ := List.cons_eq_cons.1 h
      refine ⟨hdigits c List.mem_cons_self, digits, suffix, rfl, ?_,
        fun e he => hdigits e (List.mem_cons_of_mem c he), hsuffix⟩
      -- a digit alone, with or without its `u`, is one of the cases before
      rintro rfl
      rcases hsuffix with rfl | rfl
      · exact hrest rfl
      · exact hu rfl

theorem isLiteral_iff (text : List Char) : isLiteral text = true ↔ IsNumeral text := by
  -- what starts with a digit does not start with a sign
  have hminus : ∀ digits suffix : List Char, digits ≠ [] → (∀ c ∈ digits, c.isDigit = true) →
      ∀ rest, digits ++ suffix ≠ '-' :: rest := by
    intro digits suffix hne hdigits rest h
    obtain ⟨d, digits, rfl⟩ := List.exists_cons_of_ne_nil hne
    obtain ⟨rfl, -⟩ := List.cons_eq_cons.1 h
    have hd := hdigits '-' List.mem_cons_self
    cases hd
  unfold isLiteral
  split
  · next rest =>
    rw [isUnsignedLiteral_iff]
    constructor
    · rintro ⟨digits, suffix, rfl, hne, hdigits, hsuffix⟩
      exact ⟨['-'], digits, suffix, by simp, .inr rfl, hne, hdigits, hsuffix⟩
    · rintro ⟨sign, digits, suffix, h, hsign, hne, hdigits, hsuffix⟩
      rcases hsign with rfl | rfl
      · exact absurd h.symm (hminus digits suffix hne hdigits rest)
      · exact ⟨digits, suffix, by simpa using h, hne, hdigits, hsuffix⟩
  · next hno =>
    rw [isUnsignedLiteral_iff]
    constructor
    · rintro ⟨digits, suffix, rfl, hne, hdigits, hsuffix⟩
      exact ⟨[], digits, suffix, rfl, .inl rfl, hne, hdigits, hsuffix⟩
    · rintro ⟨sign, digits, suffix, h, hsign, hne, hdigits, hsuffix⟩
      rcases hsign with rfl | rfl
      · exact ⟨digits, suffix, h, hne, hdigits, hsuffix⟩
      · exact absurd h (hno _)

end Token

instance (text : List Char) : Decidable (IsNumeral text) :=
  decidable_of_iff _ (Token.isLiteral_iff text)

/-! ### Canonical terms -/

/-- A word: not empty, and nothing in it ends a word. -/
def IsWord (name : String) : Prop := name ≠ "" ∧ ∀ c ∈ name.toList, Token.isDelimiter c = false

instance (name : String) : Decidable (IsWord name) :=
  decidable_of_iff (name ≠ "" ∧ name.toList.all (fun c => !Token.isDelimiter c) = true)
    (by simp [IsWord])

/-- The heads of lists that are not applications of symbols. -/
def specialHeads : List String := ["#", "?", "~"]

/-- The literal fits 64 bits, with or without sign as it is. -/
def Literal.Fits : Literal → Prop
  | .int n => fitsInt64 n = true
  | .uint n => fitsUInt64 n = true

instance (value : Literal) : Decidable value.Fits :=
  match value with
  | .int n => inferInstanceAs (Decidable (fitsInt64 n = true))
  | .uint n => inferInstanceAs (Decidable (fitsUInt64 n = true))

theorem Literal.int64?_eq_some_iff {value : Literal} (h : value.Fits) {n : Int} :
    value.int64? = some n ↔ fitsInt64 value.value = true ∧ n = value.value := by
  cases value with
  | int k => exact ⟨fun hn => ⟨h, (Option.some.inj hn).symm⟩, fun hn => by rw [hn.2]; rfl⟩
  | uint k =>
    simp only [Literal.int64?, Literal.value, Option.ite_none_right_eq_some, Option.some.injEq]
    rw [eq_comm (a := n)]

namespace Expr

mutual

/-- Symbols are the first of their names, which are words and no special heads. Variables are words
without `$`, neither symbols nor numerals. Numbers are in range, and an open operator has an
operand. -/
def IsCanonical (l : Language) : Expr → Prop
  | .metavar id => fitsUInt64 id = true
  | .var name => IsWord name ∧ '$' ∉ name.toList ∧ name ∉ l.names ∧ ¬ IsNumeral name.toList
  | .literal value => value.Fits
  | .app symbol operands =>
    (l.id? (l.name symbol) = some symbol ∧ IsWord (l.name symbol) ∧ l.name symbol ∉ specialHeads) ∧
    AllCanonical l operands
  | .compound inner => inner.IsCanonical l
  | .optional pattern default => pattern.IsCanonical l ∧ default.IsCanonical l
  | .anyway group operands =>
    (group < 9223372036854775808 ∧ operands ≠ []) ∧ AllCanonical l operands

def AllCanonical (l : Language) : List Expr → Prop
  | [] => True
  | e :: rest => e.IsCanonical l ∧ AllCanonical l rest

end

mutual

def decidableCanonical (l : Language) : (e : Expr) → Decidable (e.IsCanonical l)
  | .metavar id => inferInstanceAs (Decidable (fitsUInt64 id = true))
  | .var name =>
    inferInstanceAs
      (Decidable (IsWord name ∧ '$' ∉ name.toList ∧ name ∉ l.names ∧ ¬ IsNumeral name.toList))
  | .literal value => inferInstanceAs (Decidable value.Fits)
  | .app symbol operands =>
    have := decidableAllCanonical l operands
    inferInstanceAs (Decidable ((l.id? (l.name symbol) = some symbol ∧ IsWord (l.name symbol) ∧
        l.name symbol ∉ specialHeads) ∧
      AllCanonical l operands))
  | .compound inner => decidableCanonical l inner
  | .optional pattern default =>
    have := decidableCanonical l pattern
    have := decidableCanonical l default
    inferInstanceAs (Decidable (pattern.IsCanonical l ∧ default.IsCanonical l))
  | .anyway group operands =>
    have := decidableAllCanonical l operands
    inferInstanceAs
      (Decidable ((group < 9223372036854775808 ∧ operands ≠ []) ∧ AllCanonical l operands))

def decidableAllCanonical (l : Language) : (es : List Expr) → Decidable (AllCanonical l es)
  | [] => isTrue trivial
  | e :: rest =>
    have := decidableCanonical l e
    have := decidableAllCanonical l rest
    inferInstanceAs (Decidable (e.IsCanonical l ∧ AllCanonical l rest))

end

instance (l : Language) (e : Expr) : Decidable (e.IsCanonical l) := decidableCanonical l e

end Expr

end Rulewright
