import Rulewright.Proofs.Text.Lines

/-!
# Texts in comments

A text that is put behind a comment mark stays a comment up to its first line feed. The lines that
begin within the text have to bring marks of their own.

* `isCommentary`: every line of a text that is not empty is a comment.
* `harmlessWithin`: the lines that begin within a text are empty or comments.
* `AddsComments`: what a text contributes, whatever follows it. It is known for a text of one line
  and for any text that ends in a quote, and the parts of a longer text contribute one by one.
* `AddsLines`: the same for texts that end their lines.
* `isCommentary_indent`: indentation makes no difference.
-/

namespace Rulewright.Text

/-- The line starts with `//`, its leading spaces apart. -/
def isMarked (line : List Char) : Bool := ['/', '/'].isPrefixOf (line.dropWhile (· == ' '))

/-- The line is empty or a comment. -/
def isHarmless (line : List Char) : Bool := line.isEmpty || isMarked line

/-- Every line that is not empty is a comment. -/
def isCommentary (text : String) : Bool := (lines text).all fun line => isHarmless line.toList

/-! ### One line -/

theorem isMarked_cons {c : Char} (hc : c ≠ ' ') (cs : List Char) :
    isMarked (c :: cs) = (c == '/' && cs.head? == some '/') := by
  rw [isMarked, List.dropWhile_cons_of_neg (by simpa using hc), List.isPrefixOf_cons_cons,
    Bool.beq_comm]
  cases cs with
  | nil => rfl
  | cons d cs => simp [List.isPrefixOf_cons_cons, Bool.beq_comm]

/-- A character that is neither space nor slash settles what a line is. -/
theorem isMarked_append_cons {c : Char} (hspace : c ≠ ' ') (hslash : c ≠ '/') (x y : List Char) :
    isMarked (x ++ c :: y) = isMarked x := by
  induction x with
  | nil =>
    rw [List.nil_append, isMarked_cons hspace, beq_eq_false_iff_ne.2 hslash]
    rfl
  | cons d x ih =>
    by_cases hd : d = ' '
    · subst hd
      exact ih
    · rw [List.cons_append, isMarked_cons hd, isMarked_cons hd]
      cases x with
      | nil => simp [hslash]
      | cons e x => rfl

/-! ### Lines one after the other -/

/-- All lines are harmless, the current one having the characters of `line`, last one first. -/
def harmlessFrom (line cs : List Char) : Bool :=
  (linesFrom line cs).all fun line => isHarmless line.toList

theorem isCommentary_eq (text : String) : isCommentary text = harmlessFrom [] text.toList := rfl

theorem harmlessFrom_nil (line : List Char) : harmlessFrom line [] = isHarmless line.reverse := by
  cases line with
  | nil => rfl
  | cons c line =>
    simp only [harmlessFrom, linesFrom, List.isEmpty_cons, Bool.false_eq_true, if_false,
      List.all_cons, List.all_nil, Bool.and_true, String.toList_ofList]

theorem harmlessFrom_feed (line cs : List Char) :
    harmlessFrom line ('\n' :: cs) =
      (isHarmless (dropReturn line).reverse && harmlessFrom [] cs) := by
  simp only [harmlessFrom, linesFrom, List.all_cons, String.toList_ofList]

theorem harmlessFrom_cons {c : Char} (hc : c ≠ '\n') (line cs : List Char) :
    harmlessFrom line (c :: cs) = harmlessFrom (c :: line) cs := by
  simp only [harmlessFrom, linesFrom]

/-- Where a line ends, the text can be cut. -/
theorem harmlessFrom_append_feed (line x y : List Char) :
    harmlessFrom line (x ++ '\n' :: y) =
      (harmlessFrom line (x ++ ['\n']) && harmlessFrom [] y) := by
  induction x generalizing line with
  | nil => simp [harmlessFrom_feed, harmlessFrom_nil, isHarmless]
  | cons c x ih =>
    by_cases hc : c = '\n'
    · subst hc
      rw [List.cons_append, List.cons_append, harmlessFrom_feed, harmlessFrom_feed, ih,
        Bool.and_assoc]
    · rw [List.cons_append, List.cons_append, harmlessFrom_cons hc, harmlessFrom_cons hc, ih]

/-! ### The lines that begin within a text -/

/-- All lines are harmless that begin within the characters. The first one stands behind something
else. -/
def harmlessWithin : List Char → Bool
  | [] => true
  | '\n' :: cs => harmlessFrom [] cs
  | _ :: cs => harmlessWithin cs

theorem harmlessWithin_cons {c : Char} (hc : c ≠ '\n') (cs : List Char) :
    harmlessWithin (c :: cs) = harmlessWithin cs := by
  simp only [harmlessWithin]

theorem harmlessWithin_append {x : List Char} (hx : ∀ c ∈ x, c ≠ '\n') (y : List Char) :
    harmlessWithin (x ++ y) = harmlessWithin y := by
  induction x with
  | nil => rfl
  | cons c x ih =>
    obtain ⟨hc, hx⟩ := List.forall_mem_cons.1 hx
    rw [List.cons_append, harmlessWithin_cons hc, ih hx]

/-- A line whose last character settled what it is, whatever was added to it since. -/
theorem harmlessFrom_settled {c : Char} (hc : c ≠ '\r') {line : List Char} {b : Bool}
    (hb : ∀ more, isMarked ((c :: line).reverse ++ more) = b) (more cs : List Char) :
    harmlessFrom (more ++ c :: line) cs = (b && harmlessWithin cs) := by
  have hnow : ∀ more, isHarmless (more ++ c :: line).reverse = b := by
    intro more
    rw [isHarmless, List.reverse_append, hb]
    simp
  induction cs generalizing more with
  | nil => rw [harmlessFrom_nil, hnow, harmlessWithin, Bool.and_true]
  | cons d cs ih =>
    by_cases hd : d = '\n'
    · subst hd
      -- a carriage return that is dropped came after the character
      have hdrop : ∃ kept, dropReturn (more ++ c :: line) = kept ++ c :: line := by
        unfold dropReturn
        split
        · rename_i cs heq
          cases more with
          | nil => cases heq; exact absurd rfl hc
          | cons e more => cases heq; exact ⟨more, rfl⟩
        · exact ⟨more, rfl⟩
      obtain ⟨kept, hkept⟩ := hdrop
      rw [harmlessFrom_feed, hkept, hnow, harmlessWithin]
    · rw [harmlessFrom_cons hd, harmlessWithin_cons hd]
      exact ih (d :: more)

/-- Behind a comment mark only the lines that begin later matter. -/
theorem harmlessFrom_comment (cs : List Char) :
    harmlessFrom [] ('/' :: '/' :: cs) = harmlessWithin cs := by
  have hmark : ∀ more, isMarked (['/', '/'].reverse ++ more) = true := fun _ => rfl
  rw [harmlessFrom_cons (by decide), harmlessFrom_cons (by decide),
    ← Bool.true_and (harmlessWithin cs)]
  exact harmlessFrom_settled (by decide) hmark [] cs

theorem isCommentary_comment (x : String) : isCommentary ("//" ++ x) = harmlessWithin x.toList := by
  rw [isCommentary_eq, String.toList_append]
  exact harmlessFrom_comment x.toList

/-- A quote settles what its line is, so the text can be cut there too. -/
theorem harmlessFrom_append_quote (line x y : List Char) :
    harmlessFrom line (x ++ '\'' :: y) = (harmlessFrom line (x ++ ['\'']) && harmlessWithin y) := by
  induction x generalizing line with
  | nil =>
    have hsettled : ∀ more, isMarked (('\'' :: line).reverse ++ more) = isMarked line.reverse := by
      intro more
      rw [List.reverse_cons, List.append_assoc]
      exact isMarked_append_cons (by decide) (by decide) _ _
    have hall : ∀ cs,
        harmlessFrom line ('\'' :: cs) = (isMarked line.reverse && harmlessWithin cs) := by
      intro cs
      rw [harmlessFrom_cons (by decide)]
      exact harmlessFrom_settled (by decide) hsettled [] cs
    rw [List.nil_append, List.nil_append, hall, hall, harmlessWithin, Bool.and_true]
  | cons d x ih =>
    by_cases hd : d = '\n'
    · subst hd
      rw [List.cons_append, List.cons_append, harmlessFrom_feed, harmlessFrom_feed, ih,
        Bool.and_assoc]
    · rw [List.cons_append, List.cons_append, harmlessFrom_cons hd, harmlessFrom_cons hd, ih]

theorem harmlessWithin_append_quote (x y : List Char) :
    harmlessWithin (x ++ '\'' :: y) = (harmlessWithin (x ++ ['\'']) && harmlessWithin y) := by
  induction x with
  | nil => rfl
  | cons d x ih =>
    by_cases hd : d = '\n'
    · subst hd
      exact harmlessFrom_append_quote [] x y
    · rw [List.cons_append, List.cons_append, harmlessWithin_cons hd, harmlessWithin_cons hd, ih]

/-! ### What a text contributes to a comment -/

/-- Behind a comment mark, all lines of the text and what follows it are harmless if and only if
those of the text are, which the truth value says, and those that begin in what follows. -/
def AddsComments (x : String) (b : Bool) : Prop :=
  ∀ y, harmlessWithin (x.toList ++ y) = (b && harmlessWithin y)

namespace AddsComments

variable {x y : String} {a b : Bool}

theorem append (hx : AddsComments x a) (hy : AddsComments y b) :
    AddsComments (x ++ y) (a && b) := by
  intro z
  rw [String.toList_append, List.append_assoc, hx, hy, Bool.and_assoc]

theorem oneLine (hx : isOneLine x = true) : AddsComments x true := by
  intro y
  rw [Bool.true_and]
  exact harmlessWithin_append (by simpa [isOneLine] using hx) y

/-- A text of one line changes nothing in front of another one. -/
theorem after (hx : isOneLine x = true) (hy : AddsComments y b) : AddsComments (x ++ y) b :=
  (oneLine hx).append hy

/-- A text of one line changes nothing behind another one. -/
theorem before (hx : AddsComments x a) (hy : isOneLine y = true) : AddsComments (x ++ y) a := by
  have h := hx.append (oneLine hy)
  rwa [Bool.and_true] at h

/-- Any text with a quote behind it. -/
theorem quoted (x : String) : AddsComments (x ++ "'") (isCommentary ("// '" ++ x ++ "'")) := by
  have hvalue : isCommentary ("// '" ++ x ++ "'") = harmlessWithin (x.toList ++ ['\'']) := by
    have hmark : "// '" ++ x ++ "'" = "//" ++ (" '" ++ (x ++ "'")) := by
      rw [← String.append_assoc, ← String.append_assoc]
      rfl
    rw [hmark, isCommentary_comment, String.toList_append, String.toList_append]
    rfl
  intro y
  rw [hvalue, String.toList_append, List.append_assoc]
  exact harmlessWithin_append_quote x.toList y

theorem intercalate {α : Type} {f : α → String} {g : α → Bool} {separator : String}
    (hseparator : isOneLine separator = true) {xs : List α}
    (h : ∀ x ∈ xs, AddsComments (f x) (g x)) :
    AddsComments (separator.intercalate (xs.map f)) (xs.all g) := by
  induction xs with
  | nil => exact oneLine rfl
  | cons x xs ih =>
    obtain ⟨hx, hxs⟩ := List.forall_mem_cons.1 h
    cases xs with
    | nil =>
      rw [List.map_singleton, String.intercalate_singleton, List.all_cons, List.all_nil,
        Bool.and_true]
      exact hx
    | cons y xs =>
      rw [List.map_cons, List.map_cons, String.intercalate_cons_cons, List.all_cons]
      exact (hx.before hseparator).append (ih hxs)

/-- The text on a line that a comment mark starts. -/
theorem isCommentary (hx : AddsComments x b) : isCommentary ("//" ++ x ++ "\n") = b := by
  rw [String.append_assoc, isCommentary_comment, String.toList_append, hx]
  exact Bool.and_true b

/-- Two texts on such a line, with something before each. -/
theorem isCommentary_pair {start middle : String} (hstart : isOneLine start = true)
    (hx : AddsComments x a) (hmiddle : isOneLine middle = true) (hy : AddsComments y b) :
    Text.isCommentary ("//" ++ start ++ x ++ middle ++ y ++ "\n") = (a && b) := by
  rw [← (((AddsComments.after hstart hx).before hmiddle).append hy).isCommentary]
  simp only [String.append_assoc]

end AddsComments

/-! ### Several lines -/

theorem isCommentary_append_feed (x y : String) :
    isCommentary (x ++ "\n" ++ y) = (isCommentary (x ++ "\n") && isCommentary y) := by
  simp only [isCommentary_eq, String.toList_append, List.append_assoc]
  exact harmlessFrom_append_feed [] x.toList y.toList

/-- The texts, which end their lines, are all comments if and only if the truth value says so,
whatever follows. -/
def AddsLines (xs : List String) (b : Bool) : Prop :=
  ∀ rest, isCommentary (String.join xs ++ rest) = (b && isCommentary rest)

namespace AddsLines

variable {xs ys : List String} {a b : Bool}

theorem nil : AddsLines [] true := fun _ => congrArg Text.isCommentary String.empty_append

theorem append (hxs : AddsLines xs a) (hys : AddsLines ys b) : AddsLines (xs ++ ys) (a && b) := by
  intro rest
  rw [String.join_append, String.append_assoc, hxs, hys, Bool.and_assoc]

theorem map {α : Type} {f : α → String} {g : α → Bool} {xs : List α}
    (h : ∀ x ∈ xs, Text.isCommentary (f x ++ "\n") = g x) :
    AddsLines (xs.map fun x => f x ++ "\n") (xs.all g) := by
  induction xs with
  | nil => exact nil
  | cons x xs ih =>
    obtain ⟨hx, hxs⟩ := List.forall_mem_cons.1 h
    intro rest
    rw [List.map_cons, String.join_cons, String.append_assoc, isCommentary_append_feed, hx, ih hxs,
      List.all_cons, Bool.and_assoc]

theorem isCommentary (h : AddsLines xs b) : Text.isCommentary (String.join xs) = b := by
  have hall := h ""
  rw [String.append_empty] at hall
  exact hall.trans (Bool.and_true b)

end AddsLines

/-- A line with its end, before which a carriage return may stand. -/
theorem isCommentary_feed {line : String} (h : isOneLine line = true) :
    isCommentary (line ++ "\n") = isHarmless (dropReturn line.toList.reverse).reverse := by
  have hlines := lines_append_feed h ""
  rw [String.append_empty] at hlines
  rw [isCommentary, hlines, List.all_cons, String.toList_ofList]
  exact Bool.and_true _

/-- Dropping a carriage return does not change what a line is, unless it becomes empty. -/
theorem isHarmless_dropReturn {cs : List Char} (h : 1 < cs.length) :
    isHarmless (dropReturn cs.reverse).reverse = isMarked cs := by
  unfold dropReturn
  split
  · rename_i rest heq
    obtain rfl : cs = rest.reverse ++ ['\r'] := by
      rw [← List.reverse_reverse cs, heq, List.reverse_cons]
    rw [isMarked_append_cons (by decide) (by decide), isHarmless]
    cases rest with
    | nil => exact absurd h (by decide)
    | cons c rest => simp
  · rw [List.reverse_reverse, isHarmless]
    cases cs with
    | nil => exact absurd h (by decide)
    | cons c cs => rfl

theorem isCommentary_deeper {line : String} (h : isOneLine line = true) :
    isCommentary (deeper line ++ "\n") = isHarmless line.toList := by
  unfold deeper
  split_ifs with hempty
  · subst hempty
    rfl
  · have hlist : ("    " ++ line).toList = ' ' :: ' ' :: ' ' :: ' ' :: line.toList := by
      rw [String.toList_append]
      rfl
    have hne : line.toList.isEmpty = false := by simpa using hempty
    rw [isCommentary_feed (isOneLine_append rfl h), isHarmless_dropReturn (by simp [hlist]), hlist,
      isHarmless, hne]
    rfl

/-- **Indentation** does not change whether a text is all comments. -/
theorem isCommentary_indent (text : String) :
    isCommentary (Section.indent text) = isCommentary text := by
  by_cases hempty : text = ""
  · subst hempty
    rfl
  · rw [indent_eq_block hempty, block, List.map_map]
    exact (AddsLines.map fun x hx => isCommentary_deeper (isOneLine_of_mem_lines hx)).isCommentary

end Rulewright.Text
