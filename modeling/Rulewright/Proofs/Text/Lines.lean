import Mathlib.Data.List.Basic
import Rulewright.Artifact.Section
import Rulewright.Proofs.Text.Readable

/-!
# Lines

A text that is made of lines has these lines, and indentation puts four spaces before each.

* `isOneLine`: no line feed is in a text; `IsLine`: it is a line of any text that is made of it.
* `block`: lines with their ends; `lines_block`: they are the lines of the text.
* `indent_eq_block`, `indent_block`: indentation, line by line.
-/

namespace Rulewright.Text

/-! ### Texts of one line -/

def isOneLine (text : String) : Bool := text.toList.all (· != '\n')

/-- A text of characters of which the line feed is none. -/
theorem isOneLine_of_forall {text : String} {p : Char → Prop} (hp : ¬ p '\n')
    (h : ∀ c ∈ text.toList, p c) : isOneLine text = true := by
  rw [isOneLine, List.all_eq_true]
  intro c hc
  rw [bne_iff_ne]
  rintro rfl
  exact hp (h _ hc)

/-- A literal is the list of its characters, and the list is faster to go through. -/
theorem isOneLine_ofList {cs : List Char} (h : cs.all (· != '\n') = true) :
    isOneLine (String.ofList cs) = true := by
  rw [isOneLine, String.toList_ofList]
  exact h

theorem isOneLine_append {x y : String} (hx : isOneLine x = true) (hy : isOneLine y = true) :
    isOneLine (x ++ y) = true := by
  rw [isOneLine, String.toList_append, List.all_append, Bool.and_eq_true]
  exact ⟨hx, hy⟩

theorem isOneLine_intercalate {separator : String} (hseparator : isOneLine separator = true)
    {xs : List String} (h : ∀ x ∈ xs, isOneLine x = true) :
    isOneLine (separator.intercalate xs) = true := by
  induction xs with
  | nil => rfl
  | cons x xs ih =>
    obtain ⟨hx, hxs⟩ := List.forall_mem_cons.1 h
    cases xs with
    | nil => rwa [String.intercalate_singleton]
    | cons y xs =>
      rw [String.intercalate_cons_cons]
      exact isOneLine_append (isOneLine_append hx hseparator) (ih hxs)

theorem isOneLine_toString (n : Nat) : isOneLine (toString n) = true :=
  isOneLine_of_forall (p := fun c => c.isDigit = true) (by decide) fun c hc =>
    Decimal.isDigit_toDigits (by rwa [Decimal.toList_toString] at hc)

/-- A quoted text has no line feed in it, whatever the text has. -/
theorem isOneLine_quoted (text : String) : isOneLine (quoted text) = true := by
  have hfeed : escapeChar '\n' = ['\\', 'n'] := by decide
  have hescape : ∀ c, ∀ d ∈ escapeChar c, d ≠ '\n' := by
    rintro c d hd rfl
    rcases escapeChar_cases c with ⟨hself, -, -⟩ | ⟨k, hletter, -, hcontrol⟩ | hcode
    · obtain rfl := List.mem_singleton.1 (hself ▸ hd)
      cases hself.symm.trans hfeed
    · obtain rfl : '\n' = k := by simpa [hletter] using hd
      obtain rfl : '\n' = c := hcontrol
      cases hletter.symm.trans hfeed
    · have hdigit : '\n' ∈ Nat.toDigits 16 c.toNat := by simpa [hcode, escapeCode] using hd
      exact absurd (Decimal.isAlphanum_toDigits hdigit) (by decide)
  refine isOneLine_of_forall (p := (· ≠ '\n')) (by decide) fun c hc => ?_
  rw [quoted, String.toList_ofList] at hc
  rcases List.mem_append.1 hc with hc | hc
  · rcases List.mem_cons.1 hc with rfl | hc
    · decide
    · obtain ⟨d, -, hd⟩ := List.mem_flatMap.1 hc
      exact hescape d c hd
  · rw [List.mem_singleton.1 hc]
    decide

/-! ### Lines of a text -/

/-- A line of any text that is made of it: there is no line feed in it and no carriage return at its
end, which would be dropped. -/
structure IsLine (x : String) : Prop where
  oneLine : isOneLine x = true
  last : x.toList.getLast? ≠ some '\r'

/-- The end of a text decides. -/
theorem IsLine.append {x y : String} (hx : isOneLine x = true) (hy : isOneLine y = true)
    {c : Char} (hlast : y.toList.getLast? = some c) (hc : c ≠ '\r') : IsLine (x ++ y) := by
  refine ⟨isOneLine_append hx hy, ?_⟩
  rw [String.toList_append, List.getLast?_append, hlast]
  exact fun h => hc (Option.some.inj h)

/-- What stands before a line does not matter. -/
theorem IsLine.indented {x : String} (h : IsLine x) : IsLine ("    " ++ x) := by
  refine ⟨isOneLine_append rfl h.oneLine, ?_⟩
  rw [String.toList_append, List.getLast?_append]
  cases hlast : x.toList.getLast? with
  | none => decide
  | some c => exact fun hreturn => h.last (hlast.trans hreturn)

/-- Lines with their ends. -/
def block (xs : List String) : String := String.join (xs.map (· ++ "\n"))

theorem block_cons (x : String) (xs : List String) : block (x :: xs) = x ++ "\n" ++ block xs := by
  rw [block, List.map_cons, String.join_cons]
  rfl

theorem block_append (xs ys : List String) : block (xs ++ ys) = block xs ++ block ys := by
  rw [block, List.map_append, String.join_append]
  rfl

theorem block_flatMap {α : Type} (f : α → List String) (xs : List α) :
    block (xs.flatMap f) = String.join (xs.map fun x => block (f x)) := by
  induction xs with
  | nil => rfl
  | cons x xs ih => rw [List.flatMap_cons, block_append, ih, List.map_cons, String.join_cons]

/-- Characters that are not a line feed join the current line. -/
theorem linesFrom_append_feed {cs : List Char} (h : ∀ c ∈ cs, c ≠ '\n') (line rest : List Char) :
    linesFrom line (cs ++ '\n' :: rest) =
      String.ofList (dropReturn (cs.reverse ++ line)).reverse :: linesFrom [] rest := by
  induction cs generalizing line with
  | nil => rfl
  | cons c cs ih =>
    obtain ⟨hc, hcs⟩ := List.forall_mem_cons.1 h
    have hstep : linesFrom line (c :: cs ++ '\n' :: rest) =
        linesFrom (c :: line) (cs ++ '\n' :: rest) := by
      simp only [List.cons_append, linesFrom]
    rw [hstep, ih hcs, List.reverse_cons, List.append_assoc]
    rfl

theorem lines_append_feed {x : String} (h : isOneLine x = true) (rest : String) :
    lines (x ++ "\n" ++ rest) = String.ofList (dropReturn x.toList.reverse).reverse ::
      lines rest := by
  have hx : ∀ c ∈ x.toList, c ≠ '\n' := by simpa [isOneLine] using h
  have hrun := linesFrom_append_feed hx [] rest.toList
  rw [List.append_nil] at hrun
  rw [lines, String.toList_append, String.toList_append, List.append_assoc]
  exact hrun

theorem IsLine.dropReturn_eq {x : String} (h : IsLine x) :
    String.ofList (dropReturn x.toList.reverse).reverse = x := by
  have hdrop : dropReturn x.toList.reverse = x.toList.reverse := by
    unfold dropReturn
    split
    · rename_i rest heq
      have hlast : x.toList.getLast? = some '\r' := by rw [← List.head?_reverse, heq]; rfl
      exact absurd hlast h.last
    · rfl
  rw [hdrop, List.reverse_reverse, String.ofList_toList]

/-- **The lines of a text** that is made of lines. -/
theorem lines_block {xs : List String} (h : ∀ x ∈ xs, IsLine x) : lines (block xs) = xs := by
  induction xs with
  | nil => rfl
  | cons x xs ih =>
    obtain ⟨hx, hxs⟩ := List.forall_mem_cons.1 h
    rw [block_cons, lines_append_feed hx.oneLine, hx.dropReturn_eq, ih hxs]

theorem lines_ne_nil {text : String} (h : text ≠ "") : lines text ≠ [] := by
  have run : ∀ cs line : List Char, line ≠ [] ∨ cs ≠ [] → linesFrom line cs ≠ [] := by
    intro cs
    induction cs with
    | nil =>
      intro line hline
      have hne : line.isEmpty = false := by simpa using hline
      rw [linesFrom, hne]
      exact List.cons_ne_nil _ _
    | cons c cs ih =>
      intro line _
      by_cases hc : c = '\n'
      · subst hc
        exact List.cons_ne_nil _ _
      · simp only [linesFrom]
        exact ih _ (.inl (List.cons_ne_nil _ _))
  exact run _ _ (.inr fun hnil => h (String.toList_injective hnil))

/-- No line has a line feed in it. -/
theorem isOneLine_of_mem_lines {text line : String} (h : line ∈ lines text) :
    isOneLine line = true := by
  have hdrop : ∀ {line : List Char}, (∀ c ∈ line, c ≠ '\n') → ∀ c ∈ dropReturn line, c ≠ '\n' := by
    intro line hline c hc
    unfold dropReturn at hc
    split at hc
    · exact hline c (List.mem_cons_of_mem _ hc)
    · exact hline c hc
  -- the line so far has no line feed in it
  have run : ∀ (cs line : List Char), (∀ c ∈ line, c ≠ '\n') →
      ∀ x ∈ linesFrom line cs, isOneLine x = true := by
    intro cs
    induction cs with
    | nil =>
      intro line hline x hx
      unfold linesFrom at hx
      split_ifs at hx
      · cases hx
      · rw [List.mem_singleton.1 hx]
        simpa [isOneLine] using hline
    | cons c cs ih =>
      intro line hline x hx
      by_cases hc : c = '\n'
      · subst hc
        simp only [linesFrom, List.mem_cons] at hx
        rcases hx with rfl | hx
        · simpa [isOneLine] using hdrop hline
        · exact ih [] (fun _ h => absurd h List.not_mem_nil) x hx
      · simp only [linesFrom] at hx
        exact ih (c :: line) (List.forall_mem_cons.2 ⟨hc, hline⟩) x hx
  exact run text.toList [] (fun _ h => absurd h List.not_mem_nil) line h

theorem intercalate_append_feed {α : Type} (f : α → String) (x : α) (xs : List α) :
    "\n".intercalate ((x :: xs).map f) ++ "\n" =
      String.join ((x :: xs).map fun x => f x ++ "\n") := by
  induction xs generalizing x with
  | nil => simp [String.join_cons]
  | cons y xs ih =>
    have hrest := ih y
    simp only [List.map_cons, String.join_cons] at hrest ⊢
    rw [String.intercalate_cons_cons, String.append_assoc, hrest]

/-! ### Indentation -/

/-- A line one level deeper. A line without characters stays so. -/
def deeper (line : String) : String := if line = "" then "" else "    " ++ line

theorem indentLine_eq (line : String) : Section.indentLine line = deeper line := by
  rw [Section.indentLine, deeper]
  congr 1
  exact propext String.isEmpty_iff

/-- **Indentation** puts each line one level deeper and ends it. -/
theorem indent_eq_block {text : String} (h : text ≠ "") :
    Section.indent text = block ((lines text).map deeper) := by
  obtain ⟨line, rest, hlines⟩ := List.exists_cons_of_ne_nil (lines_ne_nil h)
  rw [Section.indent, hlines, intercalate_append_feed, block, List.map_map]
  exact congrArg _ (List.map_congr_left fun x _ => congrArg (· ++ "\n") (indentLine_eq x))

/-- Lines with characters are indented as they are. -/
theorem indent_block {xs : List String} (hne : xs ≠ []) (h : ∀ x ∈ xs, IsLine x ∧ x ≠ "") :
    Section.indent (block xs) = block (xs.map ("    " ++ ·)) := by
  have hblock : block xs ≠ "" := by
    obtain ⟨x, rest, rfl⟩ := List.exists_cons_of_ne_nil hne
    intro hempty
    have hlist := congrArg String.toList hempty
    rw [block_cons] at hlist
    simp at hlist
  rw [indent_eq_block hblock, lines_block fun x hx => (h x hx).1]
  exact congrArg block (List.map_congr_left fun x hx => if_neg (h x hx).2)

end Rulewright.Text
