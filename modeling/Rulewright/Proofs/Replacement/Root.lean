import Rulewright.Proofs.Replacement.Instance
import Rulewright.Proofs.Scope.Reads
import Rulewright.Proofs.Text.Replace

/-!
# The name of the matched term in replacements

Code leaves the name of the matched term open: texts say `@formula`, and where code is printed or
run `formula` is put in its place, wherever it occurs. In a line that replaces the matched term it
stands at the start of each temporary. It may also occur in the name of a variable or of a
constructor, and such a name comes out as another one.

* `Construction.lineFrom`: the line that replaces the matched term, spelled out.
* `Construction.names`, `Expr.names`: the variables and constructors that are named.
* `ComesOut`: what a part of a text comes out as, given the names in it.
* `Construction.withRoot_lineFrom_iff`: the line comes out as it is spelled exactly if no name has
  the mark in it.
-/

namespace Rulewright

namespace Construction

mutual

/-- The text of a construction, with a name for the matched term. -/
def textFrom (root : String) : Construction → String
  | .matched trail copied => root ++ trail.text ++ if copied then ".deep_copy()" else ""
  | .newVariable name => "_var(" ++ Text.quoted name ++ ")"
  | .newValue double => "_val(" ++ Decimal.intText double ++ ")"
  | .call constructor operands =>
    constructor ++ "(" ++ ", ".intercalate (textsFrom root operands) ++ ")"
  | .sameOperator trail operands =>
    "p.term_factory(" ++ (root ++ trail.text) ++ ".op(), vec![" ++
      ", ".intercalate (textsFrom root operands) ++ "])"

def textsFrom (root : String) : List Construction → List String
  | [] => []
  | k :: rest => k.textFrom root :: textsFrom root rest

end

/-- The line that replaces the matched term, with a name for it. -/
def lineFrom (root : String) (k : Construction) : String :=
  root ++ ".replace(" ++ k.textFrom root ++ ");"

mutual

/-- The variables and constructors that are named in a construction. -/
def names : Construction → List String
  | .matched _ _ | .newValue _ => []
  | .newVariable name => [name]
  | .call constructor operands => constructor :: namesAll operands
  | .sameOperator _ operands => namesAll operands

def namesAll : List Construction → List String
  | [] => []
  | k :: rest => k.names ++ namesAll rest

end

end Construction

/-- The name has the mark of the matched term in it. -/
def IsMarked (name : String) : Prop := Trail.rootMark.toList <:+: name.toList

instance : DecidablePred IsMarked := fun name =>
  inferInstanceAs (Decidable (Trail.rootMark.toList <:+: name.toList))

namespace Expr

mutual

/-- The variables and constructors that the code of a term names. -/
def names (l : Language) : Expr → List String
  | .var name => [name]
  | .app symbol operands => (l.constructor? (l.name symbol)).toList ++ namesAll l operands
  | .anyway _ operands => namesAll l operands
  | .compound inner => inner.names l
  | .metavar _ | .literal _ | .optional _ _ => []

def namesAll (l : Language) : List Expr → List String
  | [] => []
  | e :: rest => e.names l ++ namesAll l rest

end

end Expr

/-- What is written for a term has the names of the term. -/
theorem Scope.names_write {s : Scope} (hfold : s.foldConstants = false) {e : Expr}
    {used used' : List MetaId} {k : Construction} (h : s.write e used = .ok k used') :
    k.names = e.names s.language := by
  refine (write_induct (s := s) (P := fun e _ k _ => k.names = e.names s.language)
    (Q := fun es _ ks _ => Construction.namesAll ks = Expr.namesAll s.language es)
    (fun _ _ _ _ _ => rfl) (fun _ _ _ _ _ => rfl) (fun _ _ => rfl) (fun _ _ => rfl)
    (fun _ _ _ _ h => h) ?folded ?app (fun _ _ _ _ _ _ _ h => h) (fun _ => rfl) ?cons).1 e used k
    used' h
  case folded => exact fun _ _ _ _ hn => (not_folded hfold hn).elim
  case app =>
    intro symbol operands constructor _ ks _ _ hc ih
    rw [Construction.names, Expr.names, hc, ih]
    rfl
  case cons =>
    intro e rest _ k _ ks _ hk hks
    rw [Construction.namesAll, Expr.namesAll, hk, hks]

/-! ### Parts of texts -/

/-- The text with `formula` for the mark. -/
def named (cs : List Char) : List Char :=
  Text.replaceFrom Trail.rootMark.toList "formula".toList 0 cs

/-- At the start of a text, the first part comes out as the second one if no name in it has the mark
in it, and shorter than the second one otherwise. -/
def ComesOut (x y : String) (names : List String) : Prop :=
  ∀ rest : List Char,
    ((∀ name ∈ names, ¬ IsMarked name) ∧ named (x.toList ++ rest) = y.toList ++ named rest) ∨
      ((∃ name ∈ names, IsMarked name) ∧
        (named (x.toList ++ rest)).length < (y.toList ++ named rest).length)

namespace ComesOut

variable {x x' y y' : String} {names names' : List String}

theorem plain {x : String} (h : '@' ∉ x.toList) : ComesOut x x [] := fun rest =>
  Or.inl ⟨List.forall_mem_nil _, Text.replaceFrom_append_of_notMem h rest⟩

theorem mark : ComesOut Trail.rootMark "formula" [] := fun rest =>
  Or.inl ⟨List.forall_mem_nil _, Text.replaceFrom_append_self (by decide) rest⟩

theorem append (h : ComesOut x y names) (h' : ComesOut x' y' names') :
    ComesOut (x ++ x') (y ++ y') (names ++ names') := by
  intro rest
  rw [String.toList_append, String.toList_append, List.append_assoc, List.append_assoc]
  rcases h (x'.toList ++ rest) with ⟨hnames, heq⟩ | ⟨hmarked, hlt⟩
  · rw [heq]
    rcases h' rest with ⟨hnames', heq'⟩ | ⟨⟨name, hname, hmarked⟩, hlt'⟩
    · exact Or.inl ⟨List.forall_mem_append.2 ⟨hnames, hnames'⟩, by rw [heq']⟩
    · refine Or.inr ⟨⟨name, List.mem_append_right _ hname, hmarked⟩, ?_⟩
      rw [List.length_append, List.length_append]
      omega
  · obtain ⟨name, hname, hmarked⟩ := hmarked
    refine Or.inr ⟨⟨name, List.mem_append_left _ hname, hmarked⟩, ?_⟩
    -- the second part does not come out longer
    have hle : (named (x'.toList ++ rest)).length ≤ (y'.toList ++ named rest).length := by
      rcases h' rest with ⟨-, heq'⟩ | ⟨-, hlt'⟩
      · rw [heq']
      · exact Nat.le_of_lt hlt'
    rw [List.length_append] at hlt ⊢
    omega

theorem before (h : ComesOut x y names) {z : String} (hz : '@' ∉ z.toList) :
    ComesOut (x ++ z) (y ++ z) names := by
  have happend := h.append (plain hz)
  rwa [List.append_nil] at happend

theorem after {z : String} (hz : '@' ∉ z.toList) (h : ComesOut x y names) :
    ComesOut (z ++ x) (z ++ y) names :=
  (plain hz).append h

/-- A part that ends with a character of its own is one name. -/
theorem name {x name : String} {cs : List Char} {c : Char} (hx : x.toList = cs ++ [c])
    (hc : c ∉ Trail.rootMark.toList)
    (hname : Trail.rootMark.toList <:+: cs ↔ IsMarked name) : ComesOut x x [name] := by
  intro rest
  have hparts : named (x.toList ++ rest) = named cs ++ c :: named rest := by
    rw [hx, List.append_assoc]
    exact Text.replaceFrom_append_cons (by decide) hc cs rest
  rw [hparts]
  by_cases hmarked : IsMarked name
  · refine Or.inr ⟨⟨name, List.mem_singleton_self name, hmarked⟩, ?_⟩
    have hshort : (named cs).length < cs.length :=
      Text.length_replaceFrom_lt (by decide) (hname.2 hmarked)
    rw [hx, List.append_assoc, List.length_append, List.length_append]
    exact Nat.add_lt_add_right hshort _
  · refine Or.inl ⟨List.forall_mem_singleton.2 hmarked, ?_⟩
    have hsame : named cs = cs :=
      Text.replaceFrom_of_not_infix fun hinfix => hmarked (hname.1 hinfix)
    rw [hsame, hx, List.append_assoc]
    rfl

theorem constructor (name : String) : ComesOut (name ++ "(") (name ++ "(") [name] :=
  ComesOut.name (String.toList_append) (by decide) Iff.rfl

theorem temporary (t : Trail) : ComesOut t.temporary ("formula" ++ t.text) [] := by
  have htext : '@' ∉ t.text.toList := by
    rw [Trail.toList_text, Trail.chars, List.mem_flatMap]
    rintro ⟨index, -, hmem⟩
    exact (List.mem_cons.1 hmem).elim (by decide) (Decimal.notMem_toDigits (by decide) index)
  exact mark.append (plain htext)

theorem quoted (name : String) : ComesOut (Text.quoted name) (Text.quoted name) [name] := by
  -- no other character is written with the first one of the mark
  have hfirst : ∀ d, Text.escapeChar d ≠ [d] → '@' ∉ Text.escapeChar d := by
    intro d hd hmem
    rcases Text.escapeChar_cases d with ⟨hself, -, -⟩ | ⟨k, hletter, -, rfl⟩ | hcode
    · exact hd hself
    · obtain rfl : '@' = k := by simpa [hletter] using hmem
      exact hd (by decide +kernel)
    · have hdigit : '@' ∈ Nat.toDigits 16 d.toNat := by
        simpa [hcode, Text.escapeCode] using hmem
      exact absurd (Decimal.isAlphanum_toDigits hdigit) (by decide)
  have hescape : Trail.rootMark.toList <:+: name.toList.flatMap Text.escapeChar ↔ IsMarked name :=
    Text.infix_escape_iff (by decide) (by decide +kernel) hfirst name.toList
  have hlist : (Text.quoted name).toList =
      ('\"' :: name.toList.flatMap Text.escapeChar) ++ ['\"'] := String.toList_ofList
  refine ComesOut.name hlist (by decide)
    ⟨fun h => hescape.1 ?_, fun h => List.infix_cons (hescape.2 h)⟩
  have hquote : '@' ∉ ['\"'] := by decide
  exact Text.infix_of_append_of_notMem hquote h

end ComesOut

namespace Construction

mutual

theorem comesOut_text : ∀ k : Construction, ComesOut k.text (k.textFrom "formula") k.names
  | .matched trail copied => by
    have hcopied : '@' ∉ (if copied then ".deep_copy()" else "").toList := by
      cases copied <;> decide
    exact (ComesOut.temporary trail).before hcopied
  | .newVariable name => (ComesOut.after (by decide) (.quoted name)).before (by decide)
  | .newValue double => by
    have hvalue : '@' ∉ (Decimal.intText double).toList := fun hmem =>
      absurd (Decimal.isTextual_intText hmem) (by decide)
    exact (ComesOut.after (by decide) (.plain hvalue)).before (by decide)
  | .call constructor operands =>
    ((ComesOut.constructor constructor).append (comesOut_textAll operands)).before (by decide)
  | .sameOperator trail operands =>
    (((ComesOut.after (by decide) (.temporary trail)).before (by decide)).append
      (comesOut_textAll operands)).before (by decide)

theorem comesOut_textAll : ∀ ks : List Construction, ComesOut (", ".intercalate (textAll ks))
    (", ".intercalate (textsFrom "formula" ks)) (namesAll ks)
  | [] => .plain List.not_mem_nil
  | [k] => by
    rw [textAll, textsFrom, namesAll, textAll, textsFrom, namesAll, String.intercalate_singleton,
      String.intercalate_singleton, List.append_nil]
    exact comesOut_text k
  | k :: k' :: rest => by
    rw [textAll, textsFrom, namesAll, textAll, textsFrom, String.intercalate_cons_cons,
      String.intercalate_cons_cons]
    exact ((comesOut_text k).before (by decide)).append (comesOut_textAll (k' :: rest))

end

mutual

theorem text_eq_textFrom : ∀ k : Construction, k.text = k.textFrom Trail.rootMark
  | .matched _ _ => rfl
  | .newVariable _ | .newValue _ => by rw [text.eq_def, textFrom.eq_def]
  | .call _ operands | .sameOperator _ operands => by
    rw [text.eq_def, textFrom.eq_def]
    dsimp only [Trail.temporary]
    rw [textAll_eq_textsFrom operands]

theorem textAll_eq_textsFrom :
    ∀ ks : List Construction, textAll ks = textsFrom Trail.rootMark ks
  | [] => rfl
  | k :: rest => by rw [textAll, textsFrom, text_eq_textFrom k, textAll_eq_textsFrom rest]

end

theorem replaceLine_eq_lineFrom (k : Construction) : k.replaceLine = k.lineFrom Trail.rootMark := by
  rw [replaceLine, lineFrom, text_eq_textFrom]

theorem textFrom_matched (root : String) (t : Trail) (copied : Bool) :
    (matched t copied).textFrom root = root ++ t.text ++ if copied then ".deep_copy()" else "" :=
  rfl

/-- A text that ends otherwise than with a bracket is that of a temporary. -/
theorem exists_of_textFrom {root : String} {k : Construction}
    (h : (k.textFrom root).toList.getLast? ≠ some ')') : ∃ t, k = .matched t false := by
  have hbracket : ∀ x y : String, y.toList.getLast? = some ')' →
      (x ++ y).toList.getLast? = some ')' := by
    intro x y hy
    rw [String.toList_append, List.getLast?_append, hy]
    rfl
  cases k with
  | matched trail copied =>
    cases copied with
    | false => exact ⟨trail, rfl⟩
    | true => exact absurd (hbracket (root ++ trail.text) ".deep_copy()" (by decide)) h
  | newVariable name => exact absurd (hbracket ("_var(" ++ Text.quoted name) ")" (by decide)) h
  | newValue double => exact absurd (hbracket ("_val(" ++ Decimal.intText double) ")" (by decide)) h
  | call constructor operands => exact absurd (hbracket _ ")" (by decide)) h
  | sameOperator trail operands => exact absurd (hbracket _ "])" (by decide)) h

theorem textFrom_of_lineFrom {root text : String} {k : Construction}
    (h : k.lineFrom root = root ++ ".replace(" ++ text ++ ");") : k.textFrom root = text := by
  have hlist := congrArg String.toList h
  simp only [lineFrom, String.toList_append] at hlist
  exact String.toList_injective (List.append_cancel_left (List.append_cancel_right hlist))

/-- **The line that replaces the matched term** comes out as it is spelled if no name in it has the
mark of the matched term in it, and only then. -/
theorem withRoot_lineFrom_iff (k : Construction) :
    withRoot (k.lineFrom Trail.rootMark) "formula" = k.lineFrom "formula" ↔
      ∀ name ∈ k.names, ¬ IsMarked name := by
  have hline : ComesOut (k.lineFrom Trail.rootMark) (k.lineFrom "formula") k.names := by
    rw [← replaceLine_eq_lineFrom]
    exact ((ComesOut.mark.before (by decide)).append k.comesOut_text).before (by decide)
  have hnamed : (withRoot (k.lineFrom Trail.rootMark) "formula").toList =
      named ((k.lineFrom Trail.rootMark).toList ++ []) := by
    rw [List.append_nil]
    exact String.toList_ofList
  rcases hline [] with ⟨hnames, heq⟩ | ⟨⟨name, hname, hmarked⟩, hlt⟩
  · refine ⟨fun _ => hnames, fun _ => String.toList_injective ?_⟩
    rw [hnamed, heq]
    exact List.append_nil _
  · refine ⟨fun heq => ?_, fun hnames => absurd hmarked (hnames name hname)⟩
    rw [← hnamed, heq] at hlt
    exact absurd hlt (by simp [named, Text.replaceFrom])

end Construction

end Rulewright
