import Rulewright.Proofs.Notation.Scan

/-!
# Terms read back from their notation

The form that a term is written in is read as the same term exactly if the words of the term mean
what they are used for. Canonical terms are read back from every layout of their notation.

* `Decimal.ofDigits_toDigits`, `Form.literal?_text`: numbers are read back.
* `Expr.ReadsBack`: what has to be true of the words of a term; `Expr.read_form_iff`: it is all that
  has to be.
* `parse_layout`: canonical terms under any layout.
-/

namespace Rulewright

/-! ### Numbers -/

theorem Decimal.ofDigits_toDigits (n : Nat) : Decimal.ofDigits (Nat.toDigits 10 n) = n := by
  have hfold : Decimal.ofDigits (Nat.toDigits 10 n) =
      Nat.ofDigitChars 10 (Nat.toDigits 10 n) 0 := by
    unfold Decimal.ofDigits Nat.ofDigitChars
    simp only [Nat.mul_comm]
  rw [hfold]
  exact Nat.ofDigitChars_toDigits (by decide) (by decide)

namespace Form

theorem unsigned?_toDigits (n : Nat) :
    unsigned? (Nat.toDigits 10 n) = if fitsUInt64 n = true then some n else none := by
  have hdigits : (Nat.toDigits 10 n).all Char.isDigit = true :=
    List.all_eq_true.2 fun c hc => Decimal.isDigit_toDigits hc
  simp only [unsigned?, hdigits, Decimal.ofDigits_toDigits, Bool.true_and]

/-- The digits of a number do not start with a sign and do not end with a letter. -/
theorem signed?_toDigits (n : Nat) :
    signed? (Nat.toDigits 10 n) = if fitsInt64 n = true then some (n : Int) else none := by
  unfold signed?
  have hread := Decimal.ofDigits_toDigits n
  split
  · next digits h =>
    have hminus : '-' ∈ Nat.toDigits 10 n := by
      rw [h]
      exact List.mem_cons_self
    exact absurd (Decimal.isDigit_toDigits hminus) (by decide)
  · rw [hread]

theorem signed?_minus (n : Nat) :
    signed? ('-' :: Nat.toDigits 10 n) =
      if fitsInt64 (-(n : Int)) = true then some (-(n : Int)) else none := by
  have hread := Decimal.ofDigits_toDigits n
  generalize Nat.toDigits 10 n = digits at hread ⊢
  rw [← hread]
  rfl

theorem getLast?_toDigits (n : Nat) (sign : List Char) :
    ((sign ++ Nat.toDigits 10 n).getLast? == some 'u') = false := by
  have hne : Nat.toDigits 10 n ≠ [] := Nat.toDigits_ne_nil
  rw [List.getLast?_append_of_ne_nil _ hne, List.getLast?_eq_getLast_of_ne_nil hne]
  have hdigit := Decimal.isDigit_toDigits (List.getLast_mem hne)
  rw [beq_eq_false_iff_ne]
  intro h
  rw [Option.some.inj h] at hdigit
  cases hdigit

/-- **A literal is read back** from its text if it fits. -/
theorem literal?_text (value : Literal) :
    literal? value.text.toList = if value.Fits then some value else none := by
  cases value with
  | int k =>
    cases k with
    | ofNat n =>
      have htext : (Literal.int (.ofNat n)).text.toList = [] ++ Nat.toDigits 10 n :=
        Decimal.toList_toString n
      rw [htext, literal?, getLast?_toDigits, List.nil_append, signed?_toDigits]
      simp only [Literal.Fits]
      split_ifs <;> simp_all
    | negSucc n =>
      have htext : (Literal.int (.negSucc n)).text.toList = ['-'] ++ Nat.toDigits 10 (n + 1) := by
        have hminus : (Literal.int (.negSucc n)).text = "-" ++ toString (n + 1) := rfl
        rw [hminus, String.toList_append, Decimal.toList_toString]
        rfl
      rw [htext, literal?, getLast?_toDigits, List.singleton_append, signed?_minus]
      simp only [Literal.Fits, Int.negSucc_eq, Nat.cast_add, Nat.cast_one]
      split_ifs <;> simp_all
  | uint n =>
    have htext : (Literal.uint n).text.toList = Nat.toDigits 10 n ++ ['u'] := by
      rw [Literal.text, String.toList_append, Decimal.toList_toString]
      rfl
    have hlast : ((Nat.toDigits 10 n ++ ['u']).getLast? == some 'u') = true := by simp
    rw [htext, literal?, if_pos hlast, List.dropLast_concat, unsigned?_toDigits]
    simp only [Literal.Fits]
    split_ifs <;> simp_all

/-! ### Lists -/

section Lists

variable {l : Language} {head : String} {items operands : List Expr}

theorem readList_app {symbol : SymbolId} :
    readList l head items = .ok (.app symbol operands) ↔
    (l.id? head = some symbol ∧ head ∉ specialHeads) ∧ items = operands := by
  have hspecial : head ∈ specialHeads ↔ head = "#" ∨ head = "?" ∨ head = "~" := by
    simp [specialHeads]
  rw [hspecial]
  unfold readList
  split_ifs with h1 h2 h3
  · split <;> simp [h1]
  · split <;> simp [h2]
  · split
    · split <;> simp [h3]
    · simp [h3]
  · cases l.id? head <;> simp [h1, h2, h3]

theorem readList_compound {inner : Expr} :
    readList l "#" items = .ok (.compound inner) ↔ items = [inner] := by
  unfold readList
  rw [if_pos rfl]
  split
  · simp
  · next hno => simpa using hno inner

theorem readList_optional {pattern default : Expr} :
    readList l "?" items = .ok (.optional pattern default) ↔ items = [pattern, default] := by
  unfold readList
  rw [if_neg (by decide), if_pos rfl]
  split
  · simp
  · next hno => simpa using hno pattern default

theorem readList_anyway {group : GroupId} :
    readList l "~" (.literal (.int group) :: items) = .ok (.anyway group operands) ↔
    operands ≠ [] ∧ items = operands := by
  unfold readList
  rw [if_neg (by decide), if_neg (by decide), if_pos rfl]
  cases items with
  | nil =>
    simp only [reduceCtorEq, false_iff, not_and]
    exact fun hne h => hne h.symm
  | cons operand rest =>
    have hgroup : group? (.literal (.int group)) = some group := rfl
    simp only [hgroup, Except.ok.injEq, Expr.anyway.injEq, true_and]
    constructor
    · rintro rfl
      exact ⟨List.cons_ne_nil _ _, rfl⟩
    · exact fun h => h.2

end Lists

end Form

/-! ### Words with their meaning -/

namespace Expr

mutual

/-- The words of a term mean what they stand for in it. -/
def ReadsBack (l : Language) : Expr → Prop
  | .metavar id => fitsUInt64 id = true
  | .var name => ¬ IsNumeral name.toList ∧ name ∉ l.names
  | .literal value => value.Fits
  | .app symbol operands =>
    (l.id? (l.name symbol) = some symbol ∧ l.name symbol ∉ specialHeads) ∧ AllReadBack l operands
  | .compound inner => inner.ReadsBack l
  | .optional pattern default => pattern.ReadsBack l ∧ default.ReadsBack l
  | .anyway group operands => (group < 9223372036854775808 ∧ operands ≠ []) ∧ AllReadBack l operands

def AllReadBack (l : Language) : List Expr → Prop
  | [] => True
  | e :: rest => e.ReadsBack l ∧ AllReadBack l rest

end

section ReadBack

variable {l : Language}

theorem id?_eq_none_iff {name : String} : l.id? name = none ↔ name ∉ l.names := by
  rw [Language.id?, List.idxOf?_eq_none_iff]

theorem readAtom_metavar (id : MetaId) :
    Form.readAtom l (.metavar (Nat.toDigits 10 id)) = .ok (.metavar id) ↔ fitsUInt64 id = true := by
  rw [Form.readAtom, Form.unsigned?_toDigits]
  split_ifs with h <;> simp [h]

theorem readAtom_literal (value : Literal) {e : Expr} :
    Form.readAtom l (.literal value.text.toList) = .ok e ↔ value.Fits ∧ e = .literal value := by
  rw [Form.readAtom, Form.literal?_text]
  split_ifs with h <;> simp [h, eq_comm]

/-- A variable is read back if it is no number and no symbol. -/
theorem readAtom_var (name : String) :
    Form.readAtom l
      (if Token.isLiteral name.toList then .literal name.toList else .name name.toList) =
      .ok (.var name) ↔
    ¬ IsNumeral name.toList ∧ name ∉ l.names := by
  rw [← Token.isLiteral_iff, ← id?_eq_none_iff]
  split_ifs with h
  · rw [Form.readAtom]
    cases Form.literal? name.toList <;> simp [h]
  · rw [Form.readAtom, String.ofList_toList]
    cases l.id? name <;> simp [h]

theorem fits_group (group : Nat) : (Literal.int group).Fits ↔ group < 9223372036854775808 := by
  simp only [Literal.Fits, fitsInt64, Bool.and_eq_true, decide_eq_true_eq]
  omega

theorem read_list_iff {head : List Char} {forms : List Form} {e : Expr} :
    (Form.list head forms).read l = .ok e ↔
    ∃ items, Form.readAll l forms = .ok items ∧
      Form.readList l (String.ofList head) items = .ok e := by
  rw [Form.read]
  cases Form.readAll l forms <;> simp

theorem readAll_cons_iff {f : Form} {rest : List Form} {es : List Expr} :
    Form.readAll l (f :: rest) = .ok es ↔
    ∃ e es', f.read l = .ok e ∧ Form.readAll l rest = .ok es' ∧ es = e :: es' := by
  rw [Form.readAll]
  cases f.read l with
  | error err => simp
  | ok e => cases Form.readAll l rest <;> simp [eq_comm]

/-- The form of a term is read as the term if and only if all its words are read back. -/
theorem read_form_iff_all (l : Language) :
    (∀ e : Expr, (e.form l).read l = .ok e ↔ e.ReadsBack l) ∧
      ∀ es : List Expr, Form.readAll l (formAll l es) = .ok es ↔ AllReadBack l es := by
  have hcons : ∀ (e : Expr) (rest : List Expr), ((e.form l).read l = .ok e ↔ e.ReadsBack l) →
      (Form.readAll l (formAll l rest) = .ok rest ↔ AllReadBack l rest) →
      (Form.readAll l (formAll l (e :: rest)) = .ok (e :: rest) ↔
        e.ReadsBack l ∧ AllReadBack l rest) := by
    intro e rest he hrest
    rw [← he, ← hrest, formAll, readAll_cons_iff]
    constructor
    · rintro ⟨e', es', hread, hreadAll, h⟩
      cases h
      exact ⟨hread, hreadAll⟩
    · rintro ⟨hread, hreadAll⟩
      exact ⟨e, rest, hread, hreadAll, rfl⟩
  have hnil : Form.readAll l (formAll l []) = .ok [] ↔ AllReadBack l [] := by
    rw [formAll, Form.readAll, AllReadBack]
    simp
  apply Expr.induct
  case metavar =>
    intro id
    rw [form, Form.read, ReadsBack]
    exact readAtom_metavar id
  case var =>
    intro name
    rw [form, Form.read, ReadsBack]
    exact readAtom_var name
  case literal =>
    intro value
    rw [form, Form.read, ReadsBack, readAtom_literal]
    simp
  case app =>
    intro symbol operands ih
    rw [form, read_list_iff, ReadsBack, ← ih, String.ofList_toList]
    constructor
    · rintro ⟨items, hitems, hlist⟩
      obtain ⟨hhead, rfl⟩ := Form.readList_app.1 hlist
      exact ⟨hhead, hitems⟩
    · rintro ⟨hhead, hitems⟩
      exact ⟨operands, hitems, Form.readList_app.2 ⟨hhead, rfl⟩⟩
  case compound =>
    intro inner ih
    rw [form, read_list_iff, ReadsBack]
    have hitems := hcons inner [] ih hnil
    rw [AllReadBack, and_true] at hitems
    rw [← hitems]
    constructor
    · rintro ⟨items, hread, hlist⟩
      obtain rfl := Form.readList_compound.1 hlist
      exact hread
    · intro hread
      exact ⟨[inner], hread, Form.readList_compound.2 rfl⟩
  case optional =>
    intro pattern default ihp ihd
    rw [form, read_list_iff, ReadsBack]
    have hrest := hcons default [] ihd hnil
    rw [AllReadBack, and_true] at hrest
    have hitems := hcons pattern [default] ihp (by rw [hrest, AllReadBack, AllReadBack, and_true])
    rw [AllReadBack, AllReadBack, and_true] at hitems
    rw [← hitems]
    constructor
    · rintro ⟨items, hread, hlist⟩
      obtain rfl := Form.readList_optional.1 hlist
      exact hread
    · intro hread
      exact ⟨[pattern, default], hread, Form.readList_optional.2 rfl⟩
  case anyway =>
    -- the number of the group is read first
    intro group operands ih
    rw [form_anyway, read_list_iff, ReadsBack, ← ih, formAll, form]
    constructor
    · rintro ⟨items, hread, hlist⟩
      obtain ⟨number, rest, hnumber, hrest, rfl⟩ := readAll_cons_iff.1 hread
      rw [Form.read] at hnumber
      obtain ⟨hfits, rfl⟩ := (readAtom_literal _).1 hnumber
      obtain ⟨hne, rfl⟩ := Form.readList_anyway.1 hlist
      exact ⟨⟨(fits_group group).1 hfits, hne⟩, hrest⟩
    · rintro ⟨⟨hgroup, hne⟩, hrest⟩
      refine ⟨.literal (.int group) :: operands, ?_, Form.readList_anyway.2 ⟨hne, rfl⟩⟩
      refine readAll_cons_iff.2 ⟨_, _, ?_, hrest, rfl⟩
      rw [Form.read]
      exact (readAtom_literal _).2 ⟨(fits_group group).2 hgroup, rfl⟩
  case nil => exact hnil
  case cons =>
    intro e rest he hrest
    rw [AllReadBack]
    exact hcons e rest he hrest

/-- **What is written is read back** if and only if the words of the term mean what they stand for
in it. -/
theorem parse_render_iff {e : Expr} (he : e.IsSpelled l) {text : String}
    (htext : IsLayout (e.render l) text) : l.parse text = .ok e ↔ e.ReadsBack l := by
  rw [Language.parse, ofText?_layout he htext]
  exact (read_form_iff_all l).1 e

/-- In a canonical term all names are words, and the words mean what they stand for. -/
theorem isCanonical_all (l : Language) :
    (∀ e : Expr, e.IsCanonical l → e.IsSpelled l ∧ e.ReadsBack l) ∧
      ∀ es : List Expr, AllCanonical l es → AllSpelled l es ∧ AllReadBack l es := by
  apply Expr.induct
  case metavar =>
    intro id h
    exact ⟨trivial, h⟩
  case var =>
    rintro name ⟨hword, hdollar, hsymbol, hnumeral⟩
    exact ⟨⟨hword, hdollar⟩, hnumeral, hsymbol⟩
  case literal =>
    intro value h
    exact ⟨trivial, h⟩
  case app =>
    rintro symbol operands ih ⟨⟨hid, hword, hspecial⟩, hoperands⟩
    obtain ⟨hspelled, hread⟩ := ih hoperands
    exact ⟨⟨hword, hspelled⟩, ⟨hid, hspecial⟩, hread⟩
  case compound => exact fun inner ih h => ih h
  case optional =>
    rintro pattern default ihp ihd ⟨hp, hd⟩
    exact ⟨⟨(ihp hp).1, (ihd hd).1⟩, (ihp hp).2, (ihd hd).2⟩
  case anyway =>
    rintro group operands ih ⟨hgroup, hoperands⟩
    exact ⟨(ih hoperands).1, hgroup, (ih hoperands).2⟩
  case nil => exact fun _ => ⟨trivial, trivial⟩
  case cons =>
    rintro e rest ihe ihrest ⟨he, hrest⟩
    exact ⟨⟨(ihe he).1, (ihrest hrest).1⟩, (ihe he).2, (ihrest hrest).2⟩

end ReadBack

end Expr

/-- **Canonical terms are read back** from every layout of their notation. -/
theorem parse_layout {l : Language} {e : Expr} (he : e.IsCanonical l) {text : String}
    (htext : IsLayout (e.render l) text) : l.parse text = .ok e := by
  obtain ⟨hspelled, hread⟩ := (Expr.isCanonical_all l).1 e he
  exact (Expr.parse_render_iff hspelled htext).2 hread

theorem parse_layout_difference :
    IsLayout "(- (? $0 -1) x)" "\n( -\t(?  $0\r\n-1 )\nx) " ∧
    (Expr.app 1 [.optional (.metavar 0) (.literal (.int (-1))), .var "x"]).IsCanonical .arithmetic ∧
    Language.arithmetic.parse "\n( -\t(?  $0\r\n-1 )\nx) " =
      .ok (.app 1 [.optional (.metavar 0) (.literal (.int (-1))), .var "x"]) := by
  have hcanonical : (Expr.app 1
      [.optional (.metavar 0) (.literal (.int (-1))), .var "x"]).IsCanonical .arithmetic := by
    decide +kernel
  have hrender : (Expr.app 1 [.optional (.metavar 0) (.literal (.int (-1))), .var "x"]).render
      .arithmetic = "(- (? $0 -1) x)" := by
    decide +kernel
  have hoptional : Relaid "(? $0 -1)".toList "(?  $0\r\n-1 )".toList :=
    .opening [] (by decide) <| .other rfl <| .space [' ', ' '] (by decide) (by decide) <|
    .other rfl <| .other rfl <| .space ['\r', '\n'] (by decide) (by decide) <| .other rfl <|
    .other rfl <| .closing [' '] (by decide) .nil
  have hbefore : Relaid "(- ".toList "( -\t".toList :=
    .opening [' '] (by decide) <| .other rfl <| .space ['\t'] (by decide) (by decide) .nil
  have hafter : Relaid " x)".toList "\nx)".toList :=
    .space ['\n'] (by decide) (by decide) <| .other rfl <| .closing [] (by decide) .nil
  have hlayout : IsLayout "(- (? $0 -1) x)" "\n( -\t(?  $0\r\n-1 )\nx) " :=
    ⟨['\n'], _, [' '], by decide, by decide, (hbefore.append hoptional).append hafter, by decide⟩
  exact ⟨hlayout, hcanonical, parse_layout hcanonical (hrender ▸ hlayout)⟩

end Rulewright
