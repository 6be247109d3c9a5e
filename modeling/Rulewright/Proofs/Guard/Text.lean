import Rulewright.Code.Run
import Rulewright.Proofs.Text.Readable

/-!
# Guards with one text

A guard is a list of clauses, joined by `&&` in its text: each one is a reading that has to be true,
or two readings that have to agree. Readings and clauses can be read off the front of a text, so the
text of a guard gives its clauses, up to literals with one nearest double.

* `holds_eq_clauses`: a guard holds where its clauses do.
* `clauses_alike`: guards with one text have the same clauses.
* `holds_eq_of_equals`: guards with one text hold together.
* `equal_guards_equivalent`: which guards are taken to be equal, and that these hold together.
-/

namespace Rulewright

open Decimal

/-- What is read of the node at a trail. -/
inductive Query where
  | operator
  | count
  | isValue
  | value
  /-- The operator of an operand. -/
  | operatorOf (index : Nat)
  /-- Whether the node is equal to another one. -/
  | equalTo (other : Trail)

/-- What stands on one side of a clause. -/
inductive Reading where
  | node (trail : Trail) (query : Query)
  | number (n : Nat)
  | double (literal : Literal)
  | operatorName (name : String)
  | irregular
  | never

/-- One condition of a guard. -/
inductive Clause where
  | flag (reading : Reading)
  | equation (left right : Reading)

/-- The call that compares a node with another one. -/
def equalityCall (other : Trail) : String := ".structurally_equal(&" ++ (other.temporary ++ ")")

theorem equalityCall_eq (other : Trail) :
    equalityCall other = ".structurally_equal(&" ++ (other.temporary ++ ")") := rfl

/-- What stands after the name of the node. -/
def Query.text : Query → String
  | .operator => ".op()"
  | .count => ".arity()"
  | .isValue => ".is_value()"
  | .value => ".value()"
  | .operatorOf index => ".operand(" ++ toString index ++ ").op()"
  | .equalTo other => equalityCall other

namespace Reading

def text : Reading → String
  | .node trail query => trail.temporary ++ query.text
  | .number n => toString n
  | .double literal => literal.doubleText
  | .operatorName name => Text.quoted name
  | .irregular => "()"
  | .never => "false"

def value? (l : Language) (b : Bindings) : Reading → Option GuardValue
  | .node t .operator => (b.operatorAt l t).map .operator
  | .node t .count => (b.nodeAt t).map fun e => .number e.operands.length
  | .node t .isValue => (b.nodeAt t).map fun e => .flag e.literal?.isSome
  | .node t .value => ((b.nodeAt t).bind (·.literal?)).map fun v => .double v.double
  | .node t (.operatorOf index) => (b.operatorAt l (t.child index)).map .operator
  | .node t (.equalTo other) => some (.flag (b.equalAt t other))
  | .number n => some (.number n)
  | .double literal => some (.double literal.double)
  | .operatorName name => some (.operator name)
  | .irregular => none
  | .never => some (.flag false)

/-- The operator of the node at a trail, read from its parent if there is one. -/
def operatorBelow (t : Trail) : Reading :=
  match t.split? with
  | none => .node Trail.root .operator
  | some (parent, index) => .node parent (.operatorOf index)

end Reading

namespace Clause

def text : Clause → String
  | .flag r => r.text
  | .equation left right => left.text ++ " == " ++ right.text

def holds (l : Language) (b : Bindings) : Clause → Bool
  | .flag r => r.value? l b == some (.flag true)
  | .equation left right =>
    match left.value? l b, right.value? l b with
    | some x, some y => x == y
    | _, _ => false

end Clause

def Side.reading : Side → Reading
  | .operatorOf t => .node t .operator
  | .operandCountOf t => .node t .count
  | .isValueOf t => .node t .isValue
  | .valueOf t => .node t .value
  | .number n => .number n
  | .operatorName name => .operatorName name
  | .irregular => .irregular

/-- The conditions of a guard that is not free. -/
def Guard.clauses : Guard → List Clause
  | .equality left right => [.equation left.reading right.reading]
  | .value t literal => [.flag (.node t .isValue), .equation (.node t .value) (.double literal)]
  | .overloaded t operator count =>
    [.equation (.node t .operator) (.operatorName operator),
      .equation (.node t .count) (.number count)]
  | .anyway c =>
    let counted := .equation (.node c.countAt .count) (.number c.count)
    if c.countAt = c.first then
      [counted, .equation (.node c.first .operator) (.operatorBelow c.second)]
    else [counted, .equation (.operatorBelow c.first) (.node c.second .operator)]
  | .structurallyEqual pairs => pairs.map fun p => .flag (.node p.1 (.equalTo p.2))
  | .free _ => []
  | .irregular => [.flag .never]

/-! ### Guards are their clauses -/

theorem Side.text_eq (s : Side) : s.text = s.reading.text := by cases s <;> rfl

theorem Side.value?_eq (l : Language) (b : Bindings) (s : Side) :
    s.value? l b = s.reading.value? l b := by
  cases s <;> simp only [value?, reading, Reading.value?]

namespace Trail

theorem split?_child (t : Trail) (index : Nat) : (t.child index).split? = some (t, index) := by
  simp [split?, child]

theorem root_or_child (t : Trail) :
    t = root ∨ ∃ (parent : Trail) (index : Nat), t = parent.child index := by
  rcases List.eq_nil_or_concat t with rfl | ⟨parent, index, rfl⟩
  · exact Or.inl rfl
  · exact Or.inr ⟨parent, index, List.concat_eq_append⟩

end Trail

namespace Reading

theorem text_operatorBelow (t : Trail) : (operatorBelow t).text = t.access ++ ".op()" := by
  rcases Trail.root_or_child t with rfl | ⟨parent, index, rfl⟩
  · rfl
  · rw [operatorBelow, Trail.access, Trail.split?_child]
    apply String.toList_injective
    simp [text, Query.text]

theorem value?_operatorBelow (l : Language) (b : Bindings) (t : Trail) :
    (operatorBelow t).value? l b = (b.operatorAt l t).map .operator := by
  rcases Trail.root_or_child t with rfl | ⟨parent, index, rfl⟩
  · rw [operatorBelow, show Trail.root.split? = none from rfl, value?]
  · rw [operatorBelow, Trail.split?_child, value?]

end Reading

namespace Guard

open Clause

/-- The text of a guard that is not free is that of its clauses. -/
theorem text_eq_clauses {g : Guard} (h : g.isFree = false) :
    g.text = " && ".intercalate (g.clauses.map Clause.text) := by
  cases g with
  | equality left right => simp [text, clauses, Clause.text, Side.text_eq]
  | value t literal =>
    apply String.toList_injective
    simp [text, clauses, Clause.text, Reading.text, Query.text]
  | overloaded t operator count =>
    apply String.toList_injective
    simp [text, clauses, Clause.text, Reading.text, Query.text]
  | anyway c =>
    apply String.toList_injective
    simp only [text, clauses, AnywayComparison.text]
    split_ifs
    · simp [Clause.text, Reading.text_operatorBelow]
      simp [Reading.text, Query.text]
    · simp [Clause.text, Reading.text_operatorBelow]
      simp [Reading.text, Query.text]
  | structurallyEqual pairs =>
    rw [text, clauses, List.map_map]
    refine congrArg _ (List.map_congr_left fun p _ => ?_)
    change pairText p = p.1.temporary ++ equalityCall p.2
    rw [pairText, equalityCall_eq, String.append_assoc, String.append_assoc]
  | free text => cases h
  | irregular => rfl

theorem GuardValue.operator_beq (x y : String) :
    (GuardValue.operator x == .operator y) = (x == y) := by
  by_cases h : x = y <;> simp [h]

theorem GuardValue.flag_beq_true (x : Bool) : (GuardValue.flag x == .flag true) = x := by
  cases x <;> rfl

theorem holds_countIs (l : Language) (b : Bindings) (t : Trail) (n : Nat) :
    (equation (.node t .count) (.number n)).holds l b = b.countIs t n := by
  simp only [Clause.holds, Reading.value?, Bindings.countIs]
  cases b.nodeAt t <;> simp

theorem holds_operators {l : Language} {b : Bindings} {s t : Trail} {x y : Reading}
    (hx : x.value? l b = (b.operatorAt l s).map .operator)
    (hy : y.value? l b = (b.operatorAt l t).map .operator) :
    (equation x y).holds l b =
      ((b.operatorAt l s).isSome && b.operatorAt l s == b.operatorAt l t) := by
  simp only [Clause.holds, hx, hy]
  cases b.operatorAt l s <;> cases b.operatorAt l t <;> simp

/-- A guard that is not free holds where its clauses do. -/
theorem holds_eq_clauses {g : Guard} (h : g.isFree = false) (l : Language) (free : String → Bool)
    (b : Bindings) : g.holds l free b = g.clauses.all (Clause.holds l b) := by
  cases g with
  | equality left right =>
    simp only [holds, clauses, Side.value?_eq, List.all_cons, List.all_nil, Bool.and_true]
    rfl
  | value t literal =>
    simp only [holds, clauses, List.all_cons, List.all_nil, Clause.holds, Reading.value?]
    cases b.nodeAt t with
    | none => simp
    | some e => cases he : e.literal? <;> simp [he]
  | overloaded t operator count =>
    simp only [holds, clauses, List.all_cons, List.all_nil, holds_countIs]
    simp only [Clause.holds, Reading.value?]
    cases b.operatorAt l t with
    | none => simp
    | some name => simp [GuardValue.operator_beq]
  | anyway c =>
    simp only [holds, clauses]
    have hread := fun t => Reading.value?_operatorBelow l b t
    have hnode : ∀ t, (Reading.node t .operator).value? l b = (b.operatorAt l t).map .operator := by
      intro t
      rw [Reading.value?]
    -- the two operators are compared in either order
    split_ifs
    · simp only [List.all_cons, List.all_nil, holds_countIs, holds_operators (hnode _) (hread _),
        Bool.and_true, Bool.and_assoc]
    · simp only [List.all_cons, List.all_nil, holds_countIs, holds_operators (hread _) (hnode _),
        Bool.and_true, Bool.and_assoc]
  | structurallyEqual pairs =>
    simp [holds, clauses, List.all_map, Function.comp_def, Clause.holds, Reading.value?,
      GuardValue.flag_beq_true]
  | free text => cases h
  | irregular => simp [holds, clauses, Clause.holds, Reading.value?]

end Guard

/-! ### Reading off clauses -/

theorem Query.text_append_inj {q q' : Query} {x y : List Char}
    (h : q.text.toList ++ x = q'.text.toList ++ y) : q = q' ∧ x = y := by
  cases q with
  | operatorOf i =>
    cases q' with
    | operatorOf j =>
      have hdigits : Nat.toDigits 10 i ++ ')' :: (".op()".toList ++ x) =
          Nat.toDigits 10 j ++ ')' :: (".op()".toList ++ y) := by
        simpa [text] using h
      obtain ⟨rfl, hrest⟩ :=
        toDigits_append_inj (stops_cons (by decide) _) (stops_cons (by decide) _) hdigits
      exact ⟨rfl, by simpa using hrest⟩
    | _ => simp [text, equalityCall_eq] at h
  | equalTo s =>
    cases q' with
    | equalTo t =>
      have hname : s.temporary.toList ++ ')' :: x = t.temporary.toList ++ ')' :: y := by
        simpa [text, equalityCall_eq] using h
      obtain ⟨rfl, hrest⟩ :=
        Trail.temporary_append_inj (stops_cons (by decide) _) (stops_cons (by decide) _) hname
      exact ⟨rfl, (List.cons.inj hrest).2⟩
    | _ => simp [text, equalityCall_eq] at h
  | _ => cases q' <;> simp_all [text, equalityCall_eq]

theorem Query.stops_text (q : Query) (x : List Char) : Stops Trail.isStep (q.text.toList ++ x) := by
  have hdot : ∃ rest, q.text.toList = '.' :: rest := by cases q <;> simp [text, equalityCall_eq]
  obtain ⟨rest, hrest⟩ := hdot
  rw [hrest]
  exact stops_cons (by decide) _

namespace Reading

/-- A blank follows, if anything does. -/
abbrev Ends (x : List Char) : Prop := Stops (· != ' ') x

theorem Ends.stops_digit {x : List Char} (hx : Ends x) : Stops Char.isDigit x := fun c hc => by
  have hblank : c = ' ' := by simpa using hx c hc
  rw [hblank]
  rfl

/-- Readings of one kind start alike. -/
def kind : Reading → Nat
  | .node _ _ => 0
  | .operatorName _ => 1
  | .irregular => 2
  | .never => 3
  | .number _ | .double _ => 4

/-- The kind of reading that starts with a character. -/
def kindOf (c : Char) : Nat :=
  if c = '@' then 0 else if c = '\"' then 1 else if c = '(' then 2 else if c = 'f' then 3 else 4

theorem kindOf_digit {c : Char} (h : c.isDigit = true) : kindOf c = 4 := by
  have hne : ∀ d : Char, d.isDigit = false → c ≠ d := fun d hd heq => by rw [heq, hd] at h; cases h
  rw [kindOf, if_neg (hne _ (by decide)), if_neg (hne _ (by decide)), if_neg (hne _ (by decide)),
    if_neg (hne _ (by decide))]

theorem exists_head (r : Reading) : ∃ c rest, r.text.toList = c :: rest ∧ kindOf c = r.kind := by
  cases r with
  | node t q => exact ⟨'@', _, by rw [text, String.toList_append, Trail.toList_temporary]; rfl, rfl⟩
  | number n =>
    obtain ⟨c, rest, h⟩ := List.exists_cons_of_ne_nil (Nat.toDigits_ne_nil (b := 10) (n := n))
    exact ⟨c, rest, by rw [text, Nat.toString_eq_ofList_toDigits, String.toList_ofList, h],
      kindOf_digit (isDigit_toDigits (by rw [h]; exact List.mem_cons_self))⟩
  | double literal =>
    cases hd : literal.double with
    | ofNat n =>
      obtain ⟨ds, c, rest, hlist, hne, hdigits, -, -⟩ := toList_natText n
      obtain ⟨d, ds, rfl⟩ := List.exists_cons_of_ne_nil hne
      exact ⟨d, _, by rw [text, Literal.doubleText, hd]; exact hlist,
        kindOf_digit (hdigits d List.mem_cons_self)⟩
    | negSucc n =>
      exact ⟨'-', _, by rw [text, Literal.doubleText, hd, intText, String.toList_append]; rfl, rfl⟩
  | operatorName name => exact ⟨'\"', _, by rw [text, Text.quoted, String.toList_ofList]; rfl, rfl⟩
  | irregular => exact ⟨'(', [')'], rfl, rfl⟩
  | never => exact ⟨'f', ['a', 'l', 's', 'e'], rfl, rfl⟩

theorem kind_eq {a b : Reading} {x y : List Char} (h : a.text.toList ++ x = b.text.toList ++ y) :
    a.kind = b.kind := by
  obtain ⟨c, rest, hc, hk⟩ := a.exists_head
  obtain ⟨d, rest', hd, hk'⟩ := b.exists_head
  rw [hc, hd] at h
  rw [← hk, ← hk', (List.cons.inj h).1]

theorem not_number_double {n : Nat} {literal : Literal} {x y : List Char} (hx : Ends x)
    (h : (number n).text.toList ++ x = (double literal).text.toList ++ y) : False := by
  rw [text, text, Nat.toString_eq_ofList_toDigits, String.toList_ofList, Literal.doubleText] at h
  cases hd : literal.double with
  | ofNat m =>
    -- the point or the exponent would follow the digits of the number
    obtain ⟨ds, c, rest, hlist, -, hdigits, hc, -⟩ := toList_natText m
    rw [hd, intText, hlist, List.append_assoc] at h
    have hstop : Stops Char.isDigit (c :: (rest ++ y)) :=
      stops_cons (by rcases hc with rfl | rfl <;> rfl) _
    obtain ⟨-, hrest⟩ :=
      append_inj_of_stops (fun _ => isDigit_toDigits) hdigits hx.stops_digit hstop h
    have hblank := hx c (by rw [hrest]; rfl)
    rcases hc with rfl | rfl <;> cases hblank
  | negSucc m =>
    obtain ⟨c, rest, hc⟩ := List.exists_cons_of_ne_nil (Nat.toDigits_ne_nil (b := 10) (n := n))
    have hdigit : c.isDigit = true := isDigit_toDigits (by rw [hc]; exact List.mem_cons_self)
    rw [hd, intText, hc, String.toList_append] at h
    have hsign : c = '-' :=
      (List.cons.inj (show c :: (rest ++ x) = '-' :: ((natText (m + 1)).toList ++ y) from h)).1
    rw [hsign] at hdigit
    cases hdigit

theorem blank_notMem_doubleText (literal : Literal) : ' ' ∉ literal.doubleText.toList := fun h =>
  absurd (isTextual_intText h) (by decide)

/-- The readings are one, up to literals with one double. -/
def Alike : Reading → Reading → Prop
  | .double literal, .double literal' => literal.double = literal'.double
  | a, b => a = b

theorem Alike.refl (a : Reading) : a.Alike a := by cases a <;> rfl

theorem Alike.value?_eq {a b : Reading} (h : a.Alike b) (l : Language) (bound : Bindings) :
    a.value? l bound = b.value? l bound := by
  unfold Alike at h
  split at h
  · rw [value?, value?, h]
  · rw [h]

/-- A reading is read off the front of a text, up to literals with one double. -/
theorem text_append_inj {a b : Reading} {x y : List Char} (hx : Ends x) (hy : Ends y)
    (h : a.text.toList ++ x = b.text.toList ++ y) : a.Alike b ∧ x = y := by
  have hkind := kind_eq h
  cases a with
  | node s q =>
    cases b with
    | node t q' =>
      rw [text, text, String.toList_append, String.toList_append, List.append_assoc,
        List.append_assoc] at h
      obtain ⟨rfl, hrest⟩ := Trail.temporary_append_inj (q.stops_text x) (q'.stops_text y) h
      obtain ⟨rfl, hxy⟩ := Query.text_append_inj hrest
      exact ⟨.refl _, hxy⟩
    | _ => cases hkind
  | number m =>
    cases b with
    | number n =>
      simp only [text, Nat.toString_eq_ofList_toDigits, String.toList_ofList] at h
      obtain ⟨rfl, hxy⟩ := toDigits_append_inj hx.stops_digit hy.stops_digit h
      exact ⟨.refl _, hxy⟩
    -- a number and a double look the same up to the point
    | double literal => exact absurd h (not_number_double hx)
    | _ => cases hkind
  | double literal =>
    cases b with
    | number n => exact absurd h.symm (not_number_double hy)
    | double literal' =>
      have hrun : ∀ v : Literal, ∀ c ∈ v.doubleText.toList, (c != ' ') = true := fun v c hc => by
        rw [bne_iff_ne]
        rintro rfl
        exact blank_notMem_doubleText v hc
      obtain ⟨htext, hxy⟩ := append_inj_of_stops (hrun literal) (hrun literal') hx hy h
      have hdouble := Literal.doubleText_inj (String.toList_injective htext)
      exact ⟨hdouble, hxy⟩
    | _ => cases hkind
  | operatorName name =>
    cases b with
    | operatorName name' =>
      obtain ⟨rfl, hxy⟩ := Text.quoted_append_inj h
      exact ⟨.refl _, hxy⟩
    | _ => cases hkind
  | irregular =>
    cases b with
    | irregular => exact ⟨.refl _, List.append_cancel_left h⟩
    | _ => cases hkind
  | never =>
    cases b with
    | never => exact ⟨.refl _, List.append_cancel_left h⟩
    | _ => cases hkind

end Reading

namespace Clause

/-- Nothing follows, or one more clause does. -/
def Continues (x : List Char) : Prop := x = [] ∨ ∃ rest, x = " && ".toList ++ rest

theorem Continues.ends {x : List Char} (h : Continues x) : Reading.Ends x := by
  rcases h with rfl | ⟨rest, rfl⟩
  · exact stops_nil _
  · exact stops_cons (by decide) _

theorem ends_equation (x : List Char) : Reading.Ends (" == ".toList ++ x) :=
  stops_cons (by decide) _

theorem not_continues_equation {x : List Char} : ¬ Continues (" == ".toList ++ x) := by
  rintro (h | ⟨rest, h⟩)
  · cases h
  · simp at h

theorem toList_equation (left right : Reading) (x : List Char) :
    (equation left right).text.toList ++ x =
      left.text.toList ++ (" == ".toList ++ (right.text.toList ++ x)) := by
  rw [text, String.toList_append, String.toList_append, List.append_assoc, List.append_assoc]

/-- The clauses are one, up to literals with one double. -/
def Alike : Clause → Clause → Prop
  | .flag r, .flag r' => r.Alike r'
  | .equation left right, .equation left' right' => left.Alike left' ∧ right.Alike right'
  | _, _ => False

theorem Alike.holds_eq {c d : Clause} (h : c.Alike d) (l : Language) (b : Bindings) :
    c.holds l b = d.holds l b := by
  cases c <;> cases d
  · rw [holds, holds, Reading.Alike.value?_eq h]
  · exact h.elim
  · exact h.elim
  · simp only [holds, h.1.value?_eq, h.2.value?_eq]

/-- A clause is read off the front of a text, up to literals with one double. -/
theorem text_append_inj {c d : Clause} {x y : List Char} (hx : Continues x) (hy : Continues y)
    (h : c.text.toList ++ x = d.text.toList ++ y) : c.Alike d ∧ x = y := by
  cases c with
  | flag r =>
    cases d with
    | flag r' =>
      exact Reading.text_append_inj hx.ends hy.ends h
    | equation left right =>
      rw [toList_equation] at h
      obtain ⟨-, rfl⟩ := Reading.text_append_inj hx.ends (ends_equation _) h
      exact absurd hx not_continues_equation
  | equation left right =>
    rw [toList_equation] at h
    cases d with
    | flag r' =>
      obtain ⟨-, hxy⟩ := Reading.text_append_inj (ends_equation _) hy.ends h
      rw [← hxy] at hy
      exact absurd hy not_continues_equation
    | equation left' right' =>
      rw [toList_equation] at h
      obtain ⟨hleft, hrest⟩ := Reading.text_append_inj (ends_equation _) (ends_equation _) h
      obtain ⟨hright, hxy⟩ :=
        Reading.text_append_inj hx.ends hy.ends (List.append_cancel_left hrest)
      exact ⟨⟨hleft, hright⟩, hxy⟩

theorem text_ne_nil (c : Clause) (x : List Char) : c.text.toList ++ x ≠ [] := by
  have hreading : ∀ (r : Reading) (z : List Char), r.text.toList ++ z ≠ [] := fun r z => by
    obtain ⟨k, rest, hr, -⟩ := r.exists_head
    rw [hr]
    exact List.cons_ne_nil _ _
  cases c with
  | flag r => exact hreading r x
  | equation left right =>
    rw [toList_equation]
    exact hreading _ _

/-- What stands after a clause: the further ones. -/
def after : List Clause → List Char
  | [] => []
  | cs => " && ".toList ++ (" && ".intercalate (cs.map text)).toList

theorem continues_after (cs : List Clause) : Continues (after cs) := by
  cases cs with
  | nil => exact Or.inl rfl
  | cons c cs => exact Or.inr ⟨_, rfl⟩

theorem toList_intercalate_cons (c : Clause) (cs : List Clause) :
    (" && ".intercalate ((c :: cs).map text)).toList = c.text.toList ++ after cs := by
  cases cs with
  | nil => simp [after]
  | cons d ds =>
    rw [List.map_cons, List.map_cons, String.intercalate_cons_cons, String.toList_append,
      String.toList_append, List.append_assoc]
    rfl

/-- The clauses are read off a text. -/
theorem forall₂_alike {cs ds : List Clause}
    (h : " && ".intercalate (cs.map text) = " && ".intercalate (ds.map text)) :
    List.Forall₂ Alike cs ds := by
  have hnil : ∀ (d : Clause) (ds : List Clause),
      ("" : String) ≠ " && ".intercalate ((d :: ds).map text) := by
    intro d ds heq
    have := congrArg String.toList heq
    rw [toList_intercalate_cons] at this
    exact text_ne_nil d _ this.symm
  induction cs generalizing ds with
  | nil =>
    cases ds with
    | nil => exact .nil
    | cons d ds => exact absurd h (hnil d ds)
  | cons c cs ih =>
    cases ds with
    | nil => exact absurd h.symm (hnil c cs)
    | cons d ds =>
      have hlist := congrArg String.toList h
      rw [toList_intercalate_cons, toList_intercalate_cons] at hlist
      obtain ⟨hhead, hafter⟩ := text_append_inj (continues_after cs) (continues_after ds) hlist
      have htail : " && ".intercalate (cs.map text) = " && ".intercalate (ds.map text) := by
        match cs, ds, hafter with
        | [], [], _ => rfl
        | [], _ :: _, hafter => cases hafter
        | _ :: _, [], hafter => cases hafter
        | _ :: _, _ :: _, hafter => exact String.toList_injective (List.append_cancel_left hafter)
      exact .cons hhead (ih htail)

theorem all_holds_eq {cs ds : List Clause} (h : List.Forall₂ Alike cs ds) (l : Language)
    (b : Bindings) : cs.all (holds l b) = ds.all (holds l b) := by
  induction h with
  | nil => rfl
  | cons hhead _ ih => rw [List.all_cons, List.all_cons, hhead.holds_eq, ih]

end Clause

/-- Guards with one text have the same clauses. -/
theorem Guard.clauses_alike {a b : Guard} (h : a.equals b = true) :
    List.Forall₂ Clause.Alike a.clauses b.clauses := by
  simp only [equals, Bool.and_eq_true, Bool.not_eq_true', beq_iff_eq] at h
  obtain ⟨⟨ha, hb⟩, htext⟩ := h
  rw [text_eq_clauses ha, text_eq_clauses hb] at htext
  exact Clause.forall₂_alike htext

/-- **Guards with one text hold together.** -/
theorem Guard.holds_eq_of_equals {a b : Guard} (h : a.equals b = true) (l : Language)
    (free : String → Bool) (bound : Bindings) : a.holds l free bound = b.holds l free bound := by
  have halike := clauses_alike h
  simp only [equals, Bool.and_eq_true, Bool.not_eq_true'] at h
  rw [holds_eq_clauses h.1.1, holds_eq_clauses h.1.2]
  exact Clause.all_holds_eq halike l bound

/-! ### Guards that are taken to be equal -/

theorem Reading.Alike.text_eq {a b : Reading} (h : a.Alike b) : a.text = b.text := by
  unfold Alike at h
  split at h
  · rw [text, text, Literal.doubleText, Literal.doubleText, h]
  · rw [h]

theorem Clause.Alike.text_eq {c d : Clause} (h : c.Alike d) : c.text = d.text := by
  cases c with
  | flag r =>
    cases d with
    | flag r' => exact Reading.Alike.text_eq h
    | equation left right => exact h.elim
  | equation left right =>
    cases d with
    | flag r' => exact h.elim
    | equation left' right' => rw [text, text, h.1.text_eq, h.2.text_eq]

theorem Clause.map_text_eq {cs ds : List Clause} (h : List.Forall₂ Alike cs ds) :
    cs.map text = ds.map text := by
  induction h with
  | nil => rfl
  | cons hhead _ ih => rw [List.map_cons, List.map_cons, hhead.text_eq, ih]

/-- Guards are taken to be equal exactly where neither is free and their clauses are the same. -/
theorem Guard.equals_iff {a b : Guard} :
    a.equals b = true ↔
    a.isFree = false ∧ b.isFree = false ∧ List.Forall₂ Clause.Alike a.clauses b.clauses := by
  refine ⟨fun h => ?_, fun ⟨ha, hb, halike⟩ => ?_⟩
  · have halike := clauses_alike h
    simp only [equals, Bool.and_eq_true, Bool.not_eq_true'] at h
    exact ⟨h.1.1, h.1.2, halike⟩
  · have htext : a.text = b.text := by
      rw [text_eq_clauses ha, text_eq_clauses hb, Clause.map_text_eq halike]
    rw [equals, ha, hb, htext]
    simp

/-- **Equal guards are equivalent.** Guards are taken to be equal where neither is free and they
have the same clauses, up to literals with one nearest double. Then one of them holds wherever the
other one does: in every language, whatever is bound and whatever is granted. -/
theorem equal_guards_equivalent (a b : Guard) :
    (a.equals b = true ↔
      a.isFree = false ∧ b.isFree = false ∧ List.Forall₂ Clause.Alike a.clauses b.clauses) ∧
    (a.equals b = true →
      ∀ (l : Language) (free : String → Bool) (bound : Bindings), a.holds l free bound = true ↔
        b.holds l free bound = true) :=
  ⟨Guard.equals_iff, fun h l free bound => by rw [Guard.holds_eq_of_equals h]⟩

/-- The literals `2 ^ 53 + 1` and `2 ^ 53` are two integers with one nearest double. -/
theorem rounded_literals_equivalent :
    let a := Guard.value [0] (.int 9007199254740993)
    let b := Guard.value [0] (.uint 9007199254740992)
    a ≠ b ∧ a.equals b = true ∧ ∀ (l : Language) (free : String → Bool) (bound : Bindings),
      a.holds l free bound = true ↔ b.holds l free bound = true := by
  intro a b
  have h : a.equals b = true := by decide +kernel
  exact ⟨by decide, h, (equal_guards_equivalent a b).2 h⟩

end Rulewright
