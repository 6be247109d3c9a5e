import Mathlib.Data.List.Infix
import Rulewright.Proofs.Decimal.Rounding
import Rulewright.Proofs.Notation.Layout
import Rulewright.Proofs.Replacement.Writing

/-!
# Folded constants

A constant term has an exact value over the integers. The value is computed step by step in integers
of 64 bits, and there is one if and only if no literal and no step leaves their range; then it is
the exact one. A written term is the term with its largest constant parts replaced by their values.

* `Expr.exact`, `Expr.results`: the exact value, and what is met on the way to it.
* `Expr.value?_eq_some_iff`: when there is a value, and which.
* `Expr.folding`: the term with its constant parts replaced.
* `Scope.write_folding`: what is written for a term with folding is what is written for that term
  without.
-/

namespace Rulewright

/-! ### Operators -/

/-- The operators of arithmetic terms: sums and products of at least one operand, negation and
difference. -/
def isArithmeticOperator (name : String) (count : Nat) : Bool :=
  (name == "+" || name == "*") && count != 0 || name == "-" && (count == 1 || count == 2)

/-- The exact value of an operator on integers. -/
def operate (name : String) (values : List Int) : Int :=
  match name, values with
  | "+", _ => values.sum
  | "*", _ => values.prod
  | "-", [v] => -v
  | "-", [v, w] => v - w
  | _, _ => 0

/-- The results on the way: of a sum or product those of its beginnings, from left to right. -/
def operateSteps (name : String) (values : List Int) : List Int :=
  match name with
  | "+" => values.inits.tail.map List.sum
  | "*" => values.inits.tail.map List.prod
  | _ => [operate name values]

/-- The exact value is the last result. -/
theorem operate_mem_operateSteps {name : String} {values : List Int}
    (h : isArithmeticOperator name values.length = true) :
    operate name values ∈ operateSteps name values := by
  have htail : values ≠ [] → values ∈ values.inits.tail := by
    intro hne
    obtain ⟨fronts, hfronts⟩ : ∃ fronts, values.inits = [] :: fronts := by
      cases values <;> exact ⟨_, rfl⟩
    have hmem : values ∈ values.inits := (List.mem_inits _ _).2 (List.prefix_refl _)
    rw [hfronts] at hmem ⊢
    exact (List.mem_cons.1 hmem).resolve_left hne
  have hne : values ≠ [] := by
    rintro rfl
    simp [isArithmeticOperator] at h
  unfold operateSteps
  split
  · exact List.mem_map_of_mem (htail hne)
  · exact List.mem_map_of_mem (htail hne)
  · exact List.mem_singleton_self _

namespace Expr

theorem checked_eq_some_iff {n v : Int} : checked n = some v ↔ fitsInt64 n = true ∧ v = n := by
  rw [checked, Option.ite_none_right_eq_some, Option.some_inj, eq_comm (a := v)]

/-- Steps that are checked one by one. -/
theorem foldlM_checked (op : Int → Int → Int) (values : List Int) (acc v : Int) :
    values.foldlM (fun acc w => checked (op acc w)) acc = some v ↔
    (∀ front ∈ values.inits.tail, fitsInt64 (front.foldl op acc) = true) ∧
      v = values.foldl op acc := by
  induction values generalizing acc with
  | nil =>
    exact ⟨fun h => ⟨List.forall_mem_nil _, (Option.some.inj h).symm⟩, fun h => by rw [h.2]; rfl⟩
  | cons w rest ih =>
    have hfronts : (∀ front ∈ (w :: rest).inits.tail, fitsInt64 (front.foldl op acc) = true) ↔
        fitsInt64 (op acc w) = true ∧
          ∀ front ∈ rest.inits.tail, fitsInt64 (front.foldl op (op acc w)) = true := by
      obtain ⟨fronts, hfronts⟩ : ∃ fronts, rest.inits = [] :: fronts := by
        cases rest <;> exact ⟨_, rfl⟩
      rw [List.inits_cons, List.tail_cons, hfronts, List.map_cons, List.forall_mem_cons,
        List.forall_mem_map]
      rfl
    rw [List.foldlM_cons, Option.bind_eq_bind, Option.bind_eq_some_iff, hfronts, List.foldl_cons,
      and_assoc]
    constructor
    · rintro ⟨next, hnext, h⟩
      obtain ⟨hfits, rfl⟩ := checked_eq_some_iff.1 hnext
      exact ⟨hfits, (ih _).1 h⟩
    · rintro ⟨hfits, h⟩
      exact ⟨_, checked_eq_some_iff.2 ⟨hfits, rfl⟩, (ih _).2 h⟩

/-- **The value of an operator** on values is the exact one, unless a step leaves the range. -/
theorem applyOperator?_eq_some_iff {name : String} {values : List Int} {v : Int} :
    applyOperator? name values = some v ↔ isArithmeticOperator name values.length = true ∧
      (∀ n ∈ operateSteps name values, fitsInt64 n = true) ∧ v = operate name values := by
  by_cases hadd : name = "+"
  · subst hadd
    cases values with
    | nil => exact iff_of_false (by simp [applyOperator?]) (by simp [isArithmeticOperator])
    | cons w rest =>
      simp only [applyOperator?, operateSteps, operate, foldlM_checked, List.forall_mem_map,
        List.sum_eq_foldl]
      exact ⟨fun h => ⟨rfl, h⟩, fun h => h.2⟩
  by_cases hmul : name = "*"
  · subst hmul
    cases values with
    | nil => exact iff_of_false (by simp [applyOperator?]) (by simp [isArithmeticOperator])
    | cons w rest =>
      simp only [applyOperator?, operateSteps, operate, foldlM_checked, List.forall_mem_map,
        List.prod_eq_foldl]
      exact ⟨fun h => ⟨rfl, h⟩, fun h => h.2⟩
  by_cases hsub : name = "-"
  · subst hsub
    match values with
    | [] => exact iff_of_false (by simp [applyOperator?]) (by simp [isArithmeticOperator])
    | [w] =>
      simp only [applyOperator?, operateSteps, operate, checked_eq_some_iff,
        List.forall_mem_singleton]
      exact ⟨fun h => ⟨rfl, h⟩, fun h => h.2⟩
    | [w, u] =>
      simp only [applyOperator?, operateSteps, operate, checked_eq_some_iff,
        List.forall_mem_singleton]
      exact ⟨fun h => ⟨rfl, h⟩, fun h => h.2⟩
    | _ :: _ :: _ :: _ =>
      exact iff_of_false (by simp [applyOperator?]) (by simp [isArithmeticOperator])
  · have hnone : applyOperator? name values = none := by
      unfold applyOperator?
      split <;> first | rfl | contradiction
    have hname : isArithmeticOperator name values.length = false := by
      simp [isArithmeticOperator, hadd, hmul, hsub]
    exact iff_of_false (by simp [hnone]) (by simp [hname])

/-! ### Terms -/

mutual

/-- The literals of a term. -/
def literals : Expr → List Literal
  | .metavar _ | .var _ => []
  | .literal value => [value]
  | .compound inner => inner.literals
  | .optional pattern default => pattern.literals ++ default.literals
  | .app _ operands | .anyway _ operands => literalsAll operands

def literalsAll : List Expr → List Literal
  | [] => []
  | e :: rest => e.literals ++ literalsAll rest

end

mutual

/-- The term is made of literals, wrappers and arithmetic operators. -/
def isArithmetic (l : Language) : Expr → Bool
  | .literal _ => true
  | .compound inner => inner.isArithmetic l
  | .app symbol operands =>
    isArithmeticOperator (l.name symbol) operands.length && allArithmetic l operands
  | _ => false

def allArithmetic (l : Language) : List Expr → Bool
  | [] => true
  | e :: rest => e.isArithmetic l && allArithmetic l rest

end

mutual

/-- The exact value of an arithmetic term. -/
def exact (l : Language) : Expr → Int
  | .literal value => value.value
  | .compound inner => inner.exact l
  | .app symbol operands => operate (l.name symbol) (exactAll l operands)
  | _ => 0

def exactAll (l : Language) : List Expr → List Int
  | [] => []
  | e :: rest => e.exact l :: exactAll l rest

end

mutual

/-- The values of the literals of an arithmetic term and the exact results of all its steps. -/
def results (l : Language) : Expr → List Int
  | .literal value => [value.value]
  | .compound inner => inner.results l
  | .app symbol operands =>
    resultsAll l operands ++ operateSteps (l.name symbol) (exactAll l operands)
  | _ => []

def resultsAll (l : Language) : List Expr → List Int
  | [] => []
  | e :: rest => e.results l ++ resultsAll l rest

end

variable {l : Language}

@[simp] theorem length_exactAll (l : Language) (es : List Expr) :
    (exactAll l es).length = es.length := by
  induction es with
  | nil => rfl
  | cons e rest ih => rw [exactAll, List.length_cons, List.length_cons, ih]

theorem value?_iff_all (l : Language) :
    (∀ e : Expr, (∀ value ∈ e.literals, value.Fits) →
      ∀ v, e.value? l = some v ↔
        e.isArithmetic l = true ∧ (∀ n ∈ e.results l, fitsInt64 n = true) ∧ v = e.exact l) ∧
    ∀ es : List Expr, (∀ value ∈ literalsAll es, value.Fits) →
      ∀ vs, values? l es = some vs ↔
        allArithmetic l es = true ∧ (∀ n ∈ resultsAll l es, fitsInt64 n = true) ∧
          vs = exactAll l es := by
  have hnone : ∀ {P Q : Prop} (v : Int), (none = some v) ↔ (false = true) ∧ P ∧ Q :=
    fun v => by simp
  apply Expr.induct
  case metavar => exact fun id _ v => hnone v
  case var => exact fun name _ v => hnone v
  case optional => exact fun pattern default _ _ _ v => hnone v
  case anyway => exact fun group operands _ _ v => hnone v
  case literal =>
    intro value hfits v
    rw [value?, Literal.int64?_eq_some_iff (hfits value (List.mem_singleton_self value))]
    simp [isArithmetic, results, exact]
  case compound =>
    intro inner ih hfits v
    exact ih hfits v
  case app =>
    intro symbol operands ih hfits v
    have hvalue : (Expr.app symbol operands).value? l =
        (values? l operands).bind (applyOperator? (l.name symbol)) := by
      rw [value?]
      cases values? l operands <;> rfl
    rw [hvalue, Option.bind_eq_some_iff]
    simp only [ih hfits, applyOperator?_eq_some_iff, isArithmetic, results, exact, Bool.and_eq_true,
      List.forall_mem_append]
    constructor
    · rintro ⟨vs, ⟨hall, hresults, rfl⟩, hname, hsteps, hv⟩
      rw [length_exactAll] at hname
      exact ⟨⟨hname, hall⟩, ⟨hresults, hsteps⟩, hv⟩
    · rintro ⟨⟨hname, hall⟩, ⟨hresults, hsteps⟩, hv⟩
      exact ⟨_, ⟨hall, hresults, rfl⟩, by rwa [length_exactAll], hsteps, hv⟩
  case nil =>
    intro _ vs
    exact ⟨fun h => ⟨rfl, List.forall_mem_nil _, (Option.some.inj h).symm⟩,
      fun h => by rw [h.2.2]; rfl⟩
  case cons =>
    intro e rest he hrest hfits vs
    obtain ⟨hfirst, hothers⟩ := List.forall_mem_append.1 hfits
    have hvalues : values? l (e :: rest) =
        (e.value? l).bind fun v => (values? l rest).map (v :: ·) := by
      rw [values?]
      cases e.value? l <;> cases values? l rest <;> rfl
    rw [hvalues, Option.bind_eq_some_iff]
    simp only [Option.map_eq_some_iff, he hfirst, hrest hothers, allArithmetic, resultsAll,
      exactAll, Bool.and_eq_true, List.forall_mem_append]
    constructor
    · rintro ⟨v, ⟨h1, h2, rfl⟩, others, ⟨h3, h4, rfl⟩, rfl⟩
      exact ⟨⟨h1, h3⟩, ⟨h2, h4⟩, rfl⟩
    · rintro ⟨⟨h1, h3⟩, ⟨h2, h4⟩, rfl⟩
      exact ⟨_, ⟨h1, h2, rfl⟩, _, ⟨h3, h4, rfl⟩, rfl⟩

theorem exact_mem_results {symbol : SymbolId} {operands : List Expr}
    (h : isArithmetic l (.app symbol operands) = true) :
    exact l (.app symbol operands) ∈ results l (.app symbol operands) := by
  rw [isArithmetic, Bool.and_eq_true, ← length_exactAll l operands] at h
  exact List.mem_append_right _ (operate_mem_operateSteps h.1)

/-- **The value of a term.** -/
theorem value?_eq_some_iff {e : Expr} (hfits : ∀ value ∈ e.literals, value.Fits) {v : Int} :
    e.value? l = some v ↔
    e.isArithmetic l = true ∧ (∀ n ∈ e.results l, fitsInt64 n = true) ∧ v = e.exact l :=
  (value?_iff_all l).1 e hfits v

/-- A term with a value is constant. -/
theorem isConstant_of_value?_all (l : Language) :
    (∀ (e : Expr) (v : Int), e.value? l = some v → e.isConstant = true) ∧
    ∀ (es : List Expr) (vs : List Int), values? l es = some vs →
      allConstant es = true ∧ es.length = vs.length := by
  apply Expr.induct
  case metavar | var | optional | anyway => intros; rename_i h; cases h
  case literal => exact fun _ _ _ => rfl
  case compound => exact fun inner ih => ih
  case app =>
    intro symbol operands ih v h
    rw [value?] at h
    cases hvalues : values? l operands with
    | none => rw [hvalues] at h; cases h
    | some values =>
      rw [hvalues] at h
      obtain ⟨hall, hlength⟩ := ih values hvalues
      have hname := (applyOperator?_eq_some_iff.1 h).1
      -- no operator has a value without operands
      rw [isConstant, hall, Bool.and_true, Bool.not_eq_true', List.isEmpty_eq_false_iff]
      rintro rfl
      rw [← hlength] at hname
      simp [isArithmeticOperator] at hname
  case nil =>
    intro vs h
    cases h
    exact ⟨rfl, rfl⟩
  case cons =>
    intro e rest he hrest vs h
    rw [values?] at h
    split at h
    · rename_i v others hv hothers
      cases h
      obtain ⟨hall, hlength⟩ := hrest others hothers
      rw [allConstant, he v hv, hall, List.length_cons, List.length_cons, hlength]
      exact ⟨rfl, rfl⟩
    · cases h

/-- All literals and steps are in range, so that the term is written as its value. -/
def isFoldable (l : Language) (e : Expr) : Bool := e.isArithmetic l && (e.results l).all fitsInt64

mutual

/-- The term with its largest foldable applications replaced by their exact values. -/
def folding (l : Language) : Expr → Expr
  | .compound inner => .compound (inner.folding l)
  | .app symbol operands =>
    if isFoldable l (.app symbol operands) then .literal (.int (exact l (.app symbol operands)))
    else .app symbol (foldingAll l operands)
  | .anyway group operands => .anyway group (foldingAll l operands)
  | e => e

def foldingAll (l : Language) : List Expr → List Expr
  | [] => []
  | e :: rest => e.folding l :: foldingAll l rest

end

theorem value?_eq {e : Expr} (hfits : ∀ value ∈ e.literals, value.Fits) :
    e.value? l = if e.isFoldable l then some (e.exact l) else none := by
  refine Option.ext fun v => ?_
  rw [value?_eq_some_iff hfits, Option.ite_none_right_eq_some, isFoldable, Bool.and_eq_true,
    List.all_eq_true, Option.some_inj, and_assoc, eq_comm (a := v)]

end Expr

/-! ### What is written -/

namespace Scope

/-- The same scope without folding. -/
def unfolding (s : Scope) : Scope := { s with foldConstants := false }

variable {s : Scope}

theorem folded?_eq (hs : s.foldConstants = true) (e : Expr) :
    s.folded? e = e.value? s.language := by
  rw [folded?, hs, Bool.true_and]
  split_ifs with h
  · rfl
  · cases hv : e.value? s.language with
    | none => rfl
    | some v => exact absurd ((Expr.isConstant_of_value?_all s.language).1 e v hv) h

theorem write_folding_all (hs : s.foldConstants = true) :
    (∀ e : Expr, (∀ value ∈ e.literals, value.Fits) →
      s.write e = s.unfolding.write (e.folding s.language)) ∧
    ∀ es : List Expr, (∀ value ∈ Expr.literalsAll es, value.Fits) →
      s.writeAll es = s.unfolding.writeAll (Expr.foldingAll s.language es) := by
  apply Expr.induct
  case metavar | var | literal | optional => intros; rfl
  case compound => exact fun inner ih => ih
  case anyway =>
    intro group operands ih hfits
    rw [Expr.folding, write, write, ih hfits]
    rfl
  case app =>
    intro symbol operands ih hfits
    rw [Expr.folding, write, folded?_eq hs, Expr.value?_eq hfits]
    split_ifs with hfoldable
    · rfl
    · rw [write, ih hfits]
      rfl
  case nil => exact fun _ => rfl
  case cons =>
    intro e rest he hrest hfits
    obtain ⟨hfirst, hothers⟩ := List.forall_mem_append.1 hfits
    rw [Expr.foldingAll, writeAll, writeAll, he hfirst, hrest hothers]

end Scope

/-- **Folding is exact.** A term has a value if and only if it is arithmetic and no literal and no
step leaves 64 bits, and this is its exact value. With folding a term is written as the term with
its largest such applications replaced is written without, and what is written for such an
application is the double nearest to its exact value. -/
theorem folding_is_exact (l : Language) (e : Expr) (hfits : ∀ value ∈ e.literals, value.Fits) :
    (∀ v, e.value? l = some v ↔
      e.isArithmetic l = true ∧ (∀ n ∈ e.results l, fitsInt64 n = true) ∧ v = e.exact l) ∧
    ∀ s : Scope, s.language = l → s.foldConstants = true →
      (∀ used, s.write e used = s.unfolding.write (e.folding l) used) ∧
        ∀ symbol operands, e = .app symbol operands → e.isFoldable l = true →
          ∃ d, (∀ used, s.write e used = .ok (.newValue d) used) ∧
            Decimal.IsNearest (e.exact l) d := by
  refine ⟨fun v => Expr.value?_eq_some_iff hfits, ?_⟩
  rintro s rfl hs
  have hwrite := (Scope.write_folding_all hs).1 e hfits
  refine ⟨fun used => by rw [hwrite], ?_⟩
  rintro symbol operands rfl hfoldable
  refine ⟨_, fun used => ?_, Decimal.nearestInt_isNearest ?_⟩
  · rw [hwrite, Expr.folding, if_pos hfoldable]
    rfl
  · rw [Expr.isFoldable, Bool.and_eq_true, List.all_eq_true] at hfoldable
    have hrange := hfoldable.2 _ (Expr.exact_mem_results hfoldable.1)
    rw [fitsInt64, Bool.and_eq_true, decide_eq_true_eq, decide_eq_true_eq] at hrange
    exact abs_lt.2 ⟨by omega, by omega⟩

/-- In `(- (+ 9223372036854775807 1) (* 2 3))` the sum leaves the range, so that the product is
folded alone. -/
theorem folding_is_exact_overflow :
    let e : Expr :=
      .app 1 [.app 0 [.literal (.int 9223372036854775807), .literal (.int 1)],
        .app 2 [.literal (.int 2), .literal (.int 3)]]
    (∀ value ∈ e.literals, value.Fits) ∧ e.value? .arithmetic = none ∧
      ∀ s : Scope, s.language = .arithmetic → s.foldConstants = true → ∀ used, s.write e used =
        s.unfolding.write
          (.app 1 [.app 0 [.literal (.int 9223372036854775807), .literal (.int 1)],
            .literal (.int 6)]) used := by
  intro e
  have hfits : ∀ value ∈ e.literals, value.Fits := by decide
  have hfolding : e.folding .arithmetic =
      .app 1
        [.app 0 [.literal (.int 9223372036854775807), .literal (.int 1)], .literal (.int 6)] := by
    decide +kernel
  obtain ⟨hvalue, hwrite⟩ := folding_is_exact .arithmetic e hfits
  refine ⟨hfits, Option.eq_none_iff_forall_ne_some.2 fun v hv => ?_, fun s hl hs used => ?_⟩
  · have hrange := ((hvalue v).1 hv).2.1 9223372036854775808 (by decide +kernel)
    cases hrange
  · rw [(hwrite s hl hs).1 used, hfolding]

end Rulewright
