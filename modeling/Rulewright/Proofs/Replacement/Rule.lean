import Rulewright.Proofs.Replacement.Root
import Rulewright.Proofs.Scope.Bound

/-!
# What a rule replaces

Where the code of a rule returns `true`, the line that replaces the matched term builds the instance
of the right side of the rule, its metavariables and groups standing for what the run has bound.

* `bound_of_assigned`: the metavariables and groups of the pattern are bound then, if no operand is
  missing.
* `compile_instantiates`: the replacement builds the instance of the right side, and uses each
  matched term once.
-/

namespace Rulewright

open Matcher Stmt Bindings

variable {l : Language} {r : Rule}

/-! ### Replacements -/

/-- The metavariables and groups in the scope of a rule stand for what is bound at their first
trails. -/
theorem stands_ruleScope (foldConstants : Bool) (b : Bindings) :
    (ruleScope l foldConstants r r.pattern.groupTrails).Stands b (r.pattern.valuation l b) where
  term id t ht := by
    rw [ruleScope, Expr.firstTrail?_metaTrails] at ht
    simp only [Expr.valuation, ht, Option.bind_some, ruleScope]
  operator group t ht := by
    rw [ruleScope, Expr.firstTrail?_groupTrails] at ht
    simp only [Expr.valuation, ht, Option.bind_some, ruleScope]

/-- A run that returns `true` without missing operands binds the metavariables and groups of the
pattern. -/
theorem bound_of_assigned {o : CompileOptions} {c c' : Code} {head : NodeId}
    (hc : r.compile o l c = (.ok head, c')) {k : Option (Chain Unit)} {groups : Groups}
    (hk : patternChain (matcherOptions o) l r.pattern Trail.root Table.empty = some (k, groups))
    {free : String → Bool} {e : Expr}
    (hrange : ∀ d ∈ c'.assigned l free head e, d.IsInRange) {b : Bindings}
    (hb : passed? l free k (ofTerm e) = some b) :
    (∀ id t, r.pattern.metaTrails.firstTrail? id = some t → b.IsBound t) ∧
      ∀ group t, groups.firstTrail? group = some t → b.IsBound t := by
  obtain ⟨ts, hcode, hrecorded⟩ :=
    compile_records (congrArg Prod.fst hc) Assignment.recorder free e
  obtain ⟨k', groups', action, hk', -, hnotes⟩ :=
    recordedAll_ruleCode hcode Assignment.recorder free ⟨[], ofTerm e⟩
  obtain ⟨rfl, rfl⟩ := Prod.mk.inj (Option.some.inj (hk.symm.trans hk'))
  rw [hc, hnotes] at hrecorded
  refine bound_of_inRange hk (fun k' hk' d hd => hrange d ?_) hb
  subst hk'
  rw [Code.assigned, hrecorded]
  exact List.mem_append_left _ hd

/-- **A compiled rule replaces by its instance.** The line of a rule that replaces the matched term
uses the matched term of each metavariable once as it is, at the first use, and copies it otherwise.
With `formula` as the name of the matched term it comes out as it is spelled exactly if no name in
it has the mark of the matched term in it. Where the code of the rule returns `true`, the line
builds the instance of the right side of the rule, and it builds nothing else if no two operators
share a constructor. There is an instance exactly if the temporaries are bound that the line uses.
They are bound if no definition on the way has read a missing operand, and in any case if operators
are used with the counts they take. -/
theorem compile_instantiates {o : CompileOptions} (ho : o.foldConstants = false) {c c' : Code}
    {head : NodeId} (hc : r.compile o l c = (.ok head, c')) :
    ∃ k : Construction,
      (∃ id ∈ c'.descendants head, c'.kind id = .custom (k.lineFrom Trail.rootMark)) ∧
      (∀ id ∈ (r.replacement.metaOccurrences Trail.root).map Prod.fst,
        ∃ t, (r.pattern.metaOccurrences Trail.root).lookup id = some t ∧ k.UsesOnce t) ∧
      (withRoot (k.lineFrom Trail.rootMark) "formula" = k.lineFrom "formula" ↔
        ∀ name ∈ r.replacement.names l, ¬ IsMarked name) ∧
      ∀ free e, (c'.run l free head e).changed = true →
        let x := c'.run l free head e
        let v := r.pattern.valuation l x.bindings
        x.fired = (if r.hasModifyingCondition then []
          else [withRoot (k.lineFrom Trail.rootMark) "formula"]) ∧
        (∀ y, r.replacement.instantiate? l v = some y → k.Builds l x.bindings y) ∧
        (l.IsUnambiguous →
          ∀ y, k.Builds l x.bindings y → r.replacement.instantiate? l v = some y) ∧
        ((∃ y, r.replacement.instantiate? l v = some y) ↔
          ∀ t ∈ k.trails, x.bindings.IsBound t) ∧
        ((∀ d ∈ c'.assigned l free head e, d.IsInRange) →
          ∃ y, r.replacement.instantiate? l v = some y) ∧
        ∀ count, r.pattern.IsRead l → r.pattern.UsesCounts l count → e.IsTerm l count →
          r.IsCalled o l e → ∃ y, r.replacement.instantiate? l v = some y := by
  obtain ⟨chain, groups, replacement, hchain, hreplacement, hline, hruns⟩ := compile_applies hc
  obtain ⟨k, used, hk, rfl⟩ := Scope.exists_of_code hreplacement
  have hgroups : groups = r.pattern.groupTrails := groups_patternChain.1 _ _ _ _ _ hchain
  subst hgroups
  have hfold : (ruleScope l o.foldConstants r r.pattern.groupTrails).foldConstants = false := ho
  have hspelled : Trail.rootMark ++ ".replace(" ++ k.text ++ ");" = k.lineFrom Trail.rootMark :=
    k.replaceLine_eq_lineFrom
  refine ⟨k, hspelled ▸ hline, fun id hid => ?_, ?_, fun free e hchanged => ?_⟩
  · rw [← Expr.firstTrail?_metaTrails]
    exact Scope.write_once hfold (fun _ _ _ => Expr.eq_of_firstTrail?) hk hid
  · have hnames : k.names = r.replacement.names l := Scope.names_write hfold hk
    rw [← hnames]
    exact k.withRoot_lineFrom_iff
  · obtain ⟨hpassed, hfired⟩ := hruns free e hchanged
    have hstands :=
      stands_ruleScope (l := l) (r := r) o.foldConstants (c'.run l free head e).bindings
    obtain ⟨hbuilds, hunique⟩ := Scope.write_builds hfold hstands hk
    rw [firing, hspelled] at hfired
    refine ⟨hfired, hbuilds, hunique, Scope.exists_instance_iff hfold hstands hk, fun hrange => ?_,
      fun count hread hcounts hterm hcalled => ?_⟩
    · obtain ⟨hmetas, hheads⟩ := bound_of_assigned hc hchain hrange hpassed
      exact Scope.exists_instance hfold hstands ⟨hmetas, hheads⟩ hk
    · obtain ⟨chain', hchain', hsame⟩ := passed?_checked hc hchain hcalled free
      obtain ⟨hmetas, hheads⟩ :=
        bound_of_passed rfl hchain' hread hcounts hterm (hsame.trans hpassed)
      exact Scope.exists_instance hfold hstands ⟨hmetas, hheads⟩ hk

/-- The rule `(+ (~ 1 $0 $1) (~ 1 $0 (- (? $2 0) $1))) ==> (~ 1 (# (+ $2 2)) (+ $0 $0))`. -/
def regrouping : Rule :=
  { cancelling with
    replacement := .anyway 1 [.compound (.app 0 [.metavar 2, .literal (.int 2)]),
      .app 0 [.metavar 0, .metavar 0]] }

/-- The open operator is that of the first product, the missing operand is its default, and `x` is
used twice. -/
theorem regrouping_instantiates :
    ∃ c k, regrouping.compile ⟨false, false, true⟩ .arithmetic Code.empty = (.ok 0, c) ∧
      (c.run .arithmetic (fun _ => false) 0 opposites).fired =
        ["formula.replace(p.term_factory(formula_0.op(), vec![_add(formula_1_1_0, _val(2.0)), " ++
          "_add(formula_0_0, formula_0_0.deep_copy())]));"] ∧
      (c.run .arithmetic (fun _ => false) 0 opposites).fired = [Construction.lineFrom "formula" k] ∧
      k.Builds .arithmetic (c.run .arithmetic (fun _ => false) 0 opposites).bindings
        (.node (some "*")
          [.node (some "+") [.value (Literal.int 0).double, .value (Literal.int 2).double],
            .node (some "+") [.var "x", .var "x"]]) ∧
      k.UsesOnce [0, 0] := by
  have hhead : (regrouping.compile ⟨false, false, true⟩ .arithmetic Code.empty).1 = .ok 0 := by
    decide +kernel
  have hrun : ((regrouping.compile ⟨false, false, true⟩ .arithmetic Code.empty).2.run .arithmetic
        (fun _ => false) 0 opposites).changed = true ∧
      ((regrouping.compile ⟨false, false, true⟩ .arithmetic Code.empty).2.run .arithmetic
        (fun _ => false) 0 opposites).fired =
        ["formula.replace(p.term_factory(formula_0.op(), vec![_add(formula_1_1_0, _val(2.0)), " ++
          "_add(formula_0_0, formula_0_0.deep_copy())]));"] := by
    decide +kernel
  have hbound : [[0], [0, 0], [1, 1, 0]].map (Table.get?
      ((regrouping.compile ⟨false, false, true⟩ .arithmetic Code.empty).2.run .arithmetic
        (fun _ => false) 0 opposites).bindings) =
      [some (.app 2 [.var "x", .var "y"]), some (.var "x"), some (.literal (.int 0))] := by
    decide +kernel
  generalize hc : regrouping.compile ⟨false, false, true⟩ .arithmetic Code.empty = result
    at hhead hrun hbound
  obtain ⟨head, c⟩ := result
  cases hhead
  obtain ⟨k, -, honce, hspelled, hinstance⟩ := compile_instantiates rfl hc
  obtain ⟨hfired, hbuilds, -⟩ := hinstance _ _ hrun.1
  have hnames : regrouping.replacement.names .arithmetic = ["_add", "_add"] := by decide +kernel
  have hunmarked : ∀ name ∈ regrouping.replacement.names .arithmetic, ¬ IsMarked name := by
    rw [hnames]
    decide
  obtain ⟨t, ht, huses⟩ := honce 0 (by decide)
  obtain rfl : [0, 0] = t := Option.some.inj (show some [0, 0] = _ from ht)
  refine ⟨c, k, rfl, hrun.2, ?_, hbuilds _ ?_, huses⟩
  · rw [← hspelled.2 hunmarked]
    exact hfired
  obtain ⟨hproduct, hx, hzero⟩ : _ ∧ _ ∧ _ := by
    simpa only [List.map_cons, List.map_nil, List.cons.injEq, and_true] using hbound
  set v := regrouping.pattern.valuation .arithmetic
    (c.run .arithmetic (fun _ => false) 0 opposites).bindings
  have hoperator : v.operator 1 = some (some (Language.arithmetic.name 2)) :=
    congrArg (Option.map (Expr.operator? .arithmetic)) hproduct
  have hfirst : v.term 0 = some (.var "x") := congrArg (Option.map (Expr.runtime .arithmetic)) hx
  have hdefault : v.term 2 = some (.value (Literal.int 0).double) :=
    congrArg (Option.map (Expr.runtime .arithmetic)) hzero
  simp only [regrouping, Expr.instantiate?, Expr.instantiateAll?, hoperator, hfirst, hdefault,
    Option.bind_some, Option.map_some]
  rfl

/-- The rule `(sin $0) ==> @formula_1`, with a variable that is named like a temporary. -/
def disguised : Rule := ⟨.app 4 [.metavar 0], .var "@formula_1", [], .noCheck, 0, false⟩

/-- Two lines that do not build the instance. On `(sin x)` the rule `(sin $0 $1) ==> $1` replaces by
a temporary that is not bound, and the rule `(sin $0) ==> @formula_1` replaces by another variable.
-/
theorem replacements_without_instance :
    ((RuleDefinition.mk "(sin $0 $1)" "$1" [] .noCheck 0 false).toRule .arithmetic =
        .ok overreaching ∧
      ∃ c, overreaching.compile ⟨false, false, true⟩ .arithmetic Code.empty = (.ok 0, c) ∧
        let x := c.run .arithmetic (fun _ => false) 0 (.app 4 [.var "x"])
        x.changed = true ∧ x.fired = ["formula.replace(formula_1);"] ∧
        overreaching.replacement.instantiate? .arithmetic
          (overreaching.pattern.valuation .arithmetic x.bindings) = none ∧
        ∀ (k : Construction) (y : RuntimeTerm),
          k.lineFrom "formula" = "formula.replace(formula_1);" →
          ¬ k.Builds .arithmetic x.bindings y) ∧
    (RuleDefinition.mk "(sin $0)" "@formula_1" [] .noCheck 0 false).toRule .arithmetic =
        .ok disguised ∧
      ∃ c, disguised.compile ⟨false, false, true⟩ .arithmetic Code.empty = (.ok 0, c) ∧
        let x := c.run .arithmetic (fun _ => false) 0 (.app 4 [.var "x"])
        x.changed = true ∧ x.fired = ["formula.replace(_var(\"formula_1\"));"] ∧
        disguised.replacement.instantiate? .arithmetic
          (disguised.pattern.valuation .arithmetic x.bindings) = some (.var "@formula_1") ∧
        ∀ k : Construction, k.lineFrom "formula" = "formula.replace(_var(\"formula_1\"));" →
          ¬ k.Builds .arithmetic x.bindings (.var "@formula_1") := by
  obtain ⟨c, hc, hchanged, hfired, hunbound⟩ : ∃ c,
      overreaching.compile ⟨false, false, true⟩ .arithmetic Code.empty = (.ok 0, c) ∧
        (c.run .arithmetic (fun _ => false) 0 (.app 4 [.var "x"])).changed = true ∧
        (c.run .arithmetic (fun _ => false) 0 (.app 4 [.var "x"])).fired =
          ["formula.replace(formula_1);"] ∧
        (c.run .arithmetic (fun _ => false) 0 (.app 4 [.var "x"])).bindings.get? [1] = none := by
    have hhead : (overreaching.compile ⟨false, false, true⟩ .arithmetic Code.empty).1 = .ok 0 := by
      decide +kernel
    exact ⟨_, Prod.ext hhead rfl, by decide +kernel⟩
  obtain ⟨c', hc', hchanged', hfired'⟩ : ∃ c,
      disguised.compile ⟨false, false, true⟩ .arithmetic Code.empty = (.ok 0, c) ∧
        (c.run .arithmetic (fun _ => false) 0 (.app 4 [.var "x"])).changed = true ∧
        (c.run .arithmetic (fun _ => false) 0 (.app 4 [.var "x"])).fired =
          ["formula.replace(_var(\"formula_1\"));"] := by
    have hhead : (disguised.compile ⟨false, false, true⟩ .arithmetic Code.empty).1 = .ok 0 := by
      decide +kernel
    exact ⟨_, Prod.ext hhead rfl, by decide +kernel⟩
  refine ⟨⟨by decide +kernel, c, hc, hchanged, hfired, ?_, fun k y hline hbuilds => ?_⟩,
    by decide +kernel, c', hc', hchanged', hfired', rfl, fun k hline hbuilds => ?_⟩
  · exact congrArg (Option.map (Expr.runtime .arithmetic)) hunbound
  · -- the line is that of the temporary
    have hspelled : "formula.replace(formula_1);" = "formula" ++ ".replace(" ++ "formula_1" ++
        ");" := by
      decide
    have htext := Construction.textFrom_of_lineFrom (hline.trans hspelled)
    have hlast : (k.textFrom "formula").toList.getLast? ≠ some ')' := by
      rw [htext]
      decide
    obtain ⟨t, rfl⟩ := Construction.exists_of_textFrom hlast
    have hchars : t.chars ++ [] = Trail.chars [1] ++ [] := by
      have hlist : "formula".toList ++ t.text.toList ++ [] = "formula_1".toList := by
        rw [← htext, Construction.textFrom_matched, String.toList_append, String.toList_append]
        rfl
      rw [Trail.toList_text, List.append_assoc] at hlist
      exact List.append_cancel_left hlist
    obtain ⟨rfl, -⟩ := Trail.chars_append_inj (stops_nil _) (stops_nil _) hchars
    obtain ⟨e, he, -⟩ := Option.map_eq_some_iff.1 hbuilds
    exact absurd (hunbound.symm.trans he) (by simp)
  · have hspelled : "formula.replace(_var(\"formula_1\"));" =
        "formula" ++ ".replace(" ++ "_var(\"formula_1\")" ++ ");" := by
      decide
    have htext := Construction.textFrom_of_lineFrom (hline.trans hspelled)
    cases k with
    | matched t copied =>
      rw [Construction.textFrom_matched, String.append_assoc] at htext
      have hfirst := congrArg (fun x => x.toList.head?) htext
      simp at hfirst
    | newVariable name =>
      obtain rfl : "@formula_1" = name := RuntimeTerm.var.inj hbuilds
      exact absurd htext (by decide +kernel)
    | newValue double => cases hbuilds
    | call constructor operands =>
      obtain ⟨_, _, -, -, hnode⟩ := hbuilds
      cases hnode
    | sameOperator t operands =>
      obtain ⟨_, _, -, -, hnode⟩ := hbuilds
      cases hnode

end Rulewright
