import Rulewright.Proofs.Fusion.Route

/-!
# How fused rules come to be applied

Where rules have optional operands, the terms bound at a trail depend on the moment, and an equal
guard may have been asked of another term than the rule means. So fused rules can be applied to
terms that they do not match. What can be said of all rules is that every check of the rule that is
applied has held, at some moment of the run and in the right order, and that the first rule is
applied only where it applies alone.

* `report_first`: runs that return at a line of the first tree are runs of the first tree.
* `Rule.asked?`, `Rule.asked_iff`: what a rule asks alone.
* `merged_checked`: what has held if fused rules are applied.
-/

namespace Rulewright

theorem sublistForall₂_through {α β : Type} {R : α → α → Prop} {S : α → β → Prop}
    (hRS : ∀ {x y m}, R x y → S y m → S x m) {xs ys zs : List α} {ms : List β}
    (h : List.SublistForall₂ R xs ys) (hs : List.Forall₂ S (ys ++ zs) ms) :
    List.SublistForall₂ S (xs ++ zs) ms := by
  induction h generalizing ms with
  | @nil ys =>
    induction ys generalizing ms with
    | nil => exact List.sublistForall₂_iff.2 ⟨ms, hs, List.Sublist.refl ms⟩
    | cons y ys ih =>
      cases hs with
      | cons _ hs => exact .cons_right (ih hs)
  | cons hr _ ih =>
    cases hs with
    | cons hy hs => exact .cons (hRS hr hy) (ih hs)
  | cons_right _ ih =>
    cases hs with
    | cons _ hs => exact .cons_right (ih hs)

namespace Stmt

variable {l : Language} {free : String → Bool}

theorem execAll_labelled (i : Nat) (code : List (Stmt Unit)) (p : Code.Progress) :
    execAll l free (labelled i code) p = execAll l free code p :=
  (exec_map_all l free fun _ => i).2.1 code p

/-- **Runs that return at a line of the first tree** are runs of the first tree. -/
theorem report_first {first : List (Stmt Unit)} {rest : List (List (Stmt Unit))}
    (hrest : ∀ code ∈ rest, isDecisiveAll code = true) {p : Code.Progress} {s : Stmt Nat}
    (h : (report l free (fusedTree l (first :: rest)) p).line = some s) (hs : s.id = 0) :
    report l free (fusedTree l (first :: rest)) p = report l free (labelled 0 first) p := by
  induction rest using List.reverseRecOn with
  | nil => rfl
  | append_singleton rest code ih =>
    have hstep := fusedTree_concat (l := l) (List.cons_ne_nil first rest) code
    rw [List.cons_append] at hstep
    obtain ⟨hcodes, hcode⟩ := List.forall_mem_append.1 hrest
    have hdecisive : isDecisiveAll (labelled (first :: rest).length code) = true := by
      rw [labelled, (isDecisive_map_all _).2]
      exact hcode code (List.mem_singleton.2 rfl)
    rw [hstep, report_fuse l free _ hdecisive] at h ⊢
    cases hreturns : (descend l (fusedTree l (first :: rest))
        (labelled (first :: rest).length code)).returns l free (fusedTree l (first :: rest)) p with
    | none =>
      rw [hreturns, Option.getD_none] at h
      exact ih hcodes h
    | some x =>
      -- a line of the last tree has another label
      rw [hreturns, Option.getD_some] at h
      obtain ⟨q, -, hx⟩ := Option.bind_eq_some_iff.1 hreturns
      split_ifs at hx
      cases hx
      obtain ⟨path, hpath⟩ := mem_pathsAll_of_report h
      rw [Descent.kept] at hpath
      split_ifs at hpath
      · have hid := id_of_mem_left hpath
        rw [hs] at hid
        simp at hid
      · cases hpath

/-- The checks of a later tree have held where it returns `true` at one of its lines. -/
theorem held_of_added {codes : List (List (Stmt Unit))} {code : List (Stmt Unit)}
    {guards : List Guard} {line : Stmt Unit} (hleads : Leads guards line code)
    {q : List Guard × Stmt Nat} (hq : q ∈ (remains l codes code).added) (hwin : q.2.isWin = true)
    {moments : List Bindings}
    (hheld : List.Forall₂ (fun guard b => guard.holds l free b = true) q.1 moments) :
    List.SublistForall₂ (fun check b => check.holds l free b = true) guards moments := by
  obtain ⟨-, left, hleft, rfl⟩ := Descent.mem_added.1 hq
  obtain ⟨lost, hmem, hlost⟩ := pathsAll_left l _ _ hleft
  rw [labelled, (paths_map_all _).2] at hmem
  obtain ⟨x, hx, hmap⟩ := List.mem_map.1 hmem
  obtain ⟨hpath, hline⟩ := Prod.mk.inj hmap
  -- the line is one of the matcher, so its path makes up all checks
  have hchecks : lost ++ left.1 = guards := by
    rw [← hpath]
    refine hleads.returns x hx ?_
    rw [← isWin_map (fun _ => codes.length), hline]
    exact hwin
  rw [← hchecks]
  refine sublistForall₂_through (fun heq hguard => ?_) hlost hheld
  rw [← Guard.holds_eq_of_equals heq]
  exact hguard

end Stmt

open Stmt Bindings

/-! ### What a rule asks alone -/

namespace Chain

variable (l : Language) (free : String → Bool)

/-- The guards of a chain, each with what is bound when it is asked. -/
def asked : Chain Unit → Bindings → List (Guard × Bindings)
  | .hole _ _ _, _ => []
  | .under before _ guard inner _ _, b =>
    (guard, settle l free before b) :: inner.asked (settle l free before b)

/-- What is bound at the innermost point of a chain. -/
def reached : Chain Unit → Bindings → Bindings
  | .hole before _ _, b => settle l free before b
  | .under before _ _ inner _ _, b => inner.reached (settle l free before b)

theorem asked_guards (k : Chain Unit) (b : Bindings) : (k.asked l free b).map (·.1) = k.guards := by
  induction k generalizing b with
  | hole before mark after => rfl
  | under before check guard inner otherwise after ih => exact congrArg (guard :: ·) (ih _)

/-- A chain is passed if and only if its guards hold in what it binds before them. -/
theorem pass_eq_some_iff (k : Chain Unit) (b b' : Bindings) :
    k.pass l free b = some b' ↔
    (∀ q ∈ k.asked l free b, q.1.holds l free q.2 = true) ∧ k.reached l free b = b' := by
  induction k generalizing b with
  | hole before mark after => simp [pass, asked, reached]
  | under before check guard inner otherwise after ih =>
    rw [pass, asked, reached, List.forall_mem_cons]
    split_ifs with hguard
    · rw [ih]
      simp [hguard]
    · simp [hguard]

end Chain

namespace Matcher

theorem actionHolds_iff {l : Language} {free : String → Bool} {r : Rule} {texts : List String}
    {b : Bindings} :
    actionHolds l free r texts b = true ↔
    ∀ guard ∈ actionGuards r texts, guard.holds l free b = true := by
  unfold actionHolds actionGuards
  cases hpairs : r.pattern.metaTrails.equalities with
  | nil => cases texts <;> simp [Guard.holds]
  | cons pair pairs => cases texts <;> simp

end Matcher

open Matcher

/-- The checks of a rule, each with what the rule itself has bound when it makes it on a term. -/
def Rule.asked? (o : CompileOptions) (l : Language) (free : String → Bool) (r : Rule) (e : Expr) :
    Option (List (Guard × Bindings)) :=
  (patternChain (matcherOptions o) l r.pattern Trail.root Table.empty).bind fun (k, groups) =>
    match conditionCodes (ruleScope l false r groups) r with
    | .ok texts =>
      some (k.elim [] (·.asked l free (ofTerm e)) ++
        (actionGuards r texts).map fun guard =>
          (guard, k.elim (ofTerm e) (·.reached l free (ofTerm e))))
    | .error _ => none

variable {o : CompileOptions} {l : Language}

/-- **A rule returns `true` alone** if and only if all its checks hold in what it binds. -/
theorem Rule.asked_iff {r : Rule} {code : List (Stmt Unit)} (h : o.codeOf l r = some code)
    (free : String → Bool) (e : Expr) :
    ∃ parts asked, r.parts? o l = some parts ∧ r.asked? o l free e = some asked ∧
      asked.map (·.1) = parts.checks ∧
      ((execAll l free code ⟨[], ofTerm e⟩).1 = some true ↔
        ∀ q ∈ asked, q.1.holds l free q.2 = true) := by
  obtain ⟨k, groups, texts, replacement, hk, htexts, hreplacement, hexec⟩ :=
    execAll_ruleCode l free h
  refine ⟨⟨k.elim [] Chain.guards ++ actionGuards r texts, replaceStmt r replacement⟩,
    k.elim [] (·.asked l free (ofTerm e)) ++
      (actionGuards r texts).map fun guard =>
        (guard, k.elim (ofTerm e) (·.reached l free (ofTerm e))),
    ?_, ?_, ?_, ?_⟩
  · rw [Rule.parts?, hk, Option.bind_some]
    simp only [htexts, hreplacement]
  · rw [Rule.asked?, hk, Option.bind_some]
    simp only [htexts]
  · have hown : ∀ b : Bindings,
        ((actionGuards r texts).map fun guard => (guard, b)).map (·.1) = actionGuards r texts := by
      intro b
      rw [List.map_map]
      exact List.map_id _
    rw [List.map_append, hown]
    cases k with
    | none => rfl
    | some k => exact congrArg (· ++ actionGuards r texts) (k.asked_guards l free (ofTerm e))
  · -- the action is made at the innermost point of the chain
    have hpassed : (passed? l free k (ofTerm e)).any (actionHolds l free r texts) = true ↔
        (∀ q ∈ k.elim [] (·.asked l free (ofTerm e)), q.1.holds l free q.2 = true) ∧
          actionHolds l free r texts (k.elim (ofTerm e) (·.reached l free (ofTerm e))) = true := by
      cases k with
      | none => simp [passed?]
      | some k =>
        obtain hnone | ⟨b, hb⟩ := (k.pass l free (ofTerm e)).eq_none_or_eq_some
        · have hnot : ¬ ∀ q ∈ k.asked l free (ofTerm e), q.1.holds l free q.2 = true := by
            intro hall
            have hsome := (k.pass_eq_some_iff l free (ofTerm e) _).2 ⟨hall, rfl⟩
            rw [hnone] at hsome
            cases hsome
          rw [passed?, hnone, Option.any_none]
          exact ⟨fun hfalse => absurd hfalse Bool.false_ne_true, fun hand => absurd hand.1 hnot⟩
        · obtain ⟨hall, rfl⟩ := (k.pass_eq_some_iff l free (ofTerm e) b).1 hb
          rw [passed?, hb, Option.any_some]
          exact ⟨fun haction => ⟨hall, haction⟩, And.right⟩
    obtain ⟨b, hb⟩ := hexec ⟨[], ofTerm e⟩
    rw [List.forall_mem_append, List.forall_mem_map, ← actionHolds_iff, ← hpassed, hb]
    split_ifs with hany
    · simp [hany]
    · simp [hany]

/-! ### Fused rules -/

/-- How the merged code of rules returns on a term. -/
def mergedRoute (l : Language) (free : String → Bool) (codes : List (List (Stmt Unit))) (e : Expr) :
    Option (Route Nat) :=
  routeAll l free (fusedTree l codes) ⟨[], ofTerm e⟩

/-- **Fused rules that are applied have been checked.** If the merged code returns `true`, then
either the first rule does so alone and fires the same, or the run returns at a line of a later
rule, and all checks of this rule have held in their order, each in what was bound at some moment of
the run. The rule returns `true` alone if they hold in what it binds itself. -/
theorem merged_checked {first : PlannedRule} {rest : List PlannedRule}
    (hr : ∀ p ∈ first :: rest, p.rule.IsAccepted o l) :
    ∃ f codes, FusedCode.ofRules o l (first :: rest) = .ok f ∧
      (first :: rest).map (fun p => o.codeOf l p.rule) = codes.map some ∧
      f.Keeps (strip (fusedTree l codes)) ∧
      ∀ (free : String → Bool) (e : Expr), ∃ x, f.merged? l free e = some x ∧
        (x.changed = true →
          ∃ r, mergedRoute l free codes e = some r ∧ r.line.isWin = true ∧
            ((∃ y, first.rule.outcome? o l free e = some y ∧ y.changed = true ∧ y.fired = x.fired) ∨
              ∃ i p asked, rest[i]? = some p ∧ r.line.id = i + 1 ∧
                p.rule.asked? o l free e = some asked ∧
                List.SublistForall₂ (fun q b => q.1.holds l free b = true) asked r.moments ∧
                ∃ y, p.rule.outcome? o l free e = some y ∧
                  (y.changed = true ↔ ∀ q ∈ asked, q.1.holds l free q.2 = true))) := by
  obtain ⟨f, codes, hf, hcodes, hkeeps⟩ := FusedCode.keeps_ofRules (List.cons_ne_nil first rest) hr
  refine ⟨f, codes, hf, hcodes, hkeeps,
    fun free e => ⟨_, hkeeps.merged?_runs free e, fun hchanged => ?_⟩⟩
  rw [execAll_strip, Outcome.changed_ofRun] at hchanged
  obtain ⟨r, path, hroute, hmem, hret, hheld⟩ := exists_route hchanged
  have hwin := isWin_of_ret? hret
  refine ⟨r, hroute, hwin, ?_⟩
  obtain ⟨i, code, hcode, hid, hcase⟩ := mem_pathsAll_fusedTree.1 hmem
  obtain ⟨p, hp, hcodeOf⟩ := exists_of_codes hcodes hcode
  have haccepted : p.rule.IsAccepted o l := hr p (List.mem_of_getElem? hp)
  cases i with
  | zero =>
    left
    obtain rfl : first = p := Option.some.inj hp
    obtain ⟨later, rfl⟩ : ∃ later, codes = code :: later := by
      cases codes with
      | nil => cases hcode
      | cons c later => exact ⟨later, by rw [Option.some.inj hcode]⟩
    have hdecisive : ∀ c ∈ later, isDecisiveAll c = true := by
      intro c hc
      obtain ⟨j, hj⟩ := List.getElem?_of_mem (List.mem_cons_of_mem code hc)
      obtain ⟨q, -, hq⟩ := exists_of_codes hcodes hj
      exact isDecisiveAll_ruleCode hq
    have hline : (report l free (fusedTree l (code :: later)) ⟨[], ofTerm e⟩).line =
        some r.line := by
      rw [report, hroute, Option.map_some]
    have hreport := report_first hdecisive hline hid
    have hvalue := congrArg Report.value hreport
    have hfired := congrArg Report.fired hreport
    simp only [report, execAll_labelled] at hvalue hfired
    refine ⟨_, Rule.outcome?_runs haccepted hcodeOf free e,
      Outcome.changed_ofRun.2 (hvalue.symm.trans hchanged), ?_⟩
    rw [execAll_strip]
    exact hfired.symm
  | succ i =>
    right
    obtain ⟨parts, asked, hparts, hasked, hchecks, hiff⟩ := Rule.asked_iff hcodeOf free e
    obtain ⟨parts', hparts', hleads⟩ := leads_ruleCode hcodeOf
    obtain rfl : parts = parts' := Option.some.inj (hparts.symm.trans hparts')
    have hchecked := held_of_added hleads hcase hwin hheld
    rw [← hchecks, List.sublistForall₂_map_left_iff] at hchecked
    refine ⟨i, p, asked, hp, hid, hasked, hchecked, _, Rule.outcome?_runs haccepted hcodeOf free e,
      ?_⟩
    rw [Outcome.changed_ofRun]
    exact hiff

/-- The rule `(+ $0 (* (? $1 1) (sin 5))) ==> $0`. -/
def scaledProduct : PlannedRule :=
  ⟨⟨⟨"(+ $0 (* (? $1 1) (sin 5))) ==> $0",
        .app 0 [.metavar 0,
          .app 2 [.optional (.metavar 1) (.literal (.int 1)), .app 4 [.literal (.int 5)]]],
        .metavar 0, [], .noCheck, 0, false⟩,
      .operator "+" none⟩,
    0⟩

/-- The rule `(+ $0 (/ (? $1 1) (sin 0))) ==> $1`. -/
def scaledQuotient : PlannedRule :=
  ⟨⟨⟨"(+ $0 (/ (? $1 1) (sin 0))) ==> $1",
        .app 0 [.metavar 0,
          .app 3 [.optional (.metavar 1) (.literal (.int 1)), .app 4 [.literal (.int 0)]]],
        .metavar 1, [], .noCheck, 0, false⟩,
      .operator "+" none⟩,
    1⟩

/-- The term `(+ x (* 3 (sin 0)))`. -/
def tripledSine : Expr := .app 0 [.var "x", .app 2 [.literal (.int 3), .app 4 [.literal (.int 0)]]]

theorem merged?_tripledSine :
    ((FusedCode.ofRules ⟨false, false, true⟩ .arithmetic
      [scaledProduct, scaledQuotient]).toOption.bind fun f =>
      (f.merged? .arithmetic (fun _ => true) tripledSine).map fun x => (x.changed, x.fired)) =
      some (true, ["formula.replace(formula_1_0);"]) := by
  decide +kernel

theorem outcome?_tripledSine :
    ∀ p ∈ [scaledProduct, scaledQuotient],
      ((p.rule.outcome? ⟨false, false, true⟩ .arithmetic (fun _ => true) tripledSine).map fun y =>
        (y.changed, y.fired)) = some (false, []) := by
  decide +kernel

/-- The merged code replaces `(+ x (* 3 (sin 0)))` by `3`, as the second rule does with quotients,
but alone none of the rules does anything. -/
theorem product_taken_for_quotient :
    ∃ f x,
      FusedCode.ofRules ⟨false, false, true⟩ .arithmetic [scaledProduct, scaledQuotient] = .ok f ∧
      f.merged? .arithmetic (fun _ => true) tripledSine = some x ∧ x.changed = true ∧
      x.fired = ["formula.replace(formula_1_0);"] ∧
      ∀ p ∈ [scaledProduct, scaledQuotient],
        ((p.rule.outcome? ⟨false, false, true⟩ .arithmetic (fun _ => true) tripledSine).map fun y =>
          (y.changed, y.fired)) = some (false, []) := by
  obtain ⟨f, hf, hmerged⟩ := Option.bind_eq_some_iff.1 merged?_tripledSine
  obtain ⟨x, hx, hshown⟩ := Option.map_eq_some_iff.1 hmerged
  obtain ⟨hchanged, hfired⟩ := Prod.mk.inj hshown
  exact ⟨f, x, FusedCode.ofRules_of_toOption hf, hx, hchanged, hfired, outcome?_tripledSine⟩

/-- All checks of the second rule have held in the run, but not in what it binds itself. -/
theorem merged_checked_quotient :
    ∃ (asked : List (Guard × Bindings)) (r : Route Nat),
      scaledQuotient.rule.asked? ⟨false, false, true⟩ .arithmetic (fun _ => true) tripledSine =
        some asked ∧
      List.SublistForall₂ (fun q b => q.1.holds .arithmetic (fun _ => true) b = true) asked
        r.moments ∧
      ¬ ∀ q ∈ asked, q.1.holds .arithmetic (fun _ => true) q.2 = true := by
  have hr : ∀ p ∈ [scaledProduct, scaledQuotient],
      p.rule.IsAccepted ⟨false, false, true⟩ .arithmetic :=
    List.forall_mem_cons.2 ⟨⟨0, by decide +kernel⟩,
      List.forall_mem_cons.2 ⟨⟨0, by decide +kernel⟩, List.forall_mem_nil _⟩⟩
  obtain ⟨f, codes, hf, -, -, h⟩ := merged_checked hr
  obtain ⟨x, hx, hchecked⟩ := h (fun _ => true) tripledSine
  have hchanged : x.changed = true := by
    have hmerged := merged?_tripledSine
    rw [hf] at hmerged
    simp only [Except.toOption, Option.bind_some, hx, Option.map_some, Option.some.injEq,
      Prod.mk.injEq] at hmerged
    exact hmerged.1
  obtain ⟨hfirst, hrest⟩ := List.forall_mem_cons.1 outcome?_tripledSine
  have hsecond := List.forall_mem_singleton.1 hrest
  obtain ⟨r, -, -, ⟨y, hy, hy', -⟩ | ⟨i, p, asked, hp, -, hasked, hheld, y, hy, hiff⟩⟩ :=
    hchecked hchanged
  · simp [hy, hy'] at hfirst
  · obtain rfl : scaledQuotient = p := by
      obtain ⟨hlt, hp⟩ := List.getElem?_eq_some_iff.1 hp
      obtain rfl : i = 0 := by simpa using hlt
      exact hp
    refine ⟨asked, r, hasked, hheld, ?_⟩
    rw [hy, Option.map_some, Option.some.injEq, Prod.mk.injEq] at hsecond
    rw [← hiff, hsecond.1]
    exact Bool.false_ne_true

end Rulewright
