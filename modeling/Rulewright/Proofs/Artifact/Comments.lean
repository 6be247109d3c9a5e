import Rulewright.Proofs.Artifact.Names
import Rulewright.Proofs.Text.Comment

/-!
# What rules without functions leave

A rule that is abandoned or skipped is mentioned in comments only: in the header, and among the
functions with the reason. Its terms are written on one line, since the names in them are words, and
so is every reason. The names of its checks may be any text. They are copied as they are, and a line
that begins within a name is a comment only if the name makes it one.

* `CheckName.staysInComment`: a name leads to no other lines than comments.
* `Rule.addsComments_text`: it is the names of its checks that decide it for a rule.
* `generateFrom_items`: the items of a generation, rule by rule.
* `generateFrom_leavesComments_iff`: when all is comments.
-/

namespace Rulewright

open Text

variable {o : CompileOptions} {l : Language}

/-! ### Texts on one line -/

theorem isOneLine_of_isWord {name : String} (h : IsWord name) : isOneLine name = true :=
  isOneLine_of_forall (by decide) h.2

theorem Literal.isOneLine_text (value : Literal) : isOneLine value.text = true :=
  isOneLine_of_forall (p := fun c => Token.isDelimiter c = false) (by decide) fun c hc =>
    ((Expr.isNumeral_text value).word.2 c hc).1

theorem isOneLine_toString_int (n : Int) : isOneLine (toString n) = true :=
  (Literal.int n).isOneLine_text

theorem Expr.isOneLine_render_all (l : Language) :
    (∀ e : Expr, e.IsSpelled l → isOneLine (e.render l) = true) ∧
    ∀ es : List Expr, AllSpelled l es → isOneLine (renderAll l es) = true := by
  apply Expr.induct
  case metavar => exact fun id _ => isOneLine_append rfl (isOneLine_toString id)
  case var => exact fun name h => isOneLine_of_isWord h.1
  case literal => exact fun value _ => value.isOneLine_text
  case app =>
    exact fun symbol operands ih h =>
      isOneLine_append (isOneLine_append (isOneLine_append rfl (isOneLine_of_isWord h.1)) (ih h.2))
        rfl
  case compound => exact fun inner ih h => isOneLine_append (isOneLine_append rfl (ih h)) rfl
  case optional =>
    exact fun pattern default hp hd h =>
      isOneLine_append
        (isOneLine_append (isOneLine_append (isOneLine_append rfl (hp h.1)) rfl) (hd h.2)) rfl
  case anyway =>
    exact fun group operands ih h =>
      isOneLine_append (isOneLine_append (isOneLine_append rfl (isOneLine_toString group)) (ih h))
        rfl
  case nil => exact fun _ => rfl
  case cons =>
    exact fun e rest he hrest h => isOneLine_append (isOneLine_append rfl (he h.1)) (hrest h.2)

theorem Expr.IsSpelled.isOneLine_render {e : Expr} (h : e.IsSpelled l) :
    isOneLine (e.render l) = true :=
  (Expr.isOneLine_render_all l).1 e h

theorem Expr.isWord_operatorList_all (l : Language) :
    (∀ e : Expr, e.IsSpelled l → ∀ name ∈ e.operatorList l, IsWord name) ∧
    ∀ es : List Expr, AllSpelled l es → ∀ name ∈ operatorListAll l es, IsWord name := by
  apply Expr.induct
  case metavar => exact fun _ _ name hname => absurd hname List.not_mem_nil
  case var => exact fun _ _ name hname => absurd hname List.not_mem_nil
  case literal => exact fun _ _ name hname => absurd hname List.not_mem_nil
  case app => exact fun symbol operands ih h => List.forall_mem_cons.2 ⟨h.1, ih h.2⟩
  case compound => exact fun inner ih h => ih h
  case optional => exact fun pattern default hp hd h => List.forall_mem_append.2 ⟨hp h.1, hd h.2⟩
  case anyway => exact fun group operands ih h => ih h
  case nil => exact fun _ name hname => absurd hname List.not_mem_nil
  case cons => exact fun e rest he hrest h => List.forall_mem_append.2 ⟨he h.1, hrest h.2⟩

theorem Expr.IsSpelled.isOneLine_operator? {e : Expr} (h : e.IsSpelled l) :
    isOneLine ((e.operator? l).getD "anyway") = true := by
  have hunwrap : e.unwrap.IsSpelled l := by
    fun_induction Expr.unwrap e with
    | case1 inner ih => exact ih h
    | case2 e => exact h
  unfold Expr.operator?
  split
  · rename_i heq
    rw [heq] at hunwrap
    exact isOneLine_of_isWord hunwrap.1
  · rename_i heq
    rw [heq] at hunwrap
    exact isOneLine_of_isWord hunwrap.1
  · rfl

theorem Unsupported.isOneLine_message {reason : Unsupported}
    (h : ∀ name ∈ reason.operator?, isOneLine name = true) : isOneLine reason.message = true := by
  have quoted : ∀ {before name after : String}, isOneLine before = true → isOneLine name = true →
      isOneLine after = true → isOneLine (before ++ name ++ after) = true :=
    fun hbefore hname hafter => isOneLine_append (isOneLine_append hbefore hname) hafter
  cases reason with
  | optionalRootArity operator =>
    exact quoted (isOneLine_ofList rfl) (h operator rfl) (isOneLine_ofList rfl)
  | noConstructor operator =>
    exact quoted (isOneLine_ofList rfl) (h operator rfl) (isOneLine_ofList rfl)
  | unboundMeta id =>
    exact quoted (isOneLine_ofList rfl) (isOneLine_toString id) (isOneLine_ofList rfl)
  | unboundGroup group =>
    exact quoted (isOneLine_ofList rfl) (isOneLine_toString group) (isOneLine_ofList rfl)
  | _ => exact isOneLine_ofList rfl

/-! ### The names of checks -/

/-- The name, in quotes, leads to no other lines than comments. -/
def CheckName.staysInComment (k : CheckName) : Bool := isCommentary ("// '" ++ k.text ++ "'")

theorem CheckName.staysInComment_of_isOneLine {k : CheckName} (h : isOneLine k.text = true) :
    k.staysInComment = true := by
  have hquoted := AddsComments.quoted k.text []
  rw [AddsComments.oneLine (isOneLine_append h rfl)] at hquoted
  simpa [harmlessWithin, staysInComment] using hquoted.symm

namespace Rule

/-- The checks of a rule, the global one last. -/
def checkNames (r : Rule) : List CheckName := r.conditions.map (·.check) ++ [r.global]

/-- The terms of the rule are made of words. -/
structure IsSpelled (l : Language) (r : Rule) : Prop where
  pattern : r.pattern.IsSpelled l
  replacement : r.replacement.IsSpelled l
  subjects : ∀ k ∈ r.conditions, k.subject.IsSpelled l

theorem isSpelled_iff {r : Rule} : r.IsSpelled l ↔ ∀ e ∈ r.terms, e.IsSpelled l := by
  rw [terms, List.forall_mem_cons, List.forall_mem_cons, List.forall_mem_map]
  constructor
  · intro h
    exact ⟨h.pattern, h.replacement, h.subjects⟩
  · rintro ⟨hpattern, hreplacement, hsubjects⟩
    exact ⟨hpattern, hreplacement, hsubjects⟩

/-- The terms of rules that were read are made of words. -/
theorem isSpelled_of_read {rules : List Rule}
    (h : ∀ r ∈ rules, ∃ d : RuleDefinition, d.toRule l = .ok r) : ∀ r ∈ rules, r.IsSpelled l := by
  intro r hr
  obtain ⟨d, hd⟩ := h r hr
  refine isSpelled_iff.2 fun e he => ?_
  obtain ⟨text, htext⟩ := RuleDefinition.exists_parse_of_toRule hd e he
  exact (Language.isKept_parse htext).spelled

theorem addsComments_conditionText {k : Condition} (h : k.subject.IsSpelled l) :
    AddsComments (conditionText l k) k.check.staysInComment := by
  rw [conditionText, String.append_assoc]
  exact .after (isOneLine_append h.isOneLine_render rfl) (.quoted k.check.text)

/-- **The text of a rule** stays in a comment if and only if the names of its checks do. -/
theorem addsComments_text {r : Rule} (h : r.IsSpelled l) :
    AddsComments (r.text l) (r.checkNames.all (·.staysInComment)) := by
  have hterms : isOneLine (r.pattern.render l ++ " ==> " ++ r.replacement.render l) = true :=
    isOneLine_append (isOneLine_append h.pattern.isOneLine_render rfl)
      h.replacement.isOneLine_render
  have hconditions : AddsComments (if r.conditions.isEmpty then ""
      else " [[" ++ ", ".intercalate (r.conditions.map (conditionText l)) ++ "]]")
      (r.conditions.all (·.check.staysInComment)) := by
    split_ifs with hempty
    · rw [List.isEmpty_iff.1 hempty]
      exact .oneLine rfl
    · have hall : ∀ k ∈ r.conditions, AddsComments (conditionText l k) k.check.staysInComment :=
        fun k hk => addsComments_conditionText (h.subjects k hk)
      exact (AddsComments.after rfl (.intercalate rfl hall)).before rfl
  have hglobal : AddsComments
      (if r.global.isNoCheck then "" else " \x7b\x7b'" ++ r.global.text ++ "'\x7d\x7d")
      r.global.staysInComment := by
    split_ifs with hnone
    · rw [beq_iff_eq.1 hnone]
      exact .oneLine rfl
    · have hclose : "'\x7d\x7d" = "'" ++ "\x7d\x7d" := rfl
      rw [hclose, ← String.append_assoc, @String.append_assoc " \x7b\x7b'"]
      exact (AddsComments.after rfl (.quoted r.global.text)).before rfl
  rw [checkNames, List.all_append, List.all_map, List.all_cons, List.all_nil, Bool.and_true]
  exact ((((AddsComments.after hterms hconditions).append hglobal).before rfl).before
    (isOneLine_toString_int _))

theorem mem_of_mem_earlyModifying {k : Condition} {ks : List Condition}
    (h : k ∈ earlyModifying ks) : k ∈ ks := by
  fun_induction earlyModifying ks with
  | case1 => exact h
  | case2 => exact absurd h List.not_mem_nil
  | case3 first rest _ _ ih =>
    rcases List.mem_cons.1 h with rfl | h
    · exact List.mem_cons_self
    · exact List.mem_cons_of_mem _ (ih h)
  | case4 first rest _ _ ih => exact List.mem_cons_of_mem _ (ih h)

/-- What is wrong with a rule names some of its checks. -/
theorem addsComments_problems (r : Rule) :
    AddsComments ("; ".intercalate r.problems)
      ((earlyModifying r.conditions).all (·.check.staysInComment)) := by
  -- each problem with what it contributes
  set problems :=
    (earlyModifying r.conditions).map (fun k =>
      ("modifying condition '" ++ k.check.text ++ "' is not the last condition",
        k.check.staysInComment)) ++
      if r.hasModifyingCondition && r.pattern != r.replacement then
        [("rule has a modifying condition, but 'from' differs from 'to'", true)]
      else [] with hproblems
  have htexts : r.problems = problems.map Prod.fst := by
    rw [Rule.problems, hproblems, List.map_append, List.map_map]
    split_ifs <;> rfl
  have hvalue : (earlyModifying r.conditions).all (·.check.staysInComment) =
      problems.all Prod.snd := by
    rw [hproblems, List.all_append, List.all_map]
    split_ifs <;> simp [Function.comp_def]
  have hclose : "' is not the last condition" = "'" ++ " is not the last condition" := rfl
  rw [htexts, hvalue]
  refine .intercalate rfl (List.forall_mem_append.2 ⟨List.forall_mem_map.2 fun k _ => ?_, ?_⟩)
  · rw [hclose, ← String.append_assoc, @String.append_assoc "modifying condition '"]
    exact (AddsComments.after (isOneLine_ofList rfl) (.quoted k.check.text)).before
      (isOneLine_ofList rfl)
  · split_ifs
    · exact List.forall_mem_singleton.2 (.oneLine (isOneLine_ofList rfl))
    · exact fun x hx => absurd hx List.not_mem_nil

/-- The reasons against a rule add nothing to its text. -/
theorem checkNames_all_and_earlyModifying (r : Rule) :
    (r.checkNames.all (·.staysInComment) &&
      (earlyModifying r.conditions).all (·.check.staysInComment)) =
      r.checkNames.all (·.staysInComment) := by
  rw [Bool.and_eq_left_iff_imp, List.all_eq_true, List.all_eq_true]
  intro h k hk
  exact h _ (List.mem_append_left _ (List.mem_map_of_mem (mem_of_mem_earlyModifying hk)))

theorem IsSpelled.isOneLine_message {r : Rule} (h : r.IsSpelled l) {c c' : Code}
    {error : CompileError} (herror : r.compile o l c = (.error error, c')) :
    isOneLine error.message = true := by
  have hwords : ∀ name ∈ r.operatorNames l, IsWord name := by
    have hword := (Expr.isWord_operatorList_all l).1
    refine List.forall_mem_append.2
      ⟨List.forall_mem_append.2 ⟨hword _ h.pattern, hword _ h.replacement⟩, fun name hname => ?_⟩
    obtain ⟨k, hk, hname⟩ := List.mem_flatMap.1 hname
    exact hword _ (h.subjects k hk) name hname
  have hnames := Rule.compile_names herror
  cases error with
  | unsupported reason =>
    exact reason.isOneLine_message fun name hname =>
      isOneLine_of_isWord (hwords name (hnames name hname))
  | _ => cases hnames

/-! ### The comments of a rule -/

theorem isCommentary_abandoned {r : Rule} (h : r.IsSpelled l) :
    isCommentary (RuleItem.abandoned ((r.pattern.operator? l).getD "anyway") (r.text l)).text =
      r.checkNames.all (·.staysInComment) := by
  have hmark : "// Abandoned rule for '" = "//" ++ " Abandoned rule for '" := rfl
  change isCommentary ("// Abandoned rule for '" ++ _ ++ "': " ++ r.text l ++ "\n") = _
  rw [hmark, ← Bool.true_and (r.checkNames.all _)]
  exact AddsComments.isCommentary_pair (isOneLine_ofList rfl)
    (.oneLine h.pattern.isOneLine_operator?) rfl (addsComments_text h)

theorem isCommentary_skipped {r : Rule} (h : r.IsSpelled l) {reason : String} {b : Bool}
    (hreason : AddsComments reason b) :
    isCommentary (RuleItem.skipped (r.text l) reason).text =
      (r.checkNames.all (·.staysInComment) && b) := by
  have hmark : "// Rule '" = "//" ++ " Rule '" := rfl
  change isCommentary ("// Rule '" ++ r.text l ++ "' skipped: " ++ reason ++ "\n") = _
  rw [hmark]
  exact AddsComments.isCommentary_pair rfl (addsComments_text h) (isOneLine_ofList rfl) hreason

end Rule

/-! ### The items of a generation -/

section Generated

variable {config : Config} {rules additional abandon : List Rule} {a : Artifact}

/-- **The items of a generation:** the comments of the rules that are not accepted, then the items
of the others. -/
theorem generateFrom_items (h : generateFrom l config rules additional abandon = .ok a) :
    a.items = (Plan.ordered l (markAbandoned abandon (rules ++ additional))).filterMap
          (·.comment? l) ++
        (Plan.ofRules l (markAbandoned abandon (rules ++ additional))).planned.map
          (·.item config.options l) ∧
      a.additional = additional.map (·.text l) := by
  have hplan := Eq.refl (Plan.ofRules l (markAbandoned abandon (rules ++ additional)))
  obtain ⟨a', -, ha, -, hitems, -, hadditional, -⟩ := generateFrom_stages config hplan
  obtain rfl : a' = a := Except.ok.inj (ha.symm.trans h)
  rw [Plan.items_ofRules] at hitems
  exact ⟨hitems, hadditional⟩

/-- A marked rule is a rule with the same fate, of which all is as it was but perhaps that it is
abandoned. -/
theorem exists_of_mem_markAbandoned (o : CompileOptions) (l : Language) {r : Rule}
    (h : r ∈ markAbandoned abandon rules) :
    ∃ q ∈ rules, r.fate o l [] = q.fate o l abandon ∧ r.checkNames = q.checkNames ∧
      r.terms = q.terms := by
  obtain ⟨q, hq, rfl⟩ := List.mem_map.1 h
  refine ⟨q, hq, Rule.fate_mark o l abandon q, ?_⟩
  split_ifs <;> exact ⟨rfl, rfl⟩

/-- A comment on a rule that is not accepted. -/
theorem TextedRule.isCommentary_comment? {r : Rule} (h : r.IsSpelled l) {item : RuleItem}
    (hitem : (Plan.texted l r).comment? l = some item) :
    r.isAdmitted l = false ∧ isCommentary item.text = r.checkNames.all (·.staysInComment) := by
  obtain ⟨operator, hverdict, habandoned, hadmitted⟩ | ⟨reason, hverdict, -, hadmitted⟩ |
    ⟨bucket, hverdict, -⟩ := r.verdict_cases l
  · have hoperator : operator = (r.pattern.operator? l).getD "anyway" := by
      rw [Rule.verdict, habandoned, if_pos rfl] at hverdict
      exact (Verdict.abandoned.inj hverdict).symm
    simp only [comment?, Plan.texted, hverdict, Option.some.injEq] at hitem
    subst hitem
    refine ⟨hadmitted, ?_⟩
    rw [hoperator]
    exact Rule.isCommentary_abandoned h
  · simp only [comment?, Plan.texted, hverdict, Option.some.injEq] at hitem
    subst hitem
    refine ⟨hadmitted, ?_⟩
    unfold Rule.verdict at hverdict
    split_ifs at hverdict
    · obtain rfl := Verdict.skipped.inj hverdict
      rw [Rule.isCommentary_skipped h r.addsComments_problems,
        Rule.checkNames_all_and_earlyModifying]
    · split at hverdict
      · cases hverdict
      · obtain rfl := Verdict.skipped.inj hverdict
        have hmessage : isOneLine Bucket.noBucketMessage = true := isOneLine_ofList rfl
        rw [Rule.isCommentary_skipped h (.oneLine hmessage), Bool.and_true]
  · simp only [comment?, Plan.texted, hverdict] at hitem
    cases hitem

/-- A comment on a rule that cannot be compiled. -/
theorem PlannedRule.isCommentary_item {p : PlannedRule} (h : p.rule.IsSpelled l)
    (htext : p.text = p.rule.text l) (hnone : (p.item o l).functionName? = none) :
    p.rule.compiles o l = false ∧
    isCommentary (p.item o l).text = p.rule.checkNames.all (·.staysInComment) := by
  obtain ⟨-, head, c, -, hcompile⟩ | ⟨hcompiles, e, c, herror, hcompile, -⟩ := p.compile_cases o l
  · rw [PlannedRule.item, hcompile] at hnone
    cases hnone
  · refine ⟨hcompiles, ?_⟩
    rw [PlannedRule.item, hcompile, htext]
    dsimp only
    rw [Rule.isCommentary_skipped h (.oneLine (h.isOneLine_message herror)), Bool.and_true]

/-- A rule that is not accepted leaves its comment. -/
theorem mem_items_of_comment? (h : generateFrom l config rules additional abandon = .ok a)
    {r : Rule} (hr : r ∈ markAbandoned abandon (rules ++ additional)) {item : RuleItem}
    (hitem : (Plan.texted l r).comment? l = some item) : item ∈ a.items := by
  rw [(generateFrom_items h).1]
  have hordered := (Plan.perm_ordered l _).mem_iff.2 (List.mem_map_of_mem hr)
  exact List.mem_append_left _ (List.mem_filterMap.2 ⟨_, hordered, hitem⟩)

/-- **An item that is no function** is about a rule that is not compiled, and the names of its
checks decide what it is. -/
theorem generateFrom_isCommentary (hrules : ∀ r ∈ rules ++ additional, r.IsSpelled l)
    (h : generateFrom l config rules additional abandon = .ok a) {item : RuleItem}
    (hitem : item ∈ a.items) (hnone : item.functionName? = none) :
    ∃ r ∈ rules ++ additional, r.fate config.options l abandon ≠ .compiled ∧
      isCommentary item.text = r.checkNames.all (·.staysInComment) := by
  set marked := markAbandoned abandon (rules ++ additional) with hmarked
  have hspelled : ∀ r ∈ marked, r.IsSpelled l := by
    intro r hr
    obtain ⟨q, hq, -, -, hterms⟩ := exists_of_mem_markAbandoned config.options l hr
    rw [Rule.isSpelled_iff, hterms]
    exact Rule.isSpelled_iff.1 (hrules q hq)
  -- it is enough to find a marked rule
  suffices hfound : ∃ r ∈ marked, (r.isAdmitted l && r.compiles config.options l) = false ∧
      isCommentary item.text = r.checkNames.all (·.staysInComment) by
    obtain ⟨r, hr, hcompiled, hcommentary⟩ := hfound
    obtain ⟨q, hq, hfate, hnames, -⟩ := exists_of_mem_markAbandoned config.options l hr
    refine ⟨q, hq, ?_, by rw [← hnames, hcommentary]⟩
    rw [← hfate, ne_eq, Rule.fate_eq_compiled_iff, hcompiled]
    exact Bool.false_ne_true
  rw [(generateFrom_items h).1, List.mem_append] at hitem
  rcases hitem with hitem | hitem
  · obtain ⟨texted, htexted, hcomment⟩ := List.mem_filterMap.1 hitem
    obtain ⟨r, hr, rfl⟩ := List.mem_map.1 ((Plan.perm_ordered l marked).subset htexted)
    obtain ⟨hadmitted, hcommentary⟩ := TextedRule.isCommentary_comment? (hspelled r hr) hcomment
    exact ⟨r, hr, by rw [hadmitted]; rfl, hcommentary⟩
  · obtain ⟨p, hp, rfl⟩ := List.mem_map.1 hitem
    obtain ⟨r, hr, htexted⟩ :=
      List.mem_map.1 ((Plan.perm_planned l marked).subset (List.mem_map_of_mem hp))
    obtain rfl : r = p.rule := congrArg TextedRule.rule htexted
    have hr := List.mem_of_mem_filter hr
    obtain ⟨hcompiles, hcommentary⟩ :=
      p.isCommentary_item (hspelled _ hr) (Plan.text_planned l marked p hp) hnone
    exact ⟨p.rule, hr, by rw [hcompiles, Bool.and_false], hcommentary⟩

end Generated

/-! ### The header -/

theorem isCommentary_headerLine (text : String) :
    isCommentary (Section.headerLine text) = harmlessWithin (text.toList ++ ['\n']) := by
  have hmark : Section.headerLine text = "//" ++ (" " ++ (text ++ "\n")) := by
    rw [← String.append_assoc, ← String.append_assoc]
    rfl
  rw [hmark, isCommentary_comment, String.toList_append, String.toList_append]
  rfl

theorem isCommentary_headerLine_append {x : String} (hx : isOneLine x = true) (text : String) :
    isCommentary (Section.headerLine (x ++ text)) = isCommentary (Section.headerLine text) := by
  rw [isCommentary_headerLine, isCommentary_headerLine, String.toList_append, List.append_assoc,
    AddsComments.oneLine hx, Bool.true_and]

theorem isCommentary_headerLine_of_isOneLine {text : String} (h : isOneLine text = true) :
    isCommentary (Section.headerLine text) = true := by
  rw [isCommentary_headerLine, AddsComments.oneLine h]
  rfl

/-- **The header** is all comments if and only if the texts of rules in it stay in their comments.
-/
theorem isCommentary_header (s : Summary) (skipRootGuard defective : Bool) :
    isCommentary (Section.header s skipRootGuard defective) =
      (s.abandoned ++ s.additional ++ s.skipped).all fun rule =>
        isCommentary (Section.headerLine rule) := by
  have hcounts : isOneLine ("Rules: " ++ toString s.compiled ++ " compiled, " ++
      toString s.skipped.length ++ " skipped, " ++ toString s.abandoned.length ++ " abandoned, " ++
      toString s.additional.length ++ " additional. Phases: " ++
      ", ".intercalate (s.phases.map toString) ++ ".") = true := by
    have hcount : ∀ {x y : String} (n : Nat), isOneLine x = true → isOneLine y = true →
        isOneLine (x ++ toString n ++ y) = true :=
      fun n hx hy => isOneLine_append (isOneLine_append hx (isOneLine_toString n)) hy
    have hphases : isOneLine (", ".intercalate (s.phases.map toString)) = true :=
      isOneLine_intercalate rfl (List.forall_mem_map.2 fun phase _ => isOneLine_toString_int phase)
    have hcounted :=
      hcount s.additional.length (hcount s.abandoned.length (hcount s.skipped.length
        (hcount s.compiled (x := "Rules: ") (y := " compiled, ") rfl (isOneLine_ofList rfl))
        (y := " skipped, ") (isOneLine_ofList rfl)) (y := " abandoned, ") (isOneLine_ofList rfl))
        (y := " additional. Phases: ") (isOneLine_ofList rfl)
    exact isOneLine_append (isOneLine_append hcounted hphases) rfl
  -- lines of fixed text are comments, so the answer depends on the lines that hold texts of rules
  have hline : ∀ text, isOneLine text = true → AddsLines [Section.headerLine text] true := by
    intro text htext
    have hone := AddsLines.map (f := fun text => "// " ++ text) (g := fun _ => true)
      (List.forall_mem_singleton.2 (isCommentary_headerLine_of_isOneLine htext))
    exact hone
  have hflag : ∀ (flag : Bool) text, isOneLine text = true →
      AddsLines (if flag then [Section.headerLine text] else []) true := by
    intro flag text htext
    cases flag with
    | true => exact hline text htext
    | false => exact .nil
  have hgroup : ∀ start, isOneLine start = true →
      ∀ rules : List String,
        AddsLines (rules.map fun rule => Section.headerLine (start ++ rule))
          (rules.all fun rule => isCommentary (Section.headerLine rule)) :=
    fun start hstart rules =>
      AddsLines.map (f := fun rule => "// " ++ (start ++ rule)) fun rule _ =>
        isCommentary_headerLine_append hstart rule
  have hfixed :=
    (hline "Generated by regula 0.1.0. Do not edit by hand." (isOneLine_ofList rfl)).append
      (hline _ hcounts)
  have hskip :=
    hflag skipRootGuard "Per-rule functions leave the check of the root operator to dispatch."
      (isOneLine_ofList rfl)
  have habandoned := hgroup "Abandoned: " (isOneLine_ofList rfl) s.abandoned
  have hadditional := hgroup "Additional: " (isOneLine_ofList rfl) s.additional
  have hskipped := hgroup "Skipped: " (isOneLine_ofList rfl) s.skipped
  have hdefective :=
    hflag defective "DEFECTIVE: generated code failed its integrity check." (isOneLine_ofList rfl)
  refine (((((hfixed.append hskip).append habandoned).append hadditional).append hskipped).append
    hdefective).isCommentary.trans ?_
  simp only [List.all_append, Bool.and_true, Bool.true_and]

/-! ### Comments only -/

/-- Every line that is not empty is a comment, in the header and in the items that are no functions.
-/
def Artifact.leavesComments (a : Artifact) : Bool :=
  isCommentary a.header &&
    a.items.all fun item => item.functionName?.isSome || isCommentary (Section.indent item.text)

section Generated

variable {config : Config} {rules additional abandon : List Rule} {a : Artifact}

/-- The header mentions the additional rules and those that are not compiled. -/
theorem generateFrom_isCommentary_header (hrules : ∀ r ∈ rules ++ additional, r.IsSpelled l)
    (h : generateFrom l config rules additional abandon = .ok a) :
    isCommentary a.header = true ↔
    ∀ r ∈ rules ++ additional, r ∈ additional ∨ r.fate config.options l abandon ≠ .compiled →
      r.checkNames.all (·.staysInComment) = true := by
  obtain ⟨a', built, ha, haccounts⟩ := generateFrom_accounts l config rules additional abandon
  obtain rfl : a' = a := Except.ok.inj (ha.symm.trans h)
  have hadditional : a'.summary.additional = additional.map (·.text l) := (generateFrom_items h).2
  have hline : ∀ r ∈ rules ++ additional,
      isCommentary (Section.headerLine (r.text l)) = r.checkNames.all (·.staysInComment) := by
    intro r hr
    rw [isCommentary_headerLine, Rule.addsComments_text (hrules r hr)]
    exact Bool.and_true _
  rw [Artifact.header, isCommentary_header, List.all_eq_true]
  simp only [List.mem_append, hadditional, haccounts.abandoned.mem_iff, haccounts.skipped.mem_iff,
    List.mem_map, List.mem_filter, decide_eq_true_eq]
  constructor
  · intro hall r hr hmentioned
    rw [← hline r (List.mem_append.2 hr)]
    refine hall _ ?_
    rcases hmentioned with hmem | hfate
    · exact .inl (.inr ⟨r, hmem, rfl⟩)
    · cases hr' : r.fate config.options l abandon with
      | abandoned => exact .inl (.inl ⟨r, ⟨hr, hr'⟩, rfl⟩)
      | skipped => exact .inr ⟨r, ⟨hr, hr'⟩, rfl⟩
      | compiled => exact absurd hr' hfate
  · rintro hall text ((⟨r, ⟨hr, hfate⟩, rfl⟩ | ⟨r, hr, rfl⟩) | ⟨r, ⟨hr, hfate⟩, rfl⟩)
    · rw [hline r (List.mem_append.2 hr)]
      exact hall r hr (.inr (by rw [hfate]; decide))
    · rw [hline r (List.mem_append_right _ hr)]
      exact hall r (.inr hr) (.inl hr)
    · rw [hline r (List.mem_append.2 hr)]
      exact hall r hr (.inr (by rw [hfate]; decide))

/-- **When all is comments.** -/
theorem generateFrom_leavesComments_iff (hrules : ∀ r ∈ rules ++ additional, r.IsSpelled l)
    (h : generateFrom l config rules additional abandon = .ok a) :
    a.leavesComments = true ↔
    ∀ r ∈ rules ++ additional, r ∈ additional ∨ r.fate config.options l abandon ≠ .compiled →
      ∀ name ∈ r.checkNames, name.staysInComment = true := by
  simp only [← List.all_eq_true]
  rw [Artifact.leavesComments, Bool.and_eq_true, generateFrom_isCommentary_header hrules h,
    and_iff_left_iff_imp, List.all_eq_true]
  intro hnames item hitem
  cases hname : item.functionName? with
  | some name => rfl
  | none =>
    obtain ⟨r, hr, hfate, hcommentary⟩ := generateFrom_isCommentary hrules h hitem hname
    rw [isCommentary_indent, hcommentary]
    exact hnames r hr (.inr hfate)

end Generated

/-- **Rules without functions leave comments only**, if and only if this is so for the names of the
checks that are mentioned: those of the additional rules and of the rules that are abandoned or
skipped. It is so for every name without line feed. -/
theorem leaves_comments_only_iff {s : RuleSet} {config : Config} {a : Artifact}
    (hrules : ∀ r ∈ s.rules, ∃ d : RuleDefinition, d.toRule s.language = .ok r)
    (h : s.generate config = .ok a) :
    ∃ additional abandon, config.additionalRules s.language = .ok additional ∧
      config.abandonedRules s.language = .ok abandon ∧
      (a.leavesComments = true ↔
        ∀ r ∈ s.rules ++ additional,
          r ∈ additional ∨ r.fate config.options s.language abandon ≠ .compiled →
          ∀ name ∈ r.checkNames, name.staysInComment = true) ∧
      ((∀ r ∈ s.rules ++ additional, ∀ name ∈ r.checkNames, isOneLine name.text = true) →
        a.leavesComments = true) := by
  obtain ⟨additional, abandon, hadditional, habandon, hgenerate⟩ := RuleSet.exists_of_generate h
  have hread : ∀ r ∈ s.rules ++ additional, ∃ d : RuleDefinition, d.toRule s.language = .ok r :=
    List.forall_mem_append.2 ⟨hrules, exists_of_mapM hadditional⟩
  have hiff := generateFrom_leavesComments_iff (Rule.isSpelled_of_read hread) hgenerate
  refine ⟨additional, abandon, hadditional, habandon, hiff,
    fun hnames => hiff.2 fun r hr _ name hname => ?_⟩
  exact CheckName.staysInComment_of_isOneLine (hnames r hr name hname)

/-- An abandoned rule with a global check, and a rule with this check for its condition. -/
def RuleSetFile.checkedBy (name : String) : RuleSetFile :=
  { symbols := [⟨"+", [2], some "_add"⟩]
    rules := [⟨"(+ $0 0)", "$0", [], ⟨name⟩, 0, true⟩,
      ⟨"(+ 0 $0)", "$0", [⟨"$0", ⟨name⟩⟩], .noCheck, 0, false⟩] }

/-- The rules of it. -/
def RuleSet.checkedBy (name : String) : RuleSet :=
  { language := Language.ofEntries [⟨"+", [2], some "_add"⟩]
    rules := [⟨.app 0 [.metavar 0, .literal (.int 0)], .metavar 0, [], ⟨name⟩, 0, true⟩,
      ⟨.app 0 [.literal (.int 0), .metavar 0], .metavar 0, [⟨.metavar 0, ⟨name⟩⟩], .noCheck, 0,
        false⟩] }

/-- A name that makes its second line a comment. -/
theorem leaves_comments_only_marked :
    ∃ s a, (RuleSetFile.checkedBy "Fold\n  // twice").toRuleSet = .ok s ∧
      s.generate .default = .ok a ∧ a.leavesComments = true := by
  have hload : (RuleSetFile.checkedBy "Fold\n  // twice").toRuleSet =
      .ok (.checkedBy "Fold\n  // twice") := by
    decide +kernel
  obtain ⟨a, h, -⟩ := (RuleSet.checkedBy "Fold\n  // twice").exists_generate .default rfl rfl
  obtain ⟨additional, abandon, hadditional, habandon, hiff, -⟩ :=
    leaves_comments_only_iff (exists_of_mapM (RuleSetFile.toRuleSet_eq_ok_iff.1 hload).2) h
  obtain rfl : [] = additional := Except.ok.inj hadditional
  obtain rfl : [] = abandon := Except.ok.inj habandon
  exact ⟨_, a, hload, h, hiff.2 (by decide +kernel)⟩

/-- A name that does not. Neither rule leaves a comment only, and what the abandoned one leaves
defines a function. -/
theorem leaves_comments_only_injected :
    ∃ s a, (RuleSetFile.checkedBy "Fold\npub fn f() \x7b\x7d //").toRuleSet = .ok s ∧
      s.generate .default = .ok a ∧ a.leavesComments = false ∧
      (∀ item ∈ a.items, item.functionName? = none → isCommentary item.text = false) ∧
      ∃ rule, RuleItem.abandoned "+" rule ∈ a.items ∧
        lines (RuleItem.abandoned "+" rule).text =
          ["// Abandoned rule for '+': (+ $0 0) ==> $0 \x7b\x7b'Fold",
            "pub fn f() \x7b\x7d //'\x7d\x7d @0"] := by
  have hload : (RuleSetFile.checkedBy "Fold\npub fn f() \x7b\x7d //").toRuleSet =
      .ok (.checkedBy "Fold\npub fn f() \x7b\x7d //") := by
    decide +kernel
  obtain ⟨a, h, ha⟩ :=
    (RuleSet.checkedBy "Fold\npub fn f() \x7b\x7d //").exists_generate .default rfl rfl
  have hspelled :=
    Rule.isSpelled_of_read (exists_of_mapM (RuleSetFile.toRuleSet_eq_ok_iff.1 hload).2)
  have hspelled := List.forall_mem_append.2 ⟨hspelled, List.forall_mem_nil _⟩
  refine ⟨_, a, hload, h, ?_, ?_, _, mem_items_of_comment? ha List.mem_cons_self rfl,
    by decide +kernel⟩
  · rw [← Bool.not_eq_true, generateFrom_leavesComments_iff hspelled ha]
    decide +kernel
  · intro item hitem hnone
    obtain ⟨r, hr, -, hcommentary⟩ := generateFrom_isCommentary hspelled ha hitem hnone
    have hnames : ∀ r ∈ (RuleSet.checkedBy "Fold\npub fn f() \x7b\x7d //").rules,
        r.checkNames.all (·.staysInComment) = false := by decide +kernel
    exact hcommentary.trans (hnames r (by rwa [List.append_nil] at hr))

end Rulewright
