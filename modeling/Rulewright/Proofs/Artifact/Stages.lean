import Rulewright.Proofs.Artifact.Survey
import Rulewright.Proofs.Fusion.Rules
import Rulewright.Proofs.Tree.Integrity

/-!
# The stages of a generation

A generation compiles the planned rules one by one and then goes through the phases. Whatever it
puts into a store, the store owns it as a tree, so no integrity check finds anything, and no rule
ends the generation. What a stage has at its end is therefore known rule by rule and phase by phase.

* `Rule.compile_finished`, `FusedCode.ofRules_finished`: the code of one rule, and of fused rules.
* `RuleFunctions.ofPlan_eq`: the functions of single rules; `RuleFunctions.add_eq`: one of them.
* `PhaseFunctions.accounts_foldlM`: the functions of phases; `PhaseFunctions.Accounts.add`: one of
  them.
* `generateFrom_stages`: the artifact that is made of them.
-/

namespace Rulewright

open Stmt Matcher

variable {o : CompileOptions} {l : Language}

/-! ### Code -/

theorem holeAll?_ruleCode {options : Options} {foldConstants : Bool} {r : Rule}
    {code : List (Stmt Unit)} (h : ruleCode options l foldConstants r = some code) :
    holeAll? code = none := by
  obtain ⟨k, groups, action, -, -, rfl⟩ := exists_of_ruleCode h
  exact holeAll?_eq_none_append.2 ⟨hole?_calm_all.2 _, rfl⟩

/-- **The code of a rule is finished**, with all options and in every store. -/
theorem Rule.compile_finished {r : Rule} {c c' : Code} {head : NodeId}
    (h : r.compile o l c = (.ok head, c')) : c'.IsFinished head := by
  obtain ⟨ts, hcode, rfl, hne, hs, ho⟩ := compile_owns (Code.Owns.zero c) h
  exact ho.isFinished hs hne (holeAll?_strip.1 (holeAll?_ruleCode hcode))

namespace FusedCode

/-- The tree has no open place, so the store is finished before and after redundant definitions are
taken out. -/
theorem Keeps.isFinished {f : FusedCode} {code : List (Stmt Unit)} (h : f.Keeps code)
    (hcode : holeAll? code = none) :
    ∃ head, f.head = some head ∧ f.code.IsFinished head ∧
      (f.code.eliminateRedundancy head).IsFinished head := by
  obtain ⟨ts, m, hhead, hne, hs, ho, rfl⟩ := h
  have hts : holeAll? ts = none := holeAll?_strip.1 hcode
  refine ⟨start ts, hhead, ho.isFinished hs hne hts, ?_⟩
  obtain ⟨ts', hsketch, -, hstart, hne', hs', ho'⟩ := ho.eliminateRedundancy hs hne (start ts)
  have hts' : holeAll? ts' = none := by rw [← hole?_sketch_all.2, hsketch, hole?_sketch_all.2, hts]
  have ho0 : (f.code.eliminateRedundancy (start ts)).Owns (cells .root none ts' + 0) := by
    rwa [add_zero]
  have hfinished := ho0.isFinished hs' hne' hts'
  rwa [hstart] at hfinished

theorem holeAll?_foldl_fuse {others : List (List (Stmt Unit))}
    (ho : ∀ t ∈ others, holeAll? t = none) {mine : List (Stmt Unit)} (hm : holeAll? mine = none) :
    holeAll? (others.foldl (fuse l) mine) = none := by
  induction others generalizing mine with
  | nil => exact hm
  | cons t rest ih =>
    obtain ⟨ht, hrest⟩ := List.forall_mem_cons.1 ho
    exact ih hrest (holeAll?_fuse l hm ht)

/-- **Fused rules are finished.** -/
theorem ofRules_finished {rules : List PlannedRule} (hne : rules ≠ [])
    (hr : ∀ p ∈ rules, p.rule.IsAccepted o l) :
    ∃ f head, ofRules o l rules = .ok f ∧ f.head = some head ∧ f.code.IsFinished head ∧
      (f.code.eliminateRedundancy head).IsFinished head := by
  cases rules with
  | nil => exact absurd rfl hne
  | cons first rest =>
    obtain ⟨hfirst, hrest⟩ := List.forall_mem_cons.1 hr
    obtain ⟨f1, mine, hadd, hmine, hkeeps1⟩ := add_first (f := ⟨Code.empty, none, []⟩) rfl hfirst
    obtain ⟨f, hfold, hkeeps⟩ := foldlM_add hrest hkeeps1
    have hothers : ∀ t ∈ rest.filterMap (fun p => o.codeOf l p.rule), holeAll? t = none := by
      intro t ht
      obtain ⟨p, -, hcode⟩ := List.mem_filterMap.1 ht
      exact holeAll?_ruleCode hcode
    obtain ⟨head, hhead, h1, h2⟩ :=
      hkeeps.isFinished (holeAll?_foldl_fuse hothers (holeAll?_ruleCode hmine))
    exact ⟨f, head, by rw [ofRules, List.foldlM_cons, hadd]; exact hfold, hhead, h1, h2⟩

end FusedCode

/-! ### The functions of single rules -/

/-- The rule can be compiled by itself. -/
def Rule.compiles (o : CompileOptions) (l : Language) (r : Rule) : Bool :=
  (r.compile o l Code.empty).1.isOk

theorem Rule.compiles_iff {r : Rule} : r.compiles o l = true ↔ r.IsAccepted o l := by
  unfold compiles Rule.IsAccepted
  cases (r.compile o l Code.empty).1 with
  | ok head => exact ⟨fun _ => ⟨head, rfl⟩, fun _ => rfl⟩
  | error e => exact ⟨fun h => (Bool.false_ne_true h).elim, fun ⟨_, h⟩ => by cases h⟩

/-- Whether a rule can be compiled does not depend on the check of the root. -/
theorem Rule.compiles_of_options {o o' : CompileOptions} (h : o.foldConstants = o'.foldConstants)
    (l : Language) (r : Rule) : r.compiles o l = r.compiles o' l := by
  rw [Bool.eq_iff_iff, compiles_iff, compiles_iff]
  exact ⟨fun hr => hr.of_options h, fun hr => hr.of_options h.symm⟩

namespace PlannedRule

/-- The function of a planned rule, or the comment it leaves. -/
def item (o : CompileOptions) (l : Language) (p : PlannedRule) : RuleItem :=
  match p.compile o l with
  | .ok code => .function p.functionName p.text code.body
  | .error e => .skipped p.text e.message

/-- The report on a planned rule. -/
def report (o : CompileOptions) (l : Language) (p : PlannedRule) : Diagnostic :=
  match p.compile o l with
  | .ok _ => .note (p.functionName ++ " generated from rule '" ++ p.text ++ "'")
  | .error e => RuleItem.skipWarning p.text e.message

/-- A planned rule has code with nothing wrong in it, or is refused for a reason that does not end
the generation. -/
theorem compile_cases (o : CompileOptions) (l : Language) (p : PlannedRule) :
    (p.rule.compiles o l = true ∧ ∃ head c, p.rule.compile o l Code.empty = (.ok head, c) ∧
      p.compile o l = .ok ⟨Section.indent (c.render head 0 "formula"), []⟩) ∨
    (p.rule.compiles o l = false ∧ ∃ e c, p.rule.compile o l Code.empty = (.error e, c) ∧
      p.compile o l = .error e ∧ e.isFatal = false) := by
  unfold Rule.compiles PlannedRule.compile
  cases hc : p.rule.compile o l Code.empty with
  | mk result c =>
    cases result with
    | ok head =>
      refine .inl ⟨rfl, head, c, rfl, ?_⟩
      simp only [(Rule.compile_finished hc).integrity]
    | error e => exact .inr ⟨rfl, e, c, rfl, rfl, Rule.compile_not_fatal hc⟩

/-- The report on a planned rule says that it has a function, or what its comment says. -/
theorem report_isRoutine (o : CompileOptions) (l : Language) (p : PlannedRule) :
    IsRoutine [] [p.item o l] (p.report o l) := by
  unfold item report
  cases p.compile o l with
  | ok code => exact .note _
  | error e => exact .skipped (List.mem_singleton_self _)

end PlannedRule

namespace RuleFunctions

/-- **One more rule** has a function or leaves a comment. -/
theorem add_eq (f : RuleFunctions) (p : PlannedRule) : f.add p (p.compile o l) = .ok
    { items := f.items ++ [p.item o l]
      compiled := f.compiled ++ [p].filter (·.rule.compiles o l)
      reports := f.reports ++ [p.report o l]
      defective := f.defective } := by
  obtain ⟨hcompiles, head, c, -, hcompile⟩ | ⟨hcompiles, e, c, -, hcompile, hfatal⟩ :=
    p.compile_cases o l
  · simp [RuleFunctions.add, PlannedRule.item, PlannedRule.report, hcompile, hcompiles]
  · simp [RuleFunctions.add, PlannedRule.item, PlannedRule.report, hcompile, hcompiles, hfatal]

/-- **The functions of single rules**, rule by rule. -/
theorem ofPlan_eq (o : CompileOptions) (l : Language) (planned : List PlannedRule) :
    ofPlan o l planned = .ok
      { items := planned.map (·.item o l)
        compiled := planned.filter (·.rule.compiles o l)
        reports := planned.map (·.report o l)
        defective := false } := by
  have run : ∀ (planned : List PlannedRule) (f : RuleFunctions),
      planned.foldlM (fun f p => f.add p (p.compile o l)) f = .ok
        { items := f.items ++ planned.map (·.item o l)
          compiled := f.compiled ++ planned.filter (·.rule.compiles o l)
          reports := f.reports ++ planned.map (·.report o l)
          defective := f.defective } := by
    intro planned
    induction planned with
    | nil =>
      intro f
      simp only [List.map_nil, List.filter_nil, List.append_nil]
      rfl
    | cons p rest ih =>
      intro f
      rw [List.foldlM_cons, add_eq]
      refine (ih _).trans ?_
      simp only [List.append_assoc, ← List.filter_append, List.singleton_append, List.map_cons]
  exact run planned _

end RuleFunctions

/-! ### The functions of phases -/

namespace FusedCode

/-- A rule that can be compiled is not left out. -/
theorem reports_add {f f' : FusedCode} {p : PlannedRule} (hp : p.rule.IsAccepted o l)
    (h : f.add o l p = .ok f') : f'.reports = f.reports := by
  obtain ⟨other, c, hc⟩ := hp.compile f.code
  simp only [FusedCode.add, hc] at h
  split at h <;> cases h <;> rfl

theorem reports_ofRules {rules : List PlannedRule} (hr : ∀ p ∈ rules, p.rule.IsAccepted o l)
    {f : FusedCode} (h : ofRules o l rules = .ok f) : f.reports = [] := by
  have run : ∀ (rules : List PlannedRule) (f0 : FusedCode), (∀ p ∈ rules, p.rule.IsAccepted o l) →
      rules.foldlM (FusedCode.add o l) f0 = .ok f → f.reports = f0.reports := by
    intro rules
    induction rules with
    | nil =>
      intro f0 _ h
      rw [Except.ok.inj h]
    | cons p rest ih =>
      intro f0 hr h
      obtain ⟨hp, hrest⟩ := List.forall_mem_cons.1 hr
      rw [List.foldlM_cons, bind_eq_ok_iff] at h
      obtain ⟨f1, hadd, h⟩ := h
      rw [ih f1 hrest h, reports_add hp hadd]
  exact run rules _ hr h

/-- The fused function of a phase has nothing wrong with it, and all that is said is how large it
is. -/
theorem finish_eq {rules : List PlannedRule} (hr : ∀ p ∈ rules, p.rule.IsAccepted o l)
    (phase : Int) : ∃ f body notes, ofRules o l rules = .ok f ∧ f.reports = [] ∧
      f.finish phase = (body, [], notes) ∧ ∀ d ∈ notes, ∃ message, d = .note message := by
  by_cases hne : rules = []
  · subst hne
    exact ⟨_, _, [], rfl, rfl, rfl, List.forall_mem_nil _⟩
  · obtain ⟨f, head, hf, hhead, -, hfinished⟩ := ofRules_finished hne hr
    have hreports := reports_ofRules hr hf
    have hfinish : f.finish phase = ((f.finish phase).1, [], (f.finish phase).2.2) := by
      simp only [finish, hhead, hfinished.integrity]
    refine ⟨f, _, _, hf, hreports, hfinish, ?_⟩
    simp only [finish, hhead, hreports]
    exact List.forall_mem_singleton.2 ⟨_, rfl⟩

end FusedCode

/-- Steps that keep track of what was gone through do so until the end. -/
theorem foldlM_keeps {ε σ α : Type} {step : σ → α → Except ε σ} {inv : σ → List α → Prop}
    (hstep : ∀ s done x, inv s done → ∃ s', step s x = .ok s' ∧ inv s' (done ++ [x]))
    (xs : List α) {s : σ} (hs : inv s []) : ∃ s', xs.foldlM step s = .ok s' ∧ inv s' xs := by
  have run : ∀ (rest done : List α) (s : σ), inv s done →
      ∃ s', rest.foldlM step s = .ok s' ∧ inv s' (done ++ rest) := by
    intro rest
    induction rest with
    | nil =>
      intro done s hs
      exact ⟨s, rfl, by rwa [List.append_nil]⟩
    | cons x rest ih =>
      intro done s hs
      obtain ⟨s1, hx, h1⟩ := hstep s done x hs
      obtain ⟨s2, hrest, h2⟩ := ih _ s1 h1
      exact ⟨s2, by rw [List.foldlM_cons, hx]; exact hrest, by rwa [List.append_cons]⟩
  exact run xs [] s hs

/-- The body is that of the fused function of the rules, and none of them was left out. -/
def IsFused (o : CompileOptions) (l : Language) (rules : List PlannedRule) (phase : Int)
    (body : String) : Prop :=
  ∃ f, FusedCode.ofRules o l rules = .ok f ∧ f.reports = [] ∧ (f.finish phase).1 = body

/-- The compiled rules of a phase. -/
def ofPhase (compiled : List PlannedRule) (phase : Int) : List PlannedRule :=
  compiled.filter (·.rule.phase == phase)

namespace PhaseFunctions

/-- What the functions of phases say about the compiled rules. -/
structure Accounts (o : CompileOptions) (l : Language) (compiled : List PlannedRule)
    (f : PhaseFunctions) (phases : List Int) : Prop where
  phases : f.phases.map (·.phase) = phases
  buckets : ∀ q ∈ f.phases, q.buckets = bucketFunctions (ofPhase compiled q.phase)
  fused : ∀ q ∈ f.phases, IsFused o l (ofPhase compiled q.phase) q.phase q.fusedBody
  reports : ∀ d ∈ f.reports, ∃ message, d = .note message
  defective : f.defective = false

variable {compiled : List PlannedRule}

/-- One more phase. -/
theorem Accounts.add (hr : ∀ p ∈ compiled, p.rule.IsAccepted o l) {f : PhaseFunctions}
    {done : List Int} (h : f.Accounts o l compiled done) (phase : Int) :
    ∃ f', f.add o l compiled phase = .ok f' ∧ f'.Accounts o l compiled (done ++ [phase]) := by
  have hphase : ∀ p ∈ ofPhase compiled phase, p.rule.IsAccepted o l :=
    fun p hp => hr p (List.mem_of_mem_filter hp)
  obtain ⟨fused, body, notes, hfused, hnone, hfinish, hnotes⟩ := FusedCode.finish_eq hphase phase
  refine ⟨{ phases := f.phases ++ [⟨phase, bucketFunctions (ofPhase compiled phase), body⟩]
            reports := f.reports ++ notes ++ []
            defective := f.defective || false }, ?_, ?_, ?_, ?_, ?_, ?_⟩
  · rw [ofPhase] at hfused
    rw [PhaseFunctions.add, hfused]
    simp only [bind, Except.bind, hfinish]
    rfl
  · rw [List.map_append, h.phases]
    rfl
  · exact List.forall_mem_append.2 ⟨h.buckets, List.forall_mem_singleton.2 rfl⟩
  · have hmine : IsFused o l (ofPhase compiled phase) phase body :=
      ⟨fused, hfused, hnone, by rw [hfinish]⟩
    exact List.forall_mem_append.2 ⟨h.fused, List.forall_mem_singleton.2 hmine⟩
  · rw [List.append_nil]
    exact List.forall_mem_append.2 ⟨h.reports, hnotes⟩
  · rw [h.defective]
    rfl

/-- **The functions of phases**, phase by phase. -/
theorem accounts_foldlM (hr : ∀ p ∈ compiled, p.rule.IsAccepted o l) (phases : List Int) :
    ∃ f, phases.foldlM (PhaseFunctions.add o l compiled) ⟨[], [], false⟩ = .ok f ∧
      f.Accounts o l compiled phases :=
  foldlM_keeps (fun _ _ phase h => h.add hr phase) phases
    ⟨rfl, List.forall_mem_nil _, List.forall_mem_nil _, List.forall_mem_nil _, rfl⟩

end PhaseFunctions

/-! ### The artifact -/

/-- The options of the functions of single rules. -/
def Config.options (c : Config) : CompileOptions :=
  { skipRootGuard := c.skipRootGuard, foldConstants := c.foldConstants }

/-- **The stages of a generation**, with what they say about the rules of its plan. Nothing is said
of a rule that is compiled, but perhaps that its operators are not declared. -/
theorem generateFrom_stages (config : Config) {l : Language} {rules additional abandon : List Rule}
    {plan : Plan} (hplan : plan = Plan.ofRules l (markAbandoned abandon (rules ++ additional))) :
    ∃ (a : Artifact) (phases : PhaseFunctions),
      generateFrom l config rules additional abandon = .ok a ∧
      phases.Accounts { config.options with skipRootGuard := false } l
        (plan.planned.filter (·.rule.compiles config.options l)) plan.phases ∧
      a.items = plan.items ++ plan.planned.map (·.item config.options l) ∧
      a.phases = phases.phases ∧ a.additional = additional.map (·.text l) ∧
      a.defective = false ∧
      ∀ d ∈ a.diagnostics.entries,
        IsRoutine (missingAbandoned l abandon (rules ++ additional)) a.items d := by
  have hfunctions := RuleFunctions.ofPlan_eq config.options l plan.planned
  -- a rule with a function of its own can also be compiled with the check of its root
  have haccepted : ∀ p ∈ plan.planned.filter (·.rule.compiles config.options l),
      p.rule.IsAccepted { config.options with skipRootGuard := false } l := by
    intro p hp
    exact (Rule.compiles_iff.1 (List.mem_filter.1 hp).2).of_options rfl
  obtain ⟨phases, hphases, hp⟩ := PhaseFunctions.accounts_foldlM haccepted plan.phases
  have hgenerate : ∃ a, generateFrom l config rules additional abandon = .ok a ∧
      a.items = plan.items ++ plan.planned.map (·.item config.options l) ∧
      a.phases = phases.phases ∧ a.additional = additional.map (·.text l) ∧
      a.defective = (false || phases.defective) ∧
      a.diagnostics.entries = missingAbandoned l abandon (rules ++ additional) ++ plan.reports ++
        plan.planned.map (·.report config.options l) ++ phases.reports := by
    simp only [generateFrom, ← hplan]
    rw [Config.options] at hfunctions hphases
    simp only [hfunctions, bind, Except.bind, hphases]
    exact ⟨_, rfl, rfl, rfl, rfl, rfl, rfl⟩
  obtain ⟨a, ha, hitems, haphases, hadditional, hdefective, hreports⟩ := hgenerate
  refine ⟨a, phases, ha, hp, hitems, haphases, hadditional, by rw [hdefective, hp.defective]; rfl,
    ?_⟩
  rw [hreports, hitems]
  refine List.forall_mem_append.2
    ⟨List.forall_mem_append.2 ⟨List.forall_mem_append.2 ⟨?_, ?_⟩, ?_⟩, ?_⟩
  · exact fun d hd => .missing hd
  · subst hplan
    intro d hd
    exact ((Survey.follows_foldl l _).reports d hd).mono (List.nil_subset _)
      (List.subset_append_left _ _)
  · refine List.forall_mem_map.2 fun p hp => (p.report_isRoutine _ l).mono (List.nil_subset _) ?_
    rw [List.cons_subset]
    exact ⟨List.mem_append_right _ (List.mem_map_of_mem hp), List.nil_subset _⟩
  · intro d hd
    obtain ⟨message, rfl⟩ := hp.reports d hd
    exact .note message

/-- The rules of a set are generated from with those of the configuration. -/
theorem RuleSet.exists_of_generate {s : RuleSet} {config : Config} {a : Artifact}
    (h : s.generate config = .ok a) :
    ∃ additional abandon, config.additionalRules s.language = .ok additional ∧
      config.abandonedRules s.language = .ok abandon ∧
      generateFrom s.language config s.rules additional abandon = .ok a := by
  unfold RuleSet.generate at h
  split at h
  · cases h
  · split at h
    · cases h
    · exact ⟨_, _, by assumption, by assumption, h⟩

end Rulewright
