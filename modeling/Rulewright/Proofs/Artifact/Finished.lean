import Rulewright.Proofs.Artifact.Stages

/-!
# Generated code is finished

There is an artifact for every readable configuration, since no rule ends the generation. No
integrity check of a generation finds anything, and no placeholder is left where code is written.

* `generateFrom_finished`: the artifact is not defective and no error is reported.
* `generate_finished`: so it is for rule sets, and all their code is finished.
-/

namespace Rulewright

theorem generateFrom_finished (l : Language) (config : Config)
    (rules additional abandon : List Rule) :
    ∃ a, generateFrom l config rules additional abandon = .ok a ∧ a.defective = false ∧
      a.diagnostics.hasErrors = false := by
  have hplan := Eq.refl (Plan.ofRules l (markAbandoned abandon (rules ++ additional)))
  obtain ⟨a, -, ha, -, -, -, -, hdefective, hreports⟩ := generateFrom_stages config hplan
  refine ⟨a, ha, hdefective, ?_⟩
  have hmissing : ∀ d ∈ missingAbandoned l abandon (rules ++ additional), d.severity ≠ .error :=
    List.forall_mem_map.2 fun target _ h => Severity.noConfusion h
  rw [Diagnostics.hasErrors, List.any_eq_false]
  intro d hd
  simpa using (hreports d hd).severity_ne_error hmissing

/-- **Generated code is never defective.** A rule set has an artifact for every configuration with
readable rules, no error is reported on it, and all code that is written, of single rules and of
fused ones, has its links in step and no place left open. -/
theorem generate_finished {s : RuleSet} {config : Config} {additional abandon : List Rule}
    (hadditional : config.additionalRules s.language = .ok additional)
    (habandon : config.abandonedRules s.language = .ok abandon) :
    (∃ a, s.generate config = .ok a ∧ a.defective = false ∧ a.diagnostics.hasErrors = false) ∧
    (∀ (o : CompileOptions) (r : Rule) (c c' : Code) (head : NodeId),
      r.compile o s.language c = (.ok head, c') → c'.IsFinished head) ∧
    ∀ (o : CompileOptions) (rules : List PlannedRule), rules ≠ [] →
      (∀ p ∈ rules, p.rule.IsAccepted o s.language) →
      ∃ f head, FusedCode.ofRules o s.language rules = .ok f ∧ f.head = some head ∧
        f.code.IsFinished head ∧ (f.code.eliminateRedundancy head).IsFinished head := by
  refine ⟨?_, fun o r c c' head h => Rule.compile_finished h,
    fun o rules hne hr => FusedCode.ofRules_finished hne hr⟩
  obtain ⟨a, ha, hdefective, herrors⟩ :=
    generateFrom_finished s.language config s.rules additional abandon
  exact ⟨a, by rw [RuleSet.generate, hadditional, habandon]; exact ha, hdefective, herrors⟩

/-- A configuration that adds `(- $0 (? $1 0)) ==> $0` and `(sin (? $0 0)) ==> 0`, of which the
second one cannot be compiled, and abandons `(+ $0 0) ==> $0`. -/
def Config.differences : Config :=
  let rule (pattern replacement : String) : RuleDefinition :=
    ⟨pattern, replacement, [], .noCheck, 1, false⟩
  { foldConstants := true
    skipRootGuard := true
    abandon := [rule "(+ $0 0)" "$0"]
    additional := [rule "(- $0 (? $1 0))" "$0", rule "(sin (? $0 0))" "0"] }

/-- The rules on sums. -/
def RuleSet.ofSums : RuleSet := ⟨.arithmetic, sums.map (·.rule)⟩

theorem additionalRules_differences : Config.differences.additionalRules .arithmetic = .ok
    [⟨.app 1 [.metavar 0, .optional (.metavar 1) (.literal (.int 0))], .metavar 0, [], .noCheck, 1,
        false⟩,
      ⟨.app 4 [.optional (.metavar 0) (.literal (.int 0))], .literal (.int 0), [], .noCheck, 1,
        false⟩] := by
  decide +kernel

theorem abandonedRules_differences : Config.differences.abandonedRules .arithmetic =
    .ok [⟨.app 0 [.metavar 0, .literal (.int 0)], .metavar 0, [], .noCheck, 1, false⟩] := by
  decide +kernel

/-- The artifact of the rules on sums with that configuration. -/
theorem generate_differences :
    (Config.differences.additionalRules RuleSet.ofSums.language).isOk ∧
    (Config.differences.abandonedRules RuleSet.ofSums.language).isOk ∧
    ∃ a, RuleSet.ofSums.generate .differences = .ok a ∧ a.defective = false ∧
      a.diagnostics.hasErrors = false := by
  obtain ⟨hartifact, -, -⟩ := generate_finished (s := .ofSums) additionalRules_differences
    abandonedRules_differences
  refine ⟨?_, ?_, hartifact⟩
  · exact congrArg Except.isOk additionalRules_differences
  · exact congrArg Except.isOk abandonedRules_differences

end Rulewright
