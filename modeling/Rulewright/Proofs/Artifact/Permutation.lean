import Rulewright.Proofs.Artifact.Accounting

/-!
# The order of rules does not matter

A generation sorts its rules by text before it does anything else with them, and the sort leaves no
choice as long as rules with one text are equal. Marking the rules to abandon keeps that, since a
mark depends on the rule alone and is no part of its text. What the configuration asks to abandon is
looked for among all rules. So permuted rules have one plan, one list of reports and one artifact.

* `Plan.ordered_eq_of_perm`: permuted rules are sorted into one list.
* `missingAbandoned_eq_of_perm`: and the same rules are reported as missing.
* `generate_eq_of_perm`: so they have one artifact.
-/

namespace Rulewright

/-- Rules with one text are equal. -/
def TextsTell (l : Language) (rules : List Rule) : Prop :=
  ∀ r ∈ rules, ∀ s ∈ rules, r.text l = s.text l → r = s

instance (l : Language) (rules : List Rule) : Decidable (TextsTell l rules) :=
  inferInstanceAs (Decidable (∀ r ∈ rules, ∀ s ∈ rules, r.text l = s.text l → r = s))

/-! ### Marks -/

/-- The mark of a rule is no part of its text. -/
theorem text_mark (l : Language) (abandon : List Rule) (r : Rule) :
    (if abandon.any r.sameRule then r.abandon else r).text l = r.text l := by
  split_ifs <;> rfl

theorem TextsTell.markAbandoned {l : Language} {rules : List Rule} (h : TextsTell l rules)
    (abandon : List Rule) : TextsTell l (markAbandoned abandon rules) := by
  intro marked hmarked marked' hmarked' htext
  obtain ⟨r, hr, rfl⟩ := List.mem_map.1 hmarked
  obtain ⟨s, hs, rfl⟩ := List.mem_map.1 hmarked'
  rw [text_mark, text_mark] at htext
  rw [h r hr s hs htext]

theorem missingAbandoned_eq_of_perm {rules rules' : List Rule} (hperm : rules.Perm rules')
    (l : Language) (abandon : List Rule) :
    missingAbandoned l abandon rules = missingAbandoned l abandon rules' := by
  have hfound : ∀ target : Rule, rules.any (·.sameRule target) = rules'.any (·.sameRule target) :=
    fun _ => hperm.any_eq
  simp only [missingAbandoned, hfound]

/-! ### Plans -/

namespace Plan

/-- **Permuted rules are sorted into one list.** -/
theorem ordered_eq_of_perm {l : Language} {rules rules' : List Rule} (hperm : rules.Perm rules')
    (htell : TextsTell l rules) : ordered l rules = ordered l rules' := by
  have hsame : (ordered l rules).Perm (ordered l rules') :=
    (perm_ordered l rules).trans ((hperm.map (texted l)).trans (perm_ordered l rules').symm)
  have hmem : ∀ {x : TextedRule}, x ∈ ordered l rules → ∃ r ∈ rules, texted l r = x :=
    fun hx => List.mem_map.1 ((perm_ordered l rules).mem_iff.1 hx)
  refine hsame.eq_of_pairwise ?_ (pairwise_ordered l rules) (pairwise_ordered l rules')
  -- neither of two entries comes before the other only if they have one text
  intro a b ha hb hab hba
  obtain ⟨r, hr, rfl⟩ := hmem ha
  obtain ⟨s, hs, rfl⟩ := hmem (hsame.mem_iff.2 hb)
  have htext : compare (r.text l) (s.text l) = .eq := Std.OrientedCmp.isLE_antisymm hab hba
  rw [htell r hr s hs (Std.LawfulEqCmp.eq_of_compare htext)]

theorem ofRules_eq_of_perm {l : Language} {rules rules' : List Rule} (hperm : rules.Perm rules')
    (htell : TextsTell l rules) : Plan.ofRules l rules = Plan.ofRules l rules' := by
  rw [Plan.ofRules, Plan.ofRules, ordered_eq_of_perm hperm htell]

end Plan

/-! ### Artifacts -/

/-- A generation uses the rules of the set in its plan and in its reports on missing rules only. -/
theorem generateFrom_eq_of_perm {l : Language} {rules rules' additional : List Rule}
    (hperm : rules.Perm rules') (htell : TextsTell l (rules ++ additional)) (config : Config)
    (abandon : List Rule) :
    generateFrom l config rules additional abandon =
      generateFrom l config rules' additional abandon := by
  have hall : (rules ++ additional).Perm (rules' ++ additional) := hperm.append_right additional
  have hplan : Plan.ofRules l (markAbandoned abandon (rules ++ additional)) =
      Plan.ofRules l (markAbandoned abandon (rules' ++ additional)) :=
    Plan.ofRules_eq_of_perm (hall.map _) (htell.markAbandoned abandon)
  simp only [generateFrom, hplan, missingAbandoned_eq_of_perm hall]

/-- **The artifact does not depend on the order of the rules.** Rule sets with permuted rules have
one artifact, and so one text, one summary and the same reports in the same order, for every
configuration that can be read, as long as no two different rules among them and the additional ones
have one text. -/
theorem generate_eq_of_perm {l : Language} {rules rules' : List Rule} {config : Config}
    {additional abandon : List Rule} (hadditional : config.additionalRules l = .ok additional)
    (habandon : config.abandonedRules l = .ok abandon) (hperm : rules.Perm rules')
    (htell : TextsTell l (rules ++ additional)) :
    ∃ a, (⟨l, rules⟩ : RuleSet).generate config = .ok a ∧
      (⟨l, rules'⟩ : RuleSet).generate config = .ok a := by
  obtain ⟨a, ha, -, -⟩ := generateFrom_finished l config rules additional abandon
  have hgenerate : ∀ given : List Rule,
      (⟨l, given⟩ : RuleSet).generate config = generateFrom l config given additional abandon :=
    fun given => by simp only [RuleSet.generate, hadditional, habandon]
  exact ⟨a, (hgenerate rules).trans ha,
    (hgenerate rules').trans ((generateFrom_eq_of_perm hperm htell config abandon).symm.trans ha)⟩

/-- The rules on sums, the first of them twice, and one of the configuration, in two orders. -/
theorem generate_sums_permuted :
    let given := sums.map (·.rule)
    let repeated := given ++ given.take 1
    ∃ a, (⟨.arithmetic, repeated⟩ : RuleSet).generate .differences = .ok a ∧
      (⟨.arithmetic, repeated.reverse⟩ : RuleSet).generate .differences = .ok a := by
  exact generate_eq_of_perm additionalRules_differences abandonedRules_differences
    (List.reverse_perm _).symm (by decide +kernel)

end Rulewright
