import Mathlib.Data.List.Basic
import Mathlib.Data.List.Induction
import Rulewright.Artifact.Plan

/-!
# Rules before they are compiled

Rules are looked at one after the other. Each leaves a comment or is accepted into a bucket, which
depends on the rule alone, and what is reported are skipped rules and operators without declaration.

* `TextedRule.comment?`, `TextedRule.candidate?`: what one rule leaves.
* `IsRoutine`: the reports that say nothing about a rule that is compiled.
* `Survey.follows_foldl`: what is known after looking at rules, rule by rule.
-/

namespace Rulewright

variable {l : Language}

/-! ### Reports -/

/-- A report that says nothing about a rule that is compiled, but perhaps that its operators are
not declared. The other ones are on rules to abandon that are not there, and on skipped rules. -/
inductive IsRoutine (missing : List Diagnostic) (items : List RuleItem) : Diagnostic → Prop where
  | note (message : String) : IsRoutine missing items (.note message)
  | missing {d : Diagnostic} (h : d ∈ missing) : IsRoutine missing items d
  | skipped {rule reason : String} (h : RuleItem.skipped rule reason ∈ items) :
      IsRoutine missing items (RuleItem.skipWarning rule reason)
  | undeclared (rule operator : String) :
      IsRoutine missing items (Survey.undeclaredWarning rule operator)

namespace IsRoutine

variable {missing missing' : List Diagnostic} {items items' : List RuleItem} {d : Diagnostic}

theorem mono (h : IsRoutine missing items d) (hmissing : missing ⊆ missing')
    (hitems : items ⊆ items') : IsRoutine missing' items' d := by
  cases h with
  | note message => exact .note message
  | missing h => exact .missing (hmissing h)
  | skipped h => exact .skipped (hitems h)
  | undeclared rule operator => exact .undeclared rule operator

/-- Such a report is no error, unless one is said to be missing. -/
theorem severity_ne_error (h : IsRoutine missing items d)
    (hmissing : ∀ d ∈ missing, d.severity ≠ .error) : d.severity ≠ .error := by
  cases h with
  | missing h => exact hmissing d h
  | _ => exact fun h => Severity.noConfusion h

end IsRoutine

/-- The name and the rule of a function. -/
def RuleItem.function? : RuleItem → Option (String × String)
  | .function name rule _ => some (name, rule)
  | _ => none

/-! ### Verdicts -/

/-- The rule is neither abandoned nor refused before it is compiled. -/
def Rule.isAdmitted (l : Language) (r : Rule) : Bool :=
  !r.abandoned && r.problems.isEmpty && (Bucket.of? l r.pattern).isSome

/-- What the verdict on a rule says about it. -/
theorem Rule.verdict_cases (l : Language) (r : Rule) :
    (∃ operator, r.verdict l = .abandoned operator ∧ r.abandoned = true ∧ r.isAdmitted l = false) ∨
      (∃ reason, r.verdict l = .skipped reason ∧ r.abandoned = false ∧ r.isAdmitted l = false) ∨
      ∃ bucket, r.verdict l = .accepted bucket ∧ r.abandoned = false ∧ r.isAdmitted l = true ∧
        Bucket.of? l r.pattern = some bucket := by
  unfold Rule.verdict Rule.isAdmitted
  cases habandoned : r.abandoned with
  | true => exact .inl ⟨_, rfl, rfl, rfl⟩
  | false =>
    cases hproblems : r.problems.isEmpty with
    | false => exact .inr (.inl ⟨_, rfl, rfl, rfl⟩)
    | true =>
      cases hbucket : Bucket.of? l r.pattern with
      | none => exact .inr (.inl ⟨_, rfl, rfl, rfl⟩)
      | some bucket => exact .inr (.inr ⟨bucket, rfl, rfl, rfl, rfl⟩)

namespace TextedRule

/-- The comment that a rule leaves which is not accepted. -/
def comment? (l : Language) (r : TextedRule) : Option RuleItem :=
  match r.rule.verdict l with
  | .abandoned operator => some (.abandoned operator r.text)
  | .skipped reason => some (.skipped r.text reason)
  | .accepted _ => none

theorem function?_comment? {r : TextedRule} {item : RuleItem} (h : r.comment? l = some item) :
    item.function? = none := by
  unfold comment? at h
  split at h <;> cases h <;> rfl

/-- The rule in its bucket, if it is accepted. -/
def candidate? (l : Language) (r : TextedRule) : Option Candidate :=
  match r.rule.verdict l with
  | .accepted bucket => some { r with bucket }
  | _ => none

theorem candidate?_eq_some {r : TextedRule} {c : Candidate} (h : r.candidate? l = some c) :
    c.toTextedRule = r ∧ Bucket.of? l c.rule.pattern = some c.bucket := by
  obtain ⟨_, hverdict, -⟩ | ⟨_, hverdict, -⟩ | ⟨bucket, hverdict, -, -, hbucket⟩ :=
    r.rule.verdict_cases l
  · rw [candidate?, hverdict] at h
    cases h
  · rw [candidate?, hverdict] at h
    cases h
  · rw [candidate?, hverdict] at h
    cases h
    exact ⟨rfl, hbucket⟩

/-- The accepted rules are the admitted ones. -/
theorem map_candidate? (l : Language) (texted : List TextedRule) :
    (texted.filterMap (·.candidate? l)).map Candidate.toTextedRule =
      texted.filter (·.rule.isAdmitted l) := by
  rw [List.map_filterMap, ← List.filterMap_eq_filter]
  refine List.filterMap_congr fun r _ => ?_
  obtain ⟨_, hverdict, -, hadmitted⟩ | ⟨_, hverdict, -, hadmitted⟩ |
    ⟨bucket, hverdict, -, hadmitted, -⟩ := r.rule.verdict_cases l
  all_goals simp [candidate?, hverdict, Option.guard, hadmitted]

end TextedRule

/-! ### Surveys -/

namespace Survey

/-- What a survey says about the rules that were looked at. -/
structure Follows (l : Language) (s : Survey) (texted : List TextedRule) : Prop where
  items : s.items = texted.filterMap (·.comment? l)
  accepted : s.accepted = texted.filterMap (·.candidate? l)
  reports : ∀ d ∈ s.reports, IsRoutine [] s.items d

/-- One more rule. -/
theorem Follows.add {s : Survey} {texted : List TextedRule} (h : s.Follows l texted)
    (r : TextedRule) : (s.add l r).Follows l (texted ++ [r]) := by
  have hkeep : ∀ item, ∀ d ∈ s.reports, IsRoutine [] (s.items ++ [item]) d := fun item d hd =>
    (h.reports d hd).mono (List.Subset.refl _) (List.subset_append_left _ _)
  unfold Survey.add
  cases hverdict : r.rule.verdict l with
  | abandoned operator =>
    exact ⟨by simp [h.items, TextedRule.comment?, hverdict],
      by simp [h.accepted, TextedRule.candidate?, hverdict], hkeep _⟩
  | skipped reason =>
    refine ⟨by simp [h.items, TextedRule.comment?, hverdict],
      by simp [h.accepted, TextedRule.candidate?, hverdict],
      List.forall_mem_append.2 ⟨hkeep _, List.forall_mem_singleton.2 (.skipped ?_)⟩⟩
    exact List.mem_append_right _ (List.mem_singleton_self _)
  | accepted bucket =>
    refine ⟨by simp [h.items, TextedRule.comment?, hverdict],
      by simp [h.accepted, TextedRule.candidate?, hverdict],
      List.forall_mem_append.2 ⟨h.reports, List.forall_mem_map.2 fun operator _ => ?_⟩⟩
    exact .undeclared r.text operator

/-- **Looking at rules**, one after the other. -/
theorem follows_foldl (l : Language) (texted : List TextedRule) :
    (texted.foldl (Survey.add l) .start).Follows l texted := by
  induction texted using List.reverseRecOn with
  | nil => exact ⟨rfl, rfl, List.forall_mem_nil _⟩
  | append_singleton texted r ih =>
    rw [List.foldl_append]
    exact ih.add r

end Survey

/-- A rule with its text. -/
def Plan.texted (l : Language) (r : Rule) : TextedRule := { text := r.text l, rule := r }

/-- The items of a plan are the comments of its rules, in their order. -/
theorem Plan.items_ofRules (l : Language) (rules : List Rule) :
    (Plan.ofRules l rules).items = (Plan.ordered l rules).filterMap (·.comment? l) :=
  (Survey.follows_foldl l _).items

end Rulewright
