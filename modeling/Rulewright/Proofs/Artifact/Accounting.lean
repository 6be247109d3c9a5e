import Mathlib.Data.List.Perm.Basic
import Rulewright.Proofs.Artifact.Finished
import Rulewright.Proofs.Artifact.Module
import Rulewright.Proofs.Notation.Storage

/-!
# Every rule is accounted for

A rule that goes into a generation is abandoned, skipped or compiled, and the artifact says which. A
rule that is compiled has one function among the items of the module, which the dispatch function of
its phase calls under the checks for its bucket, and it is also part of the fused function: no rule
is left out there, since it does not matter for compilation whether the root is checked.

* `Rule.fate`: what becomes of a rule.
* `PlannedRule.index_of_functionName`: functions of different rules have different names.
* `Artifact.Accounts`: what an artifact says about rules, in its records and in its text.
* `generate_accounts`: it says so about the rules of its set.
-/

namespace Rulewright

/-- What becomes of a rule. -/
inductive Fate where
  | abandoned
  | skipped
  | compiled
  deriving DecidableEq

namespace Rule

/-- A rule is abandoned if it says so or is the same as a rule to abandon. Any other rule is
compiled if there is no problem with it, it has a bucket and its matcher can be built, and is
skipped if not. -/
def fate (o : CompileOptions) (l : Language) (abandon : List Rule) (r : Rule) : Fate :=
  if r.abandoned || abandon.any r.sameRule then .abandoned
  else if r.problems.isEmpty && (Bucket.of? l r.pattern).isSome && r.compiles o l then .compiled
  else .skipped

variable {o : CompileOptions} {l : Language}

theorem abandoned_of_isAdmitted {r : Rule} (h : r.isAdmitted l = true) : r.abandoned = false := by
  simp only [isAdmitted, Bool.and_eq_true, Bool.not_eq_true'] at h
  exact h.1.1

theorem fate_eq_abandoned_iff {r : Rule} : r.fate o l [] = .abandoned ↔ r.abandoned = true := by
  unfold fate
  cases r.abandoned with
  | true => simp
  | false =>
    simp only [List.any_nil, Bool.or_self, Bool.false_eq_true, if_false]; split_ifs <;> simp

theorem fate_eq_compiled_iff {r : Rule} :
    r.fate o l [] = .compiled ↔ (r.isAdmitted l && r.compiles o l) = true := by
  unfold fate isAdmitted
  cases r.abandoned with
  | true => simp
  | false => cases r.problems.isEmpty <;> cases (Bucket.of? l r.pattern).isSome <;>
      cases r.compiles o l <;> simp

theorem fate_eq_skipped_iff {r : Rule} :
    r.fate o l [] = .skipped ↔ (!r.abandoned && !(r.isAdmitted l && r.compiles o l)) = true := by
  unfold fate isAdmitted
  cases r.abandoned with
  | true => simp
  | false => cases r.problems.isEmpty <;> cases (Bucket.of? l r.pattern).isSome <;>
      cases r.compiles o l <;> simp

/-- Marking the rules to abandon settles what becomes of them. -/
theorem fate_mark (o : CompileOptions) (l : Language) (abandon : List Rule) (r : Rule) :
    (if abandon.any r.sameRule then r.abandon else r).fate o l [] = r.fate o l abandon := by
  cases hany : abandon.any r.sameRule with
  | true => simp [fate, Rule.abandon, hany]
  | false => simp [fate, hany]

/-- A rule that is not abandoned stays as it is. -/
theorem mark_of_compiled {abandon : List Rule} {r : Rule} (h : r.fate o l abandon = .compiled) :
    (if abandon.any r.sameRule then r.abandon else r) = r := by
  cases hany : abandon.any r.sameRule with
  | true => simp [fate, hany] at h
  | false => rfl

/-- With multiplicity, every rule has one fate. -/
theorem length_fates (o : CompileOptions) (l : Language) (abandon rules : List Rule) :
    (rules.filter (·.fate o l abandon = .compiled)).length +
      (rules.filter (·.fate o l abandon = .skipped)).length +
      (rules.filter (·.fate o l abandon = .abandoned)).length = rules.length := by
  induction rules with
  | nil => rfl
  | cons r rules ih =>
    cases h : r.fate o l abandon <;> simp [h] <;> omega

end Rule

/-! ### Lists -/

/-- What is said about the members that pass a test. -/
theorem filterMap_of_keep {α β : Type} {view : α → Option β} {keep : α → Bool} {entry : α → β}
    (h : ∀ x, view x = if keep x then some (entry x) else none) (xs : List α) :
    xs.filterMap view = (xs.filter keep).map entry := by
  induction xs with
  | nil => rfl
  | cons x xs ih =>
    rw [List.filterMap_cons, h x, ih]
    cases hkeep : keep x <;> simp [hkeep]

/-- A test that is one of two that exclude each other. -/
theorem perm_filter_append {α : Type} {a b c : α → Bool} (hc : ∀ x, c x = (a x || b x))
    (hab : ∀ x, a x = true → b x = false) (xs : List α) :
    (xs.filter a ++ xs.filter b).Perm (xs.filter c) := by
  have hsplit := List.filter_append_perm a (xs.filter c)
  have hfirst : (xs.filter c).filter a = xs.filter a := by
    rw [List.filter_filter]
    refine List.filter_congr fun x _ => ?_
    rw [hc]
    cases a x <;> rfl
  have hsecond : ((xs.filter c).filter fun x => !a x) = xs.filter b := by
    rw [List.filter_filter]
    refine List.filter_congr fun x _ => ?_
    rw [hc]
    cases hx : a x with
    | true => rw [hab x hx]; rfl
    | false => rfl
  rwa [hfirst, hsecond] at hsplit

variable {o : CompileOptions} {l : Language}

/-! ### Looking at rules -/

/-- What the comments say of rules that are not accepted. -/
theorem views_comments (l : Language) (texted : List TextedRule) :
    (texted.filterMap (·.comment? l)).filterMap (·.abandonedRule?) =
        (texted.filter (·.rule.abandoned)).map (·.text) ∧
      (texted.filterMap (·.comment? l)).filterMap (·.skippedRule?) =
        (texted.filter fun r => !r.rule.abandoned && !r.rule.isAdmitted l).map (·.text) ∧
      (texted.filterMap (·.comment? l)).filterMap (·.function?) = [] := by
  simp only [List.filterMap_filterMap]
  refine ⟨filterMap_of_keep (fun r => ?_) _, filterMap_of_keep (fun r => ?_) _, ?_⟩
  · obtain ⟨_, hverdict, habandoned, -⟩ | ⟨_, hverdict, habandoned, -⟩ |
      ⟨_, hverdict, habandoned, -, -⟩ := r.rule.verdict_cases l
    all_goals simp [TextedRule.comment?, hverdict, habandoned, RuleItem.abandonedRule?]
  · obtain ⟨_, hverdict, habandoned, -⟩ | ⟨_, hverdict, habandoned, hadmitted⟩ |
      ⟨_, hverdict, -, hadmitted, -⟩ := r.rule.verdict_cases l
    · simp [TextedRule.comment?, hverdict, habandoned, RuleItem.skippedRule?]
    · simp [TextedRule.comment?, hverdict, habandoned, hadmitted, RuleItem.skippedRule?]
    · simp [TextedRule.comment?, hverdict, hadmitted]
  · refine List.filterMap_eq_nil_iff.2 fun r _ => ?_
    cases hcomment : r.comment? l with
    | none => rfl
    | some item => exact TextedRule.function?_comment? hcomment

namespace Plan

variable (l : Language) (rules : List Rule)

theorem perm_ordered : (ordered l rules).Perm (rules.map (texted l)) := List.mergeSort_perm _ _

/-- The ordered rules that pass a test are the rules that do. -/
theorem perm_filter_ordered (test : Rule → Bool) :
    ((ordered l rules).filter fun r => test r.rule).Perm ((rules.filter test).map (texted l)) := by
  have hfilter := (perm_ordered l rules).filter fun r => test r.rule
  rw [List.filter_map] at hfilter
  exact hfilter

theorem map_toCandidate_planned :
    (Plan.ofRules l rules).planned.map PlannedRule.toCandidate =
      ((ordered l rules).foldl (Survey.add l) .start).accepted.mergeSort fun a b =>
        (a.cmp b).isLE := by
  refine List.ext_getElem (by simp [Plan.ofRules]) fun i hi hi' => ?_
  simp [Plan.ofRules]

/-- The planned rules are the admitted ones. -/
theorem perm_planned :
    ((Plan.ofRules l rules).planned.map fun p => p.toTextedRule).Perm
      ((rules.filter (·.isAdmitted l)).map (texted l)) := by
  have hmap : ((Plan.ofRules l rules).planned.map fun p => p.toTextedRule) =
      ((Plan.ofRules l rules).planned.map PlannedRule.toCandidate).map Candidate.toTextedRule := by
    rw [List.map_map]
    rfl
  rw [hmap, map_toCandidate_planned]
  refine ((List.mergeSort_perm _ _).map _).trans ?_
  rw [(Survey.follows_foldl l _).accepted, TextedRule.map_candidate?]
  exact perm_filter_ordered l rules (·.isAdmitted l)

/-- The same for those that pass a test. -/
theorem perm_filter_planned (test : Rule → Bool) :
    (((Plan.ofRules l rules).planned.filter fun p => test p.rule).map fun p => p.toTextedRule).Perm
      ((rules.filter fun r => r.isAdmitted l && test r).map (texted l)) := by
  have hfilter := (perm_planned l rules).filter fun r => test r.rule
  rw [List.filter_map, List.filter_map, List.filter_filter] at hfilter
  simpa [Function.comp_def, texted, Bool.and_comm] using hfilter

/-- Rules are numbered as they come. -/
theorem pairwise_index : (Plan.ofRules l rules).planned.Pairwise fun p q => p.index < q.index := by
  rw [List.pairwise_iff_getElem]
  intro i j hi hj hij
  simpa [Plan.ofRules] using hij

end Plan

/-! ### The functions of rules -/

/-- The number of a rule is behind the last underscore of the name of its function. -/
theorem PlannedRule.index_of_functionName {p q : PlannedRule}
    (h : p.functionName = q.functionName) : p.index = q.index := by
  have hlist : ∀ p : PlannedRule, p.functionName.toList.reverse =
      (Nat.toDigits 10 p.index).reverse ++ '_' :: p.bucket.functionStem.toList.reverse := by
    intro p
    rw [functionName, String.toList_append, String.toList_append, Decimal.toList_toString]
    simp
  have hdigits : ∀ p : PlannedRule,
      p.functionName.toList.reverse.takeWhile (· != '_') = (Nat.toDigits 10 p.index).reverse := by
    intro p
    have hnot : ∀ c ∈ (Nat.toDigits 10 p.index).reverse, (c != '_') = true := by
      intro c hc
      have hdigit := Decimal.isDigit_toDigits (List.mem_reverse.1 hc)
      rw [bne_iff_ne]
      rintro rfl
      cases hdigit
    rw [hlist, List.takeWhile_append_of_pos hnot, List.takeWhile_cons_of_neg (by decide),
      List.append_nil]
  have hsame : (Nat.toDigits 10 p.index).reverse = (Nat.toDigits 10 q.index).reverse := by
    rw [← hdigits p, ← hdigits q, h]
  exact Decimal.toDigits_inj (by decide) (by decide) (List.reverse_injective hsame)

theorem nodup_functionName {planned : List PlannedRule}
    (h : planned.Pairwise fun p q => p.index < q.index) : (planned.map (·.functionName)).Nodup := by
  refine List.pairwise_map.2 (h.imp fun {p q} hlt hname => ?_)
  exact Nat.ne_of_lt hlt (PlannedRule.index_of_functionName hname)

/-- What the items of planned rules say. -/
theorem views_items (o : CompileOptions) (l : Language) (planned : List PlannedRule) :
    (planned.map (·.item o l)).filterMap (·.abandonedRule?) = [] ∧
      (planned.map (·.item o l)).filterMap (·.skippedRule?) =
        (planned.filter fun p => !p.rule.compiles o l).map (·.text) ∧
      (planned.map (·.item o l)).filterMap (·.function?) =
        (planned.filter (·.rule.compiles o l)).map fun p => (p.functionName, p.text) := by
  simp only [List.filterMap_map]
  refine ⟨List.filterMap_eq_nil_iff.2 fun p _ => ?_, filterMap_of_keep (fun p => ?_) _,
    filterMap_of_keep (fun p => ?_) _⟩
  all_goals
    obtain ⟨hcompiles, _, _, -, hcompile⟩ | ⟨hcompiles, _, _, -, hcompile, -⟩ := p.compile_cases o l
  all_goals simp [PlannedRule.item, hcompile, hcompiles, RuleItem.abandonedRule?,
    RuleItem.skippedRule?, RuleItem.function?]

/-! ### The functions of phases -/

/-- The calls of a dispatch function: phase, bucket and function. -/
def PhaseCode.calls (q : PhaseCode) : List (Int × Bucket × String) :=
  q.buckets.flatMap fun b => b.2.map fun name => (q.phase, b.1, name)

/-- The calls of all dispatch functions. -/
def Artifact.calls (a : Artifact) : List (Int × Bucket × String) := a.phases.flatMap PhaseCode.calls

/-- The call that a rule should have. -/
def PlannedRule.call (p : PlannedRule) : Int × Bucket × String :=
  (p.rule.phase, p.bucket, p.functionName)

/-- The rules by phase are the rules. -/
theorem perm_flatMap_ofPhase {phases : List Int} (hphases : phases.Nodup)
    (compiled : List PlannedRule) :
    (phases.flatMap (ofPhase compiled)).Perm
      (compiled.filter fun p => phases.contains p.rule.phase) := by
  induction phases with
  | nil => simp
  | cons phase rest ih =>
    obtain ⟨hnot, hrest⟩ := List.nodup_cons.1 hphases
    -- those of the first phase, and those of the other ones
    have hsplit : (ofPhase compiled phase ++
        compiled.filter fun p => rest.contains p.rule.phase).Perm
        (compiled.filter fun p => (phase :: rest).contains p.rule.phase) := by
      refine perm_filter_append (fun p => List.contains_cons) (fun p hp => ?_) compiled
      rw [beq_iff_eq] at hp
      rw [hp]
      simpa using hnot
    exact ((ih hrest).append_left _).trans hsplit

/-- The calls of a phase are those of its rules. -/
theorem calls_eq {q : PhaseCode} {compiled : List PlannedRule}
    (h : q.buckets = bucketFunctions (ofPhase compiled q.phase)) :
    q.calls = (ofPhase compiled q.phase).map PlannedRule.call := by
  have hbucket : ∀ b ∈ ruleBuckets (ofPhase compiled q.phase),
      ((b.2.map (·.functionName)).map fun name => (q.phase, b.1, name)) =
        b.2.map PlannedRule.call := by
    intro b hb
    rw [List.map_map]
    refine List.map_congr_left fun p hp => ?_
    have hmem : p ∈ ofPhase compiled q.phase := by
      rw [← flatMap_ruleBuckets (ofPhase compiled q.phase)]
      exact List.mem_flatMap.2 ⟨b, hb, hp⟩
    have hphase : p.rule.phase = q.phase := by simpa [ofPhase] using (List.mem_filter.1 hmem).2
    simp only [Function.comp_apply, PlannedRule.call, hphase, bucket_of_mem_ruleBuckets hb p hp]
  rw [PhaseCode.calls, h, bucketFunctions_eq, List.flatMap_map]
  conv_rhs => rw [← flatMap_ruleBuckets (ofPhase compiled q.phase), List.map_flatMap]
  exact List.flatMap_congr hbucket

/-- Every compiled rule is called once, from its bucket and its phase. -/
theorem PhaseFunctions.Accounts.perm_calls {compiled : List PlannedRule} {f : PhaseFunctions}
    {phases : List Int} (h : f.Accounts o l compiled phases) (hphases : phases.Nodup)
    (hall : ∀ p ∈ compiled, p.rule.phase ∈ phases) :
    (f.phases.flatMap PhaseCode.calls).Perm (compiled.map PlannedRule.call) := by
  have hcalls : f.phases.flatMap PhaseCode.calls =
      (phases.flatMap (ofPhase compiled)).map PlannedRule.call := by
    rw [← h.phases, List.flatMap_map, List.map_flatMap]
    exact List.flatMap_congr fun q hq => calls_eq (h.buckets q hq)
  have hfilter : (compiled.filter fun p => phases.contains p.rule.phase) = compiled :=
    List.filter_eq_self.2 fun p hp => by simpa using hall p hp
  rw [hcalls]
  refine List.Perm.map _ ?_
  rw [← hfilter]
  convert perm_flatMap_ofPhase hphases compiled using 3

/-! ### The artifact -/

/-- What an artifact says about rules, of which those are given that are compiled. -/
structure Artifact.Accounts (o : CompileOptions) (l : Language) (abandon rules : List Rule)
    (built : List PlannedRule) (a : Artifact) : Prop where
  abandoned : a.summary.abandoned.Perm
    ((rules.filter (·.fate o l abandon = .abandoned)).map (·.text l))
  skipped : a.summary.skipped.Perm ((rules.filter (·.fate o l abandon = .skipped)).map (·.text l))
  compiled : (built.map (·.rule)).Perm (rules.filter (·.fate o l abandon = .compiled))
  total : a.summary.compiled + a.summary.skipped.length + a.summary.abandoned.length = rules.length
  /-- Every compiled rule has one function, with a name of its own. -/
  functions : a.items.filterMap (·.function?) = built.map fun p => (p.functionName, p.rule.text l)
  names : (built.map (·.functionName)).Nodup
  /-- Every phase has one dispatch function, and every compiled rule is called once, from its phase
  and its bucket. -/
  phases : a.summary.phases.Nodup
  calls : a.calls.Perm (built.map PlannedRule.call)
  buckets : ∀ p ∈ built, Bucket.of? l p.rule.pattern = some p.bucket
  /-- So it is written: the file is made of the items of the module, each compiled rule has one
  item, which defines its function with its code, and each phase has one for its dispatch function
  and one for its fused function. -/
  text : a.text = fileText a.header a.moduleItems
  entries : ∃ entries, List.Forall₂ (IsItem o l built) entries a.moduleItems ∧
    entries.filterMap (·.rule?) = built ∧ entries.filterMap (·.dispatch?) = a.summary.phases ∧
    entries.filterMap (·.fused?) = a.summary.phases
  /-- A dispatch function calls the functions of the rules of its phase, each of them once and under
  the checks for its bucket. -/
  dispatched : ∀ phase, DispatchStmt.callsAll [] (dispatchCode (ofPhase built phase)) =
    (ofPhase built phase).map fun p => (p.bucket.tests, p)
  /-- The fused function of a phase has all its compiled rules, and no warning is about one that was
  left out. -/
  fused : ∀ q ∈ a.phases,
    IsFused { o with skipRootGuard := false } l (ofPhase built q.phase) q.phase q.fusedBody
  reports : ∀ d ∈ a.diagnostics.entries, IsRoutine (missingAbandoned l abandon rules) a.items d

section Marked

variable (o : CompileOptions) (l : Language) (abandon rules : List Rule)

/-- The texts of the marked rules of a fate are those of the rules of this fate. -/
theorem map_text_markAbandoned {test : Rule → Bool} {f : Fate}
    (h : ∀ r : Rule, r.fate o l [] = f ↔ test r = true) :
    ((markAbandoned abandon rules).filter test).map (·.text l) =
      (rules.filter (·.fate o l abandon = f)).map (·.text l) := by
  have hfilter : (rules.filter fun r => test (if abandon.any r.sameRule then r.abandon else r)) =
      rules.filter (·.fate o l abandon = f) := by
    refine List.filter_congr fun r _ => ?_
    rw [Bool.eq_iff_iff, ← h, Rule.fate_mark, decide_eq_true_eq]
  rw [markAbandoned, List.filter_map, List.map_map, ← hfilter]
  refine List.map_congr_left fun r _ => ?_
  -- the text does not show whether a rule is abandoned
  cases hany : abandon.any r.sameRule <;> simp only [Function.comp_apply, hany, if_true] <;> rfl

/-- The marked rules that are compiled are as they were. -/
theorem filter_markAbandoned_compiled :
    ((markAbandoned abandon rules).filter fun r => r.isAdmitted l && r.compiles o l) =
      rules.filter (·.fate o l abandon = .compiled) := by
  have hfilter : (rules.filter fun r =>
      (fun r : Rule => r.isAdmitted l && r.compiles o l)
        (if abandon.any r.sameRule then r.abandon else r)) =
      rules.filter (·.fate o l abandon = .compiled) := by
    refine List.filter_congr fun r _ => ?_
    rw [Bool.eq_iff_iff, ← Rule.fate_eq_compiled_iff, Rule.fate_mark, decide_eq_true_eq]
  rw [markAbandoned, List.filter_map]
  refine (congrArg _ hfilter).trans ?_
  conv_rhs => rw [← List.map_id (rules.filter _)]
  refine List.map_congr_left fun r hr => ?_
  exact Rule.mark_of_compiled (by simpa using (List.mem_filter.1 hr).2)

end Marked

section Stages

variable (o : CompileOptions) (l : Language) (abandon rules : List Rule)

theorem perm_abandoned {plan : Plan} (hplan : plan = Plan.ofRules l (markAbandoned abandon rules)) :
    ((plan.items ++ plan.planned.map (·.item o l)).filterMap (·.abandonedRule?)).Perm
      ((rules.filter (·.fate o l abandon = .abandoned)).map (·.text l)) := by
  subst hplan
  rw [List.filterMap_append, (views_items o l _).1, List.append_nil, Plan.items_ofRules,
    (views_comments l _).1,
    ← map_text_markAbandoned o l abandon rules fun r => Rule.fate_eq_abandoned_iff]
  simpa [Function.comp_def, Plan.texted] using
    (Plan.perm_filter_ordered l (markAbandoned abandon rules) (·.abandoned)).map (·.text)

/-- A rule is skipped before it is compiled or because it cannot be. -/
theorem perm_skipped {plan : Plan} (hplan : plan = Plan.ofRules l (markAbandoned abandon rules)) :
    ((plan.items ++ plan.planned.map (·.item o l)).filterMap (·.skippedRule?)).Perm
      ((rules.filter (·.fate o l abandon = .skipped)).map (·.text l)) := by
  subst hplan
  set marked := markAbandoned abandon rules with hmarked
  -- skipped before anything is compiled
  have hbefore : ((Plan.ofRules l marked).items.filterMap (·.skippedRule?)).Perm
      ((marked.filter fun r => !r.abandoned && !r.isAdmitted l).map (·.text l)) := by
    rw [Plan.items_ofRules, (views_comments l _).2.1]
    simpa [Function.comp_def, Plan.texted] using
      (Plan.perm_filter_ordered l marked fun r => !r.abandoned && !r.isAdmitted l).map (·.text)
  -- skipped because it cannot be compiled
  have hafter : (((Plan.ofRules l marked).planned.map (·.item o l)).filterMap
      (·.skippedRule?)).Perm
        ((marked.filter fun r => r.isAdmitted l && !r.compiles o l).map (·.text l)) := by
    rw [(views_items o l _).2.1]
    simpa [Function.comp_def, Plan.texted] using
      (Plan.perm_filter_planned l marked fun r => !r.compiles o l).map (·.text)
  -- no rule is skipped for both reasons
  have hsplit : ((marked.filter fun r => !r.abandoned && !r.isAdmitted l) ++
      marked.filter fun r => r.isAdmitted l && !r.compiles o l).Perm
        (marked.filter fun r => !r.abandoned && !(r.isAdmitted l && r.compiles o l)) := by
    refine perm_filter_append (fun r => ?_) (fun r hr => ?_) marked
    · cases hadmitted : r.isAdmitted l with
      | true => rw [Rule.abandoned_of_isAdmitted hadmitted]; rfl
      | false => cases r.abandoned <;> rfl
    · simp only [Bool.and_eq_true, Bool.not_eq_true'] at hr
      rw [hr.2, Bool.false_and]
  rw [List.filterMap_append, ← map_text_markAbandoned o l abandon rules fun r =>
    Rule.fate_eq_skipped_iff, ← hmarked]
  refine (hbefore.append hafter).trans ?_
  rw [← List.map_append]
  exact hsplit.map _

theorem perm_compiled {plan : Plan} (hplan : plan = Plan.ofRules l (markAbandoned abandon rules)) :
    ((plan.planned.filter (·.rule.compiles o l)).map (·.rule)).Perm
      (rules.filter (·.fate o l abandon = .compiled)) := by
  subst hplan
  rw [← filter_markAbandoned_compiled]
  simpa [Function.comp_def, Plan.texted] using
    (Plan.perm_filter_planned l (markAbandoned abandon rules) fun r => r.compiles o l).map (·.rule)

end Stages

theorem filterMap_functionName? (items : List RuleItem) :
    items.filterMap (·.functionName?) = (items.filterMap (·.function?)).map Prod.fst := by
  rw [List.map_filterMap]
  refine List.filterMap_congr fun item _ => ?_
  cases item <;> rfl

/-- **Every generation accounts for its rules.** -/
theorem generateFrom_accounts (l : Language) (config : Config)
    (rules additional abandon : List Rule) :
    ∃ a built, generateFrom l config rules additional abandon = .ok a ∧
      a.Accounts config.options l abandon (rules ++ additional) built := by
  set plan := Plan.ofRules l (markAbandoned abandon (rules ++ additional)) with hplan
  set built := plan.planned.filter (·.rule.compiles config.options l) with hbuilt
  obtain ⟨a, phases, ha, hp, hitems, haphases, -, -, hreports⟩ := generateFrom_stages config hplan
  have hplanned : ∀ p ∈ built, p ∈ plan.planned := fun p hp => List.mem_of_mem_filter hp
  have hall : ∀ p ∈ built, p.rule.phase ∈ plan.phases := fun p hp =>
    (mem_sortedSet _ _).2 (List.mem_map_of_mem (hplanned p hp))
  -- only the functions of single rules are items with a function, and they are in the order of the
  -- plan
  have hfunctions : a.items.filterMap (·.function?) =
      built.map fun p => (p.functionName, p.rule.text l) := by
    rw [hitems, List.filterMap_append, (views_items _ l _).2.2, Plan.items_ofRules,
      (views_comments l _).2.2]
    refine List.map_congr_left fun p hp => ?_
    rw [Plan.text_planned l _ p (hplanned p hp)]
  have hcount : a.summary.compiled = built.length := by
    rw [Artifact.summary, filterMap_functionName?, hfunctions, List.length_map, List.length_map]
  have habandoned := perm_abandoned config.options l abandon (rules ++ additional) hplan
  have hskipped := perm_skipped config.options l abandon (rules ++ additional) hplan
  have hcompiled := perm_compiled config.options l abandon (rules ++ additional) hplan
  rw [← hitems] at habandoned hskipped
  rw [← hbuilt] at hcompiled
  have hentries := generateFrom_entries hplan hbuilt ha
  have htext : a.text = fileText a.header a.moduleItems := by
    obtain ⟨entries, hforall, -⟩ := hentries
    exact Artifact.text_eq
      ((List.forall₂_and_left _ _).1 (hforall.flip.imp fun item entry h => ⟨h.ne_empty, h⟩)).1
  refine ⟨a, built, ha, habandoned, hskipped, hcompiled, ?_, hfunctions, ?_, ?_, ?_, ?_, htext,
    hentries, fun phase => DispatchStmt.callsAll_dispatchCode _, ?_, hreports⟩
  · have hlengths := Rule.length_fates config.options l abandon (rules ++ additional)
    have hbuiltLength := hcompiled.length_eq
    have hsummary : a.summary.skipped.length = _ ∧ a.summary.abandoned.length = _ :=
      ⟨hskipped.length_eq, habandoned.length_eq⟩
    rw [hcount, hsummary.1, hsummary.2, List.length_map, List.length_map]
    rw [List.length_map] at hbuiltLength
    omega
  · exact nodup_functionName ((Plan.pairwise_index l _).filter _)
  · rw [Artifact.summary, haphases, hp.phases]
    exact nodup_sortedSet _
  · rw [Artifact.calls, haphases]
    exact hp.perm_calls (nodup_sortedSet _) hall
  · exact fun p hp => Plan.bucket_planned l _ p (hplanned p hp)
  · rw [haphases]
    exact hp.fused

/-- A generation fails if and only if a rule of the configuration cannot be read. -/
theorem generate_eq_error_iff (s : RuleSet) (config : Config) :
    (∃ e, s.generate config = .error e) ↔
    ∃ d ∈ config.additional ++ config.abandon, ∃ e, d.toRule s.language = .error e := by
  simp only [List.mem_append, or_and_right, exists_or]
  rw [← exists_mapM_eq_error_iff, ← exists_mapM_eq_error_iff, RuleSet.generate,
    Config.additionalRules, Config.abandonedRules]
  cases hadditional : config.additional.mapM (·.toRule s.language) with
  | error e => exact ⟨fun _ => .inl ⟨e, rfl⟩, fun _ => ⟨_, rfl⟩⟩
  | ok additional =>
    cases habandon : config.abandon.mapM (·.toRule s.language) with
    | error e => exact ⟨fun _ => .inr ⟨e, rfl⟩, fun _ => ⟨_, rfl⟩⟩
    | ok abandon =>
      obtain ⟨a, -, ha, -⟩ := generateFrom_accounts s.language config s.rules additional abandon
      simp only [ha]
      simp

/-- **Every rule is accounted for.** A generation fails if and only if a rule of the configuration
cannot be read. Its artifact accounts for the rules of the set and those of the configuration: each
is abandoned, skipped or compiled, and each compiled one has a function that its phase calls once,
from its bucket, and is part of the fused function. -/
theorem generate_accounts (s : RuleSet) (config : Config) :
    ((∃ e, s.generate config = .error e) ↔
      ∃ d ∈ config.additional ++ config.abandon, ∃ e, d.toRule s.language = .error e) ∧
    ∀ a, s.generate config = .ok a →
      ∃ additional abandon built, config.additionalRules s.language = .ok additional ∧
        config.abandonedRules s.language = .ok abandon ∧
        a.Accounts config.options s.language abandon (s.rules ++ additional) built := by
  refine ⟨generate_eq_error_iff s config, fun a ha => ?_⟩
  obtain ⟨additional, abandon, hadditional, habandon, hgenerate⟩ := RuleSet.exists_of_generate ha
  obtain ⟨a', built, ha', haccounts⟩ :=
    generateFrom_accounts s.language config s.rules additional abandon
  obtain rfl : a' = a := Except.ok.inj (ha'.symm.trans hgenerate)
  exact ⟨additional, abandon, built, hadditional, habandon, haccounts⟩

/-- Of the rules on sums and differences one is abandoned, one cannot be compiled, and two have
functions. -/
theorem generate_accounts_differences :
    ∃ a, RuleSet.ofSums.generate .differences = .ok a ∧
      a.summary.abandoned = ["(+ $0 0) ==> $0 @0"] ∧
      a.summary.skipped = ["(sin (? $0 0)) ==> 0 @1"] ∧ a.summary.compiled = 2 := by
  obtain ⟨herror, hok⟩ := generate_accounts RuleSet.ofSums .differences
  cases hgenerate : RuleSet.ofSums.generate .differences with
  | error e =>
    obtain ⟨d, hd, hfails⟩ := herror.1 ⟨e, hgenerate⟩
    rcases List.mem_append.1 hd with hd | hd
    · obtain ⟨e', he'⟩ := exists_mapM_eq_error_iff.2 ⟨d, hd, hfails⟩
      cases additionalRules_differences.symm.trans he'
    · obtain ⟨e', he'⟩ := exists_mapM_eq_error_iff.2 ⟨d, hd, hfails⟩
      cases abandonedRules_differences.symm.trans he'
  | ok a =>
    obtain ⟨additional, abandon, built, hadditional, habandon, haccounts⟩ := hok a hgenerate
    obtain rfl := Except.ok.inj (additionalRules_differences.symm.trans hadditional)
    obtain rfl := Except.ok.inj (abandonedRules_differences.symm.trans habandon)
    have habandoned :=
      haccounts.abandoned.trans
        (List.Perm.of_eq (show _ = ["(+ $0 0) ==> $0 @0"] by decide +kernel))
    have hskipped :=
      haccounts.skipped.trans
        (List.Perm.of_eq (show _ = ["(sin (? $0 0)) ==> 0 @1"] by decide +kernel))
    rw [List.perm_singleton] at habandoned hskipped
    have htotal := haccounts.total
    have hrules : RuleSet.ofSums.rules.length = 2 := rfl
    simp only [habandoned, hskipped, List.length_append, hrules, List.length_cons, List.length_nil]
      at htotal
    exact ⟨a, rfl, habandoned, hskipped, by omega⟩

end Rulewright
