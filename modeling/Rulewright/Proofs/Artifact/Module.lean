import Rulewright.Proofs.Artifact.Dispatch
import Rulewright.Proofs.Tree.Printing

/-!
# The items of the module

Each item of the generated module is the function of a rule, the comment that a rule leaves without
function, a function of a phase, or one of four functions that every module has. What their texts
are is said here, for a function of a rule down to the statements of its code.

* `PlannedRule.functionText`, `DispatchStmt.functionText`: the functions of rules and of phases.
* `ModuleEntry`, `IsItem`: what an item is for, and its text.
* `generateFrom_entries`: the items of a generated module.
* `Artifact.text_eq`: the file that is made of them.
-/

namespace Rulewright

open Text (block deeper lines)
open DispatchStmt

variable {o : CompileOptions} {l : Language}

/-! ### Functions of rules -/

/-- The function of a rule: a comment with its text, then its code one level deeper. -/
def PlannedRule.functionText (l : Language) (p : PlannedRule) (code : List (Stmt Unit)) : String :=
  "// Generated from rule:\n// " ++ p.rule.text l ++ "\npub fn " ++ p.functionName ++
    "(formula: &TermPtr, p: &Registry) -> bool \x7b\n" ++
    block ((lines (Stmt.printAll "formula" 0 code)).map deeper) ++ "\x7d\n"

/-- The matcher of a rule is printed as its code is. -/
theorem Rule.render_compile {r : Rule} {c c' : Code} {head : NodeId}
    (h : r.compile o l c = (.ok head, c')) (depth : Nat) (root : String) :
    ∃ code, o.codeOf l r = some code ∧
      c'.render head depth root = Stmt.printAll root depth code := by
  obtain ⟨ts, hcode, rfl, hne, hs, ho⟩ := Matcher.compile_owns (Code.Owns.zero c) h
  refine ⟨_, hcode, ?_⟩
  rw [ho.render_eq hs hne, Stmt.printAll_strip]

/-- The code of a rule ends in a statement, so its text is not empty. -/
theorem Rule.printAll_ne_empty {r : Rule} {code : List (Stmt Unit)} (h : o.codeOf l r = some code)
    (root : String) (depth : Nat) : Stmt.printAll root depth code ≠ "" := by
  obtain ⟨k, groups, action, -, -, rfl⟩ := Matcher.exists_of_ruleCode h
  rw [Stmt.printAll_append]
  intro hempty
  have hlist := congrArg String.toList hempty
  simp [Stmt.printAll, Stmt.print, Stmt.fresh, Line.kind, NodeKind.isMeaningful, Code.line] at hlist

/-- **The item of a planned rule** that can be compiled. -/
theorem PlannedRule.text_item {p : PlannedRule} (htext : p.text = p.rule.text l)
    (h : p.rule.compiles o l = true) :
    ∃ code, o.codeOf l p.rule = some code ∧ (p.item o l).text = p.functionText l code := by
  obtain ⟨-, head, c, hc, hcompile⟩ | ⟨hrefused, -⟩ := p.compile_cases o l
  · obtain ⟨code, hcode, hrender⟩ := Rule.render_compile hc 0 "formula"
    refine ⟨code, hcode, ?_⟩
    rw [item, hcompile, hrender, Text.indent_eq_block (Rule.printAll_ne_empty hcode _ _), htext]
    rfl
  · rw [hrefused] at h
    cases h

/-! ### Functions of every module -/

/-- The item defines a function. The text before it is given. -/
def Defines (before name item : String) : Prop :=
  ∃ after, item = before ++ "pub fn " ++ name ++ "(" ++ after

namespace Defines

variable {before name item : String}

theorem append (h : Defines before name item) (rest : String) :
    Defines before name (item ++ rest) := by
  obtain ⟨after, rfl⟩ := h
  exact ⟨after ++ rest, String.append_assoc⟩

theorem after (h : Defines before name item) (start : String) :
    Defines (start ++ before) name (start ++ item) := by
  obtain ⟨after, rfl⟩ := h
  exact ⟨after, by simp only [String.append_assoc]⟩

theorem opening (name : String) {parameters opening : String} (h : opening = "(" ++ parameters) :
    Defines "" name ("pub fn " ++ name ++ opening) :=
  ⟨parameters, by rw [h, String.empty_append, String.append_assoc, String.append_assoc,
    String.append_assoc]⟩

end Defines

/-- What stands before the check of the operators: how they are declared, and what the check is for.
-/
def operatorsBefore (l : Language) (used : List String) : String :=
  Section.stringSlice "NON_OVERLOADED_OPERATORS" (Section.declaredNames l .unique) ++
    Section.stringSlice "OVERLOADED_OPERATORS" (Section.declaredNames l .overloaded) ++
    Section.stringSlice "USED_OPERATORS" used ++ "\n" ++
    ("/// Warns about operators whose overload state differs from the one the rules were\n" ++
      "/// generated for.\n")

/-- What stands before the loop over a formula. -/
def loopBefore (foldConstants : Bool) : String :=
  "pub const FOLD_CONSTANTS: bool = " ++ (if foldConstants then "true" else "false") ++ ";\n" ++
    "\n" ++ "pub type RuleFn = fn(&TermPtr, &Registry) -> bool;\n" ++ "\n" ++
    "/// Applies `rules` to every node in post-order until nothing changes anymore.\n"

theorem defines_snapshot (l : Language) (used : List String) :
    Defines (operatorsBefore l used) "check_operator_drift" (Section.snapshot l used) := by
  have hopening :
      Defines "" "check_operator_drift" "pub fn check_operator_drift(p: &Registry) \x7b\n" :=
    ⟨"p: &Registry) \x7b\n", rfl⟩
  have hcheck := hopening.after
    ("/// Warns about operators whose overload state differs from the one the rules were\n" ++
      "/// generated for.\n")
  rw [String.append_empty] at hcheck
  refine Defines.after ?_ _
  unfold Section.driftCheck
  iterate 11 refine Defines.append ?_ _
  exact hcheck

theorem defines_formulaLoop (foldConstants : Bool) :
    Defines (loopBefore foldConstants) "apply_to_full_formula"
      (Section.formulaLoop foldConstants) := by
  have hopening : Defines "" "apply_to_full_formula"
      "pub fn apply_to_full_formula(formula: &TermPtr, p: &Registry, rules: RuleFn, " :=
    ⟨"formula: &TermPtr, p: &Registry, rules: RuleFn, ", rfl⟩
  have hloop := hopening.after (loopBefore foldConstants)
  rw [String.append_empty] at hloop
  unfold Section.formulaLoop
  iterate 16 refine Defines.append ?_ _
  exact hloop

theorem defines_simplify (name : String) (phases : List Int) (phaseFunction : Int → String) :
    Defines "" name (Section.simplify name phases phaseFunction) := by
  have hformula : "(formula: &TermPtr, p: &Registry) \x7b\n" =
      "(" ++ "formula: &TermPtr, p: &Registry) \x7b\n" := rfl
  exact (((Defines.opening name hformula).append _).append _).append _

/-! ### Entries -/

/-- What an item of the module is for. -/
inductive ModuleEntry where
  | comment
  | rule (p : PlannedRule)
  | dispatch (phase : Int)
  | fused (phase : Int)
  | support (before name : String)

namespace ModuleEntry

def rule? : ModuleEntry → Option PlannedRule
  | .rule p => some p
  | _ => none

def dispatch? : ModuleEntry → Option Int
  | .dispatch phase => some phase
  | _ => none

def fused? : ModuleEntry → Option Int
  | .fused phase => some phase
  | _ => none

end ModuleEntry

/-- The text of an item, where the given rules are compiled. -/
inductive IsItem (o : CompileOptions) (l : Language) (built : List PlannedRule) :
    ModuleEntry → String → Prop
  | comment (text : String) : IsItem o l built .comment ("// " ++ text)
  | rule {p : PlannedRule} {code : List (Stmt Unit)} (h : o.codeOf l p.rule = some code) :
      IsItem o l built (.rule p) (p.functionText l code)
  | dispatch (phase : Int) :
      IsItem o l built (.dispatch phase)
        (DispatchStmt.functionText phase (dispatchCode (ofPhase built phase)))
  | fused {phase : Int} {body : String}
      (h : IsFused { o with skipRootGuard := false } l (ofPhase built phase) phase body) :
      IsItem o l built (.fused phase) ("pub fn " ++ fusedName phase ++
        "(m: &TermPtr, p: &Registry) -> bool \x7b\n" ++ body ++ "\x7d\n")
  | support {before name item : String} (h : Defines before name item) :
      IsItem o l built (.support before name) item

theorem IsItem.ne_empty {built : List PlannedRule} {entry : ModuleEntry} {item : String}
    (h : IsItem o l built entry item) : item ≠ "" := by
  have hfirst : ∀ {x y : String}, x ≠ "" → x ++ y ≠ "" := fun hx hempty =>
    hx (String.append_eq_empty_iff.1 hempty).1
  have hlast : ∀ {x y : String}, y ≠ "" → x ++ y ≠ "" := fun hy hempty =>
    hy (String.append_eq_empty_iff.1 hempty).2
  cases h with
  | comment text => exact hfirst (by decide)
  | support h =>
    obtain ⟨after, rfl⟩ := h
    exact hfirst (hlast (by decide))
  | _ => exact hlast (by decide)

/-- A rule without function leaves a comment. -/
theorem RuleItem.isItem_comment (built : List PlannedRule) {item : RuleItem}
    (h : item.function? = none) : IsItem o l built .comment item.text := by
  cases item with
  | abandoned operator rule =>
    have hmark : "// Abandoned rule for '" = "// " ++ "Abandoned rule for '" := rfl
    dsimp only [text]
    rw [hmark]
    simp only [String.append_assoc]
    exact .comment _
  | skipped rule reason =>
    have hmark : "// Rule '" = "// " ++ "Rule '" := rfl
    dsimp only [text]
    rw [hmark]
    simp only [String.append_assoc]
    exact .comment _
  | function name rule body => cases h

/-- The entry of a planned rule. -/
def PlannedRule.entry (o : CompileOptions) (l : Language) (p : PlannedRule) : ModuleEntry :=
  if p.rule.compiles o l then .rule p else .comment

/-- Planned rules have entries for the compiled ones, and for nothing else. -/
theorem PlannedRule.filterMap_entry (o : CompileOptions) (l : Language)
    (planned : List PlannedRule) :
    (planned.map (·.entry o l)).filterMap (·.rule?) = planned.filter (·.rule.compiles o l) ∧
    (planned.map (·.entry o l)).filterMap (·.dispatch?) = [] ∧
    (planned.map (·.entry o l)).filterMap (·.fused?) = [] := by
  have hentry : ∀ p : PlannedRule, (p.entry o l).rule? = Option.guard (·.rule.compiles o l) p ∧
      (p.entry o l).dispatch? = none ∧ (p.entry o l).fused? = none := by
    intro p
    unfold entry Option.guard
    split_ifs <;> exact ⟨rfl, rfl, rfl⟩
  rw [List.filterMap_map, List.filterMap_map, List.filterMap_map, ← List.filterMap_eq_filter,
    List.filterMap_eq_nil_iff, List.filterMap_eq_nil_iff]
  exact ⟨List.filterMap_congr fun p _ => (hentry p).1, fun p _ => (hentry p).2.1,
    fun p _ => (hentry p).2.2⟩

theorem PlannedRule.isItem_entry (built : List PlannedRule) {p : PlannedRule}
    (htext : p.text = p.rule.text l) : IsItem o l built (p.entry o l) (p.item o l).text := by
  by_cases hcompiles : p.rule.compiles o l = true
  · obtain ⟨code, hcode, hitem⟩ := p.text_item htext hcompiles
    rw [entry, if_pos hcompiles, hitem]
    exact .rule hcode
  · obtain ⟨hcompiled, -⟩ | ⟨-, e, -, -, hcompile, -⟩ := p.compile_cases o l
    · exact absurd hcompiled hcompiles
    · rw [entry, if_neg hcompiles]
      refine RuleItem.isItem_comment built ?_
      rw [item, hcompile]
      rfl

/-- The items of a module have a relation to what stands at their places in a list, if each has. -/
theorem Artifact.forall₂_moduleItems {β : Type} {R : β → String → Prop} {a : Artifact}
    {check fast veryFast loop : β} {rules : List β} {dispatch fused : PhaseCode → β}
    (hcheck : R check (Section.snapshot a.language a.used))
    (hrules : List.Forall₂ R rules (a.items.map (·.text)))
    (hdispatch : ∀ q ∈ a.phases, R (dispatch q) (Section.dispatch q.phase q.buckets))
    (hfast : R fast (Section.simplify "simplify_fast" (a.phases.map (·.phase)) dispatchName))
    (hfused : ∀ q ∈ a.phases, R (fused q) (Section.fusedFunction q.phase q.fusedBody))
    (hveryFast : R veryFast
      (Section.simplify "simplify_very_fast" (a.phases.map (·.phase)) fusedName))
    (hloop : R loop (Section.formulaLoop a.foldConstants)) :
    List.Forall₂ R ([check] ++ rules ++ a.phases.map dispatch ++ [fast] ++ a.phases.map fused ++
      [veryFast, loop]) a.moduleItems := by
  have hphases : ∀ {entry : PhaseCode → β} {item : PhaseCode → String},
      (∀ q ∈ a.phases, R (entry q) (item q)) →
        List.Forall₂ R (a.phases.map entry) (a.phases.map item) := by
    intro entry item h
    rw [List.forall₂_map_left_iff, List.forall₂_map_right_iff, List.forall₂_same]
    exact h
  have hlast := List.Forall₂.cons hveryFast (.cons hloop .nil)
  exact List.rel_append (List.rel_append (List.rel_append (List.rel_append (List.rel_append
    (.cons hcheck .nil) hrules) (hphases hdispatch)) (.cons hfast .nil)) (hphases hfused)) hlast

/-- The file: its header, and the items one level deeper with empty lines between them. -/
def fileText (header : String) (items : List String) : String :=
  header ++ "\n" ++
    ("#[allow(unused_variables, unused_mut, unreachable_code)]\n" ++
      "pub mod simplification \x7b\n    use super::runtime::*;\n\n" ++
      "\n".intercalate (items.map fun item => block ((lines item).map deeper)) ++ "\x7d\n" ++
      "\n" ++ "// End of generated rules.\n")

theorem Artifact.text_eq {a : Artifact} (h : ∀ item ∈ a.moduleItems, item ≠ "") :
    a.text = fileText a.header a.moduleItems := by
  have hitems : a.moduleItems.map Section.indent =
      a.moduleItems.map fun item => block ((lines item).map deeper) :=
    List.map_congr_left fun item hitem => Text.indent_eq_block (h item hitem)
  unfold Artifact.text Section.module
  rw [hitems, String.intercalate_cons_cons, String.intercalate_cons_cons,
    String.intercalate_singleton, Section.closing, fileText]

/-- **The items of a generated module.** Each compiled rule has one, and so have the two functions
of each phase. -/
theorem generateFrom_entries {config : Config} {rules additional abandon : List Rule} {plan : Plan}
    {a : Artifact} {built : List PlannedRule}
    (hplan : plan = Plan.ofRules l (markAbandoned abandon (rules ++ additional)))
    (hbuilt : built = plan.planned.filter (·.rule.compiles config.options l))
    (h : generateFrom l config rules additional abandon = .ok a) :
    ∃ entries, List.Forall₂ (IsItem config.options l built) entries a.moduleItems ∧
      entries.filterMap (·.rule?) = built ∧ entries.filterMap (·.dispatch?) = a.summary.phases ∧
      entries.filterMap (·.fused?) = a.summary.phases := by
  obtain ⟨a', phases, ha, hp, hitems, haphases, -⟩ := generateFrom_stages config hplan
  obtain rfl : a' = a := Except.ok.inj (ha.symm.trans h)
  rw [← hbuilt] at hp
  have hrules : List.Forall₂ (IsItem config.options l built)
      (plan.items.map (fun _ => .comment) ++ plan.planned.map (·.entry config.options l))
      (a'.items.map (·.text)) := by
    rw [hitems, List.map_append, List.map_map]
    refine List.rel_append ?_ ?_
    · rw [List.forall₂_map_left_iff, List.forall₂_map_right_iff, List.forall₂_same]
      intro item hitem
      rw [hplan, Plan.items_ofRules] at hitem
      obtain ⟨r, -, hcomment⟩ := List.mem_filterMap.1 hitem
      exact RuleItem.isItem_comment built (TextedRule.function?_comment? hcomment)
    · rw [List.forall₂_map_left_iff, List.forall₂_map_right_iff, List.forall₂_same]
      intro p hmem
      subst hplan
      exact PlannedRule.isItem_entry built (Plan.text_planned l _ p hmem)
  have hdispatch : ∀ q ∈ a'.phases, IsItem config.options l built (.dispatch q.phase)
      (Section.dispatch q.phase q.buckets) := by
    intro q hq
    rw [hp.buckets q (haphases ▸ hq), text_dispatch]
    exact .dispatch q.phase
  have hfused : ∀ q ∈ a'.phases, IsItem config.options l built (.fused q.phase)
      (Section.fusedFunction q.phase q.fusedBody) :=
    fun q hq => .fused (hp.fused q (haphases ▸ hq))
  refine ⟨_, Artifact.forall₂_moduleItems (.support (defines_snapshot _ _)) hrules hdispatch
    (.support (defines_simplify _ _ _)) hfused (.support (defines_simplify _ _ _))
    (.support (defines_formulaLoop _)), ?_⟩
  obtain ⟨hrule, hnone, hnone'⟩ := PlannedRule.filterMap_entry config.options l plan.planned
  refine ⟨?_, ?_, ?_⟩
  · simp only [List.filterMap_append, hrule, ← hbuilt]
    simp [ModuleEntry.rule?]
  · simp only [List.filterMap_append, hnone]
    simp [ModuleEntry.dispatch?, Artifact.summary]
  · simp only [List.filterMap_append, hnone']
    simp [ModuleEntry.fused?, Artifact.summary]

end Rulewright
