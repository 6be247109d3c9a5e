import Rulewright.Artifact.Generate
import Rulewright.Proofs.Chain.Acceptance
import Rulewright.Proofs.Fusion.Plain
import Rulewright.Proofs.Fusion.Redundancy

/-!
# The rules of a phase fused

The rules of a phase are compiled into one store and fused one after the other, and then redundant
definitions are taken out. For rules without optional operands the result is sound, and the first
rule keeps its place.

* `FusedCode.foldlM_add`: fusing rules in a store fuses their trees.
* `outcome?_plays`, `Keeps.outcome?_plays`: what a rule does alone, and what fused rules do.
* `fused_sound`: the fused rules do what one of them does alone.
-/

namespace Rulewright

open Stmt Matcher Bindings

/-- What the matcher of a rule does on a term, in a store of its own. -/
def Rule.outcome? (o : CompileOptions) (l : Language) (free : String → Bool) (r : Rule) (e : Expr) :
    Option Outcome :=
  match r.compile o l Code.empty with
  | (.ok head, c) => some (c.run l free head e)
  | (.error _, _) => none

/-- The tree of a rule. -/
def CompileOptions.codeOf (o : CompileOptions) (l : Language) (r : Rule) :
    Option (List (Stmt Unit)) :=
  ruleCode (matcherOptions o) l o.foldConstants r

variable {o : CompileOptions} {l : Language}

/-- The outcome is that of a result. -/
def Outcome.Shows (x : Outcome) (r : Option Bool × List String) : Prop :=
  x.changed = r.1.getD false ∧ x.fired = r.2

theorem Outcome.Shows.changed_iff {x : Outcome} {r : Option Bool × List String} (h : x.Shows r) :
    x.changed = true ↔ r = (some true, x.fired) := by
  obtain ⟨_ | _ | _, fired⟩ := r <;> simp [h.1, h.2]

/-- A run of a tree that binds operands only shows what the tree plays. -/
theorem Code.Owns.run_shows {c : Code} {link : Link} {m : Multiset Cell} {ts : List (Stmt NodeId)}
    (hs : SolidAll ts) (hne : ts ≠ []) (h : c.Owns (cells link none ts + m))
    (hst : isStructuralAll ts = true) (free : String → Bool) (e : Expr) :
    (c.run l free (start ts) e).Shows (playAll l free (ofTerm e) ts) := by
  obtain ⟨h1, h2⟩ := execAll_eq_play l free e hst
  rw [h.run_eq hs hne e]
  exact ⟨congrArg (Option.getD · false) h1, h2⟩

theorem isStructuralAll_strip (ts : List (Stmt NodeId)) :
    isStructuralAll (strip ts) = isStructuralAll ts :=
  (isStructural_map_all _).2 ts

/-- **What a rule does alone** is what its tree plays. -/
theorem outcome?_plays {r : Rule} (hr : r.IsAccepted o l) (hopt : r.pattern.hasOptional = false) :
    ∃ code, o.codeOf l r = some code ∧
      ∀ free e, ∃ x, r.outcome? o l free e = some x ∧ x.Shows (playAll l free (ofTerm e) code) := by
  obtain ⟨head, c, hc⟩ := hr.compile Code.empty
  obtain ⟨ts, hcode, rfl, hne, hs, ho⟩ := compile_owns (Code.Owns.zero Code.empty) hc
  refine ⟨strip ts, hcode, fun free e => ⟨c.run l free (start ts) e, by rw [Rule.outcome?, hc], ?_⟩⟩
  have hst := (@sole_ruleCode l free (ofTerm e) _ _ _ _ hopt hcode).2
  rw [isStructuralAll_strip] at hst
  rw [playAll_strip]
  exact ho.run_shows hs hne hst free e

namespace FusedCode

/-- The store holds the tree under the head. -/
def Keeps (f : FusedCode) (code : List (Stmt Unit)) : Prop :=
  ∃ (ts : List (Stmt NodeId)) (m : Multiset Cell), f.head = some (start ts) ∧ ts ≠ [] ∧
    SolidAll ts ∧ f.code.Owns (cells .root none ts + m) ∧ strip ts = code

/-- The first rule is the tree. -/
theorem add_first {f : FusedCode} (hf : f.head = none) {p : PlannedRule}
    (hp : p.rule.IsAccepted o l) :
    ∃ f' code, f.add o l p = .ok f' ∧ o.codeOf l p.rule = some code ∧ f'.Keeps code := by
  obtain ⟨head, c, hc⟩ := hp.compile f.code
  obtain ⟨ts, hcode, rfl, hne, hs, ho⟩ := compile_owns (Code.Owns.zero f.code) hc
  refine ⟨{ f with code := c, head := some (start ts) }, strip ts, ?_, hcode, ts, 0, rfl, hne, hs,
    ho, rfl⟩
  rw [add, hc, hf]

/-- Each further rule is fused into the tree. -/
theorem add_next {f : FusedCode} {mine : List (Stmt Unit)} (hf : f.Keeps mine) {p : PlannedRule}
    (hp : p.rule.IsAccepted o l) :
    ∃ f' code, f.add o l p = .ok f' ∧ o.codeOf l p.rule = some code ∧
      f'.Keeps (fuse l mine code) := by
  obtain ⟨ts, m, hhead, hne, hs, ho, rfl⟩ := hf
  obtain ⟨other, c, hc⟩ := hp.compile f.code
  obtain ⟨ts', hcode, rfl, hne', hs', ho'⟩ := compile_owns ho hc
  obtain ⟨ts'', hfuse, hstart, hne'', hs'', ho''⟩ := ho'.swap.merge l hs hs' hne hne'
  refine ⟨{ f with code := c.merge l (start ts) (start ts') }, strip ts', ?_, hcode, ts'', _, ?_,
    hne'', hs'', ho'', hfuse⟩
  · rw [add, hc, hhead]
  · rw [hstart]
    exact hhead

/-- **Fusing rules in a store** fuses their trees. -/
theorem foldlM_add {rules : List PlannedRule} (hr : ∀ p ∈ rules, p.rule.IsAccepted o l)
    {f : FusedCode} {mine : List (Stmt Unit)} (hf : f.Keeps mine) :
    ∃ f', rules.foldlM (add o l) f = .ok f' ∧
      f'.Keeps ((rules.filterMap fun p => o.codeOf l p.rule).foldl (fuse l) mine) := by
  induction rules generalizing f mine with
  | nil => exact ⟨f, rfl, hf⟩
  | cons p rest ih =>
    obtain ⟨f1, code, hadd, hcode, hkeeps⟩ := add_next hf (hr p List.mem_cons_self)
    obtain ⟨f2, hrest, hkeeps'⟩ := ih (fun q hq => hr q (List.mem_cons_of_mem _ hq)) hkeeps
    refine ⟨f2, ?_, ?_⟩
    · rw [List.foldlM_cons, hadd]
      exact hrest
    · simp only [List.filterMap_cons, hcode, List.foldl_cons]
      exact hkeeps'

end FusedCode

/-- What the fused rules do on a term, redundant definitions taken out. -/
def FusedCode.outcome? (l : Language) (free : String → Bool) (f : FusedCode) (e : Expr) :
    Option Outcome :=
  f.head.map fun head => (f.code.eliminateRedundancy head).run l free head e

/-- The fused rules do what their tree plays. -/
theorem FusedCode.Keeps.outcome?_plays {f : FusedCode} {code : List (Stmt Unit)} (h : f.Keeps code)
    (hst : isStructuralAll code = true) (free : String → Bool) (e : Expr) :
    ∃ x, f.outcome? l free e = some x ∧ x.Shows (playAll l free (ofTerm e) code) := by
  obtain ⟨ts, m, hhead, hne, hs, ho, rfl⟩ := h
  obtain ⟨ts', hsketch, hst', hstart, hne', hs', ho'⟩ := ho.eliminateRedundancy hs hne (start ts)
  rw [isStructuralAll_strip] at hst
  refine ⟨(f.code.eliminateRedundancy (start ts)).run l free (start ts) e,
    by rw [FusedCode.outcome?, hhead]; rfl, ?_⟩
  rw [playAll_strip, ← playAll_eq_of_sketch l free (ofTerm e) hsketch]
  have ho0 : (f.code.eliminateRedundancy (start ts)).Owns (cells .root none ts' + 0) := by
    rwa [add_zero]
  have hrun := ho0.run_shows (l := l) hs' hne' (hst'.trans hst) free e
  rwa [hstart] at hrun

/-- **Fused rules are sound, and the first rule keeps its place**: where the fused rules return
`true`, one of them does so alone and fires the same, and where the first rule does so alone, so do
the fused rules. -/
theorem fused_sound {first : PlannedRule} {rest : List PlannedRule}
    (hr : ∀ p ∈ first :: rest, p.rule.IsAccepted o l)
    (hopt : ∀ p ∈ first :: rest, p.rule.pattern.hasOptional = false) :
    ∃ f, FusedCode.ofRules o l (first :: rest) = .ok f ∧
      ∀ (free : String → Bool) (e : Expr), ∃ x, f.outcome? l free e = some x ∧
        (x.changed = true →
          ∃ p ∈ first :: rest, ∃ y, p.rule.outcome? o l free e = some y ∧ y.changed = true ∧
            x.fired = y.fired) ∧
        ∃ y, first.rule.outcome? o l free e = some y ∧
          (y.changed = true → x.changed = true ∧ x.fired = y.fired) := by
  obtain ⟨hfirst, hrest⟩ := List.forall_mem_cons.1 hr
  obtain ⟨hoptFirst, hoptRest⟩ := List.forall_mem_cons.1 hopt
  obtain ⟨f1, mine, hadd, hmine, hkeeps1⟩ :=
    FusedCode.add_first (f := ⟨Code.empty, none, []⟩) rfl hfirst
  obtain ⟨f, hfold, hkeeps⟩ := FusedCode.foldlM_add hrest hkeeps1
  refine ⟨f, by rw [FusedCode.ofRules, List.foldlM_cons, hadd]; exact hfold, fun free e => ?_⟩
  -- what the tree of a rule wins, the rule does alone
  have alone : ∀ p : PlannedRule, p.rule.IsAccepted o l → p.rule.pattern.hasOptional = false →
      ∀ t, o.codeOf l p.rule = some t →
        ∃ y, p.rule.outcome? o l free e = some y ∧ y.Shows (playAll l free (ofTerm e) t) := by
    intro p hp hpo t ht
    obtain ⟨code, hcode, hplays⟩ := outcome?_plays hp hpo
    rw [ht] at hcode
    cases hcode
    exact hplays free e
  have htree : ∀ t ∈ rest.filterMap (fun p => o.codeOf l p.rule), Sole l free (ofTerm e) t ∧
      isStructuralAll t = true := by
    intro t ht
    obtain ⟨p, hp, hcode⟩ := List.mem_filterMap.1 ht
    exact sole_ruleCode (hoptRest p hp) hcode
  obtain ⟨hsole, hst⟩ := @sole_ruleCode l free (ofTerm e) _ _ _ _ hoptFirst hmine
  obtain ⟨x, hx, hshows⟩ :=
    hkeeps.outcome?_plays (isStructuralAll_foldl_fuse hst fun t ht => (htree t ht).2) free e
  obtain ⟨hkeep, hsound⟩ := foldl_fuse_extends hsole.late fun t ht => (htree t ht).1
  refine ⟨x, hx, fun hchanged => ?_, ?_⟩
  · rcases hsound _ (hshows.changed_iff.1 hchanged) with hwin | ⟨t, ht, hwin⟩
    · obtain ⟨y, hy, hys⟩ := alone first hfirst hoptFirst mine hmine
      rw [hwin] at hys
      exact ⟨first, List.mem_cons_self, y, hy, hys.1, hys.2.symm⟩
    · obtain ⟨p, hp, hcode⟩ := List.mem_filterMap.1 ht
      obtain ⟨y, hy, hys⟩ := alone p (hrest p hp) (hoptRest p hp) t hcode
      rw [show playAll l free (ofTerm e) t = _ from hwin] at hys
      exact ⟨p, List.mem_cons_of_mem _ hp, y, hy, hys.1, hys.2.symm⟩
  · obtain ⟨y, hy, hys⟩ := alone first hfirst hoptFirst mine hmine
    refine ⟨y, hy, fun hchanged => ?_⟩
    rw [hkeep _ (hys.changed_iff.1 hchanged)] at hshows
    exact hshows

/-- The rules `(+ $0 0) ==> $0` and `(+ $0 $0) ==> (* 2 $0)`. -/
def sums : List PlannedRule :=
  let rule (pattern replacement : Expr) : Rule := ⟨pattern, replacement, [], .noCheck, 0, false⟩
  [⟨⟨⟨"(+ $0 0) ==> $0", rule (.app 0 [.metavar 0, .literal (.int 0)]) (.metavar 0)⟩,
        .operator "+" (some 2)⟩,
      0⟩,
    ⟨⟨⟨"(+ $0 $0) ==> (* 2 $0)",
          rule (.app 0 [.metavar 0, .metavar 0]) (.app 2 [.literal (.int 2), .metavar 0])⟩,
        .operator "+" (some 2)⟩,
      1⟩]

/-- Both rules match `(+ 0 0)`, and the first one fires. -/
theorem fused_sums :
    ∃ f x, FusedCode.ofRules ⟨false, false, true⟩ .arithmetic sums = .ok f ∧
      f.outcome? .arithmetic (fun _ => false) (.app 0 [.literal (.int 0), .literal (.int 0)]) =
        some x ∧
      x.changed = true ∧ x.fired = ["formula.replace(formula_0);"] := by
  have hr : ∀ p ∈ sums, p.rule.IsAccepted ⟨false, false, true⟩ .arithmetic :=
    List.forall_mem_cons.2 ⟨⟨0, by decide +kernel⟩,
      List.forall_mem_cons.2 ⟨⟨0, by decide +kernel⟩, List.forall_mem_nil _⟩⟩
  have hopt : ∀ p ∈ sums, p.rule.pattern.hasOptional = false := by decide +kernel
  obtain ⟨f, hf, h⟩ := fused_sound hr hopt
  obtain ⟨x, hx, -, y, hy, hkeep⟩ :=
    h (fun _ => false) (.app 0 [.literal (.int 0), .literal (.int 0)])
  have hfirst : ((sums.head?.bind fun p =>
      p.rule.outcome? ⟨false, false, true⟩ .arithmetic (fun _ => false)
        (.app 0 [.literal (.int 0), .literal (.int 0)])).map fun y => (y.changed, y.fired)) =
      some (true, ["formula.replace(formula_0);"]) := by decide +kernel
  rw [show sums.head? = some _ from rfl, Option.bind_some, hy] at hfirst
  obtain ⟨hchanged, hfired⟩ := Prod.mk.inj (Option.some.inj hfirst)
  obtain ⟨h1, h2⟩ := hkeep hchanged
  exact ⟨f, x, hf, hx, h1, h2.trans hfired⟩

end Rulewright
