import Rulewright.Proofs.Chain.Acceptance
import Rulewright.Proofs.Fusion.Loss
import Rulewright.Proofs.Matching.Correct
import Rulewright.Proofs.Matching.RootCheck
import Rulewright.Proofs.Replacement.Instance
import Rulewright.Proofs.Scope.Reads

/-!
# Where a rule applies

The code of a rule returns `true` where the chain of its pattern is passed and the action holds.
What is bound then is what the chain has bound, and the line is fired that replaces the matched
term.

* `compile_applies`: what is bound where the code of a rule returns `true`, and what is fired then.
* `Rule.IsCalled`: a rule that leaves the check of the root to its caller is called for its bucket.
* `bound_of_passed`: the first trails of metavariables and groups are bound then, if operators are
  used with the counts they take.
-/

namespace Rulewright

open Matcher Stmt Bindings

variable {l : Language} {r : Rule}

/-! ### The run -/

/-- The code of a rule returns `true` with what is bound where the chain of its pattern is passed.
-/
theorem Matcher.execAll_ruleCode_of_passed {o : Options} {foldConstants : Bool}
    {code : List (Stmt Unit)} (h : ruleCode o l foldConstants r = some code)
    {k : Option (Chain Unit)} {groups : Groups} {texts : List String} {replacement : String}
    (hk : patternChain o l r.pattern Trail.root Table.empty = some (k, groups))
    (htexts : conditionCodes (ruleScope l false r groups) r = .ok texts)
    (hreplacement : ((ruleScope l foldConstants r groups).code r.replacement []).1 =
      .ok replacement)
    {free : String → Bool} {p : Code.Progress} {b : Bindings}
    (hpassed : passed? l free k p.bindings = some b) (hb : actionHolds l free r texts b = true) :
    execAll l free code p = (some true, ⟨p.fired ++ firing r replacement, b⟩) := by
  obtain ⟨k', groups', action, hk', ha, rfl⟩ := exists_of_ruleCode h
  obtain ⟨rfl, rfl⟩ := Prod.mk.inj (Option.some.inj (hk.symm.trans hk'))
  obtain ⟨texts', replacement', htexts', hreplacement', hexec⟩ := execAll_actionCode l free ha
  obtain rfl := Except.ok.inj (htexts.symm.trans htexts')
  obtain rfl := Except.ok.inj (hreplacement.symm.trans hreplacement')
  have haction : execAll l free (withAction action k) p =
      (some true, ⟨p.fired ++ firing r replacement, b⟩) := by
    cases k with
    | none =>
      cases hpassed
      exact (hexec p).trans (if_pos hb)
    | some k =>
      rw [withAction, Chain.execAll_fill_some l free (patternChain_fit hk).1.isQuiet hpassed, hexec]
      exact if_pos hb
  rw [execAll_append, execAll_calm, haction]

/-- **What is bound and fired** where the code of a rule returns `true`, and the line that is fired.
-/
theorem compile_applies {o : CompileOptions} {c c' : Code} {head : NodeId}
    (hc : r.compile o l c = (.ok head, c')) :
    ∃ k groups replacement,
      patternChain (matcherOptions o) l r.pattern Trail.root Table.empty = some (k, groups) ∧
      ((ruleScope l o.foldConstants r groups).code r.replacement []).1 = .ok replacement ∧
      (∃ id ∈ c'.descendants head,
        c'.kind id = .custom (Trail.rootMark ++ ".replace(" ++ replacement ++ ");")) ∧
      ∀ free e, (c'.run l free head e).changed = true →
        passed? l free k (ofTerm e) = some (c'.run l free head e).bindings ∧
          (c'.run l free head e).fired = firing r replacement := by
  obtain ⟨k, groups, texts, replacement, hk, htexts, hreplacement, hruns⟩ := compile_runs hc
  obtain ⟨ts, hcode, rfl, hne, hsolid, howns⟩ := compile_owns (Code.Owns.zero c) hc
  refine ⟨k, groups, replacement, hk, hreplacement, ?_, fun free e hchanged => ?_⟩
  · obtain ⟨parts, hparts, hleads⟩ := leads_ruleCode hcode
    have hline : parts.replacing.line? =
        some (.custom (Trail.rootMark ++ ".replace(" ++ replacement ++ ");")) := by
      rw [Rule.parts?, hk, Option.bind_some] at hparts
      simp only [htexts, hreplacement] at hparts
      cases hparts
      unfold replaceStmt
      split_ifs <;> rfl
    have hpath := hleads.reached
    rw [strip, (paths_map_all _).2] at hpath
    obtain ⟨⟨guards, s⟩, hpath, heq⟩ := List.mem_map.1 hpath
    obtain ⟨-, hs⟩ := Prod.mk.inj heq
    rw [← hs, line?_map] at hline
    have hkeeps : FusedCode.Keeps ⟨c', some (start ts), []⟩ (strip ts) :=
      ⟨ts, 0, rfl, hne, hsolid, howns, rfl⟩
    obtain ⟨head, hhead, hreached⟩ := hkeeps.reaches hpath hline
    cases hhead
    exact hreached
  · rw [(hruns free e).1] at hchanged
    obtain ⟨b, hb, hholds⟩ := (Option.any_eq_true _ _).1 hchanged
    have hexec : execAll l free (strip ts) ⟨[], ofTerm e⟩ = _ :=
      execAll_ruleCode_of_passed hcode hk htexts hreplacement hb hholds
    rw [execAll_strip] at hexec
    have hrun : c'.run l free (start ts) e = _ := howns.run_eq hsolid hne e
    dsimp only at hrun
    rw [show (Table.empty.insert Trail.root e : Bindings) = ofTerm e from rfl, hexec] at hrun
    rw [hrun]
    exact ⟨hb, rfl⟩

/-! ### What is bound -/

/-- The caller has asked for the bucket of the rule, if the rule leaves the check of the root to its
caller. -/
def Rule.IsCalled (o : CompileOptions) (l : Language) (r : Rule) (e : Expr) : Prop :=
  o.skipRootGuard = true → ∃ bucket, Bucket.of? l r.pattern = some bucket ∧ bucket.admits l e = true

/-- Where the matcher of a pattern is passed, the one with the check of the root is passed with the
same terms bound. -/
theorem passed?_checked {o : CompileOptions} {c c' : Code} {head : NodeId}
    (hc : r.compile o l c = (.ok head, c')) {k : Option (Chain Unit)} {groups : Groups}
    (hk : patternChain (matcherOptions o) l r.pattern Trail.root Table.empty = some (k, groups))
    {e : Expr} (hcalled : r.IsCalled o l e) (free : String → Bool) :
    ∃ k',
      patternChain ⟨false, o.joinComparisons⟩ l r.pattern Trail.root Table.empty =
        some (k', groups) ∧
      passed? l free k' (ofTerm e) = passed? l free k (ofTerm e) := by
  obtain ⟨skip, fold, joins⟩ := o
  cases skip with
  | false => exact ⟨k, hk, rfl⟩
  | true =>
    obtain ⟨bucket, hbucket, hadmits⟩ := hcalled rfl
    obtain ⟨head', d', hd⟩ :=
      Rule.compile_elsewhere hc
        (show fold = CompileOptions.foldConstants ⟨false, fold, joins⟩ from rfl) Code.empty
    obtain ⟨x, groups', -, -, hx, -⟩ := compile_runs hd
    obtain ⟨k', k'', rfl, hk'', hpass⟩ :=
      patternChain_twins (o := ⟨false, joins⟩) rfl r.pattern hbucket hx
    obtain ⟨rfl, rfl⟩ := Prod.mk.inj (Option.some.inj (hk.symm.trans hk''))
    refine ⟨some k', hx, ?_⟩
    rw [passed?, passed?, hpass free e, if_pos hadmits]

/-- **What is bound** where the chain of a pattern is passed, if operators are used with the counts
they take. -/
theorem bound_of_passed {o : Options} (ho : o.skipRootGuard = false) {p : Expr}
    {k : Option (Chain Unit)} {groups : Groups}
    (hk : patternChain o l p Trail.root Table.empty = some (k, groups)) {count : String → Nat}
    (hread : p.IsRead l) (hcounts : p.UsesCounts l count) {e : Expr} (he : e.IsTerm l count)
    {free : String → Bool} {b : Bindings} (hb : passed? l free k (ofTerm e) = some b) :
    (∀ id t, p.metaTrails.firstTrail? id = some t → b.IsBound t) ∧
    ∀ group t, groups.firstTrail? group = some t → b.IsBound t := by
  have hroot : (ofTerm e).get? Trail.root = some e := by rw [ofTerm, Table.get?_insert, if_pos rfl]
  have hpattern : PatternAgrees o l free count p := (agrees_patternChain ho).1 p
  have hagree :=
    hpattern _ _ _ _ _ _ _ hk hread hcounts hroot (fun t ht => get?_below_root e ht) he
      (heads_empty _) fun g t h => by cases h
  rw [hb] at hagree
  cases hc : p.capture? l (List.isEmpty Trail.root) e Captures.empty with
  | none =>
    rw [hc] at hagree
    cases hagree
  | some captures =>
    rw [hc] at hagree
    obtain ⟨b', hrun, hheads, -, hterms⟩ := hagree
    cases hrun
    exact ⟨fun id t ht => exists_of_occurrence hterms (Expr.mem_of_firstTrail? ht),
      fun group t ht => Option.isSome_iff_exists.1 (hheads.bound group t ht)⟩

end Rulewright
