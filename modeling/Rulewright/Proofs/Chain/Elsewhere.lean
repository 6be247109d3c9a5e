import Rulewright.Proofs.Chain.Acceptance
import Rulewright.Proofs.Chain.Rule
import Rulewright.Proofs.Matching.Correct
import Rulewright.Proofs.Tree.Text

/-!
# Rules are compiled alike into every store

What a rule is compiled to is told by the rule, the language and the options. The store that the
matcher is added to only gives the numbers of its nodes: it does not change, a rule that is refused
is refused everywhere and for the same reason, and the matcher has the same text wherever it is.

* `Rule.compile_error`: refusals do not depend on the store, nor on what the matcher leaves to its
  caller.
* `Rule.compile_resembles`: two matchers of one rule read alike.
* `compile_ignores_store`: all of it.
-/

namespace Rulewright

variable {o o' : CompileOptions} {l : Language} {r : Rule}

/-- **A rule is refused** everywhere for the same reason, whatever the matcher leaves to its caller.
-/
theorem Rule.compile_error {c : Code} {e : CompileError} (h : (r.compile o l c).1 = .error e)
    (hfold : o.foldConstants = o'.foldConstants) (d : Code) : (r.compile o' l d).1 = .error e := by
  rcases Rule.compile_inStep hfold l r c d with ⟨head, -, hc, -⟩ | ⟨e', hc, hd⟩
  · cases h.symm.trans hc
  · cases h.symm.trans hc
    exact hd

/-- Two matchers of one rule read alike. -/
theorem Rule.compile_resembles {c c' d d' : Code} {head head' : NodeId}
    (h : r.compile o l c = (.ok head, c')) (h' : r.compile o l d = (.ok head', d')) :
    ∃ n, n ≤ c'.size ∧ n ≤ d'.size ∧ Code.Resembles c' d' n head head' := by
  obtain ⟨ts, hcode, rfl, hne, hsolid, howns⟩ := Matcher.compile_owns (Code.Owns.zero c) h
  obtain ⟨ts', hcode', rfl, -, -, howns'⟩ := Matcher.compile_owns (Code.Owns.zero d) h'
  have hstrip : Stmt.strip ts = Stmt.strip ts' := Option.some.inj (hcode.symm.trans hcode')
  exact howns.resembles_start hstrip hsolid hne howns'

/-- A rule is compiled twice into one store. -/
theorem Rule.compile_twice {c c' c'' : Code} {head again : NodeId}
    (h : r.compile o l c = (.ok head, c')) (h' : r.compile o l c' = (.ok again, c'')) :
    c''.structurallyEqual head again = true := by
  obtain ⟨ts, hcode, rfl, hne, hsolid, howns⟩ := Matcher.compile_owns (Code.Owns.zero c) h
  obtain ⟨ts', hcode', rfl, -, -, howns'⟩ := Matcher.compile_owns howns.left h'
  have hstrip : Stmt.strip ts = Stmt.strip ts' := Option.some.inj (hcode.symm.trans hcode')
  have hfirst : c''.Owns (Stmt.cells .root none ts + Stmt.cells .root none ts') :=
    howns'.of_eq (add_comm _ _)
  obtain ⟨n, hn, -, halike⟩ := hfirst.resembles_start hstrip hsolid hne howns'
  exact halike.structurallyEqual hn

/-- **Rules are compiled alike into every store.** A rule is refused there if and only if it is
refused in an empty one, and for the same reason. No node that was there is changed. A matcher has
the text that it would have alone, and two matchers of one rule in one store are structurally equal.
-/
theorem compile_ignores_store (o : CompileOptions) (l : Language) (r : Rule) (c : Code) :
    (∀ e, (r.compile o l c).1 = .error e ↔ (r.compile o l Code.empty).1 = .error e) ∧
    (∀ x, x < c.size → (r.compile o l c).2.node? x = c.node? x) ∧
    (∀ head, (r.compile o l c).1 = .ok head →
      (∃ alone, (r.compile o l Code.empty).1 = .ok alone ∧
          ∀ depth root,
            (r.compile o l c).2.render head depth root =
              (r.compile o l Code.empty).2.render alone depth root) ∧
        ∃ again, (r.compile o l (r.compile o l c).2).1 = .ok again ∧
          (r.compile o l (r.compile o l c).2).2.structurallyEqual head again = true) := by
  refine ⟨fun e => ⟨fun h => Rule.compile_error h rfl _, fun h => Rule.compile_error h rfl _⟩,
    fun x hx => (r.compile_beside o l c).grown.node? x hx, fun head h => ?_⟩
  have hc : r.compile o l c = (.ok head, (r.compile o l c).2) := Prod.ext h rfl
  obtain ⟨alone, d, halone⟩ := Rule.compile_elsewhere hc rfl Code.empty
  obtain ⟨again, c'', hagain⟩ := Rule.compile_elsewhere hc rfl (r.compile o l c).2
  refine ⟨⟨alone, by rw [halone], fun depth root => ?_⟩, again, by rw [hagain], ?_⟩
  · obtain ⟨n, hn, hn', halike⟩ := Rule.compile_resembles hc halone
    rw [halone]
    exact halike.render hn hn' depth root
  · rw [hagain]
    exact Rule.compile_twice hc hagain

/-- The store holds the matcher of the same rule for callers that know the root. -/
theorem cancelling_ignores_store :
    let c := (cancelling.compile ⟨true, false, true⟩ .arithmetic Code.empty).2
    (cancelling.compile ⟨false, false, true⟩ .arithmetic c).1 = .ok 47 ∧
      ∃ alone, (cancelling.compile ⟨false, false, true⟩ .arithmetic Code.empty).1 = .ok alone ∧
      ∀ depth root,
        (cancelling.compile ⟨false, false, true⟩ .arithmetic c).2.render 47 depth root =
          (cancelling.compile ⟨false, false, true⟩ .arithmetic Code.empty).2.render alone depth
          root := by
  intro c
  have hhead : (cancelling.compile ⟨false, false, true⟩ .arithmetic c).1 = .ok 47 := by
    decide +kernel
  exact ⟨hhead, ((compile_ignores_store _ _ _ c).2.2 47 hhead).1⟩

end Rulewright
