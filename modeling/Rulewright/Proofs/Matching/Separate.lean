import Rulewright.Proofs.Artifact.Dispatch
import Rulewright.Proofs.Matching.Application

/-!
# Joined comparisons are an optimisation

A count of operands and the comparison of operators that stands under it may be joined into one
guard. The comparison is then made before the operands are bound, and reads an operand from its
parent. A matcher without joined guards makes the comparison later and reads the operand where it is
bound. Both come to the same result.

* `Bindings.Bare`: nothing is bound below a trail, which is what the matcher of a pattern finds at
  its own one.
* `Footing`: what the matchers of operands rely on while they are added to the chain of their node.
* `patternChain_separate_all`: the chains of a pattern with and without joined guards are passed
  alike.
* `joining_is_harmless`: both matchers of a rule do the same.
-/

namespace Rulewright

open Stmt

/-! ### What is read before operands are bound -/

theorem Trail.Below.to_child {s t : Trail} (h : s.Below t) (i : Nat) : s.Below (t.child i) := by
  obtain ⟨j, rest, rfl⟩ := h
  exact ⟨j, rest ++ [i], by rw [Trail.child, List.append_assoc, List.cons_append]⟩

namespace Bindings

variable {b b' : Bindings} {s t : Trail}

/-- Nothing is bound strictly below the trail. -/
def Bare (b : Bindings) (t : Trail) : Prop := ∀ t', t.Below t' → b.get? t' = none

theorem bare_ofTerm (e : Expr) : (ofTerm e).Bare Trail.root :=
  fun _ ht => Matcher.get?_below_root e ht

/-- What is bound below a trail is not seen elsewhere. -/
theorem nodeAt_frame (h : ∀ t', ¬ s.Below t' → b'.get? t' = b.get? t') (ht : ¬ s.Below t) :
    b'.nodeAt t = b.nodeAt t := by
  induction t using List.reverseRecOn with
  | nil => rw [nodeAt, nodeAt, List.reverse_nil, nodeAtReverse, nodeAtReverse, h _ ht]
  | append_singleton t i ih =>
    exact nodeAt_child_congr (ih fun hs => ht (hs.to_child i)) (h (Trail.child t i) ht)

/-- An operand is read alike before and after it is bound. -/
theorem nodeAt_assign_operand {i : Nat} (h : b.get? (t.child i) = none) (s : Trail) :
    (b.assign (t.child i) (.operand t i)).nodeAt s = b.nodeAt s := by
  induction s using List.reverseRecOn with
  | nil =>
    have hne : t.child i ≠ [] := List.append_ne_nil_of_right_ne_nil _ (List.cons_ne_nil i [])
    rw [nodeAt, nodeAt, List.reverse_nil, nodeAtReverse, nodeAtReverse, get?_assign_of_ne _ hne]
  | append_singleton s j ih =>
    change nodeAt _ (Trail.child s j) = b.nodeAt (Trail.child s j)
    by_cases hs : t.child i = Trail.child s j
    · obtain ⟨rfl, hij⟩ := List.append_inj' hs rfl
      obtain rfl : i = j := (List.cons.inj hij).1
      cases hbind : b.bind (.operand t i) with
      | none =>
        have hnone : (b.assign (t.child i) (.operand t i)).get? (t.child i) = none := by
          rw [assign, hbind, Table.get?_erase, if_pos rfl]
        rw [nodeAt_child hnone, nodeAt_child h, ih]
      | some x =>
        rw [nodeAt_of_get? (get?_assign_self hbind), nodeAt_child h]
        exact hbind.symm
    · exact nodeAt_child_congr ih (get?_assign_of_ne _ hs)

end Bindings

open Bindings

namespace Matcher

variable {o : Options} {l : Language} {t : Trail} {index : Nat} {k k' r r' : Chain Unit}

theorem nodeAt_operandLines (free : String → Bool) {b : Bindings}
    (h : ∀ j, index ≤ j → b.get? (t.child j) = none) (count : Nat) (s : Trail) :
    (settle l free (operandLines t index count) b).nodeAt s = b.nodeAt s := by
  induction count generalizing index b with
  | zero => rfl
  | succ count ih =>
    rw [operandLines, settle_cons_line l free () _ rfl]
    refine (ih fun j hj => ?_).trans (nodeAt_assign_operand (h index le_rfl) s)
    have hne : t.child index ≠ t.child j := fun heq => absurd (Trail.child_injective heq) (by omega)
    exact (get?_assign_of_ne _ hne).trans (h j (by omega))

theorem pass_plainEntry_some {guard : Guard} {pending : Option Trail} {count : Nat}
    {free : String → Bool} {b b' : Bindings}
    (h : (plainEntry o t guard pending count).1.pass l free b = some b') :
    b' = settle l free (noop () :: operandLines t 0 count) b := by
  unfold plainEntry at h
  split_ifs at h
  · cases h
    exact settle_implied free guard _ b
  · cases pending with
    | none =>
      simp only [guarded, Chain.pass] at h
      split_ifs at h
      exact (Option.some.inj h).symm
    | some first =>
      simp only [guarded, Chain.pass] at h
      split_ifs at h
      exact (Option.some.inj h).symm

/-! ### The chain of a node while operands are added -/

/-- The matchers of the operands from number `index` on find nothing bound below their trails when
they are reached. Where the chain so far starts with a count, it is a count of the node, and the
operands are read as they will be. -/
structure Footing (l : Language) (t : Trail) (index : Nat) (k : Chain Unit) : Prop where
  tidy : k.Tidy
  busy : k.Busy
  binds : k.Binds t.Below
  bare : ∀ free b b', b.Bare t → k.pass l free b = some b' → ∀ j, index ≤ j → b'.Bare (t.child j)
  counts : ∀ g countAt n, k.frontGuard? = some g → g.operandCountCheck? = some (countAt, n) →
      countAt = t ∧
        ∀ free b b', b.Bare t → k.pass l free b = some b' →
          ∀ j, index ≤ j → b'.nodeAt (t.child j) = b.nodeAt (t.child j)

namespace Footing

theorem next (h : Footing l t index k) : Footing l t (index + 1) k where
  tidy := h.tidy
  busy := h.busy
  binds := h.binds
  bare free b b' hb hp j hj := h.bare free b b' hb hp j (by omega)
  counts g countAt n hg hn :=
    have ⟨hat, hreads⟩ := h.counts g countAt n hg hn
    ⟨hat, fun free b b' hb hp j hj => hreads free b b' hb hp j (by omega)⟩

theorem nodeAt_self (h : Footing l t index k) {free : String → Bool} {b b' : Bindings}
    (hp : k.pass l free b = some b') : b'.nodeAt t = b.nodeAt t :=
  nodeAt_frame (fun _ ht => h.binds.frame hp ht) (Trail.not_below_self t)

section Operand

variable {p : Expr} {groups groups' : Groups}
  (hr : patternChain o l p (t.child index) groups = some (some r, groups'))
include hr

/-- Operators that are compared early are those that would be compared later. -/
theorem same_operators (h : Footing l t index k) {free : String → Bool} {b b' : Bindings}
    (hb : b.Bare t) (hk : k.pass l free b = some b') (x y : Chain.Front Unit) (countAt : Trail)
    (n : Nat) (first second : Trail) (hx : k.front? = some x) (hy : r.front? = some y)
    (hcount : x.guard.operandCountCheck? = some (countAt, n))
    (hpair : y.guard.operatorPairing? = some (first, second))
    (halign : countAt = first ∨ countAt = second) :
    b.operatorAt l first = b'.operatorAt l first ∧
    b.operatorAt l second = b'.operatorAt l second := by
  obtain ⟨rfl, hreads⟩ := h.counts x.guard countAt n (Chain.frontGuard?_of_front? hx) hcount
  obtain ⟨rfl, -⟩ := pairing_patternChain p hr (Chain.frontGuard?_of_front? hy) hpair
  -- the operand is compared with the node that is counted
  obtain rfl : countAt = first := halign.resolve_right fun h => Trail.child_ne countAt index h.symm
  rw [operatorAt, operatorAt, operatorAt, operatorAt, h.nodeAt_self hk,
    hreads free b b' hb hk index le_rfl]
  exact ⟨rfl, rfl⟩

/-- The chain of an operand is passed after the chain so far, whether or not their guards are
joined. -/
theorem pass_attach (h : Footing l t index k) (joins : Bool) (free : String → Bool) {b : Bindings}
    (hb : b.Bare t) :
    (k.attach joins () r).pass l free b = (k.pass l free b).bind (r.pass l free) := by
  cases hk : k.pass l free b with
  | none => exact Chain.pass_attach_none h.tidy.isQuiet hk joins () r
  | some b' => exact Chain.pass_attach_some h.tidy.isQuiet hk joins () (h.same_operators hr hb hk)

theorem attach (h : Footing l t index k) (joins : Bool) :
    Footing l t (index + 1) (k.attach joins () r) := by
  have hbinds := patternChain_binds hr
  have hframe : ∀ {free b b' t'}, r.pass l free b = some b' → ¬ (t.child index).Below t' →
      b'.get? t' = b.get? t' := fun hp ht => hbinds.frame hp ht
  refine ⟨h.tidy.attach (patternChain_fit hr).1 joins (), h.busy.attach joins () r, ?_, ?_, ?_⟩
  · intro s hs
    rcases Chain.mem_lines_attach hs with hs | hs | rfl
    · exact h.binds s hs
    · exact hbinds.mono (fun _ => Trail.Below.of_child) s hs
    · trivial
  · intro free b b' hb hp j hj t' ht'
    rw [h.pass_attach hr joins free hb] at hp
    obtain ⟨b1, hk, hp⟩ := Option.bind_eq_some_iff.1 hp
    rw [hframe hp fun hi => (hi.not_child_of_ne (by omega)).1 ht']
    exact h.bare free b b1 hb hk j (by omega) t' ht'
  · intro g countAt n hg hn
    rcases Chain.frontGuard?_attach h.busy joins () r with hsame | ⟨c, hjoined⟩
    · obtain ⟨hat, hreads⟩ := h.counts g countAt n (hsame ▸ hg) hn
      refine ⟨hat, fun free b b' hb hp j hj => ?_⟩
      rw [h.pass_attach hr joins free hb] at hp
      obtain ⟨b1, hk, hp⟩ := Option.bind_eq_some_iff.1 hp
      rw [nodeAt_frame (fun _ ht => hframe hp ht) (Trail.not_below_child t j index)]
      exact hreads free b b1 hb hk j (by omega)
    · rw [hjoined] at hg
      cases hg
      cases hn

end Operand

end Footing

theorem footing_entry {shape : Shape} {operands : List Expr} {groups : Groups} {d : Nat}
    {skipped : Option Nat} (h : entry o l shape t operands groups = some ((k, d), skipped)) :
    Footing l t 0 k := by
  have hbinds := entry_binds h
  refine ⟨(isEntry_entry h).1, (isEntry_entry h).2.1, hbinds.mono below_of_child, ?_, ?_⟩
  · intro free b b' hb hp j _ t' ht'
    have hne : ¬ ∃ i, t' = t.child i := by
      rintro ⟨i, rfl⟩
      exact Trail.not_below_child t i j ht'
    exact (hbinds.frame hp hne).trans (hb t' ht'.of_child)
  · intro g countAt n hg hn
    obtain ⟨hat, hop⟩ := (frontGuard?_entry h hg).2 countAt n hn
    refine ⟨hat, fun free b b' hb hp j _ => ?_⟩
    rw [show k = _ from congrArg Prod.fst (eq_plainEntry h hop)] at hp
    rw [pass_plainEntry_some hp]
    exact nodeAt_operandLines free (fun i _ => hb _ (t.below_child i)) operands.length _

/-- Two chains so far are passed alike, the second one being the one without joined guards. -/
structure Abreast (l : Language) (t : Trail) (index : Nat) (k k' : Chain Unit) :
    Prop extends Footing l t index k where
  tidy' : k'.Tidy
  pass : ∀ free b, b.Bare t → k.pass l free b = k'.pass l free b

theorem Abreast.next (h : Abreast l t index k k') : Abreast l t (index + 1) k k' :=
  ⟨h.toFooting.next, h.tidy', h.pass⟩

/-- The chains of an operand are attached, the second one without joining guards. -/
theorem Abreast.attach (h : Abreast l t index k k') {p : Expr} {groups groups' : Groups}
    (hr : patternChain o l p (t.child index) groups = some (some r, groups')) (hr' : r'.Tidy)
    (hpass : ∀ free b, b.Bare (t.child index) → r.pass l free b = r'.pass l free b) (joins : Bool) :
    Abreast l t (index + 1) (k.attach joins () r) (k'.plug r') := by
  refine ⟨h.toFooting.attach hr joins, h.tidy'.plug hr', fun free b hb => ?_⟩
  rw [h.pass_attach hr joins free hb, Chain.pass_plug l free h.tidy'.isQuiet, ← h.pass free b hb]
  cases hk : k.pass l free b with
  | none => rfl
  | some b' => exact hpass free b' (h.bare free b b' hb hk index le_rfl)

/-! ### Patterns -/

/-- The options that leave every comparison where it is. -/
def Options.separate (o : Options) : Options := { o with joinComparisons := false }

/-- Two matchers at a trail are passed alike where nothing is bound below it. -/
def PassAlike (l : Language) (t : Trail) (k k' : Chain Unit) : Prop :=
  ∀ free b, b.Bare t → k.pass l free b = k'.pass l free b

theorem PassAlike.leave (h : PassAlike l t k k') (w : Bool) (d : Nat) :
    PassAlike l t (if w = true then k.leave () d else k)
      (if w = true then k'.leave () d else k') := by
  intro free b hb
  cases w with
  | false => exact h free b hb
  | true => rw [if_pos rfl, if_pos rfl, Chain.pass_leave, Chain.pass_leave, h free b hb]

/-- The matchers of the pattern with and without joined guards are passed alike. -/
def PatternSeparates (o : Options) (l : Language) (p : Expr) : Prop :=
  ∀ (t : Trail) (groups groups' : Groups) (k : Option (Chain Unit)),
    patternChain o l p t groups = some (k, groups') →
    ∃ k', patternChain o.separate l p t groups = some (k', groups') ∧
      Option.Rel (PassAlike l t) k k'

/-- Chains that are abreast are passed alike with the matchers of the operands. -/
def OperandsSeparate (o : Options) (l : Language) (ps : List Expr) : Prop :=
  ∀ (skipped : Option Nat) (t : Trail) (index : Nat) (k k' k1 : Chain Unit) (w w' : Bool)
    (groups groups' : Groups),
    operandsChain o l skipped t index ps k w groups = some (k1, w', groups') →
    Abreast l t index k k' →
    ∃ k1', operandsChain o.separate l skipped t index ps k' w groups = some (k1', w', groups') ∧
      PassAlike l t k1 k1'

/-- Nodes, given their operands. -/
theorem separate_node {shape : Shape} {groups groups1 groups' : Groups} {operands : List Expr}
    {e : Entry} {skipped : Option Nat} {w : Bool}
    (he : entry o l shape t operands groups = some (e, skipped))
    (hk : operandsChain o l skipped t 0 operands e.1 true groups1 = some (k, w, groups'))
    (ih : OperandsSeparate o l operands) :
    ∃ k', operandsChain o.separate l skipped t 0 operands e.1 true groups1 = some (k', w, groups') ∧
      PassAlike l t (if w = true then k.leave () e.2 else k)
        (if w = true then k'.leave () e.2 else k') := by
  obtain ⟨k', hk', hpass⟩ :=
    ih _ _ _ _ _ _ _ _ _ _ hk ⟨footing_entry he, (isEntry_entry he).1, fun _ _ _ => rfl⟩
  exact ⟨k', hk', hpass.leave w e.2⟩

theorem operandsSeparate_cons {p : Expr} {rest : List Expr} (hp : PatternSeparates o l p)
    (hrest : OperandsSeparate o l rest) : OperandsSeparate o l (p :: rest) := by
  intro skipped t index k k' k1 w w' groups groups' h hk
  rcases cases_of_operandsChain h with ⟨hs, h⟩ | ⟨hs, x, groups1, hx, h⟩
  · rw [operandsChain, if_pos hs]
    exact hrest _ _ _ _ _ _ _ _ _ _ h hk.next
  · obtain ⟨x', hx', hpass⟩ := hp _ _ _ _ hx
    rw [operandsChain_cons hs, hx']
    cases hpass with
    | none => exact hrest _ _ _ _ _ _ _ _ _ _ h hk.next
    | some hpass =>
      exact hrest _ _ _ _ _ _ _ _ _ _ h
        (hk.attach hx (patternChain_fit hx').1 hpass o.joinComparisons)

/-- **Joining changes nothing** in the chain of a pattern. -/
theorem patternChain_separate_all :
    (∀ p, PatternSeparates o l p) ∧ ∀ ps, OperandsSeparate o l ps := by
  apply pattern_induct l
  case metavar =>
    intro id t groups groups' k h
    cases h
    exact ⟨none, rfl, .none⟩
  case compound => exact fun inner ih => ih
  case optional =>
    intro pattern default _ _ t groups groups' k h
    simp [patternChain] at h
  case node =>
    intro e shape operands hnode ih t groups groups' k h
    obtain ⟨e0, skipped, k1, w, he, hk, rfl⟩ := hnode.exists_of_patternChain h
    obtain ⟨k', hk', hpass⟩ := separate_node he hk ih
    -- the entry of a node does not depend on whether guards are joined
    have he' : entry o.separate l shape t operands groups = some (e0, skipped) := he
    exact ⟨_, hnode.patternChain_of_entry he' hk', .some hpass⟩
  case nil =>
    intro skipped t index k k' k1 w w' groups groups' h hk
    cases h
    exact ⟨k', rfl, hk.pass⟩
  case cons => exact fun p rest hp hrest => operandsSeparate_cons hp hrest

end Matcher

open Matcher

variable {l : Language} {r : Rule}

/-- Both matchers of a rule, run on one term. -/
theorem Rule.separate_runs {o o' : CompileOptions} {c c' d d' : Code} {head head' : NodeId}
    (hc : r.compile o l c = (.ok head, c')) (hd : r.compile o' l d = (.ok head', d'))
    (hskip : o'.skipRootGuard = o.skipRootGuard) (hfold : o'.foldConstants = o.foldConstants)
    (hjoins : o'.joinComparisons = false) (free : String → Bool) (e : Expr) :
    (c'.run l free head e).changed = (d'.run l free head' e).changed ∧
    (c'.run l free head e).fired = (d'.run l free head' e).fired ∧
    ((c'.run l free head e).changed = true →
      (c'.run l free head e).bindings = (d'.run l free head' e).bindings) := by
  have hoptions : matcherOptions o' = (matcherOptions o).separate := by
    simp only [matcherOptions, Options.separate, hskip, hjoins]
  obtain ⟨k, groups, texts, replacement, hk, htexts, hreplacement, hrun⟩ := compile_runs hc
  obtain ⟨k', groups', texts', replacement', hk', htexts', hreplacement', hrun'⟩ := compile_runs hd
  obtain ⟨k'', hk'', hpass⟩ := patternChain_separate_all.1 _ _ _ _ _ hk
  rw [hoptions] at hk'
  rw [hfold] at hreplacement'
  obtain ⟨rfl, rfl⟩ := Prod.mk.inj (Option.some.inj (hk'.symm.trans hk''))
  obtain rfl := Except.ok.inj (htexts.symm.trans htexts')
  obtain rfl := Except.ok.inj (hreplacement.symm.trans hreplacement')
  have hsame : passed? l free k (ofTerm e) = passed? l free k' (ofTerm e) := by
    cases hpass with
    | none => rfl
    | some h => exact h free (ofTerm e) (bare_ofTerm e)
  have hchanged : (c'.run l free head e).changed = (d'.run l free head' e).changed := by
    rw [(hrun free e).1, (hrun' free e).1, hsame]
  refine ⟨hchanged, by rw [(hrun free e).2, (hrun' free e).2, hsame], fun htrue => ?_⟩
  obtain ⟨x, _, _, hx, -, -, happlies⟩ := compile_applies hc
  obtain ⟨x', _, _, hx', -, -, happlies'⟩ := compile_applies hd
  obtain ⟨rfl, -⟩ := Prod.mk.inj (Option.some.inj (hk.symm.trans hx))
  rw [hoptions] at hx'
  obtain ⟨rfl, -⟩ := Prod.mk.inj (Option.some.inj (hk'.symm.trans hx'))
  have hbound :=
    (happlies free e htrue).1.symm.trans (hsame.trans (happlies' free e (hchanged ▸ htrue)).1)
  exact Option.some.inj hbound

/-- **Joining guards is only an optimisation.** The code of a rule and the code that is made without
joining guards return the same, fire the same and, where they return `true`, have bound the same.
Guards can always be joined: the attempt fails nowhere, and no rule is refused because of it. -/
theorem joining_is_harmless (o : CompileOptions) (l : Language) (r : Rule) (c d : Code) :
    (∀ head, (r.compile { o with joinComparisons := true } l c).1 = .ok head →
      ∃ head', (r.compile { o with joinComparisons := false } l d).1 = .ok head' ∧ ∀ free e,
        let joined := (r.compile { o with joinComparisons := true } l c).2.run l free head e
        let separate := (r.compile { o with joinComparisons := false } l d).2.run l free head' e
        joined.changed = separate.changed ∧ joined.fired = separate.fired ∧
          (joined.changed = true → joined.bindings = separate.bindings)) ∧
      (∀ countAt first second, (r.compile { o with joinComparisons := true } l c).1 ≠
        .error (.misaligned countAt first second)) ∧
      ∀ line rest p, ∃ joined p', Matcher.join line rest p = .ok joined p' := by
  refine ⟨fun head h => ?_, fun countAt first second h => ?_, fun line rest p => ?_⟩
  · have hc : r.compile { o with joinComparisons := true } l c = (.ok head, _) := Prod.ext h rfl
    obtain ⟨head', d', hd⟩ : ∃ head' d',
        r.compile { o with joinComparisons := false } l d = (.ok head', d') :=
      Rule.compile_elsewhere hc (show o.foldConstants =
        CompileOptions.foldConstants { o with joinComparisons := false } from rfl) d
    refine ⟨head', by rw [hd], fun free e => ?_⟩
    rw [hd]
    exact Rule.separate_runs hc hd rfl rfl rfl free e
  · cases Rule.compile_not_fatal (Prod.ext h rfl)
  · have hnew : ∀ id, Matcher.New Code.empty id := fun id => Nat.zero_le id
    obtain ⟨joined, p', hjoin, -⟩ := (works_join (hnew line) (hnew rest)).run p (.of_empty p.code)
    exact ⟨joined, p', hjoin⟩

/-- The operator of an operand is compared with that of the root, in one guard with the count or in
a guard of its own. Both matchers replace `(+ x (+ y z))`. -/
theorem associated_separate :
    let joined := (associated.compile ⟨false, false, true⟩ .arithmetic Code.empty).2.run
      .arithmetic (fun _ => false) 0 (.app 0 [.var "x", .app 0 [.var "y", .var "z"]])
    joined.changed = true ∧ ∃ head',
    (associated.compile ⟨false, false, false⟩ .arithmetic Code.empty).1 = .ok head' ∧
      let separate := (associated.compile ⟨false, false, false⟩ .arithmetic Code.empty).2.run
        .arithmetic (fun _ => false) head'
        (.app 0 [.var "x", .app 0 [.var "y", .var "z"]])
      separate.changed = true ∧ separate.fired = joined.fired ∧
      separate.bindings = joined.bindings := by
  intro joined
  have hhead : (associated.compile ⟨false, false, true⟩ .arithmetic Code.empty).1 = .ok 0 := by
    decide +kernel
  have hfires : joined.changed = true := by decide +kernel
  obtain ⟨head', hhead', hruns⟩ :=
    (joining_is_harmless ⟨false, false, true⟩ .arithmetic associated Code.empty Code.empty).1 0
      hhead
  obtain ⟨hchanged, hfired, hbindings⟩ :=
    hruns (fun _ => false) (.app 0 [.var "x", .app 0 [.var "y", .var "z"]])
  exact ⟨hfires, head', hhead', hchanged.symm.trans hfires, hfired.symm, (hbindings hfires).symm⟩

end Rulewright
