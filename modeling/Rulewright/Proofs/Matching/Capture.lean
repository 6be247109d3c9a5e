import Rulewright.Proofs.Matching.Join

/-!
# Passing a chain is capturing

The chain of a pattern is passed with a term bound at its trail exactly when the comparison of the
pattern with the term succeeds. What is bound afterwards at the trails of metavariables is what the
comparison captured, and the operators at the first trails of groups are the captured ones.

* `Heads`: the operators of groups, as code reads them, are the captured ones.
* `Agrees`: a comparison and a run of a chain come to the same result.
* `agrees_patternChain`: they do for every pattern.
-/

namespace Rulewright

/-! ### Occurrences -/

namespace Expr

theorem capture?_unwrap (l : Language) (p : Expr) (root : Bool) (e : Expr) (c : Captures) :
    p.unwrap.capture? l root e c = p.capture? l root e c := by
  match p with
  | .compound inner => rw [unwrap, capture?, capture?_unwrap l inner root e c]
  | .metavar _ | .var _ | .literal _ | .app _ _ | .optional _ _ | .anyway _ _ => rfl

theorem metaOccurrences_unwrap (p : Expr) (t : Trail) :
    p.unwrap.metaOccurrences t = p.metaOccurrences t := by
  match p with
  | .compound inner => rw [unwrap, metaOccurrences, metaOccurrences_unwrap inner t]
  | .metavar _ | .var _ | .literal _ | .app _ _ | .optional _ _ | .anyway _ _ => rfl

theorem groupOccurrences_unwrap (p : Expr) (t : Trail) :
    p.unwrap.groupOccurrences t = p.groupOccurrences t := by
  match p with
  | .compound inner => rw [unwrap, groupOccurrences, groupOccurrences_unwrap inner t]
  | .metavar _ | .var _ | .literal _ | .app _ _ | .optional _ _ | .anyway _ _ => rfl

/-- The metavariable of an operand that may be missing. -/
def optionalMeta? (p : Expr) : Option MetaId :=
  match p.unwrap with
  | .optional pattern _ =>
    match pattern.unwrap with
    | .metavar id => some id
    | _ => none
  | _ => none

/-- An operand that may be missing takes any term. -/
theorem of_optionalMeta? {p : Expr} {id : MetaId} (h : p.optionalMeta? = some id) :
    (∀ l root e c, p.capture? l root e c = some (c.take id e)) ∧
      (∀ t, p.metaOccurrences t = [(id, t)]) ∧ ∀ t, p.groupOccurrences t = [] := by
  unfold optionalMeta? at h
  split at h
  · rename_i pattern default hp
    split at h
    · rename_i x hx
      cases h
      refine ⟨fun l root e c => ?_, fun t => ?_, fun t => ?_⟩
      · rw [← capture?_unwrap, hp, capture?, ← capture?_unwrap, hx, capture?]
      · rw [← metaOccurrences_unwrap, hp, metaOccurrences, ← metaOccurrences_unwrap, hx,
          metaOccurrences]
      · rw [← groupOccurrences_unwrap, hp, groupOccurrences, ← groupOccurrences_unwrap, hx,
          groupOccurrences]
    · cases h
  · cases h

/-- Metavariables and groups occur at a trail or below it. -/
theorem occurrences_below :
    (∀ (p : Expr) (t : Trail), (∀ o ∈ p.metaOccurrences t, o.2 = t ∨ t.Below o.2) ∧
      ∀ o ∈ p.groupOccurrences t, o.2 = t ∨ t.Below o.2) ∧
    ∀ (ps : List Expr) (t : Trail) (index : Nat),
      (∀ o ∈ metaOccurrencesAll t index ps, ∃ j, index ≤ j ∧
        (o.2 = t.child j ∨ (t.child j).Below o.2)) ∧
      ∀ o ∈ groupOccurrencesAll t index ps, ∃ j, index ≤ j ∧
        (o.2 = t.child j ∨ (t.child j).Below o.2) := by
  have lift : ∀ {t t' : Trail} {index : Nat},
      (∃ j, index ≤ j ∧ (t' = t.child j ∨ (t.child j).Below t')) → t.Below t' := by
    rintro t t' index ⟨j, -, rfl | h⟩
    · exact Trail.below_child t j
    · exact h.of_child
  apply Expr.induct
  case metavar =>
    exact fun id t => ⟨fun o ho => Or.inl (by rw [List.mem_singleton.1 ho]), List.forall_mem_nil _⟩
  case var => exact fun name t => ⟨List.forall_mem_nil _, List.forall_mem_nil _⟩
  case literal => exact fun value t => ⟨List.forall_mem_nil _, List.forall_mem_nil _⟩
  case app =>
    intro symbol operands ih t
    exact ⟨fun o ho => Or.inr (lift ((ih t 0).1 o ho)), fun o ho => Or.inr (lift ((ih t 0).2 o ho))⟩
  case compound => exact fun inner ih => ih
  case optional => exact fun pattern default ih _ => ih
  case anyway =>
    intro group operands ih t
    refine ⟨fun o ho => Or.inr (lift ((ih t 0).1 o ho)), fun o ho => ?_⟩
    rcases List.mem_cons.1 ho with rfl | ho
    · exact Or.inl rfl
    · exact Or.inr (lift ((ih t 0).2 o ho))
  case nil => exact fun t index => ⟨List.forall_mem_nil _, List.forall_mem_nil _⟩
  case cons =>
    intro p rest hp hrest t index
    refine ⟨fun o ho => ?_, fun o ho => ?_⟩
    · rcases List.mem_append.1 ho with ho | ho
      · exact ⟨index, le_refl index, (hp _).1 o ho⟩
      · obtain ⟨j, hj, h⟩ := (hrest t (index + 1)).1 o ho
        exact ⟨j, by omega, h⟩
    · rcases List.mem_append.1 ho with ho | ho
      · exact ⟨index, le_refl index, (hp _).2 o ho⟩
      · obtain ⟨j, hj, h⟩ := (hrest t (index + 1)).2 o ho
        exact ⟨j, by omega, h⟩

end Expr

/-! ### The groups of a chain -/

theorem Table.firstTrail?_pushTrail (groups : Groups) (g g' : GroupId) (t : Trail) :
    (groups.pushTrail g t).firstTrail? g' =
      if g = g' then some ((groups.firstTrail? g).getD t) else groups.firstTrail? g' := by
  rw [pushTrail, firstTrail?, get?_insert]
  split_ifs with h
  · rw [Option.bind_some, firstTrail?]
    rcases groups.get? g with _ | _ | ⟨x, rest⟩ <;> rfl
  · rfl

theorem Table.firstTrail?_foldl {groups : Groups} {os : List (GroupId × Trail)} {g : GroupId}
    {t : Trail} (h : (os.foldl (fun t o => t.pushTrail o.1 o.2) groups).firstTrail? g = some t) :
    groups.firstTrail? g = some t ∨ ∃ o ∈ os, o.2 = t := by
  induction os generalizing groups with
  | nil => exact Or.inl h
  | cons o rest ih =>
    rcases ih h with hfirst | ⟨o', ho', rfl⟩
    · rw [firstTrail?_pushTrail] at hfirst
      split_ifs at hfirst with hg
      · subst hg
        cases hf : groups.firstTrail? o.1 with
        | none =>
          rw [hf] at hfirst
          exact Or.inr ⟨o, List.mem_cons_self, Option.some.inj hfirst⟩
        | some x =>
          rw [hf] at hfirst
          exact Or.inl hfirst
      · exact Or.inl hfirst
    · exact Or.inr ⟨o', List.mem_cons_of_mem _ ho', rfl⟩

namespace Matcher

variable {o : Options} {l : Language}

/-- The operand without a matcher is one that may be missing. -/
theorem entry_skipped {shape : Shape} {t : Trail} {patterns : List Expr} {groups : Groups}
    {e : Entry} {skipped : Option Nat} (h : entry o l shape t patterns groups = some (e, skipped))
    {j : Nat} {p : Expr} (hj : skipped = some j) (hp : patterns[j]? = some p) :
    ∃ x, p.optionalMeta? = some x := by
  subst hj
  rcases cases_of_entry h with ⟨-, hnone, -⟩ | ⟨position, pattern, default, x, code, hop, hj, hx, -⟩
  · cases hnone
  · cases hj
    refine ⟨x, ?_⟩
    obtain ⟨a, b, rfl, ⟨rfl, hoptional⟩ | ⟨rfl, hoptional, -⟩⟩ := cases_of_optionalOperand? hop
    · cases hp
      rw [Expr.optionalMeta?, hoptional]
      simp only [hx]
    · cases hp
      rw [Expr.optionalMeta?, hoptional]
      simp only [hx]

/-- The groups after a pattern are those before it and the ones that occur in it. -/
theorem groups_patternChain :
    (∀ (p : Expr) (t : Trail) (groups groups' : Groups) (k : Option (Chain Unit)),
      patternChain o l p t groups = some (k, groups') →
      groups' = (p.groupOccurrences t).foldl (fun t o => t.pushTrail o.1 o.2) groups) ∧
    ∀ (ps : List Expr) (skipped : Option Nat) (t : Trail) (index : Nat) (k k' : Chain Unit)
      (w w' : Bool) (groups groups' : Groups),
      (∀ j p, skipped = some (index + j) → ps[j]? = some p → ∃ x, p.optionalMeta? = some x) →
      operandsChain o l skipped t index ps k w groups = some (k', w', groups') →
      groups' =
        (Expr.groupOccurrencesAll t index ps).foldl (fun t o => t.pushTrail o.1 o.2) groups := by
  apply pattern_induct l
  case metavar =>
    intro x t groups groups' k h
    cases h
    rfl
  case compound => exact fun inner ih => ih
  case optional =>
    intro pattern default _ _ t groups groups' k h
    simp [patternChain] at h
  case node =>
    intro p shape operands hnode ih t groups groups' k h
    obtain ⟨e0, skipped, k', wanted, he, hk, -⟩ := hnode.exists_of_patternChain h
    rw [ih _ _ _ _ _ _ _ _ _ (fun j p hj hp => entry_skipped he (by simpa using hj) hp) hk]
    cases hnode <;> rfl
  case nil =>
    intro skipped t index k k' w w' groups groups' _ h
    cases h
    rfl
  case cons =>
    intro p rest hp hrest skipped t index k k' w w' groups groups' hskip h
    have hskip' : ∀ j p, skipped = some (index + 1 + j) → rest[j]? = some p →
        ∃ x, p.optionalMeta? = some x :=
      fun j q hj hq => hskip (j + 1) q (by rw [hj]; congr 1; omega) (by simpa using hq)
    rw [Expr.groupOccurrencesAll, List.foldl_append]
    rcases cases_of_operandsChain h with ⟨hs, h⟩ | ⟨-, x, groups1, hx, h⟩
    · -- the operand without a matcher is a metavariable, in no group
      obtain ⟨id, hid⟩ := hskip 0 p hs rfl
      rw [(Expr.of_optionalMeta? hid).2.2]
      exact hrest _ _ _ _ _ _ _ _ _ hskip' h
    · rw [← hp _ _ _ _ hx]
      exact hrest _ _ _ _ _ _ _ _ _ hskip' h

/-! ### Comparisons and runs -/

/-- The operators of groups, as code reads them at their first trails, are the captured ones. -/
structure Heads (l : Language) (b : Bindings) (groups : Groups) (c : Captures) : Prop where
  lookup : ∀ g, c.heads.lookup g = (groups.firstTrail? g).map (b.operatorAt l)
  bound : ∀ g t, groups.firstTrail? g = some t → (b.get? t).isSome

namespace Heads

variable {b b' : Bindings} {groups : Groups} {c : Captures}

theorem frame (h : Heads l b groups c)
    (hb : ∀ g t, groups.firstTrail? g = some t → b'.get? t = b.get? t) :
    Heads l b' groups c where
  lookup g := by
    rw [h.lookup]
    cases hf : groups.firstTrail? g with
    | none => rfl
    | some t =>
      obtain ⟨e, he⟩ := Option.isSome_iff_exists.1 (h.bound g t hf)
      rw [Option.map_some, Option.map_some, Bindings.operatorAt_of_get? he,
        Bindings.operatorAt_of_get? ((hb g t hf).trans he)]
  bound g t hf := by
    rw [hb g t hf]
    exact h.bound g t hf

theorem take (h : Heads l b groups c) (x : MetaId) (e : Expr) : Heads l b groups (c.take x e) :=
  ⟨h.lookup, h.bound⟩

theorem enter (h : Heads l b groups c) {t : Trail} {e : Expr} (hb : b.get? t = some e)
    (g : GroupId) : Heads l b (groups.pushTrail g t) (c.enter g (e.operator? l)) where
  lookup g' := by
    rw [Captures.enter, List.lookup_append, h.lookup, Table.firstTrail?_pushTrail]
    by_cases hg : g = g'
    · subst hg
      rw [if_pos rfl]
      cases groups.firstTrail? g with
      | none => simp [Bindings.operatorAt_of_get? hb]
      | some t' => simp
    · have hne : (g' == g) = false := beq_false_of_ne (Ne.symm hg)
      simp [hg, List.lookup_cons, hne]
  bound g' t' hf := by
    rw [Table.firstTrail?_pushTrail] at hf
    split_ifs at hf
    · cases hg : groups.firstTrail? g with
      | none =>
        rw [hg] at hf
        cases hf
        simp [hb]
      | some t1 =>
        rw [hg] at hf
        cases hf
        exact h.bound g t1 hg
    · exact h.bound g' t' hf

theorem agrees (h : Heads l b groups c) (g : GroupId) (operator : Option String) :
    ((groups.firstTrail? g).all fun first =>
      (b.operatorAt l first).isSome && b.operatorAt l first == operator) = c.agrees g operator := by
  rw [Captures.agrees, h.lookup]
  cases groups.firstTrail? g <;> rfl

end Heads

/-- What was captured, the terms as they would be looked up. -/
def terms (c : Captures) : List (MetaId × Option Expr) := c.metas.map fun p => (p.1, some p.2)

/-- What is bound where metavariables occur. -/
def readAt (b : Bindings) (os : List (MetaId × Trail)) : List (MetaId × Option Expr) :=
  os.map fun o => (o.1, b.get? o.2)

/-- A comparison and a run come to the same result: both fail, or what was captured in addition is
bound where the metavariables occur, and nothing outside of a region has changed. -/
def Agrees (l : Language) (region : Trail → Prop) (groups : Groups) (os : List (MetaId × Trail))
    (b : Bindings) (c : Captures) (captured : Option Captures) (run : Option Bindings) : Prop :=
  match captured with
  | none => run = none
  | some c' =>
    ∃ b', run = some b' ∧ Heads l b' groups c' ∧ (∀ t, ¬ region t → b'.get? t = b.get? t) ∧
      terms c' = terms c ++ readAt b' os

theorem readAt_append (b : Bindings) (xs ys : List (MetaId × Trail)) :
    readAt b (xs ++ ys) = readAt b xs ++ readAt b ys :=
  List.map_append

theorem readAt_congr {b b' : Bindings} {os : List (MetaId × Trail)}
    (h : ∀ o ∈ os, b'.get? o.2 = b.get? o.2) : readAt b' os = readAt b os :=
  List.map_congr_left fun o ho => by rw [h o ho]

theorem agrees_take {b : Bindings} {groups : Groups} {c : Captures} {t : Trail} {e : Expr}
    (hh : Heads l b groups c) (hb : b.get? t = some e) (x : MetaId) (region : Trail → Prop) :
    Agrees l region groups [(x, t)] b c (some (c.take x e)) (some b) :=
  ⟨b, rfl, hh.take x e, fun _ _ => rfl, by simp [terms, readAt, Captures.take, hb]⟩

theorem Agrees.prepend {region region' : Trail → Prop} {groups : Groups}
    {os os' : List (MetaId × Trail)} {b b' : Bindings} {c c' : Captures}
    {captured : Option Captures} {run : Option Bindings}
    (h : Agrees l region' groups os' b' c' captured run)
    (hframe : ∀ t, ¬ region t → b'.get? t = b.get? t) (hsub : ∀ t, region' t → region t)
    (hterms : terms c' = terms c ++ readAt b' os) (hos : ∀ o ∈ os, ¬ region' o.2) :
    Agrees l region groups (os ++ os') b c captured run := by
  cases captured with
  | none => exact h
  | some c'' =>
    obtain ⟨b'', hrun, hheads, hframe', hterms'⟩ := h
    refine ⟨b'', hrun, hheads, fun t ht => ?_, ?_⟩
    · rw [hframe' t fun h => ht (hsub t h), hframe t ht]
    · rw [hterms', hterms, readAt_append, List.append_assoc,
        readAt_congr fun o ho => hframe' o.2 (hos o ho)]

/-! ### Operands -/

/-- The matchers of the operands from number `index` on are reached: the operands are bound to the
terms, nothing is bound below them, and no group starts there. -/
structure Ready (l : Language) (free : String → Bool) (count : String → Nat) (skipped : Option Nat)
    (t : Trail) (index : Nat) (k : Chain Unit) (b b' : Bindings) (es : List Expr) (groups : Groups)
    (c : Captures) : Prop where
  tidy : k.Tidy
  busy : k.Busy
  passed : k.pass l free b = some b'
  operand : ∀ j x, es[j]? = some x → b'.get? (t.child (index + j)) = some x
  term : ∀ j x, es[j]? = some x → skipped ≠ some (index + j) → x.IsTerm l count
  clean : ∀ j t', index ≤ j → (t.child j).Below t' → b'.get? t' = none
  heads : Heads l b' groups c
  clear : ∀ g t' j, groups.firstTrail? g = some t' → index ≤ j → ¬ (t.child j).Below t'
  /-- Under a count of operands, the operands can be read from their parent before they are bound.
  -/
  early : ∀ g countAt n, k.frontGuard? = some g → g.operandCountCheck? = some (countAt, n) →
      countAt = t ∧
        ∃ e, b.get? t = some e ∧ b'.get? t = some e ∧
          ∀ j x, es[j]? = some x →
            e.operands[index + j]? = some x ∧ b.get? (t.child (index + j)) = none

namespace Ready

variable {free : String → Bool} {count : String → Nat} {skipped : Option Nat} {t : Trail}
  {index : Nat} {k r : Chain Unit} {b b' b'' : Bindings} {x : Expr} {es : List Expr}
  {groups groups' : Groups} {c c' : Captures}

/-- The matcher of an operand changes nothing that the matchers of the later ones rely on. -/
theorem advance (h : Ready l free count skipped t index k b b' (x :: es) groups c) {k' : Chain Unit}
    (ht : k'.Tidy) (hb : k'.Busy) (hp : k'.pass l free b = some b'')
    (hframe : ∀ t', ¬ (t.child index).Below t' → b''.get? t' = b'.get? t')
    (hh : Heads l b'' groups' c')
    (hg : ∀ g t', groups'.firstTrail? g = some t' →
      groups.firstTrail? g = some t' ∨ t' = t.child index ∨ (t.child index).Below t')
    (hfront : k'.frontGuard? = k.frontGuard? ∨ ∃ a, k'.frontGuard? = some (.anyway a)) :
    Ready l free count skipped t (index + 1) k' b b'' es groups' c' where
  tidy := ht
  busy := hb
  passed := hp
  operand j y hy := by
    rw [hframe _ (Trail.not_below_child t _ index), Nat.add_right_comm]
    exact h.operand (j + 1) y hy
  term j y hy hs := h.term (j + 1) y hy (by rwa [Nat.add_right_comm] at hs)
  clean j t' hj hbelow := by
    rw [hframe t' fun hi => (hi.not_child_of_ne (by omega)).1 hbelow]
    exact h.clean j t' (by omega) hbelow
  heads := hh
  clear g t' j hf hj := by
    rcases hg g t' hf with hf | rfl | hi
    · exact h.clear g t' j hf (by omega)
    · exact Trail.not_below_child t index j
    · exact (hi.not_child_of_ne (by omega)).1
  early g countAt n hgd hc := by
    rcases hfront with heq | ⟨a, hany⟩
    · obtain ⟨hat, e, hbt, hbt', hall⟩ := h.early g countAt n (heq.symm.trans hgd) hc
      refine ⟨hat, e, hbt, (hframe t (Trail.not_below_child_self t index)).trans hbt',
        fun j y hy => ?_⟩
      rw [Nat.add_right_comm]
      exact hall (j + 1) y hy
    · rw [hany] at hgd
      cases hgd
      cases hc

/-- The chain of an operand attached is passed after the chain so far. -/
theorem pass_attach (h : Ready l free count skipped t index k b b' (x :: es) groups c) {p : Expr}
    (hr : patternChain o l p (t.child index) groups = some (some r, groups')) (joins : Bool) :
    (k.attach joins () r).pass l free b = r.pass l free b' := by
  refine Chain.pass_attach_some h.tidy.isQuiet h.passed joins () ?_
  intro f y countAt n first second hf hy hcount hpair halign
  obtain ⟨rfl, e, hbt, hbt', hall⟩ :=
    h.early f.guard countAt n (Chain.frontGuard?_of_front? hf) hcount
  obtain ⟨rfl, -⟩ := pairing_patternChain p hr (Chain.frontGuard?_of_front? hy) hpair
  obtain rfl : countAt = first := halign.resolve_right fun h => Trail.child_ne countAt index h.symm
  obtain ⟨hop, hnone⟩ : e.operands[index]? = some x ∧ b.get? (countAt.child index) = none :=
    hall 0 x rfl
  have hx : b'.get? (countAt.child index) = some x := h.operand 0 x rfl
  refine ⟨by rw [Bindings.operatorAt_of_get? hbt, Bindings.operatorAt_of_get? hbt'], ?_⟩
  rw [Bindings.operatorAt_of_get? hx, Bindings.operatorAt, Bindings.nodeAt_child hnone,
    Bindings.nodeAt_of_get? hbt, Option.bind_some]
  exact congrArg (Option.bind · (Expr.operator? l)) hop

end Ready

theorem operandsChain_none {free : String → Bool} {skipped : Option Nat} {t : Trail} {index : Nat}
    {patterns : List Expr} {k k' : Chain Unit} {w w' : Bool} {groups groups' : Groups}
    (h : operandsChain o l skipped t index patterns k w groups = some (k', w', groups'))
    (hk : k.Tidy) {b : Bindings} (hp : k.pass l free b = none) : k'.pass l free b = none :=
  (operandsChain_invariant (I := fun x => x.Tidy ∧ x.pass l free b = none) (fun hr hx =>
    ⟨hx.1.attach (patternChain_fit hr).1 _ (), Chain.pass_attach_none hx.1.isQuiet hx.2 _ () _⟩) h
    ⟨hk, hp⟩).2

/-- The comparison of a pattern agrees with its chain. -/
def PatternAgrees (o : Options) (l : Language) (free : String → Bool) (count : String → Nat)
    (p : Expr) : Prop :=
  ∀ t groups k groups' b e c, patternChain o l p t groups = some (k, groups') → p.IsRead l →
    p.UsesCounts l count → b.get? t = some e → (∀ t', t.Below t' → b.get? t' = none) →
    e.IsTerm l count → Heads l b groups c →
    (∀ g t', groups.firstTrail? g = some t' → ¬ t.Below t') →
    Agrees l t.Below groups' (p.metaOccurrences t) b c (p.capture? l t.isEmpty e c)
      (passed? l free k b)

/-- The comparison of operands agrees with their chains. -/
def OperandsAgree (o : Options) (l : Language) (free : String → Bool) (count : String → Nat)
    (ps : List Expr) : Prop :=
  ∀ skipped t index k w groups k' w' groups' b b' es c,
    operandsChain o l skipped t index ps k w groups = some (k', w', groups') → Expr.AllRead l ps →
    Expr.AllUseCounts l count ps →
    (∀ j p, skipped = some (index + j) → ps[j]? = some p → ∃ x, p.optionalMeta? = some x) →
    es.length = ps.length → Ready l free count skipped t index k b b' es groups c →
    Agrees l (fun t' => ∃ j, index ≤ j ∧ (t.child j).Below t') groups'
      (Expr.metaOccurrencesAll t index ps) b' c (Expr.captureAll? l ps es c) (k'.pass l free b)

section Agreement

variable {free : String → Bool} {count : String → Nat} {t : Trail} {patterns : List Expr}
  {groups : Groups} {skipped : Option Nat}

theorem operandsAgree_nil : OperandsAgree o l free count [] := by
  intro skipped t index k w groups k' w' groups' b b' es c h _ _ _ hlen hready
  cases h
  obtain rfl := List.length_eq_zero_iff.1 hlen
  exact ⟨b', hready.passed, hready.heads, fun _ _ => rfl, by simp [readAt, Expr.metaOccurrencesAll]⟩

theorem operandsAgree_cons {p : Expr} {rest : List Expr} (hp : PatternAgrees o l free count p)
    (hrest : OperandsAgree o l free count rest) : OperandsAgree o l free count (p :: rest) := by
  intro skipped t index k w groups k' w' groups' b b' es c h hread hcounts hskip hlen hready
  obtain ⟨x, es, rfl⟩ : ∃ x xs, es = x :: xs := by
    cases es with
    | nil => cases hlen
    | cons x xs => exact ⟨x, xs, rfl⟩
  have hx : b'.get? (t.child index) = some x := hready.operand 0 x rfl
  have hskip' : ∀ j q, skipped = some (index + 1 + j) → rest[j]? = some q →
      ∃ x, q.optionalMeta? = some x :=
    fun j q hj hq => hskip (j + 1) q (by rw [hj]; congr 1; omega) (by simpa using hq)
  have hlen' : es.length = rest.length := by simpa using hlen
  -- the later operands, from where the first one has left off
  have later : ∀ {k1 w1 groups1 b1 c1},
      operandsChain o l skipped t (index + 1) rest k1 w1 groups1 = some (k', w', groups') →
      Ready l free count skipped t (index + 1) k1 b b1 es groups1 c1 →
      (∀ t', ¬ (t.child index).Below t' → b1.get? t' = b'.get? t') →
      terms c1 = terms c ++ readAt b1 (p.metaOccurrences (t.child index)) →
      Agrees l (fun t' => ∃ j, index ≤ j ∧ (t.child j).Below t') groups'
        (Expr.metaOccurrencesAll t index (p :: rest)) b' c (Expr.captureAll? l rest es c1)
        (k'.pass l free b) := by
    intro k1 w1 groups1 b1 c1 hchain hnext hframe hterms
    refine (hrest _ _ _ _ _ _ _ _ _ _ _ _ _ hchain hread.2 hcounts.2 hskip' hlen' hnext).prepend
      (fun t' ht' => hframe t' fun hi => ht' ⟨index, le_refl index, hi⟩)
      (fun t' ⟨j, hj, hbelow⟩ => ⟨j, by omega, hbelow⟩) hterms ?_
    rintro o' ho' ⟨j, hj, hbelow⟩
    rcases (Expr.occurrences_below.1 p (t.child index)).1 o' ho' with heq | hi
    · rw [heq] at hbelow
      exact Trail.not_below_child t index j hbelow
    · exact (hi.not_child_of_ne (by omega)).1 hbelow
  rw [Expr.captureAll?]
  rcases cases_of_operandsChain h with ⟨hs, h⟩ | ⟨hs, k1, groups1, h1, h⟩
  · obtain ⟨y, hy⟩ := hskip 0 p hs rfl
    obtain ⟨hcapture, hocc, -⟩ := Expr.of_optionalMeta? hy
    rw [hcapture, Option.bind_some]
    refine later h (hready.advance hready.tidy hready.busy hready.passed (fun _ _ => rfl)
      (hready.heads.take y x) (fun g t' hf => Or.inl hf) (Or.inl rfl)) (fun _ _ => rfl) ?_
    rw [hocc]
    simp [terms, readAt, Captures.take, hx]
  · have hroot : List.isEmpty (t.child index) = false := by simp [Trail.child]
    have hgroups : ∀ g t', groups1.firstTrail? g = some t' →
        groups.firstTrail? g = some t' ∨ t' = t.child index ∨ (t.child index).Below t' := by
      intro g t' hf
      rw [groups_patternChain.1 p _ _ _ _ h1] at hf
      rcases Table.firstTrail?_foldl hf with hf | ⟨o', ho', rfl⟩
      · exact Or.inl hf
      · exact Or.inr ((Expr.occurrences_below.1 p (t.child index)).2 o' ho')
    have hagree :=
      hp _ _ _ _ _ _ _ h1 hread.1 hcounts.1 hx
        (fun t' ht' => hready.clean index t' (le_refl index) ht') (hready.term 0 x rfl hs)
        hready.heads fun g t' hf => hready.clear g t' index hf (le_refl index)
    rw [hroot] at hagree
    cases hc : p.capture? l false x c with
    | none =>
      rw [hc] at hagree
      cases k1 with
      | none => cases hagree
      | some r =>
        refine operandsChain_none h (hready.tidy.attach (patternChain_fit h1).1 _ ()) ?_
        exact (hready.pass_attach h1 o.joinComparisons).trans hagree
    | some c1 =>
      rw [hc] at hagree
      obtain ⟨b1, hrun, hheads, hframe, hterms⟩ := hagree
      rw [Option.bind_some]
      cases k1 with
      | none =>
        cases hrun
        exact later h
          (hready.advance hready.tidy hready.busy hready.passed hframe hheads hgroups (Or.inl rfl))
          hframe hterms
      | some r =>
        have hpass := (hready.pass_attach h1 o.joinComparisons).trans hrun
        exact later h (hready.advance (hready.tidy.attach (patternChain_fit h1).1 _ ())
          (hready.busy.attach _ () r) hpass hframe hheads hgroups
          (Chain.frontGuard?_attach hready.busy _ () r)) hframe hterms

/-! ### Nodes -/

theorem forms_eq_some {root fits : Bool} {e : Expr} {f : Expr → List Expr} {es : List Expr}
    (h : Expr.forms root fits e f = some es) :
    es = e.operands ∧ es.length = 2 ∨ ∃ x, (x = e ∨ x ∈ e.operands) ∧ es = f x := by
  unfold Expr.forms at h
  split at h
  · rename_i x y hops
    cases h
    exact Or.inl ⟨hops.symm, rfl⟩
  · rename_i x hops
    cases h
    exact Or.inr ⟨x, Or.inr (by simp [hops]), rfl⟩
  · split_ifs at h
    cases h
    exact Or.inr ⟨e, Or.inl rfl, rfl⟩

/-- There is a term for each operand, and all but a default are parts of the term. -/
theorem operandTerms?_entry {shape : Shape} {k : Entry}
    (h : entry o l shape t patterns groups = some (k, skipped)) {root fits : Bool} {e : Expr}
    (he : e.IsTerm l count) {es : List Expr}
    (hes : Expr.operandTerms? root fits patterns e = some es) :
    es.length = patterns.length ∧ ∀ j x, es[j]? = some x → skipped ≠ some j → x.IsTerm l count := by
  rcases cases_of_entry h with ⟨hop, -, -⟩ | ⟨position, pattern, default, _, _, hop, rfl, -⟩
  · rw [operandTerms?_of_none hop] at hes
    split_ifs at hes with hfits
    cases hes
    exact ⟨by simpa using (Bool.and_eq_true_iff.1 hfits).2,
      fun j x hx _ => he.operand (List.mem_of_getElem? hx)⟩
  · have hpos := position_of_optionalOperand? hop
    rw [operandTerms?_of_optional hop] at hes
    rw [length_of_optionalOperand? hop]
    rcases forms_eq_some hes with ⟨rfl, hlen⟩ | ⟨y, hy, rfl⟩
    · exact ⟨hlen, fun j x hx _ => he.operand (List.mem_of_getElem? hx)⟩
    · -- the other operand is compared with the term or with the one operand that it has
      have hterm : y.IsTerm l count := hy.elim (fun h => h ▸ he) he.operand
      rcases hpos with rfl | rfl
      · refine ⟨rfl, fun j x hx hs => ?_⟩
        rcases j with _ | _ | j
        · exact absurd rfl hs
        · cases hx; exact hterm
        · cases hx
      · refine ⟨rfl, fun j x hx hs => ?_⟩
        rcases j with _ | _ | j
        · cases hx; exact hterm
        · exact absurd rfl hs
        · cases hx

/-- A node whose guards give the right answers agrees with its chain if its operands do. -/
theorem agrees_node (ho : o.skipRootGuard = false) {shape : Shape} {groups1 groups' : Groups}
    {e0 : Entry} {k : Chain Unit} {w : Bool}
    (hentry : entry o l shape t patterns groups = some (e0, skipped))
    (hops : OperandsAgree o l free count patterns)
    (hchain : operandsChain o l skipped t 0 patterns e0.1 true groups1 = some (k, w, groups'))
    (hread : Expr.AllRead l patterns) (hcounts : Expr.AllUseCounts l count patterns) {b : Bindings}
    {e : Expr} {c : Captures} (hb : b.get? t = some e)
    (hclean : ∀ t', t.Below t' → b.get? t' = none) (he : e.IsTerm l count)
    (hheads : Heads l b groups1 c) (hclear : ∀ g t', groups1.firstTrail? g = some t' → ¬ t.Below t')
    {fits : Bool} (ha : Answers l free b t e shape (shape.pending? groups) patterns fits) :
    Agrees l t.Below groups' (Expr.metaOccurrencesAll t 0 patterns) b c ((Expr.operandTerms?
      t.isEmpty fits patterns e).bind fun es => Expr.captureAll? l patterns es c)
      ((if w = true then k.leave () e0.2 else k).pass l free b) := by
  have hleave : (if w = true then k.leave () e0.2 else k).pass l free b = k.pass l free b := by
    split_ifs
    · exact Chain.pass_leave l free () e0.2 k b
    · rfl
  rw [hleave]
  obtain ⟨htidy, hbusy, -⟩ := isEntry_entry hentry
  have hopens := entry_pass ho hentry hb ha
  -- without terms for the operands the entry is not passed, and neither is what follows it
  cases hterms : Expr.operandTerms? t.isEmpty fits patterns e with
  | none =>
    rw [hterms] at hopens
    exact operandsChain_none hchain htidy hopens
  | some es =>
    rw [hterms] at hopens
    obtain ⟨b1, hpass, hopened⟩ := hopens
    obtain ⟨hlen, hall⟩ := operandTerms?_entry hentry he hterms
    have houter : ∀ t', ¬ t.Below t' → b1.get? t' = b.get? t' := fun t' ht' =>
      hopened.frame t' fun j _ h => ht' (h ▸ Trail.below_child t j)
    -- what the matchers of the operands rely on holds before the first of them
    have hready : Ready l free count skipped t 0 e0.1 b b1 es groups1 c := {
      tidy := htidy
      busy := hbusy
      passed := hpass
      operand := fun j x hx => by rw [Nat.zero_add]; exact hopened.operand j x hx
      term := fun j x hx hs => hall j x hx (by rwa [Nat.zero_add] at hs)
      clean := fun j t' _ hbelow => by
        rw [hopened.frame t' fun i _ h => Trail.not_below_child t i j (h ▸ hbelow)]
        exact hclean t' hbelow.of_child
      heads := hheads.frame fun g t' hf => houter t' (hclear g t' hf)
      clear := fun g t' j hf _ hbelow => hclear g t' hf hbelow.of_child
      early := fun g countAt n hg hc => by
        -- a count in front of the chain is that of a node without optional operands
        obtain ⟨hat, hnone⟩ := (frontGuard?_entry hentry hg).2 countAt n hc
        rw [operandTerms?_of_none hnone] at hterms
        split_ifs at hterms
        cases hterms
        refine ⟨hat, e, hb, (houter t (Trail.not_below_self t)).trans hb, fun j x hx => ?_⟩
        rw [Nat.zero_add]
        exact ⟨hx, hclean _ (Trail.below_child t j)⟩ }
    have hagree := hops _ _ _ _ _ _ _ _ _ _ _ _ _ hchain hread hcounts
      (fun j p hj hp => entry_skipped hentry (by simpa using hj) hp) hlen hready
    rw [Option.bind_some]
    have hsame : terms c = terms c ++ readAt b1 [] := (List.append_nil _).symm
    exact hagree.prepend houter (fun t' ⟨j, _, hbelow⟩ => hbelow.of_child) hsame
      (List.forall_mem_nil _)

/-- An operand that may be missing has a matcher only at the entry of its node. -/
theorem default?_of_patternChain (p : Expr) {x : Option (Chain Unit) × Groups}
    (h : patternChain o l p t groups = some x) : p.default? = none := by
  match p, h with
  | .compound inner, h => exact default?_of_patternChain inner h
  | .optional _ _, h => simp [patternChain] at h
  | .metavar _, _ | .var _, _ | .literal _, _ | .app _ _, _ | .anyway _ _, _ => rfl

theorem default?_of_operandsChain {index : Nat} {k : Chain Unit} {w : Bool}
    {x : Chain Unit × Bool × Groups}
    (h : operandsChain o l none t index patterns k w groups = some x) :
    ∀ p ∈ patterns, p.default? = none := by
  induction patterns generalizing index k w groups with
  | nil => exact List.forall_mem_nil _
  | cons p rest ih =>
    rw [operandsChain_cons (by simp)] at h
    obtain ⟨⟨x, groups1⟩, hx, h⟩ := Option.bind_eq_some_iff.1 h
    exact List.forall_mem_cons.2 ⟨default?_of_patternChain p hx, ih h⟩

theorem skipped_eq_none {shape : Shape} {k : Entry}
    (h : entry o l shape t patterns groups = some (k, skipped))
    (hnone : optionalOperand? patterns = none) : skipped = none := by
  rcases cases_of_entry h with ⟨-, hskipped, -⟩ | ⟨_, _, _, _, _, hop, -⟩
  · exact hskipped
  · cases hnone.symm.trans hop

/-- The check of a leaf. -/
theorem pass_leaf (free : String → Bool) (ho : o.skipRootGuard = false) {shape : Shape}
    {e0 : Entry} (h : entry o l shape t [] groups = some (e0, skipped))
    (hpending : shape.pending? groups = none) (b : Bindings) :
    (e0.1.leave () e0.2).pass l free b =
      if (shape.guard l t 0).holds l free b then some b else none := by
  obtain ⟨rfl, -⟩ := Prod.mk.inj (Option.some.inj h)
  rw [Chain.pass_leave, pass_plainEntry ho, hpending]
  rfl

/-- **Comparisons agree with chains**, for every pattern that can be compiled. -/
theorem agrees_patternChain (ho : o.skipRootGuard = false) :
    (∀ p, PatternAgrees o l free count p) ∧ ∀ ps, OperandsAgree o l free count ps := by
  apply Expr.induct
  case metavar =>
    intro x t groups k groups' b e c h _ _ hb _ _ hheads _
    cases h
    exact agrees_take hheads hb x _
  case var =>
    intro name t groups k groups' b e c h hread _ hb _ he hheads _
    obtain ⟨e0, skipped, k', w, hentry, hchain, rfl⟩ := (IsNode.var name).exists_of_patternChain h
    cases hchain
    have hpass := pass_leaf free ho hentry rfl b
    rw [passed?, if_pos rfl, hpass, Shape.guard, holds_operatorIs l free hb, Expr.capture?]
    by_cases hvar : e = .var name
    · rw [if_pos hvar, if_pos (by simpa using (he.eq_var_iff hread).1 hvar)]
      exact ⟨b, rfl, hheads, fun _ _ => rfl, (List.append_nil _).symm⟩
    · rw [if_neg hvar, if_neg (by simpa using fun h => hvar ((he.eq_var_iff hread).2 h))]
      rfl
  case literal =>
    intro value t groups k groups' b e c h _ _ hb _ _ hheads _
    obtain ⟨e0, skipped, k', w, hentry, hchain, rfl⟩ :=
      (IsNode.literal value).exists_of_patternChain h
    cases hchain
    have hpass := pass_leaf free ho hentry rfl b
    rw [passed?, if_pos rfl, hpass, Shape.guard, holds_value l free hb, Expr.capture?]
    cases e.literal? with
    | none => rfl
    | some v =>
      by_cases hv : v.double = value.double
      · simp only [hv, if_true, Option.any_some, beq_self_eq_true]
        exact ⟨b, rfl, hheads, fun _ _ => rfl, (List.append_nil _).symm⟩
      · simp only [hv, if_false, Option.any_some, beq_iff_eq]
        rfl
  case app =>
    intro symbol operands ih t groups k groups' b e c h hread hcounts hb hclean he hheads hclear
    obtain ⟨e0, skipped, k', w, hentry, hchain, rfl⟩ :=
      (IsNode.app symbol operands).exists_of_patternChain h
    have hid : (l.id? (l.name symbol)).isSome := by rw [hread.1]; rfl
    -- no operand has a default, so the pattern has a count that its operator takes
    have htakes : optionalOperand? operands = none →
        Expr.takes l count (l.name symbol) operands.length := by
      intro hnone
      obtain rfl := skipped_eq_none hentry hnone
      refine hcounts.1.resolve_left ?_
      rintro ⟨p, hp, hd⟩
      rw [default?_of_operandsChain hchain p hp] at hd
      cases hd
    rw [Expr.capture?, he.hasOperator_eq hid]
    exact agrees_node ho hentry ih hchain hread.2 hcounts.2 hb hclean he hheads hclear
      (answers_symbol hb he hid htakes)
  case compound => exact fun inner ih => ih
  case optional =>
    intro pattern default _ _ t groups k groups' b e c h
    simp [patternChain] at h
  case anyway =>
    intro group operands ih t groups k groups' b e c h hread hcounts hb hclean he hheads hclear
    obtain ⟨e0, skipped, k', w, hentry, hchain, rfl⟩ :=
      (IsNode.anyway group operands).exists_of_patternChain h
    -- the node may be the first of its group now, and it is not below itself
    have hclear' : ∀ g t', (groups.pushTrail group t).firstTrail? g = some t' → ¬ t.Below t' := by
      intro g t' hf
      rcases @Table.firstTrail?_foldl groups [(group, t)] _ _ hf with hf | ⟨o', ho', rfl⟩
      · exact hclear g t' hf
      · rw [List.mem_singleton.1 ho']
        exact Trail.not_below_self t
    rw [Expr.capture?, ← hheads.agrees]
    exact agrees_node ho hentry ih hchain hread hcounts hb hclean he (hheads.enter hb group) hclear'
      (answers_anyway hb)
  case nil => exact operandsAgree_nil
  case cons => exact fun p rest hp hrest => operandsAgree_cons hp hrest

end Agreement

end Matcher

end Rulewright
