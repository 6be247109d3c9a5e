import Rulewright.Proofs.Chain.Build
import Rulewright.Proofs.Chain.Failure
import Rulewright.Proofs.Forest.Beside

/-!
# Acceptance

Whether a rule can be compiled is decided by the rule and the language. What is in the store already
has no part in it: where nodes are looked at, all ways to go on succeed. The options of the matcher
change what is written and not whether it can be.

A matcher is built from new nodes only. Whatever its builder looks at or changes, it has come to
from nodes that it made, so the store that it started from is as it was at every moment, and also
where the build is given up.

* `Works`: a build succeeds beside what is there.
* `InStep`: two builds, each beside its own base, both succeed or fail with one error, from states
  with the same groups. The error leaves out the rule and names operators of it only.
* `Rule.compile_inStep`: so do two attempts to compile a rule, whatever the stores and the options
  of the matcher are.
* `Rule.compile_beside`: the code of a rule is added to a store and changes nothing in it.
* `Rule.compile_names`, `Rule.compile_not_fatal`: what a refusal says, and that it does not end the
  generation.
* `Rule.IsAccepted.compile`: a rule that is accepted is accepted into every store.
* `Rule.IsAccepted.of_options`: it is accepted with every choice of the matcher's options.
-/

namespace Rulewright

open Code

namespace Matcher

variable {α β : Type} {base base' : Code} {W : String → Prop} {x y : Build α}

/-- The node is not in the base. -/
def New (base : Code) (id : NodeId) : Prop := base.size ≤ id

/-- Nothing is asked of the result. -/
def Any (_ : α) : Prop := True

/-- The build succeeds from every state beside the base, with such a result, and leaves the groups
as they are. -/
structure Works (base : Code) (P : α → Prop) (x : Build α) : Prop where
  run : ∀ p, base.Beside p.code →
    ∃ a p', x p = .ok a p' ∧ P a ∧ base.Beside p'.code ∧ p'.groups = p.groups

namespace Works

variable {P : α → Prop} {Q : β → Prop}

theorem bind {f : α → Build β} (hx : Works base P x) (hf : ∀ a, P a → Works base Q (f a)) :
    Works base Q (x >>= f) := by
  refine ⟨fun p hp => ?_⟩
  obtain ⟨a, p1, h1, ha, hp1, hg1⟩ := hx.run p hp
  obtain ⟨b, p2, h2, hb, hp2, hg2⟩ := (hf a ha).run p1 hp1
  refine ⟨b, p2, ?_, hb, hp2, hg2.trans hg1⟩
  simp only [Bind.bind, EStateM.bind, h1, h2]

theorem ite {c : Prop} [Decidable c] (hx : Works base P x) (hy : Works base P y) :
    Works base P (if c then x else y) := by
  split_ifs
  · exact hx
  · exact hy

theorem pure {a : α} (h : P a) : Works base P (Pure.pure a : Build α) :=
  ⟨fun p hp => ⟨a, p, rfl, h, hp, rfl⟩⟩

theorem get : Works base (fun p => base.Beside p.code) (get : Build Progress) :=
  ⟨fun p hp => ⟨p, p, rfl, hp, hp, rfl⟩⟩

theorem create {f : Code → NodeId × Code}
    (hf : ∀ c, base.Beside c → base.Beside (f c).2 ∧ base.size ≤ (f c).1) :
    Works base (New base) (create f) :=
  ⟨fun p hp => ⟨_, _, rfl, (hf p.code hp).2, (hf p.code hp).1, rfl⟩⟩

theorem edit {f : Code → Code} (hf : ∀ c, base.Beside c → base.Beside (f c)) :
    Works base Any (edit f) :=
  ⟨fun p hp => ⟨(), _, rfl, trivial, hf p.code hp, rfl⟩⟩

theorem alloc {kind : NodeKind} (hkind : kind.branch? = none) :
    Works base (New base) (alloc kind) :=
  create fun c hc => ⟨hc.alloc fun b hb => (by rw [hkind] at hb; cases hb), hc.size_le⟩

theorem append {sequence fragment : NodeId} (hs : New base sequence) (hf : New base fragment) :
    Works base Any (append sequence fragment) :=
  edit fun _ hc => hc.append hs hf

theorem sequence {items : List NodeId} (hitems : ∀ k ∈ items, New base k) :
    Works base (New base) (Matcher.create (·.sequence items)) :=
  create fun _ hc => ⟨hc.sequence hitems, hc.size_le⟩

theorem createIf (guard : Guard) {t : NodeId} (ht : New base t) :
    Works base (New base) (Matcher.create (·.createIf guard (some t) none)) :=
  create fun _ hc => hc.createIf guard (fun k hk => by cases hk; exact ht) fun _ hk => by cases hk

theorem createIf_both (guard : Guard) {t e : NodeId} (ht : New base t) (he : New base e) :
    Works base (New base) (Matcher.create (·.createIf guard (some t) (some e))) :=
  create fun _ hc =>
    hc.createIf guard (fun k hk => by cases hk; exact ht) fun k hk => by cases hk; exact he

end Works

/-! ### Builds that only write -/

section Writing

variable {o : Options} {l : Language} {trail : Trail} {line target rest : NodeId}

theorem works_bindOperands (ht : New base target) (index count : Nat) :
    Works base Any (bindOperands target trail index count) := by
  induction count generalizing index with
  | zero => exact .pure trivial
  | succ count ih =>
    exact (Works.alloc rfl).bind fun _ hnew =>
      (Works.append ht hnew).bind fun _ _ => ih (index + 1)

theorem works_matchPlain (hline : New base line) (guard : Guard) (pending : Option Trail)
    (count : Nat) : Works base (New base) (matchPlain o trail guard pending count line) := by
  have hrest : ∀ target, New base target →
      Works base (New base) (do bindOperands target trail 0 count; return target : Build NodeId) :=
    fun target ht => (works_bindOperands ht 0 count).bind fun _ _ => .pure ht
  unfold matchPlain
  split_ifs
  · exact (Works.alloc rfl).bind fun _ hnew =>
      (Works.append hline hnew).bind fun _ _ => (Works.pure hline).bind hrest
  · refine (Works.alloc rfl).bind fun body hbody =>
      (Works.createIf guard hbody).bind fun check hcheck => ?_
    have hend : ∀ check, New base check → Works base (New base) (do
        append line check
        let target ← pure body
        bindOperands target trail 0 count
        return target : Build NodeId) := fun check hcheck =>
      (Works.append hline hcheck).bind fun _ _ => (Works.pure hbody).bind hrest
    cases pending with
    | none => exact (Works.pure hcheck).bind hend
    | some first =>
      exact (Works.sequence (List.forall_mem_singleton.2 hcheck)).bind fun _ hwrapper =>
        (Works.createIf _ hwrapper).bind hend

theorem works_sequence_pair {a b : NodeId} (ha : New base a) (hb : New base b) :
    Works base (New base) (create (·.sequence [a, b])) :=
  .sequence (List.forall_mem_cons.2 ⟨ha, List.forall_mem_singleton.2 hb⟩)

theorem works_assignBoth (first second : Trail × Binding) :
    Works base (New base) (assignBoth first second) :=
  (Works.alloc rfl).bind fun _ ha => (Works.alloc rfl).bind fun _ hb => works_sequence_pair ha hb

theorem works_declareBoth (hline : New base line) : Works base Any (declareBoth line trail) :=
  (Works.alloc rfl).bind fun _ ha =>
    (Works.append hline ha).bind fun _ _ =>
      (Works.alloc rfl).bind fun _ hb => .append hline hb

theorem works_matchOptionalRoot {name : String} (htakes : takesOneOrTwo l name = true)
    {full short : NodeId} (hfull : New base full) (hshort : New base short)
    (hline : New base line) :
    Works base (New base) (matchOptionalRoot o l (.symbol name) trail full short line) := by
  have hrest : ∀ sequence, New base sequence → Works base (New base) (do
      declareBoth sequence trail
      let choice ← create (·.createIf (.operandCountIs trail 2) (some full) (some short))
      append sequence choice
      return sequence : Build NodeId) := fun sequence hs =>
    (works_declareBoth hs).bind fun _ _ =>
      (Works.createIf_both _ hfull hshort).bind fun _ hchoice =>
        (Works.append hs hchoice).bind fun _ _ => .pure hs
  simp only [matchOptionalRoot, htakes, Bool.not_true, Bool.false_eq_true, if_false]
  split_ifs
  · exact (Works.alloc rfl).bind fun _ hnew =>
      (Works.append hline hnew).bind fun _ _ => (Works.pure hline).bind hrest
  · exact (Works.alloc rfl).bind fun _ hinner =>
      (Works.createIf _ hinner).bind fun _ houter =>
        (Works.append hline houter).bind fun _ _ => (Works.pure hinner).bind hrest

/-- The choice between the three forms of a node with an optional operand. -/
theorem works_forms (missing other : Trail × Binding) (fullGuard shortGuard : Guard)
    {full short : NodeId} (hfull : New base full) (hshort : New base short)
    (hline : New base line) :
    Works base (New base) (do
      let absent ← assignBoth missing other
      declareBoth line trail
      let choice ← create (·.createIf fullGuard (some full) (some absent))
      let _ ← create (·.addElseIf choice shortGuard (some short))
      append line choice
      return line : Build NodeId) := by
  refine (works_assignBoth _ _).bind fun absent habsent =>
    (works_declareBoth hline).bind fun _ _ =>
      (Works.createIf_both _ hfull habsent).bind fun choice hchoice => ?_
  have hadd : Works base (New base) (create (·.addElseIf choice shortGuard (some short))) :=
    .create fun _ hc => hc.addElseIf hchoice shortGuard fun k hk => by cases hk; exact hshort
  exact hadd.bind fun _ _ => (Works.append hline hchoice).bind fun _ _ => .pure hline

theorem firstBranch?_new {c : Code} (hc : base.Beside c) {sequence id : NodeId} {b : Branch}
    (hs : New base sequence) (h : firstBranch? c sequence = some (id, b)) :
    New base id ∧ ∀ k ∈ b.bodies, New base k := by
  obtain ⟨id', hid, h⟩ := Option.bind_eq_some_iff.1 h
  obtain ⟨b', hb, h⟩ := Option.map_eq_some_iff.1 h
  cases h
  have hnew := hc.nextMeaningful? hs hid
  exact ⟨hnew, fun k hk => hc.branch? hnew hb hk⟩

theorem works_join (hline : New base line) (hrest : New base rest) :
    Works base (New base) (join line rest) := by
  refine Works.get.bind fun p hp => ?_
  dsimp only
  split
  · rename_i countId counting pairingId pairing hcount hpair
    split
    · rename_i countAt count first second _ _
      split_ifs with haligned
      · have hguard : Guard.anyway? countAt first second count =
            .ok (.anyway ⟨countAt, first, second, count, by simpa using haligned⟩) :=
          dif_pos (by simpa using haligned)
        have hset : ∀ guard, Works base Any (edit (·.setGuard countId guard)) := fun guard =>
          .edit fun _ hc => hc.setGuard (firstBranch?_new hp hline hcount).1 guard
        have hthen : New base pairing.thenBody :=
          (firstBranch?_new hp hrest hpair).2 _ List.mem_cons_self
        have hmove : ∀ joined, New base joined →
            Works base Any (edit (·.setPredecessor pairing.thenBody joined)) :=
          fun joined hjoined => .edit fun _ hc => hc.setPredecessor hthen hjoined
        rw [hguard]
        exact (Works.pure (P := Any) trivial).bind fun guard _ => (hset guard).bind fun _ _ =>
          (Works.alloc rfl).bind fun joined hjoined =>
            (hmove joined hjoined).bind fun _ _ => .pure hjoined
      · exact .pure hrest
    · exact .pure hrest
  · exact .pure hrest

theorem works_replace {p : Progress} (hp : base.Beside p.code) {placeholder : NodeId}
    (hline : New base line) (hrest : New base rest)
    (hfind : p.code.findPlaceholder? line = some placeholder) :
    Works base Any (edit (·.replace placeholder rest)) :=
  .edit fun _ hc => hc.replace (hp.findPlaceholder? hline hfind) hrest

/-- Code is put where its placeholder stands, and at the end if there is none. -/
theorem works_putAt (hline : New base line) (ht : New base target) (hrest : New base rest) :
    Works base Any (do
      match (← get).code.findPlaceholder? line with
      | some placeholder => edit (·.replace placeholder rest)
      | none => append target rest : Build Unit) := by
  refine Works.get.bind fun p hp => ?_
  cases hfind : p.code.findPlaceholder? line with
  | none => exact .append ht hrest
  | some placeholder => exact works_replace hp hline hrest hfind

theorem works_place (hline : New base line) (ht : New base target) (hrest : New base rest) :
    Works base Any (place o line target rest) := by
  refine Works.get.bind fun p _ => Works.ite (.pure trivial) ?_
  split_ifs
  · exact (works_join hline hrest).bind fun _ hjoined => works_putAt hline ht hjoined
  · exact (Works.pure hrest).bind fun _ hrest => works_putAt hline ht hrest

theorem works_leavePlaceholder (ht : New base target) :
    Works base Any (leavePlaceholder target) := by
  refine Works.get.bind fun p _ => Works.ite ?_ (.pure trivial)
  refine (Works.alloc rfl).bind fun _ hnew => (Works.append ht hnew).bind fun _ _ => ?_
  exact ⟨fun q hq => ⟨(), _, rfl, trivial, hq, rfl⟩⟩

theorem works_askPlaceholder (line : NodeId) : Works base Any (askPlaceholder line) := by
  refine ⟨fun p hp => ⟨(), _, rfl, trivial, ?_, ?_⟩⟩ <;> dsimp only <;> split_ifs
  · exact hp
  · exact hp
  · rfl
  · rfl

theorem works_underGuard (guard : Guard) {body : NodeId} (hbody : New base body) :
    Works base (New base) (underGuard guard body) :=
  (Works.createIf guard hbody).bind fun _ hcheck =>
    .sequence (List.forall_mem_singleton.2 hcheck)

/-- The action of a rule once its texts are known. -/
theorem works_actionEnd (r : Rule) (conditions : List String) (pairs : List (Trail × Trail))
    {replace : NodeId} (hreplace : New base replace) :
    Works base (New base) (do
      if r.hasModifyingCondition then edit (·.commentOut replace modifyingNote)
      let yes ← alloc (.ret true)
      let body ← create (·.sequence [replace, yes])
      let body ←
        if conditions.isEmpty then pure body
        else underGuard (.free (" && ".intercalate conditions)) body
      if pairs.isEmpty then return body
      else underGuard (.structurallyEqual pairs) body : Build NodeId) := by
  have hcomment : Works base Any (edit (·.commentOut replace modifyingNote)) :=
    .edit fun _ hc => hc.commentOut hreplace _
  have hpairs : ∀ body, New base body → Works base (New base)
      (if pairs.isEmpty then return body else underGuard (.structurallyEqual pairs) body) :=
    fun _ hbody => .ite (.pure hbody) (works_underGuard _ hbody)
  refine Works.ite (hcomment.bind fun _ _ => ?_) ?_ <;>
    exact (Works.alloc rfl).bind fun _ hyes =>
      (works_sequence_pair hreplace hyes).bind fun _ hbody =>
        .ite ((Works.pure hbody).bind hpairs) ((works_underGuard _ hbody).bind hpairs)

theorem beside_neutralizePlaceholders {c : Code} (hc : base.Beside c) {head : NodeId}
    (hhead : New base head) : base.Beside (neutralizePlaceholders c head) := by
  have hfold : ∀ (ids : List NodeId) (d : Code), (∀ k ∈ ids, New base k) → base.Beside d →
      base.Beside (ids.foldl Code.neutralize d) := by
    intro ids
    induction ids with
    | nil => exact fun d _ hd => hd
    | cons id rest ih =>
      intro d hids hd
      exact ih _ (fun k hk => hids k (List.mem_cons_of_mem id hk))
        (hd.neutralize (hids id List.mem_cons_self))
  exact hfold _ c (fun k hk => hc.descendantsFrom hhead (List.mem_of_mem_filter hk)) hc

/-- The end of the matcher of a rule. -/
theorem works_ruleEnd {head action : NodeId} (hhead : New base head) (haction : New base action) :
    Works base (New base) (do
      match (← get).code.findPlaceholder? head with
      | some placeholder => edit (·.replace placeholder action)
      | none => append head action
      edit (neutralizePlaceholders · head)
      let no ← alloc (.ret false)
      append head no
      return head : Build NodeId) := by
  have hend : Works base (New base) (do
      edit (neutralizePlaceholders · head)
      let no ← alloc (.ret false)
      append head no
      return head : Build NodeId) :=
    (Works.edit fun _ hc => beside_neutralizePlaceholders hc hhead).bind fun _ _ =>
      (Works.alloc rfl).bind fun _ hno => (Works.append hhead hno).bind fun _ _ => .pure hhead
  refine Works.get.bind fun p hp => ?_
  cases hfind : p.code.findPlaceholder? head with
  | some placeholder => exact (works_replace hp hhead haction hfind).bind fun _ _ => hend
  | none => exact (Works.append hhead haction).bind fun _ _ => hend

end Writing

/-! ### Builds in step -/

/-- Two states with the same groups, each beside its base. -/
structure Paired (base base' : Code) (p q : Progress) : Prop where
  groups : p.groups = q.groups
  left : base.Beside p.code
  right : base'.Beside q.code

/-- From paired states both builds succeed, with related results and in paired states, or both fail
with one error that leaves a rule out, perhaps with one of these operators. Then too all is as it
was in the bases. -/
def InStep (base base' : Code) (W : String → Prop) (R : α → α → Prop) (x y : Build α) : Prop :=
  ∀ p q, Paired base base' p q →
    (∃ a b p' q', x p = .ok a p' ∧ y q = .ok b q' ∧ R a b ∧ Paired base base' p' q') ∨
      ∃ e p' q', x p = .error e p' ∧ y q = .error e q' ∧ e.Names W ∧ base.Beside p'.code ∧
        base'.Beside q'.code

/-- Neither node is in its base. -/
def BothNew (base base' : Code) (a b : NodeId) : Prop := New base a ∧ New base' b

section InStep

variable {R : α → α → Prop} {S : β → β → Prop} {f g : α → Build β}

theorem Works.inStep {P P' : α → Prop} (hx : Works base P x) (hy : Works base' P' y) :
    InStep base base' W (fun a b => P a ∧ P' b) x y := by
  intro p q h
  obtain ⟨a, p', hp, ha, hleft, hgp⟩ := hx.run p h.left
  obtain ⟨b, q', hq, hb, hright, hgq⟩ := hy.run q h.right
  exact Or.inl ⟨a, b, p', q', hp, hq, ⟨ha, hb⟩, hgp.trans (h.groups.trans hgq.symm), hleft, hright⟩

theorem InStep.bind (hx : InStep base base' W R x y)
    (hf : ∀ a b, R a b → InStep base base' W S (f a) (g b)) :
    InStep base base' W S (x >>= f) (y >>= g) := by
  intro p q h
  simp only [Bind.bind, EStateM.bind]
  rcases hx p q h with ⟨a, b, p1, q1, hp, hq, hab, h1⟩ | ⟨e, p1, q1, hp, hq, hfails⟩
  · simp only [hp, hq]
    exact hf a b hab p1 q1 h1
  · simp only [hp, hq]
    exact Or.inr ⟨e, p1, q1, rfl, rfl, hfails⟩

/-- A step that cannot fail comes first. -/
theorem Works.inStep_bind {P P' : α → Prop} (hx : Works base P x) (hy : Works base' P' y)
    (hf : ∀ a b, P a → P' b → InStep base base' W S (f a) (g b)) :
    InStep base base' W S (x >>= f) (y >>= g) :=
  (hx.inStep hy).bind fun a b h => hf a b h.1 h.2

theorem inStep_pure {a b : α} (h : R a b) : InStep base base' W R (pure a) (pure b) :=
  fun p q hpq => Or.inl ⟨a, b, p, q, rfl, rfl, h, hpq⟩

theorem inStep_throw {e : CompileError} (he : e.Names W) :
    InStep base base' W R (throw e) (throw e) :=
  fun p q h => Or.inr ⟨e, p, q, rfl, rfl, he, h.left, h.right⟩

theorem inStep_throw_bind {e : CompileError} (he : e.Names W) :
    InStep base base' W S (throw e >>= f) (throw e >>= g) :=
  (inStep_throw (R := fun _ _ => False) he).bind fun _ _ h => h.elim

/-- A step that has one result for both comes first. -/
theorem inStep_lift_bind {e : Except CompileError α}
    (he : ∀ error, e = .error error → error.Names W)
    (hf : ∀ a, InStep base base' W S (f a) (g a)) :
    InStep base base' W S (lift e >>= f) (lift e >>= g) := by
  cases e with
  | error e => exact inStep_throw_bind (he e rfl)
  | ok a => exact (inStep_pure (R := Eq) rfl).bind fun a b hab => hab ▸ hf a

theorem inStep_get : InStep base base' W (Paired base base') (get : Build Progress) get :=
  fun p q h => Or.inl ⟨p, q, p, q, rfl, rfl, h, h⟩

end InStep

/-! ### Builds that may fail -/

section Failing

variable (o o' : Options) {l : Language} {shape : Shape} (trail : Trail) {line line' : NodeId}

theorem inStep_enterGroup : InStep base base' W Eq (shape.enterGroup trail)
    (shape.enterGroup trail) := by
  cases shape with
  | anyway group =>
    exact fun p q h => Or.inl ⟨_, _, _, _, rfl, rfl, by rw [h.groups],
      by simp only [h.groups], h.left, h.right⟩
  | _ => exact inStep_pure rfl

theorem inStep_matchOptionalRoot (hshape : shape.Names W) {full short full' short' : NodeId}
    (hfull : BothNew base base' full full') (hshort : BothNew base base' short short')
    (hline : BothNew base base' line line') :
    InStep base base' W (BothNew base base') (matchOptionalRoot o l shape trail full short line)
      (matchOptionalRoot o' l shape trail full' short' line') := by
  cases shape with
  | symbol name =>
    by_cases htakes : takesOneOrTwo l name = true
    · exact (works_matchOptionalRoot htakes hfull.1 hshort.1 hline.1).inStep
        (works_matchOptionalRoot htakes hfull.2 hshort.2 hline.2)
    · simp only [matchOptionalRoot, htakes]
      refine inStep_throw_bind fun operator hoperator => ?_
      rwa [← Option.some.inj hoperator]
  | _ => exact inStep_throw (CompileError.names_of_none rfl)

theorem inStep_matchOptional (hshape : shape.Names W) (position : Nat) (pattern : Expr)
    {default : Expr} (hdefault : ∀ name ∈ default.operatorList l, W name)
    (pending : Option Trail) (hline : BothNew base base' line line') :
    InStep base base' W (BothNew base base')
      (matchOptional o l shape trail position pattern default pending line)
      (matchOptional o' l shape trail position pattern default pending line') := by
  obtain ⟨fullGuard, hfull⟩ := countGuard_ok trail pending 2 shape
  obtain ⟨shortGuard, hshort⟩ := countGuard_ok trail pending 1 shape
  rw [← Expr.operatorList_unwrap] at hdefault
  unfold matchOptional
  rw [hfull, hshort]
  cases pattern.unwrap with
  | metavar id =>
    refine inStep_lift_bind (fun error h => Scope.code_names hdefault h) fun code => ?_
    refine inStep_lift_bind (by simp) fun fullGuard => inStep_lift_bind (by simp) fun shortGuard =>
      ?_
    refine (works_assignBoth _ _).inStep_bind (works_assignBoth _ _) fun full full' hf hf' => ?_
    refine (works_assignBoth _ _).inStep_bind (works_assignBoth _ _) fun short short' hs hs' => ?_
    split_ifs
    · exact inStep_matchOptionalRoot _ _ _ hshape ⟨hf, hf'⟩ ⟨hs, hs'⟩ hline
    · exact (works_forms _ _ _ _ hf hs hline.1).inStep (works_forms _ _ _ _ hf' hs' hline.2)
  | _ => exact inStep_throw_bind (CompileError.names_of_none rfl)

theorem inStep_enter (hshape : shape.Names W) {operands : List Expr}
    (hW : ∀ name ∈ Expr.operatorListAll l operands, W name)
    (hline : BothNew base base' line line') :
    InStep base base' W (fun a b => BothNew base base' a.1 b.1 ∧ a.2 = b.2)
      (enter o l shape trail operands line) (enter o' l shape trail operands line') := by
  refine (inStep_enterGroup trail).bind fun pending _ hpending => ?_
  subst hpending
  cases hoptional : optionalOperand? operands with
  | none =>
    exact (works_matchPlain hline.1 _ _ _).inStep_bind (works_matchPlain hline.2 _ _ _)
      fun _ _ ha hb => inStep_pure ⟨⟨ha, hb⟩, rfl⟩
  | some x =>
    have hdefault := fun name hname => hW name (operatorList_optionalOperand? l hoptional hname)
    exact (inStep_matchOptional _ _ _ hshape _ _ hdefault _ hline).bind fun _ _ h =>
      inStep_pure ⟨h, rfl⟩

/-- The operands of a node are matched or refused alike. -/
def OperandsInStep (base base' : Code) (W : String → Prop) (o o' : Options) (l : Language)
    (es : List Expr) : Prop :=
  ∀ (line target line' target' : NodeId) skipped trail index, BothNew base base' line line' →
    BothNew base base' target target' →
    InStep base base' W (fun _ _ => True) (matchOperands o l line target skipped trail index es)
      (matchOperands o' l line' target' skipped trail index es)

/-- A node of a pattern is matched or refused alike if its operands are. -/
theorem inStep_matchNode (hshape : shape.Names W) {operands : List Expr}
    (hW : ∀ name ∈ Expr.operatorListAll l operands, W name)
    (ih : OperandsInStep base base' W o o' l operands) :
    InStep base base' W (BothNew base base') (matchNode o l shape trail operands)
      (matchNode o' l shape trail operands) := by
  refine (Works.alloc rfl).inStep_bind (Works.alloc rfl) fun line line' hl hl' => ?_
  refine (inStep_enter o o' trail hshape hW ⟨hl, hl'⟩).bind fun a b hab => ?_
  obtain ⟨target, skipped⟩ := a
  obtain ⟨target', skipped'⟩ := b
  obtain ⟨ht, rfl⟩ : BothNew base base' target target' ∧ skipped = skipped' := hab
  refine (ih _ _ _ _ _ _ _ ⟨hl, hl'⟩ ht).bind fun _ _ _ => ?_
  exact ((works_leavePlaceholder ht.1).bind fun _ _ => Works.pure hl).inStep
    ((works_leavePlaceholder ht.2).bind fun _ _ => Works.pure hl')

/-- **Patterns** are matched or refused alike in every store and with all options, beside what is
there. -/
theorem inStep_matchPattern_all (base base' : Code) (W : String → Prop) (l : Language) :
    (∀ e : Expr, (∀ name ∈ e.operatorList l, W name) → ∀ trail,
      InStep base base' W (BothNew base base') (matchPattern o l e trail)
        (matchPattern o' l e trail)) ∧
    ∀ es : List Expr, (∀ name ∈ Expr.operatorListAll l es, W name) →
      OperandsInStep base base' W o o' l es := by
  apply pattern_induct l
  case metavar =>
    intro id _ trail
    simp only [matchPattern]
    exact (Works.alloc rfl).inStep (Works.alloc rfl)
  case compound =>
    intro inner ih hW trail
    simp only [matchPattern]
    exact ih hW trail
  case optional =>
    intro pattern default _ _ _ trail
    simp only [matchPattern]
    exact (Works.alloc rfl).inStep_bind (Works.alloc rfl) fun _ _ _ _ =>
      inStep_throw (CompileError.names_of_none rfl)
  case node =>
    intro e shape operands hnode ih hW trail
    rw [hnode.matchPattern_eq, hnode.matchPattern_eq]
    obtain ⟨hshape, hoperands⟩ := hnode.names hW
    exact inStep_matchNode o o' trail hshape hoperands (ih hoperands)
  case nil =>
    intro _ line target line' target' skipped trail index _ _
    simp only [matchOperands]
    exact inStep_pure trivial
  case cons =>
    intro e rest he hrest hW line target line' target' skipped trail index hline ht
    rw [Expr.operatorListAll, List.forall_mem_append] at hW
    simp only [matchOperands]
    split_ifs
    · refine (works_askPlaceholder _).inStep_bind (works_askPlaceholder _) fun _ _ _ _ =>
        (he hW.1 _).bind fun _ _ hcode => ?_
      exact (works_place hline.1 ht.1 hcode.1).inStep_bind (works_place hline.2 ht.2 hcode.2)
        fun _ _ _ _ => hrest hW.2 _ _ _ _ _ _ _ hline ht
    · exact hrest hW.2 _ _ _ _ _ _ _ hline ht

end Failing

theorem inStep_action {l : Language} (foldConstants : Bool) {r : Rule}
    (hreplacement : ∀ name ∈ r.replacement.operatorList l, W name)
    (hconditions : ∀ k ∈ r.conditions, ∀ name ∈ k.subject.operatorList l, W name) :
    InStep base base' W (BothNew base base') (action l foldConstants r)
      (action l foldConstants r) := by
  refine inStep_get.bind fun p q h => ?_
  -- of the state only the groups have a part in the texts
  dsimp only
  rw [h.groups]
  refine inStep_lift_bind (fun error h => conditionCodes_names hconditions h) fun conditions => ?_
  refine inStep_lift_bind (fun error h => Scope.code_names hreplacement h) fun code => ?_
  exact (Works.alloc rfl).inStep_bind (Works.alloc rfl) fun replace replace' hr hr' =>
    (works_actionEnd _ _ _ hr).inStep (works_actionEnd _ _ _ hr')

/-- **Rules** are matched or refused alike, beside what is there. -/
theorem inStep_matchRule (base base' : Code) (o o' : Options) (l : Language)
    (foldConstants : Bool) (r : Rule) :
    InStep base base' (· ∈ r.operatorNames l) (BothNew base base')
      (matchRule o l foldConstants r) (matchRule o' l foldConstants r) := by
  obtain ⟨hterms, hconditions⟩ : (∀ name ∈ r.pattern.operatorList l ++
      r.replacement.operatorList l, name ∈ r.operatorNames l) ∧
      ∀ k ∈ r.conditions, ∀ name ∈ k.subject.operatorList l, name ∈ r.operatorNames l :=
    ⟨fun name h => List.mem_append_left _ h,
      fun k hk name h => List.mem_append_right _ (List.mem_flatMap.2 ⟨k, hk, h⟩)⟩
  obtain ⟨hpattern, hreplacement⟩ := List.forall_mem_append.1 hterms
  refine ((inStep_matchPattern_all o o' base base' _ l).1 r.pattern hpattern Trail.root).bind
    fun head head' hhead => ?_
  refine (inStep_action foldConstants hreplacement hconditions).bind fun action action' ha => ?_
  exact (works_ruleEnd hhead.1 ha.1).inStep (works_ruleEnd hhead.2 ha.2)

end Matcher

/-- The rule can be compiled. -/
def Rule.IsAccepted (o : CompileOptions) (l : Language) (r : Rule) : Prop :=
  ∃ head, (r.compile o l Code.empty).1 = .ok head

section Compile

variable {o o' : CompileOptions} {l : Language} {r : Rule} {c c' : Code} {error : CompileError}

open Matcher in
/-- Two attempts to compile a rule, from two stores. -/
theorem Rule.compile_pair (hfold : o.foldConstants = o'.foldConstants) (l : Language) (r : Rule)
    (c d : Code) :
    ((∃ head head', (r.compile o l c).1 = .ok head ∧ (r.compile o' l d).1 = .ok head') ∨
      ∃ e, (r.compile o l c).1 = .error e ∧ (r.compile o' l d).1 = .error e ∧
        e.Names (· ∈ r.operatorNames l)) ∧
    c.Beside (r.compile o l c).2 := by
  unfold Rule.compile
  dsimp only [EStateM.run]
  rw [hfold]
  rcases inStep_matchRule c d ⟨o.skipRootGuard, o.joinComparisons⟩
    ⟨o'.skipRootGuard, o'.joinComparisons⟩ l o'.foldConstants r ⟨c, Table.empty, true⟩
    ⟨d, Table.empty, true⟩ ⟨rfl, .refl c, .refl d⟩ with
    ⟨head, head', p, q, hp, hq, -, hpaired⟩ | ⟨e, p, q, hp, hq, hnames, hleft, -⟩
  · rw [hp, hq]
    exact ⟨Or.inl ⟨head, head', rfl, rfl⟩, hpaired.left⟩
  · rw [hp, hq]
    exact ⟨Or.inr ⟨e, rfl, rfl, hnames⟩, hleft⟩

/-- **A rule is compiled or refused alike** into all stores and with all options of the matcher, as
long as constants are folded alike. -/
theorem Rule.compile_inStep (hfold : o.foldConstants = o'.foldConstants) (l : Language) (r : Rule)
    (c d : Code) :
    (∃ head head', (r.compile o l c).1 = .ok head ∧ (r.compile o' l d).1 = .ok head') ∨
    ∃ e, (r.compile o l c).1 = .error e ∧ (r.compile o' l d).1 = .error e := by
  refine (Rule.compile_pair hfold l r c d).1.imp_right ?_
  rintro ⟨e, hc, hd, -⟩
  exact ⟨e, hc, hd⟩

/-- **The matcher of a rule** is added to a store and changes nothing in it, and neither does a rule
that is refused. -/
theorem Rule.compile_beside (o : CompileOptions) (l : Language) (r : Rule) (c : Code) :
    c.Beside (r.compile o l c).2 :=
  (Rule.compile_pair rfl l r c c).2

/-- A rule that cannot be compiled asks for something that matchers cannot do, perhaps with one of
its operators. -/
theorem Rule.compile_names (h : r.compile o l c = (.error error, c')) :
    error.Names (· ∈ r.operatorNames l) := by
  rcases (Rule.compile_pair (o := o) rfl l r c c).1 with ⟨head, _, hc, -⟩ | ⟨e, hc, -, hnames⟩
  · rw [h] at hc
    cases hc
  · rw [h] at hc
    cases hc
    exact hnames

/-- **A rule that cannot be compiled** does not end the generation. -/
theorem Rule.compile_not_fatal (h : r.compile o l c = (.error error, c')) : error.isFatal = false :=
  (Rule.compile_names h).not_fatal

theorem Rule.compile_elsewhere {head : NodeId} (h : r.compile o l c = (.ok head, c'))
    (hfold : o.foldConstants = o'.foldConstants) (d : Code) :
    ∃ head' d', r.compile o' l d = (.ok head', d') := by
  rcases Rule.compile_inStep hfold l r c d with ⟨_, head', -, hd⟩ | ⟨e, hc, -⟩
  · exact ⟨head', _, Prod.ext hd rfl⟩
  · rw [h] at hc
    cases hc

theorem Rule.IsAccepted.compile_with (h : r.IsAccepted o l)
    (hfold : o.foldConstants = o'.foldConstants) (c : Code) :
    ∃ head c', r.compile o' l c = (.ok head, c') := by
  obtain ⟨head, h⟩ := h
  exact Rule.compile_elsewhere (Prod.ext h rfl) hfold c

/-- **A rule that is accepted** is accepted into every store. -/
theorem Rule.IsAccepted.compile (h : r.IsAccepted o l) (c : Code) :
    ∃ head c', r.compile o l c = (.ok head, c') :=
  h.compile_with rfl c

/-- A rule that is accepted is accepted whatever the matcher leaves to its caller. -/
theorem Rule.IsAccepted.of_options (h : r.IsAccepted o l)
    (hfold : o.foldConstants = o'.foldConstants) : r.IsAccepted o' l := by
  obtain ⟨head, c', hc⟩ := h.compile_with hfold Code.empty
  exact ⟨head, by rw [hc]⟩

end Compile

end Rulewright
