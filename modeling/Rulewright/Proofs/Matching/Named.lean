import Rulewright.Proofs.Matching.Trace

/-!
# What the text of a comparison names

The text of a count with a comparison reads the counted node from its temporary and the other node
from the temporary of its parent. A run reads both nodes where they are bound. These are the same
nodes where every node has been bound as an operand of its parent. Beside an optional operand that
is not there, another node is bound: the only operand of the parent, or the parent itself.

* `Code.asked`: the guards that a run asks.
* `Bindings.accessed?`: the node that a text reads from the temporary of its parent.
* `Expr.choices`: the nodes of a pattern with an optional operand.
* `Bindings.Displaced`: a node beside an optional operand is not where the text reads it.
* `anyway_comparisons_read`: in all other cases the text names the node that a run compares.
-/

namespace Rulewright

open Stmt

/-- A guard that is asked, and what is bound then. -/
structure Question where
  guard : Guard
  bindings : Bindings

/-- Guards that are asked are noted down. -/
def Question.recorder : Recorder Question := ⟨fun _ _ _ => [], fun guard b => [⟨guard, b⟩]⟩

/-- The guards that a run on a term asks. -/
def Code.asked (c : Code) (l : Language) (free : String → Bool) (id : NodeId) (candidate : Expr) :
    List Question :=
  c.recorded Question.recorder l free id candidate

/-- The compared node whose operands are not counted. -/
def AnywayComparison.other (a : AnywayComparison) : Trail :=
  if a.countAt = a.first then a.second else a.first

/-- The counted node is read from its temporary, the other one from its parent. -/
theorem AnywayComparison.text_eq (a : AnywayComparison) :
    a.text = a.countAt.temporary ++ ".arity() == " ++ toString a.count ++ " && " ++
      if a.countAt = a.first then a.countAt.temporary ++ ".op() == " ++ a.other.access ++ ".op()"
      else a.other.access ++ ".op() == " ++ a.countAt.temporary ++ ".op()" := by
  unfold AnywayComparison.text AnywayComparison.other
  split_ifs with h
  · rw [← h]
    simp only [String.append_assoc]
  · rw [← a.aligned.resolve_left h]
    simp only [String.append_assoc]

namespace Expr

mutual

/-- The nodes of a pattern with an optional operand, and the position of this operand. -/
def choices (trail : Trail) : Expr → List (Trail × Nat)
  | .compound inner => inner.choices trail
  | .app _ operands =>
    (Matcher.optionalOperand? operands).toList.map (fun x => (trail, x.1)) ++
      choicesAll trail 0 operands
  | .anyway _ operands =>
    (Matcher.optionalOperand? operands).toList.map (fun x => (trail, x.1)) ++
      choicesAll trail 0 operands
  | .metavar _ | .var _ | .literal _ | .optional _ _ => []

def choicesAll (trail : Trail) (index : Nat) : List Expr → List (Trail × Nat)
  | [] => []
  | e :: rest => e.choices (trail.child index) ++ choicesAll trail (index + 1) rest

end

theorem getElem?_operands_ne (e : Expr) (i : Nat) : e.operands[i]? ≠ some e := by
  intro h
  have hmem := List.mem_of_getElem? h
  cases e with
  | app symbol operands =>
    have hlt : sizeOf (app symbol operands) < sizeOf operands := List.sizeOf_lt_of_mem hmem
    rw [app.sizeOf_spec] at hlt
    omega
  | anyway group operands =>
    have hlt : sizeOf (anyway group operands) < sizeOf operands := List.sizeOf_lt_of_mem hmem
    rw [anyway.sizeOf_spec] at hlt
    omega
  | _ => cases hmem

end Expr

namespace Bindings

variable {b b' : Bindings} {s t : Trail} {choices : List (Trail × Nat)}

/-- The node that the text `Trail.access` of a trail names: the matched term, or an operand of what
the temporary of the parent holds. -/
def accessed? (b : Bindings) (t : Trail) : Option Expr :=
  match t.split? with
  | none => b.get? Trail.root
  | some (parent, index) => (b.get? parent).bind (·.operands[index]?)

theorem accessed?_child (b : Bindings) (t : Trail) (i : Nat) :
    b.accessed? (t.child i) = (b.get? t).bind (·.operands[i]?) := by
  rw [accessed?, Trail.split?_child]

/-- The node at a trail stands beside an optional operand and is not that operand of its parent.
Where the parent is not there, what is bound at the trail of the parent is bound again. Where the
optional operand is the first of two and is not there, the other one is the first operand. -/
inductive Displaced (choices : List (Trail × Nat)) (b : Bindings) (t : Trail) : Prop where
  | absent {parent : Trail} {position : Nat} {whole : Expr} (mem : (parent, position) ∈ choices)
      (trail : t = parent.child (1 - position)) (bound : b.get? parent = some whole)
      (node : b.nodeAt t = some whole)
  | short {parent : Trail} {whole part : Expr} (mem : (parent, 0) ∈ choices)
      (trail : t = parent.child 1) (bound : b.get? parent = some whole)
      (count : whole.operands.length ≠ 2) (first : whole.operands[0]? = some part)
      (node : b.nodeAt t = some part)

/-- A text does not name a displaced node, but for a parent with more operands than it should have.
-/
theorem Displaced.accessed?_ne (h : Displaced choices b t) :
    b.accessed? t ≠ b.nodeAt t ∨
    ∃ parent whole, t = Trail.child parent 1 ∧ b.get? parent = some whole ∧
      2 < whole.operands.length := by
  cases h with
  | @absent parent position whole mem trail bound node =>
    rw [node, trail, accessed?_child, bound, Option.bind_some]
    exact Or.inl (whole.getElem?_operands_ne _)
  | @short parent whole part mem trail bound count first node =>
    rcases Nat.lt_or_ge 2 whole.operands.length with hlt | hle
    · exact Or.inr ⟨parent, whole, trail, bound, hlt⟩
    · have hnone : whole.operands[1]? = none := List.getElem?_eq_none (by omega)
      rw [node, trail, accessed?_child, bound, Option.bind_some, hnone]
      exact Or.inl (by simp)

/-- The temporary of a trail holds the node that is read there, and the text names it or it is
displaced. -/
structure Held (choices : List (Trail × Nat)) (b : Bindings) (t : Trail) : Prop where
  bound : b.get? t = b.nodeAt t
  reads : b.accessed? t = b.nodeAt t ∨ Displaced choices b t

/-- What is bound below a trail does not matter elsewhere. -/
theorem Held.frame (h : Held choices b t) (hframe : ∀ t', ¬ s.Below t' → b'.get? t' = b.get? t')
    (ht : ¬ s.Below t) : Held choices b' t := by
  have hnode : b'.nodeAt t = b.nodeAt t := nodeAt_frame hframe ht
  have hparent : ∀ parent i, t = Trail.child parent i → b'.get? parent = b.get? parent :=
    fun parent i hi => hframe parent fun hs => ht (hi ▸ hs.to_child i)
  have haccessed : b'.accessed? t = b.accessed? t := by
    rcases Trail.root_or_child t with rfl | ⟨parent, i, rfl⟩
    · exact hframe _ ht
    · rw [accessed?_child, accessed?_child, hparent parent i rfl]
  refine ⟨by rw [hframe t ht, h.bound, hnode], ?_⟩
  rw [haccessed, hnode]
  refine h.reads.imp_right fun hd => ?_
  cases hd with
  | absent mem trail bound node =>
    exact .absent mem trail ((hparent _ _ trail).trans bound) (hnode.trans node)
  | short mem trail bound count first node =>
    exact .short mem trail ((hparent _ _ trail).trans bound) count first (hnode.trans node)

theorem nodeAt_eq_of_get? {i : Nat} (h : b.get? (t.child i) = (b.nodeAt t).bind (·.operands[i]?)) :
    b.nodeAt (t.child i) = b.get? (t.child i) := by
  cases hb : b.get? (t.child i) with
  | some x => exact nodeAt_of_get? hb
  | none => rw [nodeAt_child hb, ← h, hb]

/-- A node is bound as an operand of its parent. -/
theorem held_operand {i : Nat} (ht : b.get? t = b.nodeAt t)
    (h : b.get? (t.child i) = (b.nodeAt t).bind (·.operands[i]?)) : Held choices b (t.child i) := by
  have hnode := nodeAt_eq_of_get? h
  refine ⟨hnode.symm, Or.inl ?_⟩
  rw [accessed?_child, ht, hnode, h]

/-- The second operand is bound to the first one of its parent. -/
theorem held_short (hmem : (t, 0) ∈ choices) (ht : b.get? t = b.nodeAt t)
    (h : b.get? (t.child 1) = (b.nodeAt t).bind (·.operands[0]?)) (hcount : b.countIs t 2 = false) :
    Held choices b (t.child 1) := by
  cases hfirst : (b.nodeAt t).bind (·.operands[0]?) with
  | none =>
    -- without a first operand there is no second one
    refine held_operand ht (h.trans ?_)
    rw [hfirst]
    cases hnode : b.nodeAt t with
    | none => rfl
    | some whole =>
      rw [hnode, Option.bind_some, List.getElem?_eq_none_iff] at hfirst
      rw [Option.bind_some, List.getElem?_eq_none (by omega)]
  | some part =>
    obtain ⟨whole, hwhole, hpart⟩ := Option.bind_eq_some_iff.1 hfirst
    have hnode : b.nodeAt (t.child 1) = some part := nodeAt_of_get? (h.trans hfirst)
    have hne : whole.operands.length ≠ 2 := by
      rw [countIs, hwhole] at hcount
      exact ne_of_beq_false hcount
    exact ⟨(h.trans hfirst).trans hnode.symm,
      Or.inr (.short hmem rfl (ht.trans hwhole) hne hpart hnode)⟩

/-- An operand is bound to what is bound at the trail of its parent. -/
theorem held_absent {position : Nat} (hmem : (t, position) ∈ choices) (ht : b.get? t = b.nodeAt t)
    (h : b.get? (t.child (1 - position)) = b.nodeAt t) :
    Held choices b (t.child (1 - position)) := by
  cases hnode : b.nodeAt t with
  | none => exact held_operand ht (by rw [h, hnode]; rfl)
  | some whole =>
    have hchild := nodeAt_of_get? (h.trans hnode)
    exact ⟨(h.trans hnode).trans hchild.symm, Or.inr (.absent hmem rfl (ht.trans hnode) hchild)⟩

/-- The node at a trail was the first of its group. It is there, or it has an optional operand. -/
structure Known (choices : List (Trail × Nat)) (b : Bindings) (t : Trail) :
    Prop extends Held choices b t where
  there : (b.nodeAt t).isSome ∨ ∃ position, (t, position) ∈ choices

theorem Known.frame (h : Known choices b t) (hframe : ∀ t', ¬ s.Below t' → b'.get? t' = b.get? t')
    (ht : ¬ s.Below t) : Known choices b' t :=
  ⟨h.toHeld.frame hframe ht, by rw [nodeAt_frame hframe ht]; exact h.there⟩

/-- The counted node is the one in its temporary. The other one is the one that the text names, or
it is displaced. Where the count is right both are there, but for another node with an optional
operand. -/
structure Names (choices : List (Trail × Nat)) (b : Bindings) (a : AnywayComparison) : Prop where
  counted : b.get? a.countAt = b.nodeAt a.countAt
  other : b.accessed? a.other = b.nodeAt a.other ∨ Displaced choices b a.other
  there : b.countIs a.countAt a.count = true →
      (b.nodeAt a.countAt).isSome ∧
        ((b.nodeAt a.other).isSome ∨ ∃ position, (a.other, position) ∈ choices)

theorem exists_of_countIs {n : Nat} (h : b.countIs t n = true) :
    ∃ whole, b.nodeAt t = some whole ∧ whole.operands.length = n := by
  unfold countIs at h
  split at h
  · rename_i whole hwhole
    exact ⟨whole, hwhole, beq_iff_eq.1 h⟩
  · cases h

theorem isSome_of_countIs {n : Nat} (h : b.countIs t n = true) : (b.nodeAt t).isSome := by
  obtain ⟨whole, hwhole, -⟩ := exists_of_countIs h
  rw [hwhole]
  rfl

end Bindings

open Bindings

/-- A comparison that is asked names its nodes. -/
def Question.Sound (choices : List (Trail × Nat)) (q : Question) : Prop :=
  ∀ a, q.guard = .anyway a → Names choices q.bindings a

namespace Matcher

variable {o : Options} {l : Language} {free : String → Bool} {t : Trail} {b b' : Bindings}
  {choices : List (Trail × Nat)} {guard : Guard} {pending : Option Trail} {shape : Shape}
  {e : Entry} {operands : List Expr} {groups : Groups} {skipped : Option Nat} {p : Code.Progress}
  {q : Question}

/-! ### What is bound at the entry of a node -/

theorem nodeAt_assign_child (b : Bindings) (t : Trail) (i : Nat) (β : Binding) :
    (b.assign (t.child i) β).nodeAt t = b.nodeAt t :=
  nodeAt_frame (fun _ ht => get?_assign_of_ne β fun h => ht (h ▸ t.below_child i)) t.not_below_self

theorem get?_assign (b : Bindings) (target : Trail) (β : Binding) :
    (b.assign target β).get? target = b.bind β := by
  unfold assign
  split
  · rename_i x hx
    rw [Table.get?_insert, if_pos rfl, hx]
  · rename_i hx
    rw [Table.get?_erase, if_pos rfl, hx]

theorem get?_operandLines_earlier (b : Bindings) {index j : Nat} (hj : j < index) (count : Nat) :
    (settle l free (operandLines t index count) b).get? (t.child j) = b.get? (t.child j) := by
  induction count generalizing index b with
  | zero => rfl
  | succ count ih =>
    rw [operandLines, settle_cons_line l free () _ rfl, ih _ (by omega)]
    exact get?_assign_of_ne _ fun h => absurd (Trail.child_injective h) (by omega)

theorem get?_operandLines (b : Bindings) {index count j : Nat} (hj : index ≤ j)
    (hlt : j < index + count) :
    (settle l free (operandLines t index count) b).get? (t.child j) =
      (b.nodeAt t).bind (·.operands[j]?) := by
  induction count generalizing index b with
  | zero => omega
  | succ count ih =>
    rw [operandLines, settle_cons_line l free () _ rfl]
    rcases Nat.eq_or_lt_of_le hj with rfl | hj
    · rw [get?_operandLines_earlier _ (Nat.lt_succ_self index)]
      exact get?_assign b (t.child index) (.operand t index)
    · rw [ih _ hj (by omega)]
      exact congrArg (Option.bind · _) (nodeAt_assign_child b t index _)

/-- A pass of the entry of a node without an optional operand goes through its guard, but for a root
that has been checked. -/
theorem holds_of_pass_plainEntry {count : Nat}
    (h : (plainEntry o t guard pending count).1.pass l free b = some b') :
    t = Trail.root ∨ guard.holds l free b = true := by
  unfold plainEntry at h
  split_ifs at h with hskip
  · simp only [Bool.and_eq_true, List.isEmpty_iff] at hskip
    exact Or.inl hskip.1.2
  · cases pending with
    | none =>
      simp only [guarded, Chain.pass] at h
      split_ifs at h with hg
      exact Or.inr hg
    | some first =>
      simp only [guarded, Chain.pass] at h
      split_ifs at h with hsame hg
      exact Or.inr hg

theorem countIs_of_countGuard {n : Nat} (h : shape.countGuard t pending n = .ok guard)
    (hg : guard.holds l free b = true) : b.countIs t n = true := by
  rcases cases_of_countGuard h with ⟨name, rfl⟩ | ⟨first, -, rfl⟩ | rfl
  · exact (Bool.and_eq_true_iff.1 hg).2
  · simp only [Guard.holds, Bool.and_eq_true] at hg
    exact hg.1.1
  · rwa [Guard.holds_of_operandCountCheck? l free b
      (show (Guard.operandCountIs t n).operandCountCheck? = some (t, n) from rfl)] at hg

theorem anyway_of_countGuard {n : Nat} {a : AnywayComparison}
    (h : shape.countGuard t pending n = .ok (.anyway a)) :
    ∃ first, pending = some first ∧ a = ⟨t, first, t, n, Or.inr rfl⟩ := by
  rcases cases_of_countGuard h with ⟨name, hname⟩ | ⟨first, hfirst, ha⟩ | hcount
  · cases hname
  · cases ha
    exact ⟨first, hfirst, rfl⟩
  · cases hcount

/-- A pass of the entry of a node with an optional operand binds both operands in one of three ways.
-/
theorem pass_optionalEntry {position : Nat} {missing : Binding}
    (h : IsOptionalEntry o l t position missing pending shape e)
    (hp : e.1.pass l free b = some b') :
    b' = (b.assign (t.child 0) (.operand t 0)).assign (t.child 1) (.operand t 1) ∨
    (b' = (b.assign (t.child position) missing).assign (t.child (1 - position)) (.operand t 0) ∧
      b.countIs t 2 = false) ∨
    b' = (b.assign (t.child position) missing).assign (t.child (1 - position)) (.same t) := by
  have hcount : (Guard.operandCountIs t 2).holds l free b = b.countIs t 2 :=
    Guard.holds_of_operandCountCheck? l free b rfl
  have hdeclared : ∀ ts, settle l free (noop () :: declarations t ++ ts) b = settle l free ts b :=
    fun _ => rfl
  -- at the root, whether or not the check of the operator is implied
  have root : settle l free [.branch () (.operandCountIs t 2)
        (assignments (t.child 0, .operand t 0) (t.child 1, .operand t 1))
        (assignments (t.child position, missing) (t.child (1 - position), .operand t 0)) []] b =
        b' →
      b' = (b.assign (t.child 0) (.operand t 0)).assign (t.child 1) (.operand t 1) ∨
        b' = (b.assign (t.child position) missing).assign (t.child (1 - position)) (.operand t 0) ∧
          b.countIs t 2 = false := by
    intro hb'
    rw [settle_choice _ _ _ (isQuietAll_assignments _ _) (isQuietAll_assignments _ _), hcount]
      at hb'
    split_ifs at hb' with hc
    · exact Or.inl hb'.symm
    · exact Or.inr ⟨hb'.symm, Bool.eq_false_iff.2 hc⟩
  cases h with
  | implied hroot ho htakes =>
    have hb' :=
      (hdeclared _).symm.trans ((settle_implied free _ _ b).symm.trans (Option.some.inj hp))
    exact (root hb').imp_right Or.inl
  | root hroot ho htakes =>
    simp only [guarded, Chain.pass] at hp
    split_ifs at hp
    exact (root ((hdeclared _).symm.trans (Option.some.inj hp))).imp_right Or.inl
  | @below _ full short hroot hfull hshort =>
    have hb' : settle l free [.branch () full _ _ [.branch () short _ [noop ()] []]] b = b' :=
      Option.some.inj hp
    rw [settle_threeWay _ _ _ _ _ (isQuietAll_assignments _ _) (isQuietAll_assignments _ _)
      (isQuietAll_assignments _ _)] at hb'
    split_ifs at hb' with hf hs
    · exact Or.inl hb'.symm
    · refine Or.inr (Or.inl ⟨hb'.symm, ?_⟩)
      obtain ⟨whole, hwhole, hlen⟩ := exists_of_countIs (countIs_of_countGuard hshort hs)
      rw [countIs, hwhole]
      exact beq_false_of_ne (by omega)
    · exact Or.inr (Or.inr hb'.symm)

/-- The operands that matchers follow for are bound as operands of the node, or displaced. -/
theorem held_entry (h : entry o l shape t operands groups = some (e, skipped))
    (hchoices : ∀ x ∈ (optionalOperand? operands).toList, (t, x.1) ∈ choices)
    (hb : b.get? t = b.nodeAt t) (hp : e.1.pass l free b = some b') {j : Nat}
    (hj : j < operands.length) (hs : skipped ≠ some j) : Held choices b' (t.child j) := by
  have hframe : ∀ t', ¬ t.Below t' → b'.get? t' = b.get? t' :=
    fun t' ht => ((entry_binds h).mono below_of_child).frame hp ht
  have hself : b'.get? t = b.get? t := hframe t t.not_below_self
  have hnode : b'.nodeAt t = b.nodeAt t := nodeAt_frame hframe t.not_below_self
  have hbound : b'.get? t = b'.nodeAt t := by rw [hself, hb, hnode]
  rcases cases_of_entry h with
    ⟨-, -, rfl⟩ | ⟨position, pattern, default, _, code, hop, rfl, -, -, hentry⟩
  · refine held_operand hbound ?_
    rw [hnode, pass_plainEntry_some hp]
    exact get?_operandLines b (Nat.zero_le j) (by omega)
  · have hmem : (t, position) ∈ choices := hchoices _ (by rw [hop]; exact List.mem_singleton_self _)
    have hpos := position_of_optionalOperand? hop
    obtain rfl : j = 1 - position := by
      have hne : position ≠ j := fun h => hs (congrArg some h)
      rw [length_of_optionalOperand? hop] at hj
      omega
    -- both operands are there, one of them is, or the node is not there at all
    obtain rfl | ⟨rfl, hcount⟩ | rfl := pass_optionalEntry hentry hp
    · refine held_operand hbound ?_
      rw [hnode]
      rcases hpos with rfl | rfl
      · rw [get?_assign, Bindings.bind, nodeAt_assign_child]
      · rw [get?_assign_of_ne _ fun h => absurd (Trail.child_injective h) (by omega), get?_assign,
          Bindings.bind]
    · have hget :=
        get?_assign (b.assign (t.child position) (.constructed code default.unwrap))
          (t.child (1 - position)) (.operand t 0)
      rw [Bindings.bind, nodeAt_assign_child, ← hnode] at hget
      -- the operand that is there is the first one, so it is displaced only if the optional one
      -- comes before it
      rcases hpos with rfl | rfl
      · exact held_short hmem hbound hget (by rwa [countIs, hnode, ← countIs])
      · exact held_operand hbound hget
    · have hget :=
        get?_assign (b.assign (t.child position) (.constructed code default.unwrap))
          (t.child (1 - position)) (.same t)
      rw [Bindings.bind, nodeAt_assign_child, ← hnode] at hget
      exact held_absent hmem hbound hget

/-! ### What is asked at the entry of a node -/

theorem askedAll_assignments (first second : Trail × Binding) (p : Code.Progress) :
    recordedAll Question.recorder l free (assignments first second) p = [] := rfl

theorem askedAll_operandLines (index count : Nat) (p : Code.Progress) :
    recordedAll Question.recorder l free (operandLines t index count) p = [] := by
  induction count generalizing index p with
  | zero => rfl
  | succ count ih => exact ih (index + 1) _

theorem askedAll_implied (guard : Guard) (ts : List (Stmt Unit)) (p : Code.Progress) :
    recordedAll Question.recorder l free (noop () :: impliedStmt guard :: ts) p =
      recordedAll Question.recorder l free ts p := by
  have hline : exec l free (impliedStmt guard) p = (none, p) := by
    simp only [impliedStmt, fresh, exec, Line.exec, isCommentLine_implied, if_true,
      Bool.false_eq_true, if_false]
  change recordedAll Question.recorder l free (impliedStmt guard :: ts) p = _
  rw [recordedAll, hline]
  rfl

theorem not_anyway_guard (shape : Shape) (n : Nat) (a : AnywayComparison) :
    shape.guard l t n ≠ .anyway a := by
  cases shape with
  | symbol name =>
    rw [Shape.guard]
    split <;> simp [Guard.operatorIs]
  | _ => simp [Shape.guard, Guard.operatorIs, Guard.operandCountIs]

theorem mem_asked_guarded {inner : Chain Unit}
    (h : q ∈ (guarded guard inner).recorded Question.recorder l free p) :
    q = ⟨guard, p.bindings⟩ ∨ q ∈ inner.recorded Question.recorder l free p := by
  exact (mem_recorded_guarded h).imp List.mem_singleton.1 And.right

theorem asked_plainEntry {count : Nat}
    (h : q ∈ (plainEntry o t guard pending count).1.recorded Question.recorder l free p) :
    q.guard = guard ∨ ∃ first, q.guard = .sameOperator first t := by
  have hinner : (Chain.hole (noop () :: operandLines t 0 count) none []).recorded Question.recorder
      l free p = [] := askedAll_operandLines 0 count p
  unfold plainEntry at h
  split_ifs at h
  · rw [Chain.recorded, askedAll_implied, askedAll_operandLines] at h
    cases h
  · cases pending with
    | none =>
      rcases mem_asked_guarded h with rfl | h
      · exact Or.inl rfl
      · rw [hinner] at h
        cases h
    | some first =>
      rcases mem_asked_guarded h with rfl | h
      · exact Or.inr ⟨first, rfl⟩
      · rcases mem_asked_guarded h with rfl | h
        · exact Or.inl rfl
        · rw [hinner] at h
          cases h

/-- The choice between the forms of a node asks for them, one after the other. -/
theorem mem_asked_choice {full absent : List (Stmt Unit)}
    (hf : ∀ p, recordedAll Question.recorder l free full p = [])
    (ha : ∀ p, recordedAll Question.recorder l free absent p = []) {elseIfs : List (Stmt Unit)}
    (h : q ∈
      recordedAll Question.recorder l free
        (noop () :: declarations t ++ [.branch () guard full absent elseIfs]) p) :
    q = ⟨guard, p.bindings⟩ ∨ q ∈ recordedElseIfs Question.recorder l free elseIfs p := by
  rcases mem_recorded_choice h with h | ⟨-, h⟩ | ⟨-, h | h⟩
  · exact Or.inl (List.mem_singleton.1 h)
  · rw [hf] at h
    cases h
  · exact Or.inr h
  · rw [ha] at h
    cases h

theorem asked_optionalEntry {position : Nat} {missing : Binding}
    (h : IsOptionalEntry o l t position missing pending shape e)
    (hq : q ∈ e.1.recorded Question.recorder l free p) {a : AnywayComparison}
    (ha : q.guard = .anyway a) :
    ∃ n, shape.countGuard t pending n = .ok q.guard ∧ q.bindings = p.bindings := by
  -- at the root only the count is asked for
  have root : q ∉
      recordedAll Question.recorder l free (noop () :: declarations t ++
        [.branch () (.operandCountIs t 2)
          (assignments (t.child 0, .operand t 0) (t.child 1, .operand t 1))
          (assignments (t.child position, missing) (t.child (1 - position), .operand t 0)) []])
        p := by
    intro hq
    rcases mem_asked_choice (askedAll_assignments _ _) (askedAll_assignments _ _) hq with rfl | hq
    · cases ha
    · cases hq
  cases h with
  | implied hroot ho htakes =>
    rw [Chain.recorded, List.cons_append, List.cons_append, askedAll_implied] at hq
    exact absurd hq root
  | root hroot ho htakes =>
    rcases mem_asked_guarded hq with rfl | hq
    · cases ha
    · exact absurd hq root
  | below hroot hfull hshort =>
    rcases mem_asked_choice (askedAll_assignments _ _) (askedAll_assignments _ _) hq with rfl | hq
    · exact ⟨2, hfull, rfl⟩
    · rw [recordedElseIfs, recordedElseIfs, askedAll_assignments, ite_self] at hq
      rw [List.mem_singleton.1 hq]
      exact ⟨1, hshort, rfl⟩

/-- The entry of a node compares its operator with that of the first of its group. -/
theorem asked_entry (h : entry o l shape t operands groups = some (e, skipped))
    (hq : q ∈ e.1.recorded Question.recorder l free p) {a : AnywayComparison}
    (ha : q.guard = .anyway a) :
    ∃ first n, shape.pending? groups = some first ∧ a = ⟨t, first, t, n, Or.inr rfl⟩ ∧
      q.bindings = p.bindings := by
  rcases cases_of_entry h with ⟨-, -, rfl⟩ | ⟨_, _, _, _, _, -, -, -, -, hentry⟩
  · rcases asked_plainEntry hq with hguard | ⟨first, hguard⟩
    · exact absurd (hguard.symm.trans ha) (not_anyway_guard shape _ a)
    · rw [hguard] at ha
      cases ha
  · obtain ⟨n, hguard, hbindings⟩ := asked_optionalEntry hentry hq ha
    rw [ha] at hguard
    obtain ⟨first, hfirst, rfl⟩ := anyway_of_countGuard hguard
    exact ⟨first, n, hfirst, rfl, hbindings⟩

/-! ### Patterns -/

/-- What the matcher at a trail relies on: its node is bound and nothing below it is, and so are the
first nodes of the groups, which are elsewhere. -/
structure Prepared (choices : List (Trail × Nat)) (groups : Groups) (t : Trail) (b : Bindings) :
    Prop where
  root : (b.get? Trail.root).isSome
  bare : b.Bare t
  held : Held choices b t
  heads : ∀ g first, groups.firstTrail? g = some first →
      Known choices b first ∧ first ≠ t ∧ ¬ t.Below first

/-- A matcher asks sound questions only, and when it has been passed the first nodes of the groups
are known. -/
def Careful (l : Language) (free : String → Bool) (choices : List (Trail × Nat)) (groups : Groups)
    (p : Code.Progress) (k : Option (Chain Unit)) : Prop :=
  (∀ k', k = some k' → ∀ q ∈ k'.recorded Question.recorder l free p, q.Sound choices) ∧
  ∀ b', passed? l free k p.bindings = some b' →
    ∀ g first, groups.firstTrail? g = some first → Known choices b' first

/-- The chain of a node while the matchers of its operands are added, those from number `index` on
being left. -/
structure Underway (l : Language) (free : String → Bool) (choices : List (Trail × Nat)) (t : Trail)
    (total : Nat) (skipped : Option Nat) (p : Code.Progress) (index : Nat) (k : Chain Unit)
    (groups : Groups) : Prop where
  footing : Footing l t index k
  sound : ∀ q ∈ k.recorded Question.recorder l free p, q.Sound choices
  counts : ∀ g countAt n, k.frontGuard? = some g → g.operandCountCheck? = some (countAt, n) →
      n = total
  held : ∀ b', k.pass l free p.bindings = some b' →
      ∀ j, index ≤ j → j < total → skipped ≠ some j → Held choices b' (t.child j)
  heads : ∀ b', k.pass l free p.bindings = some b' → ∀ g first, groups.firstTrail? g = some first →
    Known choices b' first ∧ ∀ j, index ≤ j → first ≠ t.child j ∧ ¬ (t.child j).Below first

/-- A count at the start of a node is the one of its operands. -/
theorem counts_entry (h : entry o l shape t operands groups = some (e, skipped)) {g : Guard}
    (hg : e.1.frontGuard? = some g) {countAt : Trail} {n : Nat}
    (hn : g.operandCountCheck? = some (countAt, n)) : n = operands.length := by
  have hop := ((frontGuard?_entry h hg).2 countAt n hn).2
  obtain rfl := eq_plainEntry h hop
  rcases frontGuard?_plainEntry hg with rfl | ⟨first, -, rfl⟩
  · cases shape with
    | symbol name =>
      rw [Shape.guard] at hn
      split at hn <;> cases hn
    | anyway group =>
      cases hn
      rfl
    | _ => cases hn
  · cases hn

/-- The node of a group is there when its entry has been passed, or it has an optional operand. -/
theorem there_entry {group : GroupId}
    (h : entry o l (.anyway group) t operands groups = some (e, skipped))
    (hchoices : ∀ x ∈ (optionalOperand? operands).toList, (t, x.1) ∈ choices)
    (hroot : (b.get? Trail.root).isSome) (hp : e.1.pass l free b = some b') :
    (b.nodeAt t).isSome ∨ ∃ position, (t, position) ∈ choices := by
  rcases cases_of_entry h with ⟨-, -, rfl⟩ | ⟨position, _, _, _, _, hop, -⟩
  · refine Or.inl ?_
    rcases holds_of_pass_plainEntry hp with rfl | hg
    · obtain ⟨x, hx⟩ := Option.isSome_iff_exists.1 hroot
      rw [nodeAt_of_get? hx]
      rfl
    · rw [Guard.holds_of_operandCountCheck? l free b (t := t) (n := operands.length) rfl] at hg
      exact isSome_of_countIs hg
  · exact Or.inr ⟨position, hchoices _ (by rw [hop]; exact List.mem_singleton_self _)⟩

/-- The entry of a node, before the matchers of its operands. -/
theorem underway_entry (h : entry o l shape t operands groups = some (e, skipped))
    (hchoices : ∀ x ∈ (optionalOperand? operands).toList, (t, x.1) ∈ choices)
    (hp : Prepared choices groups t p.bindings) :
    Underway l free choices t operands.length skipped p 0 e.1 (shape.joinGroup groups t) where
  footing := footing_entry h
  sound q hq a ha := by
    obtain ⟨first, n, hpending, rfl, hbindings⟩ := asked_entry h hq ha
    obtain ⟨g, hg⟩ := exists_of_pending? hpending
    obtain ⟨hknown, hne, -⟩ := hp.heads g first hg
    -- the node itself is counted and bound, so the other one is the first of the group
    have hother : AnywayComparison.other ⟨t, first, t, n, Or.inr rfl⟩ = first :=
      if_neg (Ne.symm hne)
    rw [hbindings]
    refine ⟨hp.held.bound, ?_, fun hcount => ⟨isSome_of_countIs hcount, ?_⟩⟩
    · rw [hother]
      exact hknown.reads
    · rw [hother]
      exact hknown.there
  counts g countAt n hg hn := counts_entry h hg hn
  held b' hb' j _ hj hs := held_entry h hchoices hp.held.bound hb' hj hs
  heads b' hb' g first hfirst := by
    have hframe : ∀ t', ¬ t.Below t' → b'.get? t' = p.bindings.get? t' :=
      fun t' ht => ((entry_binds h).mono below_of_child).frame hb' ht
    have old : groups.firstTrail? g = some first →
        Known choices b' first ∧ ∀ j, 0 ≤ j → first ≠ t.child j ∧ ¬ (t.child j).Below first := by
      intro hold
      obtain ⟨hknown, -, hnot⟩ := hp.heads g first hold
      exact ⟨hknown.frame hframe hnot,
        fun j _ => ⟨fun heq => hnot (heq ▸ t.below_child j), fun hbelow => hnot hbelow.of_child⟩⟩
    cases shape with
    | anyway group =>
      rcases @Table.firstTrail?_foldl groups [(group, t)] g first hfirst with hold | ⟨m, hm, rfl⟩
      · exact old hold
      · obtain rfl := List.mem_singleton.1 hm
        refine ⟨⟨hp.held.frame hframe t.not_below_self, ?_⟩,
          fun j _ => ⟨Ne.symm (t.child_ne j), t.not_below_child_self j⟩⟩
        rw [nodeAt_frame hframe t.not_below_self]
        exact there_entry h hchoices hp.root hb'
    | _ => exact old hfirst

/-- The first nodes of the groups of a pattern are those from before and nodes of the pattern. -/
theorem firstTrail?_patternChain {e : Expr} {groups' : Groups} {x : Option (Chain Unit)}
    (h : patternChain o l e t groups = some (x, groups')) {g : GroupId} {first : Trail}
    (hfirst : groups'.firstTrail? g = some first) :
    groups.firstTrail? g = some first ∨ first = t ∨ t.Below first := by
  rw [groups_patternChain.1 e t groups groups' x h] at hfirst
  refine (Table.firstTrail?_foldl hfirst).imp_right ?_
  rintro ⟨m, hm, rfl⟩
  exact (Expr.occurrences_below.1 e t).2 m hm

namespace Underway

variable {total index : Nat} {skipped : Option Nat} {p : Code.Progress} {k : Chain Unit}
  {groups groups0 groups' : Groups}

theorem next (h : Underway l free choices t total skipped p index k groups) :
    Underway l free choices t total skipped p (index + 1) k groups where
  footing := h.footing.next
  sound := h.sound
  counts := h.counts
  held b' hb' j hj := h.held b' hb' j (by omega)
  heads b' hb' g first hfirst :=
    (h.heads b' hb' g first hfirst).imp_right fun happart j hj => happart j (by omega)

section Operand

variable {e : Expr} {x : Option (Chain Unit)}
  (h : Underway l free choices t total skipped p index k groups)
  (hp : Prepared choices groups0 t p.bindings)
  (hx : patternChain o l e (t.child index) groups = some (x, groups')) (hlt : index < total)
  (hs : skipped ≠ some index)
include h hp

theorem prepared (hlt : index < total) (hs : skipped ≠ some index) {b' : Bindings}
    (hb' : k.pass l free p.bindings = some b') : Prepared choices groups (t.child index) b' where
  root := by
    have hroot : ¬ t.Below Trail.root := by
      rintro ⟨i, rest, hi⟩
      simp [Trail.root] at hi
    rw [h.footing.binds.frame hb' hroot]
    exact hp.root
  bare := h.footing.bare free p.bindings b' hp.bare hb' index le_rfl
  held := h.held b' hb' index le_rfl hlt hs
  heads g first hfirst :=
    (h.heads b' hb' g first hfirst).imp_right fun happart => happart index le_rfl

include hx

omit hp in
/-- The first nodes of groups are away from the operands to come. -/
theorem apart {b' : Bindings} (hb' : k.pass l free p.bindings = some b') {g : GroupId}
    {first : Trail} (hfirst : groups'.firstTrail? g = some first) (j : Nat) (hj : index + 1 ≤ j) :
    first ≠ t.child j ∧ ¬ (t.child j).Below first := by
  rcases firstTrail?_patternChain hx hfirst with hold | rfl | hbelow
  · exact (h.heads b' hb' g first hold).2 j (by omega)
  · exact ⟨fun heq => absurd (Trail.child_injective heq) (by omega),
      Trail.not_below_child t index j⟩
  · exact (hbelow.not_child_of_ne (by omega)).symm

include hlt in
/-- A joined guard compares the node that it counts with an operand of it. -/
theorem sound_joined {r : Chain Unit} (hr : x = some r) {front front' : Chain.Front Unit}
    (hk : k.front? = some front) (hr' : r.front? = some front') {a : AnywayComparison}
    (hcount : front.guard.operandCountCheck? = some (a.countAt, a.count))
    (hpair : front'.guard.operatorPairing? = some (a.first, a.second)) :
    Question.Sound choices ⟨.anyway a, p.bindings⟩ := by
  subst hr
  obtain ⟨countAt, first, second, n, halign⟩ := a
  dsimp only at hcount hpair
  obtain rfl := (h.footing.counts _ _ _ (Chain.frontGuard?_of_front? hk) hcount).1
  obtain rfl := h.counts _ _ _ (Chain.frontGuard?_of_front? hk) hcount
  obtain ⟨rfl, -⟩ := pairing_patternChain e hx (Chain.frontGuard?_of_front? hr') hpair
  obtain rfl : countAt = first := halign.resolve_right fun h => Trail.child_ne countAt index h.symm
  intro a ha
  cases ha
  have hother : AnywayComparison.other ⟨countAt, countAt, countAt.child index, n, halign⟩ =
      countAt.child index := if_pos rfl
  -- the operand is not bound yet, so the run reads it from its parent as the text does
  have hnode : p.bindings.nodeAt (countAt.child index) =
      (p.bindings.nodeAt countAt).bind (·.operands[index]?) :=
    nodeAt_child (hp.bare _ (countAt.below_child index))
  refine ⟨hp.held.bound, Or.inl ?_, fun hcount => ⟨isSome_of_countIs hcount, Or.inl ?_⟩⟩
  · rw [hother, accessed?_child, hp.held.bound, hnode]
  · obtain ⟨whole, hwhole, hlen⟩ := exists_of_countIs hcount
    dsimp only at hlen
    rw [hother, hnode, hwhole, Option.bind_some, List.getElem?_eq_getElem (by omega)]
    rfl

include hlt hs in
/-- The matcher of an operand is added. -/
theorem operand
    (hcareful : ∀ b', Prepared choices groups (t.child index) b' →
      Careful l free choices groups' { p with bindings := b' } x) :
    Underway l free choices t total skipped p (index + 1) (x.elim k (k.attach o.joinComparisons ()))
      groups' := by
  cases x with
  | none =>
    refine ⟨h.footing.next, h.sound, h.counts, h.next.held,
      fun b' hb' g first hfirst => ⟨?_, h.apart hx hb' hfirst⟩⟩
    exact (hcareful b' (h.prepared hp hlt hs hb')).2 b' rfl g first hfirst
  | some r =>
    have hpass : ∀ b', (k.attach o.joinComparisons () r).pass l free p.bindings = some b' →
        ∃ b1, k.pass l free p.bindings = some b1 ∧ r.pass l free b1 = some b' := by
      intro b' hb'
      rw [h.footing.pass_attach hx o.joinComparisons free hp.bare] at hb'
      exact Option.bind_eq_some_iff.1 hb'
    refine ⟨h.footing.attach hx o.joinComparisons, ?_, ?_, ?_, ?_⟩
    · intro q hq
      -- a question is one of the node, one of the operand, or the comparison that the two are
      -- joined to
      rcases Chain.mem_recorded_attach h.footing.tidy.isQuiet
        (fun b' hb' => h.footing.same_operators hx hp.bare hb') hq with
        hq | ⟨b', hb', hq⟩ | ⟨_, _, _, _, _, _, halign, hk, hr, hcount, hpair, hq⟩
      · exact h.sound q hq
      · exact (hcareful b' (h.prepared hp hlt hs hb')).1 r rfl q hq
      · rw [List.mem_singleton.1 hq]
        exact h.sound_joined hp hx hlt rfl hk hr (a := ⟨_, _, _, _, halign⟩) hcount hpair
    · intro g countAt n hg hn
      rcases Chain.frontGuard?_attach h.footing.busy o.joinComparisons () r with
        hsame | ⟨a, hjoined⟩
      · exact h.counts g countAt n (hsame ▸ hg) hn
      · rw [Option.elim, hjoined] at hg
        cases hg
        cases hn
    · intro b' hb' j hj hlt' hs'
      obtain ⟨b1, hk, hr⟩ := hpass b' hb'
      -- the matcher of the operand binds below it, and the later operands are beside it
      have hframe : ∀ t', ¬ (t.child index).Below t' → b'.get? t' = b1.get? t' :=
        fun t' ht' => (patternChain_binds hx).frame hr ht'
      exact (h.held b1 hk j (by omega) hlt' hs').frame hframe (Trail.not_below_child t j index)
    · intro b' hb' g first hfirst
      obtain ⟨b1, hk, hr⟩ := hpass b' hb'
      exact ⟨(hcareful b1 (h.prepared hp hlt hs hk)).2 b' hr g first hfirst, h.apart hx hk hfirst⟩

end Operand

/-- The chain of a node with the matchers of all operands. -/
theorem careful (h : Underway l free choices t total skipped p index k groups) (w : Bool)
    (depth : Nat) :
    Careful l free choices groups p (some (if w = true then k.leave () depth else k)) := by
  refine ⟨fun k' hk' q hq => ?_, fun b' hb' g first hfirst => ?_⟩
  · obtain rfl := Option.some.inj hk'
    cases w with
    | true => exact h.sound q (by rwa [if_pos rfl, Chain.recorded_leave] at hq)
    | false => exact h.sound q hq
  · refine (h.heads b' ?_ g first hfirst).1
    cases w with
    | true => rwa [passed?, if_pos rfl, Chain.pass_leave] at hb'
    | false => exact hb'

end Underway

/-- The matchers of the pattern are careful wherever they are prepared for. -/
def PatternCareful (o : Options) (l : Language) (free : String → Bool)
    (choices : List (Trail × Nat)) (e : Expr) : Prop :=
  ∀ (t : Trail) (groups groups' : Groups) (x : Option (Chain Unit)) (p : Code.Progress),
    patternChain o l e t groups = some (x, groups') → e.choices t ⊆ choices →
    Prepared choices groups t p.bindings → Careful l free choices groups' p x

/-- The matchers of the operands keep the chain of their node underway. -/
def OperandsCareful (o : Options) (l : Language) (free : String → Bool)
    (choices : List (Trail × Nat)) (es : List Expr) : Prop :=
  ∀ (skipped : Option Nat) (t : Trail) (index : Nat) (k k' : Chain Unit) (w w' : Bool)
    (groups0 groups groups' : Groups) (p : Code.Progress),
    operandsChain o l skipped t index es k w groups = some (k', w', groups') →
    Expr.choicesAll t index es ⊆ choices → Prepared choices groups0 t p.bindings →
    Underway l free choices t (index + es.length) skipped p index k groups →
    Underway l free choices t (index + es.length) skipped p (index + es.length) k' groups'

/-- A node is careful if its operands are. -/
theorem careful_node {groups' : Groups} {k : Chain Unit} {w : Bool}
    (he : entry o l shape t operands groups = some (e, skipped))
    (hk : operandsChain o l skipped t 0 operands e.1 true (shape.joinGroup groups t) =
      some (k, w, groups'))
    (hchoices : (optionalOperand? operands).toList.map (fun x => (t, x.1)) ++
      Expr.choicesAll t 0 operands ⊆ choices)
    (hp : Prepared choices groups t p.bindings) (ih : OperandsCareful o l free choices operands) :
    Careful l free choices groups' p (some (if w = true then k.leave () e.2 else k)) := by
  obtain ⟨hhere, hbelow⟩ := List.append_subset.1 hchoices
  have hentry :
      Underway l free choices t operands.length skipped p 0 e.1 (shape.joinGroup groups t) :=
    underway_entry he (fun x hx => hhere (List.mem_map_of_mem hx)) hp
  exact (ih skipped t 0 e.1 k true w groups _ groups' p hk hbelow hp
    (by rwa [Nat.zero_add])).careful w e.2

theorem operandsCareful_nil : OperandsCareful o l free choices [] := by
  intro skipped t index k k' w w' groups0 groups groups' p h _ _ hk
  cases h
  exact hk

theorem operandsCareful_cons {e : Expr} {rest : List Expr} (he : PatternCareful o l free choices e)
    (hrest : OperandsCareful o l free choices rest) :
    OperandsCareful o l free choices (e :: rest) := by
  intro skipped t index k k' w w' groups0 groups groups' p h hchoices hp hk
  obtain ⟨hhere, hlater⟩ := List.append_subset.1 hchoices
  rw [List.length_cons, ← Nat.add_assoc, Nat.add_right_comm] at hk ⊢
  rcases cases_of_operandsChain h with ⟨-, h⟩ | ⟨hs, x, groups1, hx, h⟩
  · exact hrest _ _ _ _ _ _ _ groups0 _ _ _ h hlater hp hk.next
  · have hnext :=
      hk.operand hp hx (by omega) hs fun b' hb' => he _ _ _ _ { p with bindings := b' } hx hhere hb'
    exact hrest _ _ _ _ _ _ _ groups0 _ _ _ h hlater hp hnext

theorem IsNode.choices_eq {e : Expr} (hnode : IsNode l e shape operands) (t : Trail) :
    e.choices t = (optionalOperand? operands).toList.map (fun x => (t, x.1)) ++
      Expr.choicesAll t 0 operands := by
  cases hnode <;> rfl

/-- **The matcher of a pattern** asks sound questions only. -/
theorem careful_patternChain :
    (∀ e, PatternCareful o l free choices e) ∧ ∀ es, OperandsCareful o l free choices es := by
  apply pattern_induct l
  case metavar =>
    intro id t groups groups' x p h _ hp
    cases h
    refine ⟨fun k hk => (by cases hk), fun b' hb' g first hfirst => ?_⟩
    cases hb'
    exact (hp.heads g first hfirst).1
  case compound => exact fun inner ih => ih
  case optional =>
    intro pattern default _ _ t groups groups' x p h
    simp [patternChain] at h
  case node =>
    intro e shape operands hnode ih t groups groups' x p h hchoices hp
    obtain ⟨e0, skipped, k, w, he, hk, rfl⟩ := hnode.exists_of_patternChain h
    exact careful_node he hk (hnode.choices_eq t ▸ hchoices) hp ih
  case nil => exact operandsCareful_nil
  case cons => exact fun e rest he hrest => operandsCareful_cons he hrest

/-! ### Rules -/

theorem prepared_ofTerm (e : Expr) : Prepared choices Table.empty Trail.root (ofTerm e) := by
  have hget : (ofTerm e).get? Trail.root = some e := by rw [ofTerm, Table.get?_insert, if_pos rfl]
  have hnode := nodeAt_of_get? hget
  refine ⟨by rw [hget]; rfl, bare_ofTerm e, ⟨hget.trans hnode.symm, Or.inl (hget.trans hnode.symm)⟩,
    fun g first h => ?_⟩
  cases h

/-- The code of a rule asks sound questions only. -/
theorem sound_ruleCode {foldConstants : Bool} {r : Rule} {ts : List (Stmt Unit)}
    (h : ruleCode o l foldConstants r = some ts) (e : Expr)
    (hq : q ∈ recordedAll Question.recorder l free ts ⟨[], ofTerm e⟩) :
    q.Sound (r.pattern.choices Trail.root) := by
  obtain ⟨k, groups, hk, ⟨k', rfl, hq⟩ | ⟨b, hq⟩⟩ := mem_recordedAll_ruleCode h hq
  · have hcareful : Careful l free _ groups ⟨[], ofTerm e⟩ (some k') :=
      careful_patternChain.1 _ _ _ _ _ _ hk (List.Subset.refl _) (prepared_ofTerm e)
    exact hcareful.1 k' rfl q hq
  · -- the action compares no operators
    intro a ha
    rcases hq with ⟨_, hq⟩ | ⟨_, hq⟩ <;> rw [List.mem_singleton.1 hq] at ha <;> cases ha

end Matcher

open Matcher

/-- **What the text of a comparison names** is what a run compares, for every comparison that is
asked while the code of a rule runs on a term. The temporary of the counted node holds it. The other
node is the one that the text reads from its parent, unless it stands beside an optional operand
that is not there: then the text names another node or none. If the count is right, both nodes are
there, unless the other one is a node with an optional operand. -/
theorem anyway_comparisons_read {o : CompileOptions} {l : Language} {r : Rule} {c : Code}
    {head : NodeId} (hc : (r.compile o l c).1 = .ok head) (free : String → Bool) (e : Expr)
    {q : Question} (hq : q ∈ (r.compile o l c).2.asked l free head e) {a : AnywayComparison}
    (ha : q.guard = .anyway a) :
    a.text = a.countAt.temporary ++ ".arity() == " ++ toString a.count ++ " && " ++
      (if a.countAt = a.first then a.countAt.temporary ++ ".op() == " ++ a.other.access ++ ".op()"
        else a.other.access ++ ".op() == " ++ a.countAt.temporary ++ ".op()") ∧
    q.bindings.get? a.countAt = q.bindings.nodeAt a.countAt ∧
    (q.bindings.accessed? a.other = q.bindings.nodeAt a.other ∨
      (Displaced (r.pattern.choices Trail.root) q.bindings a.other ∧
        (q.bindings.accessed? a.other ≠ q.bindings.nodeAt a.other ∨
          ∃ parent whole, a.other = Trail.child parent 1 ∧ q.bindings.get? parent = some whole ∧
            2 < whole.operands.length))) ∧
    (q.bindings.countIs a.countAt a.count = true →
      (q.bindings.nodeAt a.countAt).isSome ∧
        ((q.bindings.nodeAt a.other).isSome ∨
          ∃ position, (a.other, position) ∈ r.pattern.choices Trail.root)) := by
  obtain ⟨ts, hcode, hrecorded⟩ := compile_records hc Question.recorder free e
  rw [Code.asked, hrecorded] at hq
  obtain ⟨hcounted, hother, hthere⟩ := sound_ruleCode hcode e hq a ha
  exact ⟨a.text_eq, hcounted, hother.imp_right fun hd => ⟨hd, hd.accessed?_ne⟩, hthere⟩

/-- The rule `(+ (- (? $0 0) (~ 1 $1 $2)) (~ 1 (? $3 0) $4)) ==> $4`. The first node of its group
stands beside an optional operand. -/
def displacing : Rule :=
  ⟨.app 0 [.app 1 [.optional (.metavar 0) (.literal (.int 0)), .anyway 1 [.metavar 1, .metavar 2]],
      .anyway 1 [.optional (.metavar 3) (.literal (.int 0)), .metavar 4]],
    .metavar 4, [], .noCheck, 0, false⟩

/-- On `(+ (- (* a b)) (* c d))` the rule makes a comparison, and its other node is displaced. -/
theorem displacing_reads :
    ∃ q ∈ (displacing.compile ⟨false, false, true⟩ .arithmetic Code.empty).2.asked .arithmetic
        (fun _ => false) 0
        (.app 0 [.app 1 [.app 2 [.var "a", .var "b"]], .app 2 [.var "c", .var "d"]]),
      q.guard = .anyway ⟨[1], [0, 1], [1], 2, Or.inr rfl⟩ ∧ q.bindings.countIs [1] 2 = true ∧
      q.bindings.get? [1] = q.bindings.nodeAt [1] ∧ (q.bindings.nodeAt [1]).isSome ∧
      Displaced (displacing.pattern.choices Trail.root) q.bindings [0, 1] := by
  have hc : (displacing.compile ⟨false, false, true⟩ .arithmetic Code.empty).1 = .ok 0 := by
    decide +kernel
  obtain ⟨q, hq, hguard, hcount, haccessed, hnode⟩ :=
    exists_recorded hc Question.recorder (fun _ => false)
      (.app 0 [.app 1 [.app 2 [.var "a", .var "b"]], .app 2 [.var "c", .var "d"]])
      (fun q => q.guard = .anyway ⟨[1], [0, 1], [1], 2, Or.inr rfl⟩ ∧
        q.bindings.countIs [1] 2 = true ∧ q.bindings.accessed? [0, 1] = none ∧
        (q.bindings.nodeAt [0, 1]).isSome = true)
      (by decide +kernel)
  obtain ⟨-, hcounted, hother, hthere⟩ := anyway_comparisons_read hc (fun _ => false) _ hq hguard
  refine ⟨q, hq, hguard, hcount, hcounted, (hthere hcount).1, ?_⟩
  rcases hother with hsame | ⟨hd, -⟩
  · rw [show q.bindings.nodeAt [0, 1] = none from hsame.symm.trans haccessed] at hnode
    cases hnode
  · exact hd

/-- The text of this comparison asks for the second operand of `(- (* a b))`, which has one operand,
and the run compares `(* a b)`. -/
theorem displaced_operand_misnamed :
    ∃ q ∈ (displacing.compile ⟨false, false, true⟩ .arithmetic Code.empty).2.asked .arithmetic
        (fun _ => false) 0
        (.app 0 [.app 1 [.app 2 [.var "a", .var "b"]], .app 2 [.var "c", .var "d"]]),
      q.guard = .anyway ⟨[1], [0, 1], [1], 2, Or.inr rfl⟩ ∧ q.bindings.countIs [1] 2 = true ∧
      q.bindings.accessed? [0, 1] = none ∧
      q.bindings.nodeAt [0, 1] = some (.app 2 [.var "a", .var "b"]) :=
  exists_recorded (by decide +kernel) Question.recorder (fun _ => false) _ _ (by decide +kernel)

end Rulewright
