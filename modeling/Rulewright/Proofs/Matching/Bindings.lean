import Rulewright.Proofs.Matching.Reference

/-!
# What matcher code sees of a term

The matcher of a pattern node at a trail finds a term bound there, and nothing bound below it. It
binds trails below its own only.

* `Trail.Below`: one trail is strictly below another one.
* `Bindings.nodeAt_child`: an operand that is not bound is read from its parent.
* `settle_operandLines`: what the definitions of operands bind.
* `holds_operatorIs` and the lemmas after it: guards as questions about the bound term.
-/

namespace Rulewright

namespace Trail

/-- The second trail is strictly below the first. -/
def Below (t t' : Trail) : Prop := ∃ i rest, t' = t ++ i :: rest

variable {t t' : Trail} {i j : Nat}

theorem below_child (t : Trail) (i : Nat) : t.Below (t.child i) := ⟨i, [], rfl⟩

theorem not_below_self (t : Trail) : ¬ t.Below t := by
  rintro ⟨i, rest, h⟩
  exact absurd (congrArg List.length h) (by simp)

theorem Below.of_child (h : (t.child i).Below t') : t.Below t' := by
  obtain ⟨j, rest, rfl⟩ := h
  exact ⟨i, j :: rest, by simp [child]⟩

theorem child_injective (h : t.child i = t.child j) : i = j := by
  simpa [child] using h

theorem child_ne (t : Trail) (i : Nat) : t.child i ≠ t := by
  intro h
  exact absurd (congrArg List.length h) (by simp [child])

theorem not_below_child_self (t : Trail) (i : Nat) : ¬ (t.child i).Below t := by
  rintro ⟨j, rest, h⟩
  exact absurd (congrArg List.length h) (by simp [child])

/-- The subtrees of two operands are disjoint. -/
theorem Below.not_child_of_ne (h : (t.child i).Below t') (hne : i ≠ j) :
    ¬ (t.child j).Below t' ∧ t' ≠ t.child j := by
  obtain ⟨k, rest, rfl⟩ := h
  refine ⟨?_, fun h => ?_⟩
  · rintro ⟨m, rest', h⟩
    simp only [child, List.append_assoc, List.append_cancel_left_eq] at h
    exact hne (by simpa using (List.cons.inj h).1)
  · simp only [child, List.append_assoc, List.append_cancel_left_eq] at h
    simp at h

theorem not_below_child (t : Trail) (i j : Nat) : ¬ (t.child j).Below (t.child i) := by
  rintro ⟨m, rest, h⟩
  exact absurd (congrArg List.length h) (by simp [child])

end Trail

namespace Bindings

variable {b : Bindings} {t : Trail} {e : Expr}

/-- Something is bound at the trail. -/
def IsBound (b : Bindings) (t : Trail) : Prop := ∃ e, b.get? t = some e

theorem nodeAt_of_get? (h : b.get? t = some e) : b.nodeAt t = some e := by
  rw [nodeAt]
  cases hr : t.reverse with
  | nil =>
    have : t = [] := by simpa using hr
    rw [nodeAtReverse, ← this, h]
  | cons index above =>
    rw [nodeAtReverse, ← hr, List.reverse_reverse, h]

/-- An operand that is not bound is read from its parent. -/
theorem nodeAt_child {i : Nat} (h : b.get? (t.child i) = none) :
    b.nodeAt (t.child i) = (b.nodeAt t).bind (·.operands[i]?) := by
  rw [nodeAt, Trail.child, List.reverse_append, List.reverse_singleton, List.singleton_append,
    nodeAtReverse]
  rw [Trail.child] at h
  rw [List.reverse_cons, List.reverse_reverse, h, nodeAt]

theorem operatorAt_of_get? {l : Language} (h : b.get? t = some e) :
    b.operatorAt l t = e.operator? l := by
  rw [operatorAt, nodeAt_of_get? h]; rfl

theorem bind_operand {i : Nat} (h : b.get? t = some e) :
    b.bind (.operand t i) = e.operands[i]? := by
  rw [bind, nodeAt_of_get? h]; rfl

theorem get?_assign_self {target : Trail} {binding : Binding} {x : Expr}
    (h : b.bind binding = some x) : (b.assign target binding).get? target = some x := by
  rw [assign, h, Table.get?_insert, if_pos rfl]

theorem get?_assign_of_ne {target : Trail} (binding : Binding) (h : target ≠ t) :
    (b.assign target binding).get? t = b.get? t := by
  rw [assign]
  split
  · rw [Table.get?_insert, if_neg h]
  · rw [Table.get?_erase, if_neg h]

end Bindings

/-! ### Definitions of operands -/

open Stmt

variable (l : Language) (free : String → Bool)

theorem settle_cons_line {ι : Type} (id : ι) (x : Line) (hx : x.isQuiet = true) (ts : List (Stmt ι))
    (b : Bindings) :
    settle l free (fresh id x :: ts) b = settle l free ts (settle l free [fresh id x] b) :=
  Chain.settle_append l free
    (show isQuietAll [fresh id x] = true by simp [isQuietAll, Stmt.isQuiet, fresh, hx]) b

theorem settle_operandLines {b : Bindings} {t : Trail} {e : Expr} (h : b.get? t = some e)
    {index count : Nat} (hn : index + count ≤ e.operands.length) :
    (∀ j x, index ≤ j → j < index + count → e.operands[j]? = some x →
      (settle l free (Matcher.operandLines t index count) b).get? (t.child j) = some x) ∧
    ∀ t', (∀ j, index ≤ j → j < index + count → t' ≠ t.child j) →
      (settle l free (Matcher.operandLines t index count) b).get? t' = b.get? t' := by
  induction count generalizing index b with
  | zero => exact ⟨fun j x h1 h2 => by omega, fun t' _ => rfl⟩
  | succ count ih =>
    obtain ⟨x, hx⟩ : ∃ x, e.operands[index]? = some x := ⟨_, List.getElem?_eq_getElem (by omega)⟩
    set b1 := b.assign (t.child index) (.operand t index) with hb1
    have hb1t : b1.get? t = some e := by
      rw [hb1, Bindings.get?_assign_of_ne _ (Trail.child_ne t index), h]
    have hstep : settle l free (Matcher.operandLines t index (count + 1)) b =
        settle l free (Matcher.operandLines t (index + 1) count) b1 := by
      rw [Matcher.operandLines, settle_cons_line l free () _ rfl]; rfl
    obtain ⟨h1, h2⟩ := ih hb1t (by omega : index + 1 + count ≤ e.operands.length)
    rw [hstep]
    refine ⟨fun j y hj1 hj2 hy => ?_, fun t' ht' => ?_⟩
    · rcases Nat.eq_or_lt_of_le hj1 with rfl | hlt
      · rw [h2 _ fun k hk1 hk2 he => by have := Trail.child_injective he; omega, hb1,
          Bindings.get?_assign_self ((Bindings.bind_operand h).trans hy)]
      · exact h1 j y (by omega) (by omega) hy
    · rw [h2 t' fun k hk1 hk2 => ht' k (by omega) (by omega), hb1,
        Bindings.get?_assign_of_ne _ (Ne.symm (ht' index (by omega) (by omega)))]

/-! ### Guards -/

section Guards

variable {b : Bindings} {t : Trail} {e : Expr} (h : b.get? t = some e)
include h

theorem holds_operatorIs (name : String) :
    (Guard.operatorIs t name).holds l free b = (e.operator? l == some name) := by
  simp only [Guard.operatorIs, Guard.holds, Side.value?, Bindings.operatorAt_of_get? h]
  cases e.operator? l <;> simp

theorem holds_operandCountIs (n : Nat) :
    (Guard.operandCountIs t n).holds l free b = (e.operands.length == n) := by
  simp [Guard.operandCountIs, Guard.holds, Side.value?, Bindings.nodeAt_of_get? h]

theorem holds_value (value : Literal) :
    (Guard.value t value).holds l free b = e.literal?.any fun v => v.double == value.double := by
  rw [Guard.holds, Bindings.nodeAt_of_get? h]
  simp only [Option.bind_some]
  cases e.literal? <;> rfl

theorem countIs_of_get? (n : Nat) : b.countIs t n = (e.operands.length == n) := by
  rw [Bindings.countIs, Bindings.nodeAt_of_get? h]

theorem holds_overloaded (name : String) (n : Nat) :
    (Guard.overloaded t name n).holds l free b =
      (e.operator? l == some name && e.operands.length == n) := by
  rw [Guard.holds, Bindings.operatorAt_of_get? h, countIs_of_get? h]

theorem holds_sameOperator (first : Trail) :
    (Guard.sameOperator first t).holds l free b =
      ((b.operatorAt l first).isSome && b.operatorAt l first == e.operator? l) := by
  simp only [Guard.sameOperator, Guard.holds, Side.value?, Bindings.operatorAt_of_get? h]
  cases b.operatorAt l first <;> cases e.operator? l <;> simp

end Guards

end Rulewright
