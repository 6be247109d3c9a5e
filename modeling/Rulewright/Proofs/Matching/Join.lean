import Rulewright.Proofs.Matching.Entry

/-!
# Joined comparisons

Where the matcher of an operand starts with a comparison of two operators and stands under a count
of operands, the two guards become one. The comparison is then made before the operands are bound,
and it sees the operators it would have seen later.

* `pass_attach_some`, `pass_attach_none`: the chain of an operand attached to the chain so far.
* `frontGuard?_entry`, `pairing_patternChain`: which guards can be joined.
-/

namespace Rulewright

open Stmt

namespace Guard

variable (l : Language) (free : String → Bool) (b : Bindings)

theorem holds_of_operandCountCheck? {g : Guard} {t : Trail} {n : Nat}
    (h : g.operandCountCheck? = some (t, n)) : g.holds l free b = b.countIs t n := by
  unfold operandCountCheck? at h
  split at h
  · cases h
    simp only [holds, Side.value?, Bindings.countIs]
    cases b.nodeAt t <;> simp
  · cases h
    simp only [holds, Side.value?, Bindings.countIs]
    cases b.nodeAt t <;> simp [eq_comm]
  · cases h

theorem holds_of_operatorPairing? {g : Guard} {first second : Trail}
    (h : g.operatorPairing? = some (first, second)) :
    g.holds l free b =
      ((b.operatorAt l first).isSome && b.operatorAt l first == b.operatorAt l second) := by
  unfold operatorPairing? at h
  split at h
  · cases h
    simp only [holds, Side.value?]
    cases b.operatorAt l first <;> cases b.operatorAt l second <;> simp
  · cases h

end Guard

namespace Chain

variable {l : Language} {free : String → Bool} {k r : Chain Unit} {b b' : Bindings}

theorem settle_blank {ts : List (Stmt Unit)} (h : ts.any isMeaningful = false) :
    settle l free ts b = b := by
  induction ts with
  | nil => rfl
  | cons s rest ih =>
    rw [List.any_cons, Bool.or_eq_false_iff] at h
    cases s with
    | branch id guard t e es => simp [isMeaningful] at h
    | line id x comment off =>
      have hexec : ∀ p, exec l free (.line id x comment off) p = (none, p) := fun p => by
        cases off with
        | true => rfl
        | false =>
          cases x <;> first | rfl | simp [isMeaningful, Line.kind, NodeKind.isMeaningful] at h
      rw [settle, execAll, hexec]
      exact ih h.2

theorem pass_of_front? {x : Front Unit} (h : k.front? = some x) :
    k.pass l free b = if x.guard.holds l free b then x.inner.pass l free b else none := by
  cases k with
  | hole before mark after => cases h
  | under before check guard inner otherwise after =>
    rw [front?] at h
    split_ifs at h with hm
    cases h
    rw [pass, settle_blank (Bool.eq_false_iff.2 hm)]

theorem front?_setGuard {x : Front Unit} (h : k.front? = some x) (g : Guard) :
    (k.setGuard g).front? = some { x with guard := g } := by
  obtain ⟨before, after, rfl⟩ := eq_under_of_front? h
  rw [front?] at h
  split_ifs at h with hm
  rw [setGuard, front?, if_neg hm]

theorem isQuiet_setGuard (h : k.IsQuiet) (g : Guard) : (k.setGuard g).IsQuiet := by
  cases k <;> exact h

/-- What joining two guards takes. -/
theorem joinGuard?_eq_some {g : Guard} (h : joinGuard? k r = some g) :
    ∃ x y countAt first second count halign, k.front? = some x ∧ r.front? = some y ∧
      x.guard.operandCountCheck? = some (countAt, count) ∧
      y.guard.operatorPairing? = some (first, second) ∧
      g = .anyway ⟨countAt, first, second, count, halign⟩ := by
  unfold joinGuard? at h
  split at h
  · rename_i countAt count first second hx hy
    obtain ⟨x, hfx, hcx⟩ := Option.bind_eq_some_iff.1 hx
    obtain ⟨y, hfy, hcy⟩ := Option.bind_eq_some_iff.1 hy
    unfold Guard.anyway? at h
    split at h
    · rename_i halign
      cases h
      exact ⟨x, y, countAt, first, second, count, halign, hfx, hfy, hcx, hcy, rfl⟩
    · cases h
  · cases h

theorem pass_attach_none (hk : k.IsQuiet) (h : k.pass l free b = none) (joins : Bool) (new : Unit)
    (r : Chain Unit) : (k.attach joins new r).pass l free b = none := by
  unfold attach
  split
  · rename_i g hg
    split_ifs at hg
    obtain ⟨x, y, countAt, first, second, count, halign, hx, hy, hcount, hpair, rfl⟩ :=
      joinGuard?_eq_some hg
    rw [pass_plug l free (isQuiet_setGuard hk _), pass_of_front? (front?_setGuard hx _)]
    rw [pass_of_front? hx, Guard.holds_of_operandCountCheck? l free b hcount] at h
    simp only [Guard.holds]
    by_cases hc : b.countIs countAt count = true
    · rw [if_pos hc] at h
      simp [h]
    · simp [hc]
  · rw [pass_plug l free hk, h]; rfl

/-- The comparison may be made early if the operators are the same later. -/
theorem pass_attach_some (hk : k.IsQuiet) (h : k.pass l free b = some b') (joins : Bool)
    (new : Unit)
    (hsame : ∀ x y countAt count first second, k.front? = some x → r.front? = some y →
      x.guard.operandCountCheck? = some (countAt, count) →
      y.guard.operatorPairing? = some (first, second) → countAt = first ∨ countAt = second →
      b.operatorAt l first = b'.operatorAt l first ∧
        b.operatorAt l second = b'.operatorAt l second) :
    (k.attach joins new r).pass l free b = r.pass l free b' := by
  unfold attach
  split
  · rename_i g hg
    split_ifs at hg
    obtain ⟨x, y, countAt, first, second, count, halign, hx, hy, hcount, hpair, rfl⟩ :=
      joinGuard?_eq_some hg
    obtain ⟨h1, h2⟩ := hsame x y countAt count first second hx hy hcount hpair halign
    rw [pass_of_front? hx, Guard.holds_of_operandCountCheck? l free b hcount] at h
    split_ifs at h with hc
    rw [pass_plug l free (isQuiet_setGuard hk _), pass_of_front? (front?_setGuard hx _),
      pass_of_front? hy, Guard.holds_of_operatorPairing? l free b' hpair]
    have hbody : ∀ b, (r.body.surround [noop new] []).pass l free b = y.inner.pass l free b := by
      intro b
      obtain ⟨before, after, rfl⟩ := eq_under_of_front? hy
      exact pass_surround l free rfl [] y.inner b
    simp only [Guard.holds, hc, Bool.true_and, h1, h2]
    split_ifs with hp
    · rw [h, Option.bind_some, hbody]
    · rfl
  · rw [pass_plug l free hk, h]; rfl

/-! ### Which guards can be joined -/

/-- The guard of the outermost branch. -/
def frontGuard? (k : Chain Unit) : Option Guard := k.front?.map Front.guard

theorem frontGuard?_of_front? {x : Front Unit} (h : k.front? = some x) :
    k.frontGuard? = some x.guard := by
  rw [frontGuard?, h]; rfl

theorem frontGuard?_plug (hk : k.Busy) (r : Chain Unit) :
    (k.plug r).frontGuard? = k.frontGuard? := by
  cases k with
  | hole before mark after =>
    have hb : before.any isMeaningful = true := hk
    cases r <;> simp [plug, surround, frontGuard?, front?, hb]
  | under before check guard inner otherwise after =>
    simp only [plug, frontGuard?, front?]
    split_ifs <;> rfl

theorem frontGuard?_leave (new : Unit) (depth : Nat) (k : Chain Unit) :
    (k.leave new depth).frontGuard? = k.frontGuard? := by
  cases k with
  | hole before mark after => cases depth <;> cases mark <;> rfl
  | under before check guard inner otherwise after =>
    cases depth with
    | zero => rfl
    | succ depth =>
      simp only [leave, frontGuard?, front?]
      split_ifs <;> rfl

/-- A guard that is joined with another one is not joined again. -/
theorem frontGuard?_attach (hk : k.Busy) (joins : Bool) (new : Unit) (r : Chain Unit) :
    (k.attach joins new r).frontGuard? = k.frontGuard? ∨
      ∃ c, (k.attach joins new r).frontGuard? = some (.anyway c) := by
  unfold attach
  split
  · rename_i g hg
    split_ifs at hg
    obtain ⟨x, y, countAt, first, second, count, halign, hx, -, -, -, rfl⟩ := joinGuard?_eq_some hg
    have hbusy : (k.setGuard (.anyway ⟨countAt, first, second, count, halign⟩)).Busy := by
      cases k <;> exact hk
    exact Or.inr
      ⟨_, (frontGuard?_plug hbusy _).trans (frontGuard?_of_front? (front?_setGuard hx _))⟩
  · exact Or.inl (frontGuard?_plug hk r)

end Chain

namespace Matcher

variable {o : Options} {l : Language} {t : Trail} {groups : Groups} {shape : Shape}

theorem frontGuard?_operandsChain {skipped : Option Nat} {index : Nat} {patterns : List Expr}
    {k k' : Chain Unit} {wanted wanted' : Bool} {groups' : Groups} (hk : k.Busy)
    (h : operandsChain o l skipped t index patterns k wanted groups = some (k', wanted', groups')) :
    k'.frontGuard? = k.frontGuard? ∨ ∃ c, k'.frontGuard? = some (.anyway c) := by
  refine (operandsChain_invariant
    (I := fun x => x.Busy ∧ (x.frontGuard? = k.frontGuard? ∨ ∃ c, x.frontGuard? = some (.anyway c)))
    (fun {_ _ x r _ _} _ hx => ⟨hx.1.attach _ () r, ?_⟩) h ⟨hk, Or.inl rfl⟩).2
  rcases Chain.frontGuard?_attach hx.1 o.joinComparisons () r with hsame | hjoined
  · rw [hsame]
    exact hx.2
  · exact Or.inr hjoined

theorem frontGuard?_plainEntry {guard g : Guard} {pending : Option Trail} {n : Nat}
    (h : (plainEntry o t guard pending n).1.frontGuard? = some g) :
    g = guard ∨ ∃ first, pending = some first ∧ g = .sameOperator first t := by
  unfold plainEntry at h
  split_ifs at h
  · cases h
  · cases pending with
    | none => exact Or.inl (Option.some.inj h).symm
    | some first => exact Or.inr ⟨first, rfl, (Option.some.inj h).symm⟩

theorem frontGuard?_optionalEntry {position : Nat} {missing : Binding} {pending : Option Trail}
    {e : Entry} (h : IsOptionalEntry o l t position missing pending shape e) {g : Guard}
    (hg : e.1.frontGuard? = some g) : ∃ name, g = .operatorIs t name := by
  cases h with
  | implied hroot ho htakes => cases hg
  | root hroot ho htakes => exact ⟨_, (Option.some.inj hg).symm⟩
  | below hroot hfull hshort => cases hg

theorem operatorPairing?_guard (shape : Shape) (l : Language) (t : Trail) (n : Nat) :
    (shape.guard l t n).operatorPairing? = none := by
  cases shape with
  | symbol name =>
    rw [Shape.guard]
    split <;> rfl
  | _ => rfl

theorem operandCountCheck?_guard {l : Language} {countAt : Trail} {n count : Nat}
    (h : (shape.guard l t n).operandCountCheck? = some (countAt, count)) : countAt = t := by
  cases shape with
  | symbol name =>
    rw [Shape.guard] at h
    split at h <;> cases h
  | anyway group =>
    cases h
    rfl
  | _ => cases h

/-- What the outermost guard at the entry of a node can be, as far as joining goes. -/
theorem frontGuard?_entry {patterns : List Expr} {k : Chain Unit} {d : Nat} {skipped : Option Nat}
    (h : entry o l shape t patterns groups = some ((k, d), skipped)) {g : Guard}
    (hg : k.frontGuard? = some g) :
    (∀ first second, g.operatorPairing? = some (first, second) →
      second = t ∧ shape.pending? groups = some first) ∧
    ∀ countAt n, g.operandCountCheck? = some (countAt, n) →
      countAt = t ∧ optionalOperand? patterns = none := by
  rcases cases_of_entry h with ⟨hop, -, hk⟩ | ⟨_, _, _, _, _, -, -, -, -, hentry⟩
  · rw [show k = _ from congrArg Prod.fst hk] at hg
    rcases frontGuard?_plainEntry hg with rfl | ⟨first, hfirst, rfl⟩
    · refine ⟨fun first second hp => ?_, fun countAt n hc => ⟨operandCountCheck?_guard hc, hop⟩⟩
      rw [operatorPairing?_guard] at hp
      cases hp
    · refine ⟨fun first' second hp => ?_, fun countAt n hc => (by cases hc)⟩
      cases hp
      exact ⟨rfl, hfirst⟩
  · obtain ⟨name, rfl⟩ := frontGuard?_optionalEntry hentry hg
    exact ⟨fun first second hp => (by cases hp), fun countAt n hc => (by cases hc)⟩

theorem pairing_node {patterns : List Expr} {e : Entry} {skipped : Option Nat}
    (he : entry o l shape t patterns groups = some (e, skipped)) {k : Chain Unit}
    (hk : k.frontGuard? = e.1.frontGuard? ∨ ∃ c, k.frontGuard? = some (.anyway c)) {w : Bool}
    {g : Guard} (hg : (if w = true then k.leave () e.2 else k).frontGuard? = some g)
    {first second : Trail} (hpair : g.operatorPairing? = some (first, second)) :
    second = t ∧ shape.pending? groups = some first := by
  have hfront : k.frontGuard? = some g := by
    rw [← hg]
    split_ifs
    · exact (Chain.frontGuard?_leave () e.2 k).symm
    · rfl
  rcases hk with heq | ⟨c, hany⟩
  · exact (frontGuard?_entry he (heq.symm.trans hfront)).1 first second hpair
  · rw [hany] at hfront
    cases hfront
    cases hpair

theorem exists_of_pending? {first : Trail} (h : shape.pending? groups = some first) :
    ∃ g, groups.firstTrail? g = some first := by
  cases shape with
  | anyway group => exact ⟨group, h⟩
  | _ => cases h

/-- The matcher of a pattern that starts with a comparison of operators compares the operator at its
own trail with that of an earlier node. -/
theorem pairing_patternChain (p : Expr) {groups' : Groups} {k : Chain Unit}
    (h : patternChain o l p t groups = some (some k, groups')) {g : Guard}
    (hg : k.frontGuard? = some g) {first second : Trail}
    (hpair : g.operatorPairing? = some (first, second)) :
    second = t ∧ ∃ group, groups.firstTrail? group = some first := by
  refine (pattern_induct l
    (P := fun p => ∀ {k groups'}, patternChain o l p t groups = some (some k, groups') →
      k.frontGuard? = some g → second = t ∧ ∃ group, groups.firstTrail? group = some first)
    (Q := fun _ => True) ?_ ?_ ?_ ?_ trivial fun _ _ _ _ => trivial).1 p h hg
  · intro id k groups' h
    simp [patternChain] at h
  · exact fun inner ih k groups' => ih
  · intro pattern default _ _ k groups' h
    simp [patternChain] at h
  · intro e shape operands hnode _ k groups' h hg
    obtain ⟨e0, skipped, k', wanted, he, ho, hx⟩ := hnode.exists_of_patternChain h
    cases hx
    obtain ⟨hsecond, hfirst⟩ :=
      pairing_node he (frontGuard?_operandsChain (isEntry_entry he).2.1 ho) hg hpair
    exact ⟨hsecond, exists_of_pending? hfirst⟩

end Matcher

end Rulewright
