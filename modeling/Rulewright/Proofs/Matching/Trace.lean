import Rulewright.Proofs.Matching.Separate
import Rulewright.Proofs.Tree.Trace

/-!
# Traces of matchers

A run goes down a chain step by step, and does not get under a guard that has been answered with no.
Plugging chains together does not change what is noted down on the way, but for a joined guard: it
is asked early, before the operands of its node are bound.

* `Chain.recorded`: what is noted down on the way through a chain.
* `recordedAll_fill`: what is noted down in code with a chain on its way.
* `recorded_plug`, `mem_recorded_attach`: what is noted down where the chain of an operand is
  plugged in.
* `mem_recordedAll_ruleCode`, `compile_records`: what is noted down while the code of a rule runs.
-/

namespace Rulewright

open Stmt

namespace Chain

variable {ι ε : Type} (w : Recorder ε) (l : Language) (free : String → Bool)

/-- What is noted down before a run of a chain gets to the innermost point, or stops. -/
def recorded : Chain ι → Code.Progress → List ε
  | .hole before _ _, p => recordedAll w l free before p
  | .under before _ guard inner _ _, p =>
    recordedAll w l free before p ++ (w.ask guard (settle l free before p.bindings) ++
      if guard.holds l free (settle l free before p.bindings) then
        recorded inner { p with bindings := settle l free before p.bindings }
      else [])

variable {w l free}

theorem recordedAll_placeholders (ids : List ι) (p : Code.Progress) :
    recordedAll w l free (ids.map placeholder) p = [] :=
  recordedAll_lines (fun s hs p => by obtain ⟨id, -, rfl⟩ := List.mem_map.1 hs; rfl) p

theorem recordedAll_blank {ts : List (Stmt ι)} (h : ts.any isMeaningful = false)
    (p : Code.Progress) : recordedAll w l free ts p = [] := by
  refine recordedAll_lines (fun s hs p => ?_) p
  cases s with
  | line id x comment off =>
    have hx := List.any_eq_false.1 h _ hs
    cases x with
    | definition target binding declares => exact absurd rfl hx
    | _ => exact ite_self _
  | branch id guard t e es => cases (List.any_eq_false.1 h _ hs rfl)

theorem recordedAll_quiet {xs : List (Stmt ι)} (hx : isQuietAll xs = true) (ys : List (Stmt ι))
    (p : Code.Progress) :
    recordedAll w l free (xs ++ ys) p = recordedAll w l free xs p ++
      recordedAll w l free ys { p with bindings := settle l free xs p.bindings } := by
  rw [recordedAll_append, execAll_quiet l free hx]

/-- What is noted down in the code of a chain with a sequence at its innermost point. -/
theorem recordedAll_fill {k : Chain ι} (hk : k.IsQuiet) (ts : List (Stmt ι)) (p : Code.Progress) :
    recordedAll w l free (k.fill ts) p = k.recorded w l free p ++
      (k.pass l free p.bindings).elim [] fun b =>
        recordedAll w l free ts { p with bindings := b } := by
  induction k generalizing p with
  | hole before mark after =>
    rw [fill, recordedAll_quiet hk, recordedAll_append_lines _ (recordedAll_placeholders after)]
    rfl
  | under before check guard inner otherwise after ih =>
    rw [fill, recordedAll_quiet hk.1, ← List.singleton_append,
      recordedAll_append_lines _ (recordedAll_placeholders after), recordedAll_singleton,
      Stmt.recorded, recorded, pass, List.append_assoc, List.append_assoc]
    congr 2
    cases guard.holds l free (settle l free before p.bindings) with
    | true => exact ih hk.2 _
    | false => rfl

theorem recorded_surround {xs : List (Stmt ι)} (hx : isQuietAll xs = true) (ids : List ι)
    (k : Chain ι) (p : Code.Progress) :
    (k.surround xs ids).recorded w l free p =
      recordedAll w l free xs p ++
        k.recorded w l free { p with bindings := settle l free xs p.bindings } := by
  cases k with
  | hole before mark after => exact recordedAll_quiet hx before p
  | under before check guard inner otherwise after =>
    rw [surround, recorded, recorded, recordedAll_quiet hx, settle_append l free hx,
      List.append_assoc]

theorem recorded_plug {k : Chain ι} (hk : k.IsQuiet) (r : Chain ι) (p : Code.Progress) :
    (k.plug r).recorded w l free p = k.recorded w l free p ++
      (k.pass l free p.bindings).elim [] fun b => r.recorded w l free { p with bindings := b } := by
  induction k generalizing p with
  | hole before mark after => exact recorded_surround hk after r p
  | under before check guard inner otherwise after ih =>
    rw [plug, recorded, recorded, pass, List.append_assoc, List.append_assoc]
    congr 2
    split_ifs with hg
    · exact ih hk.2 _
    · rfl

theorem mem_recorded_plug {k : Chain ι} (hk : k.IsQuiet) {r : Chain ι} {p : Code.Progress} {q : ε} :
    q ∈ (k.plug r).recorded w l free p ↔
    q ∈ k.recorded w l free p ∨
      ∃ b', k.pass l free p.bindings = some b' ∧
        q ∈ r.recorded w l free { p with bindings := b' } := by
  rw [recorded_plug hk, List.mem_append]
  cases k.pass l free p.bindings <;> simp

@[simp] theorem recorded_leave (new : ι) (depth : Nat) (k : Chain ι) (p : Code.Progress) :
    (k.leave new depth).recorded w l free p = k.recorded w l free p := by
  induction k generalizing depth p with
  | hole before mark after => cases depth <;> cases mark <;> rfl
  | under before check guard inner otherwise after ih =>
    cases depth <;> simp only [leave, recorded, ih]

section Front

variable {k r : Chain Unit}

theorem recorded_of_front? {x : Front Unit} (h : k.front? = some x) (p : Code.Progress) :
    k.recorded w l free p = w.ask x.guard p.bindings ++
      if x.guard.holds l free p.bindings then x.inner.recorded w l free p else [] := by
  cases k with
  | hole before mark after => cases h
  | under before check guard inner otherwise after =>
    rw [front?] at h
    split_ifs at h with hm
    cases h
    rw [recorded, recordedAll_blank (Bool.eq_false_iff.2 hm), settle_blank (Bool.eq_false_iff.2 hm)]
    rfl

/-- What is noted down where the chain of an operand is plugged in: what is in both chains, and what
is of a joined guard. -/
theorem mem_recorded_attach (hk : k.IsQuiet) {joins : Bool} {new : Unit} {p : Code.Progress}
    (hsame : ∀ b', k.pass l free p.bindings = some b' →
      ∀ x y countAt count first second, k.front? = some x → r.front? = some y →
        x.guard.operandCountCheck? = some (countAt, count) →
        y.guard.operatorPairing? = some (first, second) → countAt = first ∨ countAt = second →
        p.bindings.operatorAt l first = b'.operatorAt l first ∧
          p.bindings.operatorAt l second = b'.operatorAt l second)
    {q : ε} (h : q ∈ (k.attach joins new r).recorded w l free p) :
    q ∈ k.recorded w l free p ∨
    (∃ b', k.pass l free p.bindings = some b' ∧ q ∈ r.recorded w l free { p with bindings := b' }) ∨
    ∃ x y countAt count first second halign, k.front? = some x ∧ r.front? = some y ∧
      x.guard.operandCountCheck? = some (countAt, count) ∧
      y.guard.operatorPairing? = some (first, second) ∧
      q ∈ w.ask (.anyway ⟨countAt, first, second, count, halign⟩) p.bindings := by
  unfold attach at h
  split at h
  · rename_i g hg
    split_ifs at hg
    obtain ⟨x, y, countAt, first, second, count, halign, hx, hy, hcount, hpair, rfl⟩ :=
      joinGuard?_eq_some hg
    have hjoined := front?_setGuard hx (.anyway ⟨countAt, first, second, count, halign⟩)
    have hcounted := Guard.holds_of_operandCountCheck? l free p.bindings hcount
    rcases (mem_recorded_plug (isQuiet_setGuard hk _)).1 h with h | ⟨b', hp, h⟩
    · rw [recorded_of_front? hjoined] at h
      rcases List.mem_append.1 h with h | h
      · exact Or.inr
          (Or.inr ⟨x, y, countAt, count, first, second, halign, hx, hy, hcount, hpair, h⟩)
      · -- the joined guard holds, so the count does
        split_ifs at h with hholds
        · simp only [Guard.holds, Bool.and_eq_true] at hholds
          rw [recorded_of_front? hx, hcounted, if_pos hholds.1.1]
          exact Or.inl (List.mem_append_right _ h)
        · cases h
    · rw [pass_of_front? hjoined] at hp
      split_ifs at hp with hholds
      simp only [Guard.holds, Bool.and_eq_true] at hholds
      have hpass : k.pass l free p.bindings = some b' := by
        rw [pass_of_front? hx, hcounted, if_pos hholds.1.1, hp]
      obtain ⟨h1, h2⟩ := hsame b' hpass x y countAt count first second hx hy hcount hpair halign
      -- the comparison would have held later
      have hpaired : y.guard.holds l free b' = true := by
        rw [Guard.holds_of_operatorPairing? l free b' hpair, ← h1, ← h2, hholds.1.2, hholds.2]
        rfl
      have hbody : r.body = y.inner := by
        obtain ⟨before, after, rfl⟩ := eq_under_of_front? hy
        rfl
      rw [recorded_surround rfl, hbody] at h
      refine Or.inr (Or.inl ⟨b', hpass, ?_⟩)
      rw [recorded_of_front? hy, if_pos hpaired]
      exact List.mem_append_right _ h
  · exact ((mem_recorded_plug hk).1 h).imp_right Or.inl

end Front

end Chain

namespace Matcher

variable {ε : Type} {w : Recorder ε} {l : Language} {free : String → Bool} {p : Code.Progress}
  {q : ε}

theorem mem_recorded_guarded {guard : Guard} {inner : Chain Unit}
    (h : q ∈ (guarded guard inner).recorded w l free p) :
    q ∈ w.ask guard p.bindings ∨
    (guard.holds l free p.bindings = true ∧ q ∈ inner.recorded w l free p) := by
  change q ∈ w.ask guard p.bindings ++
    (if guard.holds l free p.bindings then inner.recorded w l free p else []) at h
  refine (List.mem_append.1 h).imp_right fun h => ?_
  split_ifs at h with hg
  · exact ⟨hg, h⟩
  · cases h

/-- The choice between the forms of a node: its guards are asked, and one of its bodies is run. -/
theorem mem_recorded_choice {t : Trail} {guard : Guard} {full other elseIfs : List (Stmt Unit)}
    (h : q ∈
      recordedAll w l free (noop () :: declarations t ++ [.branch () guard full other elseIfs]) p) :
    q ∈ w.ask guard p.bindings ∨
    (guard.holds l free p.bindings = true ∧ q ∈ recordedAll w l free full p) ∨
    (guard.holds l free p.bindings = false ∧
      (q ∈ recordedElseIfs w l free elseIfs p ∨ q ∈ recordedAll w l free other p)) := by
  change q ∈ recordedAll w l free [.branch () guard full other elseIfs] p at h
  rw [recordedAll_singleton, Stmt.recorded] at h
  refine (List.mem_append.1 h).imp_right fun h => ?_
  split_ifs at h with hg hsome
  · exact Or.inl ⟨hg, h⟩
  · exact Or.inr ⟨Bool.eq_false_iff.2 hg, Or.inl (by rwa [List.append_nil] at h)⟩
  · exact Or.inr ⟨Bool.eq_false_iff.2 hg, List.mem_append.1 h⟩

/-! ### Rules -/

theorem mem_recordedAll_underIf {needed : Bool} {guard : Guard} {body : List (Stmt Unit)}
    (h : q ∈ recordedAll w l free (underIf needed guard body) p) :
    q ∈ w.ask guard p.bindings ∨ q ∈ recordedAll w l free body p := by
  unfold underIf at h
  split_ifs at h
  · change q ∈ recordedAll w l free [.branch () guard body [noop ()] []] p at h
    rw [recordedAll_singleton, Stmt.recorded] at h
    refine (List.mem_append.1 h).imp_right fun h => ?_
    split_ifs at h
    · exact h
    · cases h
    · cases h
  · exact Or.inr h

/-- The action of a rule asks whether terms are equal and whether the conditions hold, and defines
nothing. -/
theorem mem_recordedAll_actionCode {foldConstants : Bool} {r : Rule} {groups : Groups}
    {action : List (Stmt Unit)} (h : actionCode l foldConstants r groups = some action)
    (hq : q ∈ recordedAll w l free action p) :
    (∃ pairs, q ∈ w.ask (.structurallyEqual pairs) p.bindings) ∨
    ∃ text, q ∈ w.ask (.free text) p.bindings := by
  obtain ⟨conditions, code, -, -, rfl⟩ := exists_of_actionCode h
  have hbody : recordedAll w l free (actionBody r code) p = [] := by
    refine recordedAll_lines (fun s hs p => ?_) p
    unfold actionBody replaceStmt at hs
    split_ifs at hs <;> simp only [List.mem_cons, List.not_mem_nil, or_false] at hs <;>
      rcases hs with rfl | rfl | rfl <;> rfl
  rcases mem_recordedAll_underIf hq with hq | hq
  · exact Or.inl ⟨_, hq⟩
  · rcases mem_recordedAll_underIf hq with hq | hq
    · exact Or.inr ⟨_, hq⟩
    · rw [hbody] at hq
      cases hq

/-- The code of a rule goes through the chain of the pattern, and behind it through the action. -/
theorem recordedAll_ruleCode {o : Options} {foldConstants : Bool} {r : Rule} {ts : List (Stmt Unit)}
    (h : ruleCode o l foldConstants r = some ts) (w : Recorder ε) (free : String → Bool)
    (p : Code.Progress) :
    ∃ k groups action, patternChain o l r.pattern Trail.root Table.empty = some (k, groups) ∧
      actionCode l foldConstants r groups = some action ∧
      recordedAll w l free ts p = k.elim [] (·.recorded w l free p) ++
        (passed? l free k p.bindings).elim [] fun b =>
          recordedAll w l free action { p with bindings := b } := by
  obtain ⟨k, groups, action, hk, haction, rfl⟩ := exists_of_ruleCode h
  refine ⟨k, groups, action, hk, haction, ?_⟩
  rw [recordedAll_append_lines _ fun _ => rfl, recorded_calm_all.2.1]
  cases k with
  | none => rfl
  | some k => exact Chain.recordedAll_fill (patternChain_fit hk).1.isQuiet action p

/-- What is noted down in the code of a rule is of the chain of the pattern, or of a guard of the
action. -/
theorem mem_recordedAll_ruleCode {o : Options} {foldConstants : Bool} {r : Rule}
    {ts : List (Stmt Unit)} (h : ruleCode o l foldConstants r = some ts)
    (hq : q ∈ recordedAll w l free ts p) :
    ∃ k groups, patternChain o l r.pattern Trail.root Table.empty = some (k, groups) ∧
      ((∃ k', k = some k' ∧ q ∈ k'.recorded w l free p) ∨
        ∃ b, (∃ pairs, q ∈ w.ask (.structurallyEqual pairs) b) ∨
          ∃ text, q ∈ w.ask (.free text) b) := by
  obtain ⟨k, groups, action, hk, haction, hrecorded⟩ := recordedAll_ruleCode h w free p
  rw [hrecorded] at hq
  refine ⟨k, groups, hk, ?_⟩
  rcases List.mem_append.1 hq with hq | hq
  · cases k with
    | none => cases hq
    | some k => exact Or.inl ⟨k, rfl, hq⟩
  · cases hp : passed? l free k p.bindings with
    | none =>
      rw [hp] at hq
      cases hq
    | some b =>
      rw [hp] at hq
      exact Or.inr ⟨b, mem_recordedAll_actionCode haction hq⟩

/-- Compiled code does what the code of the rule does, said without a store of nodes. -/
theorem compile_records {o : CompileOptions} {r : Rule} {c : Code} {head : NodeId}
    (hc : (r.compile o l c).1 = .ok head) (w : Recorder ε) (free : String → Bool) (e : Expr) :
    ∃ ts, ruleCode (matcherOptions o) l o.foldConstants r = some ts ∧
      (r.compile o l c).2.recorded w l free head e =
        recordedAll w l free ts ⟨[], Bindings.ofTerm e⟩ := by
  obtain ⟨ts, hcode, rfl, hne, hsolid, howns⟩ := compile_owns (Code.Owns.zero c) (Prod.ext hc rfl)
  exact ⟨strip ts, hcode,
    (howns.recorded_eq hsolid hne e).trans ((recorded_map_all fun _ => ()).2.1 ts _).symm⟩

/-- A run is looked through by way of the code of the rule. -/
theorem exists_recorded {o : CompileOptions} {r : Rule} {c : Code} {head : NodeId}
    (hc : (r.compile o l c).1 = .ok head) (w : Recorder ε) (free : String → Bool) (e : Expr)
    (P : ε → Prop) [DecidablePred P]
    (h : ((ruleCode (matcherOptions o) l o.foldConstants r).any fun ts =>
      (recordedAll w l free ts ⟨[], Bindings.ofTerm e⟩).any fun q => decide (P q)) = true) :
    ∃ q ∈ (r.compile o l c).2.recorded w l free head e, P q := by
  obtain ⟨ts, hcode, hrecorded⟩ := compile_records hc w free e
  rw [hcode, Option.any_some] at h
  obtain ⟨q, hq, hP⟩ := List.any_eq_true.1 h
  exact ⟨q, by rwa [hrecorded], of_decide_eq_true hP⟩

end Matcher

end Rulewright
