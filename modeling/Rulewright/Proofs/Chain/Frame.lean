import Rulewright.Proofs.Chain.Setup
import Rulewright.Proofs.Matching.Bindings

/-!
# What chains leave alone

The matcher of a pattern at a trail binds trails strictly below its own. Whatever is bound elsewhere
is still bound to the same terms when the matcher has been passed.

* `Stmt.BindsAll`: all definitions of a sequence are of trails with a property.
* `Chain.Binds.frame`: what is bound elsewhere stays.
* `patternChain_binds`: the chain of a pattern binds below its trail.
-/

namespace Rulewright

/-- A definition is of a trail with the property. -/
def Line.Binds (P : Trail → Prop) : Line → Prop
  | .definition target _ _ => P target
  | _ => True

namespace Stmt

variable {ι : Type} {P Q : Trail → Prop}

mutual

/-- All definitions of the statement are of trails with the property. -/
def Binds (P : Trail → Prop) : Stmt ι → Prop
  | .line _ x _ _ => x.Binds P
  | .branch _ _ t e es => BindsAll P t ∧ BindsAll P e ∧ BindsAll P es

def BindsAll (P : Trail → Prop) : List (Stmt ι) → Prop
  | [] => True
  | s :: rest => s.Binds P ∧ BindsAll P rest

end

theorem bindsAll_iff {ts : List (Stmt ι)} : BindsAll P ts ↔ ∀ s ∈ ts, s.Binds P := by
  induction ts with
  | nil => simp [BindsAll]
  | cons s rest ih => rw [BindsAll, ih, List.forall_mem_cons]

theorem binds_mono_all (hPQ : ∀ t, P t → Q t) :
    (∀ s : Stmt ι, s.Binds P → s.Binds Q) ∧
    ∀ ts : List (Stmt ι), BindsAll P ts → BindsAll Q ts := by
  apply Stmt.induct
  case line =>
    intro id x comment off h
    cases x with
    | definition target binding declares => exact hPQ target h
    | _ => trivial
  case branch =>
    intro id guard t e es ht he hes h
    exact ⟨ht h.1, he h.2.1, hes h.2.2⟩
  case nil => exact fun h => h
  case cons => exact fun s rest hs hrest h => ⟨hs h.1, hrest h.2⟩

variable (l : Language) (free : String → Bool)

/-- A run leaves the trails alone that are not defined. -/
theorem exec_frame_all {t' : Trail} (ht : ¬ P t') :
    (∀ s : Stmt ι, s.Binds P → ∀ p, (exec l free s p).2.bindings.get? t' = p.bindings.get? t') ∧
    (∀ ts : List (Stmt ι), BindsAll P ts →
      ∀ p, (execAll l free ts p).2.bindings.get? t' = p.bindings.get? t') ∧
    ∀ es : List (Stmt ι), BindsAll P es →
      ∀ p r, execElseIfs l free es p = some r → r.2.bindings.get? t' = p.bindings.get? t' := by
  apply run_induct
  case line =>
    intro id x comment off h p
    rw [exec]
    split_ifs
    · rfl
    · cases x with
      | definition target binding declares =>
        have hne : target ≠ t' := fun heq => ht (heq ▸ h)
        exact Bindings.get?_assign_of_ne binding hne
      | custom text =>
        rw [Line.exec]
        split_ifs <;> rfl
      | _ => rfl
  case branch =>
    intro id guard t e es iht ihe ihes h p
    obtain ⟨hthen, helse, helseIfs⟩ := h
    rw [exec]
    split_ifs
    · exact iht hthen p
    · cases hes : execElseIfs l free es p with
      | some r => exact ihes helseIfs p r hes
      | none => exact ihe helse p
  case nil => exact fun _ p => rfl
  case cons =>
    intro s rest ihs ihrest h p
    have hs := ihs h.1 p
    rw [execAll]
    rcases hexec : exec l free s p with ⟨_ | value, q⟩
    · rw [hexec] at hs
      exact (ihrest h.2 q).trans hs
    · rw [hexec] at hs
      exact hs
  case choiceNil =>
    intro _ p r hr
    cases hr
  case choiceLine =>
    intro id x comment off rest ihrest h p r hr
    rw [execElseIfs] at hr
    exact ihrest h.2 p r hr
  case choiceBranch =>
    intro id guard t e es rest iht ihrest h p r hr
    rw [execElseIfs] at hr
    split_ifs at hr
    · cases hr
      exact iht h.1.1 p
    · exact ihrest h.2 p r hr

theorem settle_frame {ts : List (Stmt ι)} (h : BindsAll P ts) {t' : Trail} (ht : ¬ P t')
    (b : Bindings) : (settle l free ts b).get? t' = b.get? t' :=
  (exec_frame_all l free ht).2.1 ts h ⟨[], b⟩

end Stmt

open Stmt

/-- All definitions of the chain are of trails with the property. -/
def Chain.Binds (P : Trail → Prop) (k : Chain Unit) : Prop := ∀ s ∈ k.lines, s.Binds P

theorem Chain.Binds.mono {P Q : Trail → Prop} {k : Chain Unit} (h : k.Binds P)
    (hPQ : ∀ t, P t → Q t) : k.Binds Q :=
  fun s hs => (binds_mono_all hPQ).1 s (h s hs)

/-- **What is bound elsewhere** is bound to the same term when the chain has been passed. -/
theorem Chain.Binds.frame {P : Trail → Prop} {k : Chain Unit} (h : k.Binds P) {l : Language}
    {free : String → Bool} {b b' : Bindings} (hp : k.pass l free b = some b') {t' : Trail}
    (ht : ¬ P t') : b'.get? t' = b.get? t' := by
  induction k generalizing b with
  | hole before mark after =>
    cases hp
    exact settle_frame l free (bindsAll_iff.2 h) ht b
  | under before check guard inner otherwise after ih =>
    obtain ⟨hbefore, hinner⟩ := List.forall_mem_append.1 h
    rw [pass] at hp
    split_ifs at hp
    exact (ih hinner hp).trans (settle_frame l free (bindsAll_iff.2 hbefore) ht b)

namespace Matcher

variable {o : Options} {l : Language} {t : Trail}

/-- The operands of a node are bound where it is introduced, and nothing else is. -/
theorem Setup.binds {s : Stmt Unit} (h : Setup t s) : s.Binds fun t' => ∃ i, t' = t.child i := by
  have both : ∀ i j β γ,
      BindsAll (fun t' => ∃ i, t' = t.child i) (assignments (t.child i, β) (t.child j, γ)) :=
    fun i j _ _ => ⟨trivial, ⟨i, rfl⟩, ⟨j, rfl⟩, trivial⟩
  cases h with
  | operand i => exact ⟨i, rfl⟩
  | choice => exact ⟨both _ _ _ _, both _ _ _ _, trivial⟩
  | choiceOfThree =>
    exact ⟨both _ _ _ _, both _ _ _ _, ⟨both _ _ _ _, ⟨trivial, trivial⟩, trivial⟩, trivial⟩
  | _ => trivial

theorem entry_binds {shape : Shape} {operands : List Expr} {groups : Groups} {e : Entry}
    {skipped : Option Nat} (h : entry o l shape t operands groups = some (e, skipped)) :
    e.1.Binds fun t' => ∃ i, t' = t.child i :=
  fun _ hs => (setup_entry h hs).binds

theorem below_of_child (t' : Trail) (h : ∃ i, t' = t.child i) : t.Below t' := by
  obtain ⟨i, rfl⟩ := h
  exact t.below_child i

/-- **The chain of a pattern** binds trails below its own. -/
theorem patternChain_binds {e : Expr} {groups groups' : Groups} {k : Chain Unit}
    (h : patternChain o l e t groups = some (some k, groups')) : k.Binds t.Below :=
  patternChain_lines (P := fun t s => s.Binds t.Below) hereditary_true (fun _ => trivial)
    ((binds_mono_all fun _ => Trail.Below.of_child).1 _)
    (fun _ he => (entry_binds he).mono below_of_child) trivial h

end Matcher

end Rulewright
