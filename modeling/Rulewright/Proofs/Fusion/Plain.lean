import Rulewright.Proofs.Chain.Rule
import Rulewright.Proofs.Chain.Setup
import Rulewright.Proofs.Fusion.Soundness

/-!
# Matchers without optional operands

Where a pattern has no optional operand, its chain has single lines between its branches, and they
bind operands only. The matcher of such a rule is a way down through branches to one return.

* `patternChain_plain`: the chain of a pattern without optional operands.
* `sole_ruleCode`: the matcher of a rule.
-/

namespace Rulewright

namespace Expr

mutual

/-- An optional operand occurs in the term. -/
def hasOptional : Expr → Bool
  | .metavar _ | .var _ | .literal _ => false
  | .app _ operands | .anyway _ operands => hasOptionalAny operands
  | .compound inner => inner.hasOptional
  | .optional _ _ => true

def hasOptionalAny : List Expr → Bool
  | [] => false
  | e :: rest => e.hasOptional || hasOptionalAny rest

end

theorem hasOptional_unwrap (e : Expr) : e.unwrap.hasOptional = e.hasOptional := by
  induction e using Expr.unwrap.induct with
  | case1 inner ih => rw [unwrap, ih, hasOptional]
  | case2 e h => cases e <;> first | rfl | exact absurd rfl (h _)

theorem hasOptionalAny_eq_false_iff {es : List Expr} :
    hasOptionalAny es = false ↔ ∀ e ∈ es, e.hasOptional = false := by
  induction es with
  | nil => simp [hasOptionalAny]
  | cons e rest ih => rw [hasOptionalAny, Bool.or_eq_false_iff, ih, List.forall_mem_cons]

end Expr

open Rulewright.Expr in
theorem Matcher.optionalOperand?_eq_none {operands : List Expr}
    (h : hasOptionalAny operands = false) : optionalOperand? operands = none := by
  unfold optionalOperand?
  split
  · rename_i a b
    simp only [hasOptionalAny, Bool.or_eq_false_iff] at h
    have ha := (hasOptional_unwrap a).trans h.1
    have hb := (hasOptional_unwrap b).trans h.2.1
    cases hu : a.unwrap with
    | optional pattern default => rw [hu] at ha; cases ha
    | _ =>
      cases hv : b.unwrap with
      | optional pattern default => rw [hv] at hb; cases hb
      | _ => rfl
  · rfl

namespace Stmt

variable {ι : Type} {ts : List (Stmt ι)}

/-- The statements are single lines that bind operands only. -/
def PlainLines (ts : List (Stmt ι)) : Prop :=
  ∀ s ∈ ts, s.isBranch = false ∧ s.isQuiet = true ∧ s.isStructural = true

theorem PlainLines.append {xs ys : List (Stmt ι)} (hx : PlainLines xs) (hy : PlainLines ys) :
    PlainLines (xs ++ ys) :=
  fun s hs => (List.mem_append.1 hs).elim (hx s) (hy s)

theorem plainLines_cons {s : Stmt ι}
    (hs : s.isBranch = false ∧ s.isQuiet = true ∧ s.isStructural = true) (h : PlainLines ts) :
    PlainLines (s :: ts) :=
  fun s' hs' => (List.mem_cons.1 hs').elim (fun heq => heq ▸ hs) (h s')

theorem plainLines_nil : PlainLines ([] : List (Stmt ι)) := fun _ hs => by cases hs

theorem plainLines_noop (id : ι) : PlainLines [noop id] :=
  plainLines_cons ⟨rfl, rfl, rfl⟩ plainLines_nil

theorem plainLines_placeholders (ids : List ι) : PlainLines (ids.map placeholder) := fun s hs => by
  obtain ⟨id, -, rfl⟩ := List.mem_map.1 hs
  exact ⟨rfl, rfl, rfl⟩

theorem PlainLines.calm (h : PlainLines ts) : PlainLines (calmAll ts) := by
  induction ts with
  | nil => exact plainLines_nil
  | cons s rest ih =>
    refine plainLines_cons ?_ (ih fun s' hs' => h s' (List.mem_cons_of_mem _ hs'))
    have hs := h s List.mem_cons_self
    cases s with
    | line id x comment off => cases x <;> exact hs
    | branch id guard t e es => cases hs.1

theorem PlainLines.isStructuralAll (h : PlainLines ts) : Stmt.isStructuralAll ts = true := by
  induction ts with
  | nil => rfl
  | cons s rest ih =>
    rw [Stmt.isStructuralAll, (h s List.mem_cons_self).2.2,
      ih fun s' hs' => h s' (List.mem_cons_of_mem _ hs')]
    rfl

theorem PlainLines.playAll (h : PlainLines ts) (l : Language) (free : String → Bool)
    (b : Bindings) : Stmt.playAll l free b ts = (none, []) := by
  induction ts with
  | nil => rfl
  | cons s rest ih =>
    have hs : play l free b s = (none, []) := by
      have hs := h s List.mem_cons_self
      cases s with
      | branch id guard t e es => cases hs.1
      | line id x comment off =>
        cases off with
        | true => rfl
        | false =>
          have hq : x.isQuiet = true := by simpa [isQuiet] using hs.2.1
          cases x with
          | ret value => cases hq
          | custom text =>
            simp only [play, Line.play, show Code.isCommentLine text = true from hq, if_true]; rfl
          | _ => rfl
    rw [Stmt.playAll, hs, ih fun s' hs' => h s' (List.mem_cons_of_mem _ hs')]
    rfl

end Stmt

namespace Chain

open Stmt

variable {ι : Type} {k : Chain ι}

/-- There are single lines between the branches, and they bind operands only. -/
def Plain : Chain ι → Prop
  | .hole before _ _ => PlainLines before
  | .under before _ _ inner _ _ => PlainLines before ∧ inner.Plain

theorem plain_iff_lines : k.Plain ↔ PlainLines k.lines := by
  induction k with
  | hole before mark after => exact Iff.rfl
  | under before check guard inner otherwise after ih =>
    exact (and_congr_right fun _ => ih).trans List.forall_mem_append.symm

end Chain

namespace Matcher

open Stmt Chain Rulewright.Expr

variable {o : Options} {l : Language} {t : Trail} {s : Stmt Unit}

theorem hereditary_optional : Hereditary fun e => e.hasOptional = false :=
  ⟨hasOptionalAny_eq_false_iff.1, hasOptionalAny_eq_false_iff.1, fun h => h⟩

theorem entry_plain {shape : Shape} {operands : List Expr} {groups : Groups} {e : Entry}
    {skipped : Option Nat} (hopt : ∀ e ∈ operands, e.hasOptional = false)
    (h : entry o l shape t operands groups = some (e, skipped)) :
    e =
      plainEntry o t (shape.guard l t operands.length) (shape.pending? groups) operands.length :=
  eq_plainEntry h (optionalOperand?_eq_none (hasOptionalAny_eq_false_iff.2 hopt))

/-- The statements of the chain of a pattern introduce operands one by one, if none is optional. -/
theorem patternChain_plainSetup {e : Expr} {groups groups' : Groups} {k : Chain Unit}
    (hopt : e.hasOptional = false) (h : patternChain o l e t groups = some (some k, groups')) :
    ∀ s ∈ k.lines, ∃ t', PlainSetup t' s :=
  patternChain_lines (P := fun _ s => ∃ t', PlainSetup t' s) hereditary_optional
    (fun t => ⟨t, .noop⟩) (fun h => h)
    (fun hopt he _ hs => ⟨_, plainSetup_plainEntry (entry_plain hopt he ▸ hs)⟩) hopt h

theorem PlainSetup.plain (h : PlainSetup t s) :
    s.isBranch = false ∧ s.isQuiet = true ∧ s.isStructural = true := by
  cases h with
  | noop => exact ⟨rfl, rfl, rfl⟩
  | implied guard => exact ⟨rfl, isCommentLine_implied guard, rfl⟩
  | operand i => exact ⟨rfl, rfl, by simp [fresh, isStructural, Line.isStructural]⟩

/-- **Chains of patterns without optional operands** have single lines between their branches. -/
theorem patternChain_plain {e : Expr} {groups groups' : Groups} {k : Chain Unit}
    (hopt : e.hasOptional = false) (h : patternChain o l e t groups = some (some k, groups')) :
    k.Plain :=
  plain_iff_lines.2 fun s hs => (patternChain_plainSetup hopt h s hs).elim fun _ hs => hs.plain

end Matcher

namespace Stmt

variable {ι : Type} {l : Language} {free : String → Bool} {b : Bindings} {ts : List (Stmt ι)}

/-- Single lines behind a sequence, with nothing to win. -/
structure Tail (l : Language) (free : String → Bool) (b : Bindings) (ts : List (Stmt ι)) :
    Prop where
  lines : ∀ s ∈ ts, s.isBranch = false
  silent : Silent l free b ts
  lost : Lost l free b ts

theorem PlainLines.tail (h : PlainLines ts) : Tail l free b ts where
  lines s hs := (h s hs).1
  silent _ := by rw [h.playAll]
  lost := by rw [Lost, h.playAll]; simp

theorem tail_return (id : ι) : Tail l free b [fresh id (.ret false)] where
  lines s hs := by rw [List.mem_singleton.1 hs]; rfl
  silent h := by cases h
  lost := by simp [Lost, playAll, play, fresh, Line.play, andThen]

theorem PlainLines.late (h : PlainLines ts) : Late l free b ts :=
  .leaf (lastFork?_eq_none.2 fun s hs => (h s hs).1) h.tail.silent

theorem sole_branch {xs ys t e : List (Stmt ι)} {check : ι} {guard : Guard} (hx : PlainLines xs)
    (ht : Sole l free b t) (he : PlainLines e) (hy : Tail l free b ys) :
    Sole l free b (xs ++ .branch check guard t e [] :: ys) := by
  have hfork := lastFork?_code (f := ⟨xs, check, guard, t, e, [], ys⟩) hy.lines
  exact .fork hfork (hx.playAll l free b) hy.lost ht he.late

theorem Sole.surround {xs ys : List (Stmt ι)} (h : Sole l free b ts) (hx : PlainLines xs)
    (hy : Tail l free b ys) : Sole l free b (xs ++ (ts ++ ys)) := by
  cases h with
  | leaf h silent =>
    refine .leaf (lastFork?_eq_none.2 fun s hs => ?_) fun hnone => ?_
    · rcases List.mem_append.1 hs with hs | hs
      · exact (hx s hs).1
      · exact (List.mem_append.1 hs).elim (lastFork?_eq_none.1 h s) (hy.lines s)
    · rw [playAll_append, playAll_append, hx.playAll, andThen_none] at hnone ⊢
      rcases hp : playAll l free b ts with ⟨_ | value, fired⟩
      · obtain rfl : fired = [] := by simpa [hp] using silent (by rw [hp])
        rw [hp] at hnone
        exact hy.silent hnone
      · rw [hp] at hnone
        cases hnone
  | @fork _ f h before after thenBody elseBody =>
    obtain ⟨rfl, hlines⟩ := lastFork?_eq_some h
    -- the last branch stays the last one
    have hcode : xs ++ (f.code ++ ys) =
        Fork.code { f with before := xs ++ f.before, after := f.after ++ ys } := by
      simp only [Fork.code, Fork.rest, List.append_assoc, List.cons_append]
    rw [hcode]
    refine .fork (lastFork?_code fun s hs => (List.mem_append.1 hs).elim (hlines s) (hy.lines s)) ?_
      ?_ thenBody elseBody
    · rw [playAll_append, hx.playAll, before]
      rfl
    · rw [Lost, playAll_append]
      rcases hp : playAll l free b f.after with ⟨_ | value, fired⟩
      · exact hy.lost
      · rw [Lost, hp] at after
        exact after

theorem calmAll_noop (id : ι) : calmAll [noop id] = [noop id] := rfl

/-- A chain leads down to what is at its innermost point. -/
theorem sole_fill {k : Chain ι} (hk : k.Plain) (h : Sole l free b (calmAll ts)) :
    Sole l free b (calmAll (k.fill ts)) := by
  induction k with
  | hole before mark after =>
    rw [Chain.fill, calmAll_append, calmAll_append]
    exact h.surround hk.calm (plainLines_placeholders after).calm.tail
  | under before check guard inner otherwise after ih =>
    rw [Chain.fill, calmAll_append, calmAll, calm, calmAll_noop]
    exact sole_branch hk.1.calm (ih hk.2) (plainLines_noop otherwise)
      (plainLines_placeholders after).calm.tail

theorem isStructural_calm_all :
    (∀ s : Stmt ι, s.calm.isStructural = s.isStructural) ∧
    ∀ ts : List (Stmt ι), isStructuralAll (calmAll ts) = isStructuralAll ts := by
  apply Stmt.induct
  case line =>
    intro id x comment off
    cases x <;> rfl
  case branch =>
    intro id guard t e es ht he hes
    simp only [calm, isStructural, ht, he, hes]
  case nil => rfl
  case cons =>
    intro s rest hs hrest
    simp only [calmAll, isStructuralAll, hs, hrest]

theorem isStructuralAll_fill {k : Chain ι} (hk : k.Plain) (h : isStructuralAll ts = true) :
    isStructuralAll (k.fill ts) = true := by
  induction k with
  | hole before mark after =>
    rw [Chain.fill, isStructuralAll_append, isStructuralAll_append, hk.isStructuralAll, h,
      (plainLines_placeholders after).isStructuralAll]
    rfl
  | under before check guard inner otherwise after ih =>
    rw [Chain.fill, isStructuralAll_append, hk.1.isStructuralAll, isStructuralAll, isStructural,
      ih hk.2, (plainLines_placeholders after).isStructuralAll]
    rfl

end Stmt

namespace Matcher

open Stmt

section Rule

variable {l : Language} {free : String → Bool} {b : Bindings}

theorem sole_underIf (needed : Bool) (guard : Guard) {body : List (Stmt Unit)}
    (h : Sole l free b (calmAll body)) : Sole l free b (calmAll (underIf needed guard body)) := by
  cases needed with
  | false => exact h
  | true => exact sole_branch (plainLines_noop ()) h (plainLines_noop ()) plainLines_nil.tail

theorem isStructuralAll_underIf (needed : Bool) (guard : Guard) {body : List (Stmt Unit)}
    (h : isStructuralAll body = true) : isStructuralAll (underIf needed guard body) = true := by
  cases needed with
  | false => exact h
  | true =>
    simp only [underIf, if_true, underCode, isStructuralAll, isStructural, h]
    rfl

theorem sole_actionBody (r : Rule) (code : String) :
    Sole l free b (calmAll (actionBody r code)) := by
  unfold actionBody replaceStmt
  split_ifs
  · exact .leaf rfl fun h => by cases h
  · refine .leaf rfl fun h => ?_
    simp [calmAll, calm, fresh, noop, Line.calm, playAll, play, Line.play, andThen] at h

theorem isStructuralAll_actionBody (r : Rule) (code : String) :
    isStructuralAll (actionBody r code) = true := by
  unfold actionBody replaceStmt
  split_ifs <;> rfl

/-- **The matcher of a rule without optional operands** leads down through branches to one return,
and binds operands only. -/
theorem sole_ruleCode {o : Options} {foldConstants : Bool} {r : Rule} {code : List (Stmt Unit)}
    (hopt : r.pattern.hasOptional = false) (h : ruleCode o l foldConstants r = some code) :
    Sole l free b code ∧ isStructuralAll code = true := by
  obtain ⟨k, groups, action, hk, ha, rfl⟩ := exists_of_ruleCode h
  have haction : Sole l free b (calmAll action) ∧ isStructuralAll action = true := by
    obtain ⟨texts, code, -, -, rfl⟩ := exists_of_actionCode ha
    exact ⟨sole_underIf _ _ (sole_underIf _ _ (sole_actionBody r code)),
      isStructuralAll_underIf _ _ (isStructuralAll_underIf _ _ (isStructuralAll_actionBody r code))⟩
  have hwith : Sole l free b (calmAll (withAction action k)) ∧
      isStructuralAll (withAction action k) = true := by
    cases k with
    | none =>
      refine ⟨?_, haction.2⟩
      have := haction.1.surround (plainLines_noop ()) plainLines_nil.tail
      rwa [List.append_nil] at this
    | some k =>
      have hplain := patternChain_plain hopt hk
      exact ⟨sole_fill hplain haction.1, isStructuralAll_fill hplain haction.2⟩
  refine ⟨hwith.1.surround plainLines_nil (tail_return ()), ?_⟩
  rw [isStructuralAll_append, isStructural_calm_all.2, hwith.2]
  rfl

end Rule

end Matcher

end Rulewright
