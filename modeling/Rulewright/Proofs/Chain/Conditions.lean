import Mathlib.Data.List.Forall2
import Rulewright.Matcher.Rule

/-!
# The conditions of a rule

The conditions of a rule are written one after the other, and the global one last. They can all be
written if and only if each of them can, and the first that cannot gives the error of the whole.

* `mapM_eq_ok_iff`, `exists_of_mapM_error`: what is done for each member of a list, with its results
  and its failure.
* `Matcher.exists_of_conditionCodes_ok`, `Matcher.exists_of_conditionCodes_error`: the same for the
  conditions of a rule.
-/

namespace Rulewright

section Fallible

variable {ε α β : Type} {f : α → Except ε β} {xs : List α}

theorem bind_eq_ok_iff {x : Except ε α} {b : β} :
    (x >>= f) = .ok b ↔ ∃ a, x = .ok a ∧ f a = .ok b := by
  cases x with
  | error e =>
    constructor
    · intro h
      cases h
    · rintro ⟨a, ha, -⟩
      cases ha
  | ok a =>
    refine ⟨fun h => ⟨a, rfl, h⟩, ?_⟩
    rintro ⟨a', ha, h⟩
    cases ha
    exact h

theorem mapM_eq_ok_iff {ys : List β} :
    xs.mapM f = .ok ys ↔ List.Forall₂ (fun x y => f x = .ok y) xs ys := by
  induction xs generalizing ys with
  | nil =>
    rw [List.forall₂_nil_left_iff, List.mapM_nil]
    exact ⟨fun h => (Except.ok.inj h).symm, fun h => h ▸ rfl⟩
  | cons x xs ih =>
    rw [List.mapM_cons, bind_eq_ok_iff, List.forall₂_cons_left_iff]
    simp only [bind_eq_ok_iff, ih]
    constructor
    · rintro ⟨y, hy, ys', hys, h⟩
      exact ⟨y, ys', hy, hys, (Except.ok.inj h).symm⟩
    · rintro ⟨y, ys', hy, hys, rfl⟩
      exact ⟨y, hy, ys', hys, rfl⟩

/-- All members come back if and only if each of them does. -/
theorem mapM_map_eq_ok_iff {g : β → α} {xs : List β} :
    (xs.map g).mapM f = .ok xs ↔ ∀ x ∈ xs, f (g x) = .ok x := by
  rw [mapM_eq_ok_iff, List.forall₂_map_left_iff, List.forall₂_same]

theorem exists_of_mapM {ys : List β} (h : xs.mapM f = .ok ys) : ∀ y ∈ ys, ∃ x, f x = .ok y := by
  have hall := mapM_eq_ok_iff.1 h
  clear h
  induction hall with
  | nil => exact fun y hy => absurd hy List.not_mem_nil
  | cons hxy _ ih =>
    intro y hy
    rcases List.mem_cons.1 hy with rfl | hy
    · exact ⟨_, hxy⟩
    · exact ih y hy

/-- All members have results if and only if each of them does. -/
theorem exists_mapM_eq_ok_iff : (∃ ys, xs.mapM f = .ok ys) ↔ ∀ x ∈ xs, ∃ y, f x = .ok y := by
  simp only [mapM_eq_ok_iff]
  induction xs with
  | nil => exact ⟨fun _ x hx => absurd hx List.not_mem_nil, fun _ => ⟨[], .nil⟩⟩
  | cons x xs ih =>
    rw [List.forall_mem_cons, ← ih]
    constructor
    · rintro ⟨ys, hys⟩
      obtain ⟨y, ys', hy, hys', -⟩ := List.forall₂_cons_left_iff.1 hys
      exact ⟨⟨y, hy⟩, ys', hys'⟩
    · rintro ⟨⟨y, hy⟩, ys, hys⟩
      exact ⟨y :: ys, .cons hy hys⟩

theorem exists_of_mapM_error {e : ε} (h : xs.mapM f = .error e) : ∃ x ∈ xs, f x = .error e := by
  induction xs with
  | nil => cases h
  | cons x xs ih =>
    rw [List.mapM_cons] at h
    cases hx : f x with
    | error e' =>
      rw [hx] at h
      cases h
      exact ⟨x, List.mem_cons_self, hx⟩
    | ok y =>
      cases hxs : xs.mapM f with
      | error e' =>
        rw [hx, hxs] at h
        cases h
        obtain ⟨x', hx', hfails⟩ := ih hxs
        exact ⟨x', List.mem_cons_of_mem _ hx', hfails⟩
      | ok ys =>
        rw [hx, hxs] at h
        cases h

theorem exists_eq_error_iff {x : Except ε α} : (∃ e, x = .error e) ↔ ¬ ∃ a, x = .ok a := by
  cases x <;> simp

theorem exists_mapM_eq_error_iff : (∃ e, xs.mapM f = .error e) ↔ ∃ x ∈ xs, ∃ e, f x = .error e := by
  rw [exists_eq_error_iff, exists_mapM_eq_ok_iff]
  simp only [not_forall, exists_prop, exists_eq_error_iff]

end Fallible

namespace Matcher

variable {s : Scope} {r : Rule}

/-- The text of the global condition, if there is one. -/
def globalCode (r : Rule) : List String :=
  if r.global.isNoCheck then []
  else ["conditions::" ++ r.global.text ++ "(&" ++ Trail.rootMark ++ ")"]

/-- The texts of conditions are those of the single ones, in order, and the global one. -/
theorem exists_of_conditionCodes_ok {texts : List String} (h : conditionCodes s r = .ok texts) :
    ∃ codes, List.Forall₂ (fun k code => conditionCode s k = .ok code) r.conditions codes ∧
      texts = codes.filterMap id ++ globalCode r := by
  obtain ⟨codes, hcodes, h⟩ := bind_eq_ok_iff.1 h
  exact ⟨codes, mapM_eq_ok_iff.1 hcodes, (Except.ok.inj h).symm⟩

/-- Conditions cannot be written if one of them cannot. -/
theorem exists_of_conditionCodes_error {error : CompileError}
    (h : conditionCodes s r = .error error) :
    ∃ k ∈ r.conditions, conditionCode s k = .error error := by
  cases hks : r.conditions.mapM (conditionCode s) with
  | error e =>
    rw [conditionCodes, hks] at h
    cases h
    exact exists_of_mapM_error hks
  | ok codes =>
    rw [conditionCodes, hks] at h
    cases h

end Matcher

end Rulewright
