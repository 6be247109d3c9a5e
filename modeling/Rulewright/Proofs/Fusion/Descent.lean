import Mathlib.Data.List.Forall2
import Rulewright.Proofs.Fusion.Soundness

/-!
# The way down a tree

When a matcher is fused into a tree, it goes down from last branch to last branch. It enters the
`then` body of a branch that makes its own next check, and loses the check, or of a branch with a
more specific guard; it enters the `else` body of any other branch. What is left of it at the end is
put there, if there is a branch in it.

* `descend`: the way of a matcher down a tree, and what is left of it.
* `pathsAll_fuse`: a fused tree consists of the first one and of what is left of the second one.
* `pathsAll_left`: what is left was under guards that have equal ones on the way.
* `absorbed`: a matcher of which no branch is left has met a guard equal to each of its checks.
-/

namespace Rulewright.Stmt

variable {ι κ : Type} {l : Language} {mine other : List (Stmt ι)}

/-- The branches on a way down, with `true` for their `then` bodies, and what is left of a matcher
then. -/
structure Descent (ι : Type) where
  way : List (Guard × Bool)
  left : List (Stmt ι)

namespace Descent

/-- The descent with one more branch before it. -/
def under (d : Descent ι) (guard : Guard) (body : Bool) : Descent ι :=
  ⟨(guard, body) :: d.way, d.left⟩

/-- What is put at the end of the way. -/
def kept (d : Descent ι) : List (Stmt ι) := if (lastFork? d.left).isSome then d.left else []

/-- The guards whose `then` bodies are entered. -/
def passed (d : Descent ι) : List Guard := (d.way.filter (·.2)).map (·.1)

def map (f : ι → κ) (d : Descent ι) : Descent κ := ⟨d.way, mapAll f d.left⟩

theorem passed_then (d : Descent ι) (guard : Guard) :
    (d.under guard true).passed = guard :: d.passed := rfl

theorem passed_else (d : Descent ι) (guard : Guard) : (d.under guard false).passed = d.passed := rfl

end Descent

/-- How a matcher goes down a tree that it is fused into. -/
def descend (l : Language) (mine other : List (Stmt ι)) : Descent ι :=
  match _hm : lastFork? mine, lastFork? other with
  | some f, some g =>
    if f.guard.equals g.guard then (descend l f.thenBody g.thenBody).under f.guard true
    else if f.guard.moreSpecificThan l g.guard then (descend l f.thenBody g.rest).under f.guard true
    else (descend l f.elseBody other).under f.guard false
  | _, _ => ⟨[], other⟩
termination_by countAll mine
decreasing_by all_goals have := countAll_bodies_lt _hm; omega

theorem descend_of_none (ho : lastFork? other = none) : descend l mine other = ⟨[], other⟩ := by
  rw [descend]
  split
  · rename_i g hg
    rw [ho] at hg
    cases hg
  · rfl

theorem descend_of_leaf (hm : lastFork? mine = none) : descend l mine other = ⟨[], other⟩ := by
  rw [descend, hm]

theorem descend_of_forks {f g : Fork ι} (hm : lastFork? mine = some f)
    (ho : lastFork? other = some g) :
    descend l mine other =
      if f.guard.equals g.guard then (descend l f.thenBody g.thenBody).under f.guard true
      else if f.guard.moreSpecificThan l g.guard then
          (descend l f.thenBody g.rest).under f.guard true
        else (descend l f.elseBody other).under f.guard false := by
  rw [descend, hm, ho]

section Steps

variable {f g : Fork ι} (hm : lastFork? mine = some f) (ho : lastFork? other = some g)

include hm ho

theorem descend_share (h : f.guard.equals g.guard = true) :
    descend l mine other = (descend l f.thenBody g.thenBody).under f.guard true := by
  rw [descend_of_forks hm ho, if_pos h]

theorem descend_specific (h : ¬ f.guard.equals g.guard = true)
    (h' : f.guard.moreSpecificThan l g.guard = true) :
    descend l mine other = (descend l f.thenBody g.rest).under f.guard true := by
  rw [descend_of_forks hm ho, if_neg h, if_pos h']

theorem descend_otherwise (h : ¬ f.guard.equals g.guard = true)
    (h' : ¬ f.guard.moreSpecificThan l g.guard = true) :
    descend l mine other = (descend l f.elseBody other).under f.guard false := by
  rw [descend_of_forks hm ho, if_neg h, if_neg h']

end Steps

/-! ### Labels -/

theorem Fork.map_code (h : ι → κ) (f : Fork ι) : mapAll h f.code = (f.map h).code := by
  rw [code, code, mapAll_eq_map, List.map_append, ← mapAll_eq_map, ← mapAll_eq_map]
  rfl

/-- Fusing and going down do not look at labels. -/
theorem fuse_map (l : Language) (h : ι → κ) (mine other : List (Stmt ι)) :
    fuse l (mapAll h mine) (mapAll h other) = mapAll h (fuse l mine other) ∧
      descend l (mapAll h mine) (mapAll h other) = (descend l mine other).map h := by
  have fork : ∀ {ts : List (Stmt ι)} {f : Fork ι}, lastFork? ts = some f →
      lastFork? (mapAll h ts) = some (f.map h) := by
    intro ts f hf
    rw [lastFork?_map, hf]
    rfl
  have leaf : ∀ {ts : List (Stmt ι)}, lastFork? ts = none → lastFork? (mapAll h ts) = none := by
    intro ts hts
    rw [lastFork?_map, hts]
    rfl
  induction mine, other using fuse_induct l with
  | none mine other ho => rw [fuse_of_none ho, fuse_of_none (leaf ho), descend_of_none ho,
      descend_of_none (leaf ho)]; exact ⟨rfl, rfl⟩
  | leaf mine other g hm ho =>
    rw [fuse_of_leaf hm ho, fuse_of_leaf (leaf hm) (fork ho), descend_of_leaf hm,
      descend_of_leaf (leaf hm), mapAll_eq_map, mapAll_eq_map, mapAll_eq_map, List.map_append]
    exact ⟨rfl, by rw [Descent.map, mapAll_eq_map]⟩
  | share mine other f g hm ho heq ih =>
    rw [fuse_share hm ho heq, fuse_share (fork hm) (fork ho) heq, descend_share hm ho heq,
      descend_share (fork hm) (fork ho) heq, Fork.map_code]
    exact ⟨by rw [Fork.map, Fork.map, Fork.map, ih.1], by rw [Fork.map, Fork.map, ih.2]; rfl⟩
  | specific mine other f g hm ho heq hspec ih =>
    rw [fuse_specific hm ho heq hspec, fuse_specific (fork hm) (fork ho) heq hspec,
      descend_specific hm ho heq hspec, descend_specific (fork hm) (fork ho) heq hspec,
      Fork.map_code]
    have hrest : (g.map h).rest = mapAll h g.rest := rfl
    exact ⟨by rw [hrest, Fork.map, Fork.map, ih.1], by rw [hrest, Fork.map, ih.2]; rfl⟩
  | otherwise mine other f g hm ho heq hspec ih =>
    rw [fuse_otherwise hm ho heq hspec, fuse_otherwise (fork hm) (fork ho) heq hspec,
      descend_otherwise hm ho heq hspec, descend_otherwise (fork hm) (fork ho) heq hspec,
      Fork.map_code]
    exact ⟨by rw [Fork.map, Fork.map, ih.1], by rw [Fork.map, ih.2]; rfl⟩

/-! ### What a fused tree consists of -/

/-- A line, reached under some guards, reached under one more. -/
def onWay (guards : List Guard) (p : List Guard × Stmt ι) : List Guard × Stmt ι :=
  (guards ++ p.1, p.2)

mutual

/-- The lines of a statement and of its bodies, each with the guards that it is under. -/
def paths : Stmt ι → List (List Guard × Stmt ι)
  | .line id x comment off => [([], .line id x comment off)]
  | .branch _ guard t e es => (pathsAll t).map (onWay [guard]) ++ (pathsAll e ++ pathsAll es)

def pathsAll : List (Stmt ι) → List (List Guard × Stmt ι)
  | [] => []
  | s :: rest => s.paths ++ pathsAll rest

end

theorem pathsAll_append (xs ys : List (Stmt ι)) :
    pathsAll (xs ++ ys) = pathsAll xs ++ pathsAll ys := by
  induction xs with
  | nil => rfl
  | cons s rest ih => rw [List.cons_append, pathsAll, pathsAll, ih, List.append_assoc]

namespace Fork

theorem pathsAll_rest (f : Fork ι) :
    pathsAll f.rest = (pathsAll f.thenBody).map (onWay [f.guard]) ++
      (pathsAll f.elseBody ++ pathsAll f.elseIfs) ++ pathsAll f.after := rfl

theorem pathsAll_code (f : Fork ι) : pathsAll f.code = pathsAll f.before ++ pathsAll f.rest :=
  pathsAll_append _ _

/-- What is added to a body is added to the fork. -/
theorem perm_pathsAll_thenBody {f : Fork ι} {t : List (Stmt ι)} {new : List (List Guard × Stmt ι)}
    (h : (pathsAll t).Perm (pathsAll f.thenBody ++ new)) :
    (pathsAll { f with thenBody := t }.code).Perm
      (pathsAll f.code ++ new.map (onWay [f.guard])) := by
  have hunder := Multiset.coe_eq_coe.2 (h.map (onWay [f.guard]))
  rw [List.map_append] at hunder
  rw [pathsAll_code, pathsAll_code, pathsAll_rest, pathsAll_rest, ← Multiset.coe_eq_coe]
  simp only [← Multiset.coe_add] at hunder ⊢
  rw [hunder]
  abel

theorem perm_pathsAll_elseBody {f : Fork ι} {e : List (Stmt ι)} {new : List (List Guard × Stmt ι)}
    (h : (pathsAll e).Perm (pathsAll f.elseBody ++ new)) :
    (pathsAll { f with elseBody := e }.code).Perm (pathsAll f.code ++ new) := by
  have hunder := Multiset.coe_eq_coe.2 h
  rw [pathsAll_code, pathsAll_code, pathsAll_rest, pathsAll_rest, ← Multiset.coe_eq_coe]
  simp only [← Multiset.coe_add] at hunder ⊢
  rw [hunder]
  abel

end Fork

/-- The lines that a descent puts at its end. -/
def Descent.added (d : Descent ι) : List (List Guard × Stmt ι) :=
  (pathsAll d.kept).map (onWay d.passed)

theorem Descent.added_then (d : Descent ι) (guard : Guard) :
    (d.under guard true).added = d.added.map (onWay [guard]) := by
  rw [added, added, List.map_map]
  rfl

theorem Descent.mem_added {d : Descent ι} {p : List Guard × Stmt ι} :
    p ∈ d.added ↔ (lastFork? d.left).isSome ∧ ∃ q ∈ pathsAll d.left, onWay d.passed q = p := by
  unfold added kept
  split_ifs with h
  · simp only [h, true_and, List.mem_map]
  · simp [h, pathsAll]

/-- **A fused tree** consists of the first one and of what is left of the second one, under the
guards on its way. -/
theorem pathsAll_fuse (l : Language) (mine other : List (Stmt ι)) :
    (pathsAll (fuse l mine other)).Perm (pathsAll mine ++ (descend l mine other).added) := by
  induction mine, other using fuse_induct l with
  | none mine other ho =>
    rw [fuse_of_none ho, descend_of_none ho, Descent.added, Descent.kept, ho]
    simp [pathsAll]
  | leaf mine other g hm ho =>
    have hwhole : (⟨[], other⟩ : Descent ι).added = pathsAll other := by
      rw [Descent.added, Descent.kept, ho]
      exact List.map_id _
    rw [fuse_of_leaf hm ho, descend_of_leaf hm, hwhole, pathsAll_append]
  | share mine other f g hm ho heq ih =>
    rw [fuse_share hm ho heq, descend_share hm ho heq, Descent.added_then]
    have hmine := (lastFork?_eq_some hm).1
    rw [hmine]
    exact Fork.perm_pathsAll_thenBody ih
  | specific mine other f g hm ho heq hspec ih =>
    rw [fuse_specific hm ho heq hspec, descend_specific hm ho heq hspec, Descent.added_then]
    have hmine := (lastFork?_eq_some hm).1
    rw [hmine]
    exact Fork.perm_pathsAll_thenBody ih
  | otherwise mine other f g hm ho heq hspec ih =>
    rw [fuse_otherwise hm ho heq hspec, descend_otherwise hm ho heq hspec]
    have hmine := (lastFork?_eq_some hm).1
    rw [hmine]
    exact Fork.perm_pathsAll_elseBody ih

/-- **What is left of a matcher** was under more guards before, and for each of them there is an
equal one on the way. -/
theorem pathsAll_left (l : Language) (mine other : List (Stmt ι)) {p : List Guard × Stmt ι}
    (h : p ∈ pathsAll (descend l mine other).left) :
    ∃ lost, onWay lost p ∈ pathsAll other ∧
      List.SublistForall₂ (fun check guard => guard.equals check = true) lost
        (descend l mine other).passed := by
  induction mine, other using fuse_induct l with
  | none mine other ho =>
    rw [descend_of_none ho] at h
    exact ⟨[], h, .nil⟩
  | leaf mine other g hm ho =>
    rw [descend_of_leaf hm] at h
    exact ⟨[], h, .nil⟩
  | share mine other f g hm ho heq ih =>
    rw [descend_share hm ho heq] at h ⊢
    obtain ⟨lost, hmem, hlost⟩ := ih h
    -- the check is lost, and the guard of the branch that is entered stands for it
    refine ⟨g.guard :: lost, ?_, .cons heq hlost⟩
    have hunder : onWay (g.guard :: lost) p ∈ (pathsAll g.thenBody).map (onWay [g.guard]) :=
      List.mem_map_of_mem hmem
    have hother := (lastFork?_eq_some ho).1
    rw [hother, Fork.pathsAll_code, Fork.pathsAll_rest]
    exact List.mem_append_right _ (List.mem_append_left _ (List.mem_append_left _ hunder))
  | specific mine other f g hm ho heq hspec ih =>
    rw [descend_specific hm ho heq hspec] at h ⊢
    obtain ⟨lost, hmem, hlost⟩ := ih h
    -- nothing is lost at a guard that is more specific
    refine ⟨lost, ?_, .cons_right hlost⟩
    have hother := (lastFork?_eq_some ho).1
    rw [hother, Fork.pathsAll_code]
    exact List.mem_append_right _ hmem
  | otherwise mine other f g hm ho heq hspec ih =>
    rw [descend_otherwise hm ho heq hspec] at h ⊢
    exact ih h

/-! ### Checks -/

/-- The checks of a matcher: the guards of its last branches, each one in the `then` body of the one
before. -/
def checks (ts : List (Stmt ι)) : List Guard :=
  match _h : lastFork? ts with
  | some f => f.guard :: checks f.thenBody
  | none => []
termination_by countAll ts
decreasing_by exact (countAll_bodies_lt _h).1

theorem checks_of_fork {ts : List (Stmt ι)} {f : Fork ι} (h : lastFork? ts = some f) :
    checks ts = f.guard :: checks f.thenBody := by
  rw [checks, h]

theorem checks_of_leaf {ts : List (Stmt ι)} (h : lastFork? ts = none) : checks ts = [] := by
  rw [checks, h]

theorem checks_map (h : ι → κ) (ts : List (Stmt ι)) : checks (mapAll h ts) = checks ts := by
  fun_induction checks ts with
  | case1 ts f hf ih =>
    have hfork : lastFork? (mapAll h ts) = some (f.map h) := by rw [lastFork?_map, hf]; rfl
    rw [checks_of_fork hfork]
    exact congrArg (f.guard :: ·) ih
  | case2 ts hf => exact checks_of_leaf (by rw [lastFork?_map, hf]; rfl)

/-- **A matcher of which no branch is left** has met a guard equal to each of its checks on the way,
in their order. -/
theorem absorbed (l : Language) (mine other : List (Stmt ι))
    (h : lastFork? (descend l mine other).left = none) :
    List.SublistForall₂ (fun check guard => guard.equals check = true) (checks other)
      (descend l mine other).passed := by
  induction mine, other using fuse_induct l with
  | none mine other ho => rw [checks_of_leaf ho]; exact .nil
  | leaf mine other g hm ho =>
    rw [descend_of_leaf hm, ho] at h
    cases h
  | share mine other f g hm ho heq ih =>
    rw [descend_share hm ho heq] at h ⊢
    rw [checks_of_fork ho, Descent.passed_then]
    exact .cons heq (ih h)
  | specific mine other f g hm ho heq hspec ih =>
    rw [descend_specific hm ho heq hspec] at h ⊢
    rw [checks_of_fork ho, Descent.passed_then]
    have hrest := ih h
    rw [checks_of_fork (lastFork?_rest ho)] at hrest
    exact .cons_right hrest
  | otherwise mine other f g hm ho heq hspec ih =>
    rw [descend_otherwise hm ho heq hspec] at h ⊢
    rw [Descent.passed_else]
    exact ih h

end Rulewright.Stmt
