import Rulewright.Proofs.Fusion.Fuse
import Rulewright.Proofs.Fusion.Structural
import Rulewright.Proofs.Guard.Text

/-!
# What fused trees win

A tree wins on a term if it returns `true` there. Where all guards are asked of one term, fusing a
matcher into a tree takes no win away, and gives wins of the matcher only.

* `Late`: behind the last branch of a sequence there is nothing to win.
* `Sole`: the matcher of a single rule, which is a way down through branches.
* `fuse_extends`: what fusing does to the wins of a tree.
* `foldl_fuse_extends`: the same of many matchers one after the other.
-/

namespace Rulewright.Stmt

variable {ι : Type} (l : Language) (free : String → Bool) (b : Bindings) {P : List String → Prop}
  {r : Option Bool × List String} {ts mine : List (Stmt ι)}

/-- The sequence returns `true` after it has fired the texts. -/
def Wins (ts : List (Stmt ι)) (fired : List String) : Prop :=
  playAll l free b ts = (some true, fired)

/-- The sequence fires nothing if it goes on. -/
def Silent (ts : List (Stmt ι)) : Prop :=
  (playAll l free b ts).1 = none → (playAll l free b ts).2 = []

/-- There is nothing to win in the sequence. -/
def Lost (ts : List (Stmt ι)) : Prop := (playAll l free b ts).1 ≠ some true

/-- The branch of a fork. -/
def Fork.branch (f : Fork ι) : Stmt ι := .branch f.check f.guard f.thenBody f.elseBody f.elseIfs

/-- Nothing is won behind the last branch of a sequence and of the bodies on the way down. -/
inductive Late : List (Stmt ι) → Prop where
  | leaf {ts : List (Stmt ι)} (h : lastFork? ts = none) (silent : Silent l free b ts) : Late ts
  | fork {ts : List (Stmt ι)} {f : Fork ι} (h : lastFork? ts = some f)
      (before : Silent l free b f.before) (after : Lost l free b f.after)
      (thenBody : Late f.thenBody) (elseBody : Late f.elseBody) : Late ts

/-- Nothing is done on the way down into the `then` bodies. -/
inductive Sole : List (Stmt ι) → Prop where
  | leaf {ts : List (Stmt ι)} (h : lastFork? ts = none) (silent : Silent l free b ts) : Sole ts
  | fork {ts : List (Stmt ι)} {f : Fork ι} (h : lastFork? ts = some f)
      (before : playAll l free b f.before = (none, [])) (after : Lost l free b f.after)
      (thenBody : Sole f.thenBody) (elseBody : Late l free b f.elseBody) : Sole ts

/-- The second result has all wins of the first one, and otherwise only such with the property. -/
def Extends (P : List String → Prop) (r r' : Option Bool × List String) : Prop :=
  (∀ x, r = (some true, x) → r' = (some true, x)) ∧
  ∀ x, r' = (some true, x) → r = (some true, x) ∨ P x

theorem Extends.refl (P : List String → Prop) (r : Option Bool × List String) : Extends P r r :=
  ⟨fun _ h => h, fun _ h => Or.inl h⟩

theorem Extends.mono {Q : List String → Prop} {r' : Option Bool × List String} (h : Extends P r r')
    (hPQ : ∀ x, P x → Q x) : Extends Q r r' :=
  ⟨h.1, fun x hx => (h.2 x hx).imp_right (hPQ x)⟩

theorem Extends.trans {Q : List String → Prop} {s t : Option Bool × List String} (h : Extends P r s)
    (h' : Extends Q s t) : Extends (fun x => P x ∨ Q x) r t :=
  ⟨fun x hx => h'.1 x (h.1 x hx), fun x hx =>
    (h'.2 x hx).elim (fun hs => (h.2 x hs).imp_right Or.inl) fun hq => Or.inr (Or.inr hq)⟩

variable {l free b}

theorem Sole.late (h : Sole l free b ts) : Late l free b ts := by
  induction h with
  | leaf h silent => exact .leaf h silent
  | fork h before after thenBody elseBody ih =>
    exact .fork h (fun _ => by rw [before]) after ih elseBody

theorem Sole.of_fork {g : Fork ι} (h : Sole l free b ts) (hg : lastFork? ts = some g) :
    playAll l free b g.before = (none, []) ∧ Lost l free b g.after ∧ Sole l free b g.thenBody ∧
    Late l free b g.elseBody := by
  cases h with
  | leaf h silent => rw [h] at hg; cases hg
  | fork h before after thenBody elseBody =>
    rw [h] at hg
    cases hg
    exact ⟨before, after, thenBody, elseBody⟩

theorem lastFork?_rest {g : Fork ι} (hg : lastFork? ts = some g) :
    lastFork? g.rest = some { g with before := [] } :=
  lastFork?_code (f := { g with before := [] }) (lastFork?_eq_some hg).2

theorem Sole.rest {g : Fork ι} (h : Sole l free b ts) (hg : lastFork? ts = some g) :
    Sole l free b g.rest := by
  obtain ⟨-, hafter, hthen, helse⟩ := h.of_fork hg
  exact .fork (lastFork?_rest hg) rfl hafter hthen helse

/-! ### Wins of forks -/

theorem playAll_code (f : Fork ι) :
    playAll l free b f.code =
      andThen (playAll l free b f.before)
        (andThen (play l free b f.branch) (playAll l free b f.after)) := by
  rw [Fork.code, Fork.rest, playAll_append, playAll]
  rfl

theorem andThen_eq_win {next : Option Bool × List String} (hr : r.1 = none → r.2 = [])
    (x : List String) :
    andThen r next = (some true, x) ↔
    r = (some true, x) ∨ r = (none, []) ∧ next = (some true, x) := by
  rcases r with ⟨_ | value, fired⟩
  · obtain rfl : fired = [] := hr rfl
    simp
  · simp [andThen]

theorem andThen_lost {next : Option Bool × List String} (h : next.1 ≠ some true) (x : List String) :
    andThen r next = (some true, x) ↔ r = (some true, x) := by
  rcases r with ⟨_ | value, fired⟩
  · simp only [andThen, Prod.mk.injEq, reduceCtorEq, false_and, iff_false, not_and]
    exact fun h' => absurd h' h
  · rfl

/-- A fork wins before its branch or in it. -/
theorem wins_code {f : Fork ι} (hb : Silent l free b f.before) (ha : Lost l free b f.after)
    (x : List String) :
    playAll l free b f.code = (some true, x) ↔
    playAll l free b f.before = (some true, x) ∨
      playAll l free b f.before = (none, []) ∧ play l free b f.branch = (some true, x) := by
  rw [playAll_code, andThen_eq_win hb, andThen_lost ha]

theorem extends_code {f f' : Fork ι} (hb : Silent l free b f.before) (ha : Lost l free b f.after)
    (hbefore : f'.before = f.before) (hafter : f'.after = f.after)
    (h : Extends P (play l free b f.branch) (play l free b f'.branch)) :
    Extends P (playAll l free b f.code) (playAll l free b f'.code) := by
  have hwins := wins_code hb ha
  have hwins' := wins_code (f := f') (hbefore ▸ hb) (hafter ▸ ha)
  refine ⟨fun x hx => ?_, fun x hx => ?_⟩
  · rw [hwins', hbefore]
    exact ((hwins x).1 hx).imp_right fun hr => ⟨hr.1, h.1 x hr.2⟩
  · rw [hwins', hbefore] at hx
    rcases hx with hx | ⟨hnone, hx⟩
    · exact Or.inl ((hwins x).2 (Or.inl hx))
    · exact (h.2 x hx).imp_left fun hr => (hwins x).2 (Or.inr ⟨hnone, hr⟩)

theorem extends_thenBody {f : Fork ι} {t : List (Stmt ι)}
    (h : f.guard.holds l free b = true →
      Extends P (playAll l free b f.thenBody) (playAll l free b t)) :
    Extends P (play l free b f.branch) (play l free b { f with thenBody := t }.branch) := by
  simp only [Fork.branch, play]
  split_ifs with hg
  · exact h hg
  · exact .refl _ _

theorem extends_elseBody {f : Fork ι} {t : List (Stmt ι)}
    (h : Extends P (playAll l free b f.elseBody) (playAll l free b t)) :
    Extends P (play l free b f.branch) (play l free b { f with elseBody := t }.branch) := by
  simp only [Fork.branch, play]
  split_ifs with hg
  · exact .refl _ _
  · cases playElseIfs l free b f.elseIfs with
    | none => exact h
    | some r => exact .refl _ _

/-- A win of the `then` body is one of the matcher, where the guard holds. -/
theorem Sole.wins_of_thenBody {g : Fork ι} (h : Sole l free b ts) (hg : lastFork? ts = some g)
    (hguard : g.guard.holds l free b = true) {x : List String} (hx : Wins l free b g.thenBody x) :
    Wins l free b ts x := by
  obtain ⟨hbefore, hafter, -, -⟩ := h.of_fork hg
  rw [Wins, (lastFork?_eq_some hg).1, wins_code (fun _ => by rw [hbefore]) hafter]
  refine Or.inr ⟨hbefore, ?_⟩
  rw [Fork.branch, play, if_pos hguard]
  exact hx

theorem Sole.wins_of_rest {g : Fork ι} (h : Sole l free b ts) (hg : lastFork? ts = some g)
    {x : List String} (hx : Wins l free b g.rest x) : Wins l free b ts x := by
  rw [Wins, (lastFork?_eq_some hg).1, Fork.code, playAll_append, (h.of_fork hg).1]
  exact hx

/-! ### Fusing -/

/-- **Fusing a matcher into a tree** takes no win away, and gives wins of the matcher only. -/
theorem fuse_extends {other : List (Stmt ι)} (hm : Late l free b mine) (ho : Sole l free b other) :
    Extends (Wins l free b other) (playAll l free b mine)
      (playAll l free b (fuse l mine other)) := by
  induction hm generalizing other with
  | @leaf ts h silent =>
    cases hg : lastFork? other with
    | none => rw [fuse_of_none hg]; exact .refl _ _
    | some g =>
      rw [fuse_of_leaf h hg, playAll_append]
      refine ⟨fun x hx => by rw [hx]; rfl, fun x hx => ?_⟩
      exact ((andThen_eq_win silent x).1 hx).imp_right fun hr => hr.2
  | @fork ts f h before after _ _ iht ihe =>
    cases hg : lastFork? other with
    | none => rw [fuse_of_none hg]; exact .refl _ _
    | some g =>
      obtain ⟨-, -, hthen, -⟩ := ho.of_fork hg
      rw [fuse_of_forks h hg, (lastFork?_eq_some h).1]
      split_ifs with heq hspec
      -- a win below the shared guard is one of the matcher, since its check holds there
      · refine extends_code before after rfl rfl
          (extends_thenBody fun hguard => (iht hthen).mono fun x hx => ?_)
        rw [Guard.holds_eq_of_equals heq] at hguard
        exact ho.wins_of_thenBody hg hguard hx
      · exact extends_code before after rfl rfl
          (extends_thenBody fun _ => (iht (ho.rest hg)).mono fun x hx => ho.wins_of_rest hg hx)
      · exact extends_code before after rfl rfl (extends_elseBody (ihe ho))

/-- Fused trees are open to further fusing. -/
theorem Late.fuse {other : List (Stmt ι)} (hm : Late l free b mine) (ho : Sole l free b other) :
    Late l free b (fuse l mine other) := by
  induction hm generalizing other with
  | @leaf ts h silent =>
    cases hg : lastFork? other with
    | none => rw [fuse_of_none hg]; exact .leaf h silent
    | some g =>
      obtain ⟨hbefore, hafter, hthen, helse⟩ := ho.of_fork hg
      obtain ⟨hcode, hlines⟩ := lastFork?_eq_some hg
      -- what is appended brings the branch
      have hfork : lastFork? (ts ++ other) = some { g with before := ts ++ g.before } := by
        have hcode' : ts ++ other = { g with before := ts ++ g.before }.code := by
          rw [hcode, Fork.code, Fork.code, List.append_assoc]
          rfl
        rw [hcode']
        exact lastFork?_code hlines
      rw [fuse_of_leaf h hg]
      refine .fork hfork ?_ hafter hthen.late helse
      rw [Silent, playAll_append, hbefore]
      intro hnone
      rcases hp : playAll l free b ts with ⟨_ | value, fired⟩
      · have := silent (by rw [hp])
        simpa [andThen, hp] using this
      · rw [hp] at hnone
        cases hnone
  | @fork ts f h before after ht he iht ihe =>
    cases hg : lastFork? other with
    | none => rw [fuse_of_none hg]; exact .fork h before after ht he
    | some g =>
      obtain ⟨-, -, hthen, -⟩ := ho.of_fork hg
      have hlines := (lastFork?_eq_some h).2
      rw [fuse_of_forks h hg]
      split_ifs with heq hspec
      · exact .fork (f := { f with thenBody := Stmt.fuse l f.thenBody g.thenBody })
          (lastFork?_code hlines) before after (iht hthen) he
      · exact .fork (f := { f with thenBody := Stmt.fuse l f.thenBody g.rest })
          (lastFork?_code hlines) before after (iht (ho.rest hg)) he
      · exact .fork (f := { f with elseBody := Stmt.fuse l f.elseBody other })
          (lastFork?_code hlines) before after ht (ihe ho)

/-- **Fusing many matchers** one after the other. -/
theorem foldl_fuse_extends {others : List (List (Stmt ι))} (hm : Late l free b mine)
    (ho : ∀ t ∈ others, Sole l free b t) :
    Extends (fun x => ∃ t ∈ others, Wins l free b t x) (playAll l free b mine)
      (playAll l free b (others.foldl (fuse l) mine)) := by
  induction others generalizing mine with
  | nil => exact .refl _ _
  | cons t rest ih =>
    have ht := ho t List.mem_cons_self
    have hrest := ih (hm.fuse ht) fun s hs => ho s (List.mem_cons_of_mem _ hs)
    refine ((fuse_extends hm ht).trans hrest).mono fun x hx => ?_
    rcases hx with hx | ⟨s, hs, hx⟩
    · exact ⟨t, List.mem_cons_self, hx⟩
    · exact ⟨s, List.mem_cons_of_mem _ hs, hx⟩

/-- Fused trees bind parts of the term if their parts do. -/
theorem isStructuralAll_fuse {other : List (Stmt ι)} (hm : isStructuralAll mine = true)
    (ho : isStructuralAll other = true) : isStructuralAll (fuse l mine other) = true := by
  have hfork : ∀ f : Fork ι, isStructuralAll f.code = true ↔
      isStructuralAll f.before = true ∧ isStructuralAll f.thenBody = true ∧
        isStructuralAll f.elseBody = true ∧ isStructuralAll f.elseIfs = true ∧
        isStructuralAll f.after = true := by
    intro f
    simp only [Fork.code, Fork.rest, isStructuralAll_append, isStructuralAll, isStructural,
      Bool.and_eq_true, and_assoc]
  have hcode : ∀ {ts : List (Stmt ι)} {f : Fork ι}, lastFork? ts = some f →
      isStructuralAll ts = true → isStructuralAll f.code = true :=
    fun hf h => (lastFork?_eq_some hf).1 ▸ h
  induction mine, other using fuse_induct l with
  | none mine other hother => rwa [fuse_of_none hother]
  | leaf mine other g hmine hother =>
    rw [fuse_of_leaf hmine hother, isStructuralAll_append, hm, ho]
    rfl
  | share mine other f g hmine hother heq ih =>
    obtain ⟨hbefore, hthen, hrest⟩ := (hfork f).1 (hcode hmine hm)
    have hthen' := ((hfork g).1 (hcode hother ho)).2.1
    rw [fuse_share hmine hother heq]
    exact (hfork _).2 ⟨hbefore, ih hthen hthen', hrest⟩
  | specific mine other f g hmine hother heq hspec ih =>
    obtain ⟨hbefore, hthen, hrest⟩ := (hfork f).1 (hcode hmine hm)
    have hbranch : isStructuralAll g.rest = true := by
      have hother' := hcode hother ho
      rw [Fork.code, isStructuralAll_append, Bool.and_eq_true] at hother'
      exact hother'.2
    rw [fuse_specific hmine hother heq hspec]
    exact (hfork _).2 ⟨hbefore, ih hthen hbranch, hrest⟩
  | otherwise mine other f g hmine hother heq hspec ih =>
    obtain ⟨hbefore, hthen, helse, hrest⟩ := (hfork f).1 (hcode hmine hm)
    rw [fuse_otherwise hmine hother heq hspec]
    exact (hfork _).2 ⟨hbefore, hthen, ih helse ho, hrest⟩

theorem isStructuralAll_foldl_fuse {others : List (List (Stmt ι))}
    (hm : isStructuralAll mine = true) (ho : ∀ t ∈ others, isStructuralAll t = true) :
    isStructuralAll (others.foldl (fuse l) mine) = true := by
  induction others generalizing mine with
  | nil => exact hm
  | cons t rest ih =>
    exact ih (isStructuralAll_fuse hm (ho t List.mem_cons_self)) fun s hs =>
      ho s (List.mem_cons_of_mem _ hs)

end Rulewright.Stmt
