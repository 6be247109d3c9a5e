import Rulewright.Fusion
import Rulewright.Proofs.Tree.Copy

/-!
# Fusing trees

Fusing two matchers as an operation on trees. A fork is a sequence taken apart at its last branch.

* `lastFork?`: the fork of a sequence.
* `fuse`: one tree fused into another one.
* `Owns.merge`: the store owns the fused tree, and the other one as it was.
-/

namespace Rulewright

namespace Stmt

variable {ι κ : Type}

/-- A sequence taken apart at a branch. -/
structure Fork (ι : Type) where
  before : List (Stmt ι)
  check : ι
  guard : Guard
  thenBody : List (Stmt ι)
  elseBody : List (Stmt ι)
  elseIfs : List (Stmt ι)
  after : List (Stmt ι)

namespace Fork

/-- The branch of a fork and what comes after it. -/
def rest (f : Fork ι) : List (Stmt ι) :=
  .branch f.check f.guard f.thenBody f.elseBody f.elseIfs :: f.after

def code (f : Fork ι) : List (Stmt ι) := f.before ++ f.rest

def map (g : ι → κ) (f : Fork ι) : Fork κ :=
  ⟨mapAll g f.before, g f.check, f.guard, mapAll g f.thenBody, mapAll g f.elseBody,
    mapAll g f.elseIfs, mapAll g f.after⟩

end Fork

/-- The fork at a statement, if it is a branch. -/
def fork? (after : List (Stmt ι)) : Stmt ι → Option (Fork ι)
  | .branch check guard t e es => some ⟨[], check, guard, t, e, es, after⟩
  | .line _ _ _ _ => none

/-- The fork at the last branch of a sequence. -/
def lastFork? : List (Stmt ι) → Option (Fork ι)
  | [] => none
  | s :: rest =>
    ((lastFork? rest).map fun f => { f with before := s :: f.before }).or (s.fork? rest)

theorem lastFork?_eq_none {ts : List (Stmt ι)} :
    lastFork? ts = none ↔ ∀ s ∈ ts, s.isBranch = false := by
  induction ts with
  | nil => simp [lastFork?]
  | cons s rest ih =>
    have hs : s.fork? rest = none ↔ s.isBranch = false := by cases s <;> simp [fork?, isBranch]
    rw [lastFork?, Option.or_eq_none_iff, Option.map_eq_none_iff, ih, hs, List.forall_mem_cons,
      and_comm]

theorem lastFork?_eq_some {ts : List (Stmt ι)} {f : Fork ι} (h : lastFork? ts = some f) :
    ts = f.code ∧ ∀ s ∈ f.after, s.isBranch = false := by
  induction ts generalizing f with
  | nil => cases h
  | cons s rest ih =>
    rw [lastFork?] at h
    cases hr : lastFork? rest with
    | some f' =>
      rw [hr] at h
      cases h
      obtain ⟨heq, hafter⟩ := ih hr
      exact ⟨by rw [heq]; rfl, hafter⟩
    | none =>
      rw [hr] at h
      cases s with
      | line id x comment off => cases h
      | branch id guard t e es =>
        cases h
        exact ⟨rfl, lastFork?_eq_none.1 hr⟩

theorem lastFork?_code {f : Fork ι} (h : ∀ s ∈ f.after, s.isBranch = false) :
    lastFork? f.code = some f := by
  obtain ⟨before, check, guard, t, e, es, after⟩ := f
  induction before with
  | nil => simp [Fork.code, Fork.rest, lastFork?, lastFork?_eq_none.2 h, fork?]
  | cons s rest ih =>
    have := ih h
    simp only [Fork.code, Fork.rest, List.cons_append] at this ⊢
    rw [lastFork?, this]
    rfl

theorem lastFork?_map (g : ι → κ) (ts : List (Stmt ι)) :
    lastFork? (mapAll g ts) = (lastFork? ts).map (Fork.map g) := by
  induction ts with
  | nil => rfl
  | cons s rest ih =>
    rw [mapAll, lastFork?, lastFork?, ih]
    cases lastFork? rest with
    | some f => rfl
    | none => cases s <;> rfl

/-- The last branch, as it is searched for. -/
theorem find?_isBranch_eq (ts : List (Stmt ι)) :
    ts.reverse.find? isBranch =
      (lastFork? ts).map fun f => .branch f.check f.guard f.thenBody f.elseBody f.elseIfs := by
  induction ts with
  | nil => rfl
  | cons s rest ih =>
    rw [List.reverse_cons, List.find?_append, ih, lastFork?]
    cases lastFork? rest with
    | some f => rfl
    | none => cases s <;> rfl

theorem countAll_code (f : Fork ι) :
    countAll f.code = countAll f.before +
      (1 + countAll f.thenBody + countAll f.elseBody + countAll f.elseIfs + countAll f.after) := by
  rw [Fork.code, Fork.rest, countAll_append, countAll, count]

theorem countAll_bodies_lt {ts : List (Stmt ι)} {f : Fork ι} (h : lastFork? ts = some f) :
    countAll f.thenBody < countAll ts ∧ countAll f.elseBody < countAll ts := by
  rw [(lastFork?_eq_some h).1, countAll_code]
  omega

/-- Fuse a sequence into another one. -/
def fuse (l : Language) (mine other : List (Stmt ι)) : List (Stmt ι) :=
  match _hm : lastFork? mine, lastFork? other with
  | _, none => mine
  | none, some _ => mine ++ other
  | some f, some g =>
    if f.guard.equals g.guard then { f with thenBody := fuse l f.thenBody g.thenBody }.code
    else if f.guard.moreSpecificThan l g.guard then
      { f with thenBody := fuse l f.thenBody g.rest }.code
    else { f with elseBody := fuse l f.elseBody other }.code
termination_by countAll mine
decreasing_by all_goals have := countAll_bodies_lt _hm; omega

section Equations

variable {l : Language} {mine other : List (Stmt ι)}

theorem fuse_of_none (ho : lastFork? other = none) : fuse l mine other = mine := by
  rw [fuse, ho]

theorem fuse_of_leaf (hm : lastFork? mine = none) {g : Fork ι} (ho : lastFork? other = some g) :
    fuse l mine other = mine ++ other := by
  rw [fuse, hm, ho]

theorem fuse_of_forks {f g : Fork ι} (hm : lastFork? mine = some f)
    (ho : lastFork? other = some g) :
    fuse l mine other =
      if f.guard.equals g.guard then { f with thenBody := fuse l f.thenBody g.thenBody }.code
      else if f.guard.moreSpecificThan l g.guard then
          { f with thenBody := fuse l f.thenBody g.rest }.code
        else { f with elseBody := fuse l f.elseBody other }.code := by
  rw [fuse, hm, ho]

section Steps

variable {f g : Fork ι} (hm : lastFork? mine = some f) (ho : lastFork? other = some g)

include hm ho

theorem fuse_share (h : f.guard.equals g.guard = true) :
    fuse l mine other = { f with thenBody := fuse l f.thenBody g.thenBody }.code := by
  rw [fuse_of_forks hm ho, if_pos h]

theorem fuse_specific (h : ¬ f.guard.equals g.guard = true)
    (h' : f.guard.moreSpecificThan l g.guard = true) :
    fuse l mine other = { f with thenBody := fuse l f.thenBody g.rest }.code := by
  rw [fuse_of_forks hm ho, if_neg h, if_pos h']

theorem fuse_otherwise (h : ¬ f.guard.equals g.guard = true)
    (h' : ¬ f.guard.moreSpecificThan l g.guard = true) :
    fuse l mine other = { f with elseBody := fuse l f.elseBody other }.code := by
  rw [fuse_of_forks hm ho, if_neg h, if_neg h']

end Steps

end Equations

/-- Induction along the way that fusing takes down the first tree. -/
theorem fuse_induct {P : List (Stmt ι) → List (Stmt ι) → Prop} (l : Language)
    (none : ∀ mine other, lastFork? other = none → P mine other)
    (leaf : ∀ mine other g, lastFork? mine = Option.none → lastFork? other = some g → P mine other)
    (share : ∀ mine other f g, lastFork? mine = some f → lastFork? other = some g →
      f.guard.equals g.guard = true → P f.thenBody g.thenBody → P mine other)
    (specific : ∀ mine other f g, lastFork? mine = some f → lastFork? other = some g →
      ¬ f.guard.equals g.guard = true → f.guard.moreSpecificThan l g.guard = true →
      P f.thenBody g.rest → P mine other)
    (otherwise : ∀ mine other f g, lastFork? mine = some f → lastFork? other = some g →
      ¬ f.guard.equals g.guard = true → ¬ f.guard.moreSpecificThan l g.guard = true →
      P f.elseBody other → P mine other)
    (mine other : List (Stmt ι)) : P mine other := by
  induction hn : countAll mine using Nat.strong_induction_on generalizing mine other with
  | _ n ih =>
    cases hg : lastFork? other with
    | none => exact none mine other hg
    | some g =>
      cases hf : lastFork? mine with
      | none => exact leaf mine other g hf hg
      | some f =>
        obtain ⟨hthen, helse⟩ := countAll_bodies_lt hf
        by_cases hequals : f.guard.equals g.guard = true
        · exact share mine other f g hf hg hequals (ih _ (hn ▸ hthen) _ _ rfl)
        · by_cases hspecific : f.guard.moreSpecificThan l g.guard = true
          · exact specific mine other f g hf hg hequals hspecific (ih _ (hn ▸ hthen) _ _ rfl)
          · exact otherwise mine other f g hf hg hequals hspecific (ih _ (hn ▸ helse) _ _ rfl)

/-! ### Labels -/

theorem Fork.strip_code (f : Fork ι) : Stmt.strip f.code = (f.map fun _ => ()).code := by
  rw [code, code, strip_append, rest, strip_cons, map_branch_strip]
  rfl

theorem solidAll_code (f : Fork ι) :
    SolidAll f.code ↔
    SolidAll f.before ∧
      (f.thenBody ≠ [] ∧ f.elseBody ≠ [] ∧ SolidAll f.thenBody ∧ SolidAll f.elseBody ∧
        SolidAll f.elseIfs) ∧
      SolidAll f.after := by
  rw [Fork.code, Fork.rest, solidAll_append]
  rfl

end Stmt

/-! ### Stores -/

namespace Code.Owns

open Stmt

variable {c : Code} {m : Multiset Cell} {link : Link}

/-- The cells around the bodies of a fork. -/
theorem exists_around (link : Link) (f : Fork NodeId) :
    ∃ w, ∀ t e, start t = start f.thenBody → start e = start f.elseBody →
      cells link none { f with thenBody := t, elseBody := e }.code =
        cells (.childOf f.check .thenBody) none t +
          (cells (.childOf f.check .elseBody) none e + w) := by
  refine ⟨cells link (some f.check) f.before +
      ({(f.check,
        (Stmt.branch f.check f.guard f.thenBody f.elseBody f.elseIfs).node (linkAfter link f.before)
          (start? f.after))} +
        (elseIfCells f.check 0 f.elseIfs + cells (.after f.check) none f.after)),
    fun t e ht he => ?_⟩
  rw [Fork.code, Fork.rest, cells_append, cells_cons, bodyCells_branch]
  simp only [start?_cons, id_branch, Option.or_none, Stmt.node, ht, he]
  abel

/-- The cells around the `then` body of a fork. -/
theorem exists_aroundThen (link : Link) (f : Fork NodeId) :
    ∃ w, ∀ t, start t = start f.thenBody →
      cells link none { f with thenBody := t }.code =
        cells (.childOf f.check .thenBody) none t + w := by
  obtain ⟨w, hw⟩ := exists_around link f
  exact ⟨_, fun t ht => hw t f.elseBody ht rfl⟩

/-- The cells around the `else` body of a fork. -/
theorem exists_aroundElse (link : Link) (f : Fork NodeId) :
    ∃ w, ∀ e, start e = start f.elseBody →
      cells link none { f with elseBody := e }.code =
        cells (.childOf f.check .elseBody) none e + w := by
  obtain ⟨w, hw⟩ := exists_around link f
  exact ⟨_, fun e he => (hw f.thenBody e rfl he).trans (add_left_comm _ _ _)⟩

theorem lastBranch?_fork {ts : List (Stmt NodeId)} (hne : ts ≠ [])
    (h : c.Owns (cells link none ts + m)) :
    c.lastBranch? (start ts) = (lastFork? ts).map Fork.check := by
  rw [h.lastBranch?_eq hne, find?_isBranch_eq, Option.map_map]
  rfl

theorem branch?_fork {ts : List (Stmt NodeId)} {f : Fork NodeId} (hf : lastFork? ts = some f)
    (h : c.Owns (cells link none ts + m)) :
    c.branch? f.check =
      some ⟨f.guard, start f.thenBody, start f.elseBody, f.elseIfs.map Stmt.id⟩ := by
  have hmem : Stmt.branch f.check f.guard f.thenBody f.elseBody f.elseIfs ∈ ts := by
    rw [(lastFork?_eq_some hf).1, Fork.code, Fork.rest]
    simp
  exact h.branch?_mem hmem

/-- The store owns a tree that is the first one fused with the second one, and the second one as it
was. -/
def Fuses (l : Language) (c : Code) (link : Link) (mine other : List (Stmt NodeId))
    (m : Multiset Cell) : Prop :=
  ∃ ts, strip ts = fuse l (strip mine) (strip other) ∧ start ts = start mine ∧ ts ≠ [] ∧
    SolidAll ts ∧ c.Owns (cells link none ts + m)

namespace Fuses

variable {l : Language} {mine other inner : List (Stmt NodeId)} {w : Multiset Cell}

theorem of_eq (h : Fuses l c link mine other m) (e : m = w) : Fuses l c link mine other w := e ▸ h

theorem start_code (f : Fork NodeId) (t e : List (Stmt NodeId)) :
    start { f with thenBody := t, elseBody := e }.code = start f.code := by
  obtain ⟨before, check, guard, t', e', es, after⟩ := f
  cases before <;> rfl

/-- Bodies are put into a fork that make it what is fused. -/
theorem of_bodies {f : Fork NodeId} {t e : List (Stmt NodeId)} (hf : SolidAll f.code)
    (ht : t ≠ [] ∧ SolidAll t) (he : e ≠ [] ∧ SolidAll e)
    (hfuse : fuse l (strip f.code) (strip other) =
      { f.map (fun _ => ()) with thenBody := strip t, elseBody := strip e }.code)
    (howns : c.Owns (cells link none { f with thenBody := t, elseBody := e }.code + m)) :
    Fuses l c link f.code other m := by
  obtain ⟨hbefore, ⟨-, -, -, -, helseIfs⟩, hafter⟩ := (solidAll_code _).1 hf
  refine ⟨{ f with thenBody := t, elseBody := e }.code, ?_, start_code f t e,
    by simp [Fork.code, Fork.rest],
    (solidAll_code { f with thenBody := t, elseBody := e }).2
      ⟨hbefore, ⟨ht.1, he.1, ht.2, he.2, helseIfs⟩, hafter⟩,
    howns⟩
  rw [hfuse, Fork.strip_code]
  rfl

/-- What is fused into the `then` body of a fork is fused into the fork. -/
theorem thenBody {f : Fork NodeId} (hf : SolidAll f.code) (hw : ∀ t, start t = start f.thenBody →
      cells link none { f with thenBody := t }.code = cells (.childOf f.check .thenBody) none t + w)
    (h : Fuses l c (.childOf f.check .thenBody) f.thenBody inner (w + m))
    (hfuse : fuse l (strip f.code) (strip other) =
      { f.map (fun _ => ()) with thenBody := fuse l (strip f.thenBody) (strip inner) }.code) :
    Fuses l c link f.code other m := by
  obtain ⟨ts, hstrip, hstart, hne, hs, howns⟩ := h
  obtain ⟨-, ⟨-, hene, -, hes, -⟩, -⟩ := (solidAll_code _).1 hf
  refine of_bodies hf ⟨hne, hs⟩ ⟨hene, hes⟩ ?_ (howns.of_eq (by rw [hw ts hstart, add_assoc]))
  rw [hfuse, hstrip]
  rfl

/-- What is fused into the `else` body of a fork is fused into the fork. -/
theorem elseBody {f : Fork NodeId} (hf : SolidAll f.code) (hw : ∀ e, start e = start f.elseBody →
      cells link none { f with elseBody := e }.code = cells (.childOf f.check .elseBody) none e + w)
    (h : Fuses l c (.childOf f.check .elseBody) f.elseBody inner (w + m))
    (hfuse : fuse l (strip f.code) (strip other) =
      { f.map (fun _ => ()) with elseBody := fuse l (strip f.elseBody) (strip inner) }.code) :
    Fuses l c link f.code other m := by
  obtain ⟨ts, hstrip, hstart, hne, hs, howns⟩ := h
  obtain ⟨-, ⟨htne, -, hts, -, -⟩, -⟩ := (solidAll_code _).1 hf
  refine of_bodies hf ⟨htne, hts⟩ ⟨hne, hs⟩ ?_ (howns.of_eq (by rw [hw ts hstart, add_assoc]))
  rw [hfuse, hstrip]
  rfl

/-- A sequence without a branch gets a copy of the other one behind it. -/
theorem appended (hm : SolidAll mine) (ho : SolidAll other) (hmne : mine ≠ []) (hone : other ≠ [])
    {link' : Link} (h : c.Owns (cells link none mine + (cells link' none other + m)))
    (hfuse : fuse l (strip mine) (strip other) = strip mine ++ strip other) :
    Fuses l ((c.deepCopy (start other)).2.append (start mine) (c.deepCopy (start other)).1) link
      mine other (cells link' none other + m) := by
  obtain ⟨copy, hstrip, hcne, hstart, h1⟩ := h.swap.deepCopy ho hone
  have h2 :
      Code.Owns _ (cells link none mine + (cells .root none copy + (cells link' none other + m))) :=
    h1.of_eq (by abel)
  have h3 := h2.append hmne hcne
  rw [← hstart] at h3
  refine ⟨mine ++ copy, ?_, start_append hmne copy, by simp [hmne], ?_, h3⟩
  · rw [strip_append, hstrip, hfuse]
  · exact (solidAll_append mine copy).2
      ⟨hm, (solidAll_strip copy).1 (hstrip ▸ (solidAll_strip other).2 ho)⟩

end Fuses

theorem mergeFrom {l : Language} {n : Nat} {mine other : List (Stmt NodeId)} (hm : SolidAll mine)
    (ho : SolidAll other) (hmne : mine ≠ []) (hone : other ≠ []) (hn : countAll mine ≤ n)
    {link link' : Link} (h : c.Owns (cells link none mine + (cells link' none other + m))) :
    Fuses l (c.mergeFrom l (n + 1) (start mine) (start other)) link mine other
      (cells link' none other + m) := by
  induction n generalizing c mine other link link' m with
  | zero => exact absurd hn (Nat.not_le.2 (countAll_pos hmne))
  | succ n ih =>
    have hforkMine : lastFork? (strip mine) = (lastFork? mine).map (Fork.map fun _ => ()) :=
      lastFork?_map _ mine
    have hforkOther : lastFork? (strip other) = (lastFork? other).map (Fork.map fun _ => ()) :=
      lastFork?_map _ other
    have same : c.Owns (cells link none mine + (cells link' none other + m)) →
        lastFork? other = none → Fuses l c link mine other (cells link' none other + m) :=
      fun h hnone => ⟨mine, (fuse_of_none (by rw [hforkOther, hnone]; rfl)).symm, rfl, hmne, hm, h⟩
    rw [Code.mergeFrom, h.lastBranch?_fork hmne, h.swap.lastBranch?_fork hone]
    cases hfo : lastFork? other with
    | none => cases lastFork? mine <;> exact same h hfo
    | some g =>
      rw [hfo] at hforkOther
      cases hfm : lastFork? mine with
      | none =>
        rw [hfm] at hforkMine
        exact .appended hm ho hmne hone h (fuse_of_leaf hforkMine hforkOther)
      | some f =>
        rw [hfm] at hforkMine
        have hfuse := fuse_of_forks (l := l) hforkMine hforkOther
        have hlt := countAll_bodies_lt hfm
        simp only [Option.map_some, h.branch?_fork hfm, h.swap.branch?_fork hfo]
        obtain ⟨rfl, -⟩ := lastFork?_eq_some hfm
        obtain ⟨rfl, -⟩ := lastFork?_eq_some hfo
        obtain ⟨-, ⟨ht, he, hts, hes, -⟩, -⟩ := (solidAll_code _).1 hm
        obtain ⟨wt, hwt⟩ := exists_aroundThen link f
        obtain ⟨we, hwe⟩ := exists_aroundElse link f
        obtain ⟨hgs, ⟨hgt, hge, hgts, hges, hgess⟩, hga⟩ := (solidAll_code _).1 ho
        have hcellsThen : cells link none f.code = _ := hwt f.thenBody rfl
        have hcellsElse : cells link none f.code = _ := hwe f.elseBody rfl
        by_cases hequal : f.guard.equals g.guard = true
        · -- the guard is shared
          obtain ⟨wo, hwo⟩ := exists_aroundThen link' g
          have hcellsOther : cells link' none g.code = _ := hwo g.thenBody rfl
          rw [if_pos hequal]
          have h1 : c.Owns (cells (.childOf f.check .thenBody) none f.thenBody +
              (cells (.childOf g.check .thenBody) none g.thenBody + (wt + (wo + m)))) :=
            h.of_eq (by rw [hcellsThen, hcellsOther]; abel)
          refine ((ih hts hgts ht hgt (by omega) h1).of_eq ?_).thenBody hm hwt
            (hfuse.trans (if_pos hequal))
          rw [hcellsOther]; abel
        · rw [if_neg hequal]
          by_cases hmore : f.guard.moreSpecificThan l g.guard = true
          · -- the other sequence from its branch on goes into the body
            rw [if_pos hmore]
            have hcellsOther : cells link' none g.code =
                cells (linkAfter link' g.before) none g.rest +
                  cells link' (some g.check) g.before := by
              rw [Fork.code, cells_append, add_comm]
              rfl
            have h1 : c.Owns (cells (.childOf f.check .thenBody) none f.thenBody +
                (cells (linkAfter link' g.before) none g.rest +
                  (wt + (cells link' (some g.check) g.before + m)))) :=
              h.of_eq (by rw [hcellsThen, hcellsOther]; abel)
            have hrest : SolidAll g.rest := ⟨⟨hgt, hge, hgts, hges, hgess⟩, hga⟩
            refine ((ih hts hrest ht (by simp [Fork.rest]) (by omega) h1).of_eq ?_).thenBody hm hwt
              (hfuse.trans ((if_neg hequal).trans (if_pos hmore)))
            rw [hcellsOther]; abel
          · -- the other sequence goes into the `else` body
            rw [if_neg hmore]
            have h1 : c.Owns (cells (.childOf f.check .elseBody) none f.elseBody +
                (cells link' none g.code + (we + m))) := h.of_eq (by rw [hcellsElse]; abel)
            refine ((ih hes ho he hone (by omega) h1).of_eq ?_).elseBody hm hwe
              (hfuse.trans ((if_neg hequal).trans (if_neg hmore)))
            abel

/-- **Fusing two matchers** of a store. -/
theorem merge (l : Language) {mine other : List (Stmt NodeId)} (hm : SolidAll mine)
    (ho : SolidAll other) (hmne : mine ≠ []) (hone : other ≠ []) {link' : Link}
    (h : c.Owns (cells link none mine + (cells link' none other + m))) :
    Fuses l (c.merge l (start mine) (start other)) link mine other
      (cells link' none other + m) := by
  refine mergeFrom hm ho hmne hone ?_ h
  have hle := h.countAll_le_size
  exact hle.trans (Nat.le_mul_self c.size)

end Code.Owns

end Rulewright
