import Rulewright.Proofs.Chain.Setup
import Rulewright.Proofs.Fusion.Redundancy
import Rulewright.Proofs.Matching.Capture
import Rulewright.Proofs.Scope.Reads
import Rulewright.Proofs.Scope.Walk

/-!
# The temporaries of a pattern are bound

The chain of a pattern goes down from a node to its operands, and binds the temporary of an operand
before the matcher of the operand. Where an operand is optional, the temporaries of both operands
are declared, and the choice between the forms of the node assigns both of them in every form. So at
the innermost point of a chain the temporaries of all nodes of the pattern are bound, and every
guard on the way uses temporaries that were bound before it.

* `Discipline.bound`: temporaries are bound before they are used, and declared before they are
  assigned.
* `Chain.Meets`, `Chain.reach`: a chain meets a discipline, and what is known at its innermost
  point.
* `entry_supplies`: the check of a node binds the temporaries of its operands.
* `patternChain_meets_all`: the chain of a pattern binds the temporaries of all its metavariables
  and groups.
-/

namespace Rulewright

open Stmt

/-! ### Assignments -/

namespace Stmt

variable {ι : Type}

/-- The line assigns the temporary of the trail. -/
def assigns (t : Trail) : Stmt ι → Bool
  | .line _ (.definition target _ false) _ false => target = t
  | _ => false

/-- A line of the `then` body assigns the temporary of the trail. -/
def thenAssigns (t : Trail) : Stmt ι → Bool
  | .branch _ _ body _ _ => body.any (assigns t)
  | .line _ _ _ _ => false

/-- Whichever body the branch chooses assigns the temporary of the trail. -/
def assignsAlways (t : Trail) : Stmt ι → Bool
  | .branch id guard body e es =>
    thenAssigns t (.branch id guard body e es) && e.any (assigns t) && es.all (thenAssigns t)
  | .line _ _ _ _ => false

theorem assigns_calm (t : Trail) (s : Stmt ι) : s.calm.assigns t = s.assigns t := by
  cases s with
  | branch id guard body e es => rfl
  | line id content comment off => cases content <;> rfl

theorem any_assigns_calm (t : Trail) (ts : List (Stmt ι)) :
    (calmAll ts).any (assigns t) = ts.any (assigns t) := by
  induction ts with
  | nil => rfl
  | cons s rest ih => rw [calmAll, List.any_cons, List.any_cons, ih, assigns_calm]

theorem assignsAlways_calm (t : Trail) (s : Stmt ι) :
    s.calm.assignsAlways t = s.assignsAlways t := by
  have hthen : ∀ s : Stmt ι, s.calm.thenAssigns t = s.thenAssigns t := by
    intro s
    cases s with
    | branch id guard body e es => exact any_assigns_calm t body
    | line id content comment off => rfl
  have hall : ∀ es : List (Stmt ι), (calmAll es).all (thenAssigns t) = es.all (thenAssigns t) := by
    intro es
    induction es with
    | nil => rfl
    | cons s rest ih => rw [calmAll, List.all_cons, List.all_cons, ih, hthen]
  cases s with
  | branch id guard body e es =>
    have h := hthen (.branch id guard body e es)
    rw [calm] at h ⊢
    rw [assignsAlways, assignsAlways, h, any_assigns_calm, hall]
  | line id content comment off => rfl

end Stmt

/-! ### Disciplines -/

/-- The trails whose temporaries are bound, and those whose temporaries are declared. -/
structure Temporaries where
  ready : List Trail
  declared : List Trail

namespace Temporaries

/-- What is bound and declared after a statement. A choice that assigns a declared temporary in all
forms binds it. -/
def step (x : Temporaries) : Stmt Unit → Temporaries
  | .line _ (.definition target _ true) _ false => { x with ready := target :: x.ready }
  | .line _ (.declaration target) _ false => { x with declared := target :: x.declared }
  | s@(.branch _ _ _ _ _) => { x with ready := x.declared.filter (assignsAlways · s) ++ x.ready }
  | _ => x

/-- The temporary of the matched term is bound. -/
def start : Temporaries := ⟨[Trail.root], []⟩

theorem ready_step (x : Temporaries) (s : Stmt Unit) : x.ready ⊆ (x.step s).ready := by
  unfold step
  split
  · exact List.subset_cons_self _ _
  · exact List.Subset.refl _
  · exact List.subset_append_right _ _
  · exact List.Subset.refl _

theorem step_calm (x : Temporaries) (s : Stmt Unit) : x.step s.calm = x.step s := by
  cases s with
  | branch id guard t e es =>
    have h : ∀ u,
        (Stmt.branch id guard t e es).calm.assignsAlways u =
          (Stmt.branch id guard t e es).assignsAlways u := fun u => assignsAlways_calm u _
    rw [calm] at h ⊢
    simp only [step, h]
  | line id content comment off => cases content <;> rfl

end Temporaries

namespace Discipline

/-- Temporaries are bound before they are used and declared before they are assigned, in comments as
well. Comments do not introduce or assign temporaries. -/
def bound (l : Language) (checks : List (List CheckName)) : Discipline Temporaries where
  step := Temporaries.step
  line x content off :=
    (content.isBinding = true → off = false) ∧
    content.kind.Within l checks (· ∈ x.ready) (· ∈ x.declared)
  guard x g := g.Within l checks (· ∈ x.ready)

/-- Lines that do nothing are free of the discipline. -/
structure IsIdle {C : Type} (D : Discipline C) : Prop where
  step : ∀ x (s : Stmt Unit), s.isMeaningful = false → D.step x s = x
  line : ∀ x (s : Stmt Unit), s.isMeaningful = false → D.Along x s

theorem isIdle_bound (l : Language) (checks : List (List CheckName)) : (bound l checks).IsIdle := by
  refine ⟨fun x s hs => ?_, fun x s hs => ?_⟩
  · cases s with
    | branch id guard t e es => cases hs
    | line id content comment off => cases content <;> first | rfl | cases hs
  · cases s with
    | branch id guard t e es => cases hs
    | line id content comment off =>
      cases content <;> first | exact ⟨Bool.noConfusion, trivial⟩ | cases hs

variable {C : Type} {D : Discipline C}

theorem IsIdle.after (h : D.IsIdle) (x : C) {ts : List (Stmt Unit)}
    (hts : ts.any isMeaningful = false) : D.after x ts = x := by
  induction ts with
  | nil => rfl
  | cons s rest ih =>
    rw [List.any_cons, Bool.or_eq_false_iff] at hts
    rw [Discipline.after, List.foldl_cons, h.step x s hts.1]
    exact ih hts.2

theorem IsIdle.placeholders (h : D.IsIdle) (x : C) (ids : List Unit) :
    D.AlongAll x (ids.map placeholder) := by
  induction ids with
  | nil => trivial
  | cons id rest ih =>
    refine ⟨h.line x _ rfl, ?_⟩
    rw [h.step x _ rfl]
    exact ih

end Discipline

/-! ### Chains -/

namespace Chain

variable {C : Type} (D : Discipline C) {x : C} {k r : Chain Unit}

/-- What is known at the innermost point of a chain. -/
def reach (x : C) : Chain Unit → C
  | .hole before _ _ => D.after x before
  | .under before _ _ inner _ _ => inner.reach (D.after x before)

/-- The statements and guards on the way to the innermost point meet the discipline. -/
def Meets (x : C) : Chain Unit → Prop
  | .hole before _ _ => D.AlongAll x before
  | .under before _ guard inner _ _ =>
    D.AlongAll x before ∧ D.guard (D.after x before) guard ∧ inner.Meets (D.after x before)

variable {D}

/-- The code of a chain meets the discipline if the chain and what is put into it do. -/
theorem Meets.fill (hD : D.IsIdle) (h : k.Meets D x) {ts : List (Stmt Unit)}
    (hts : D.AlongAll (k.reach D x) ts) : D.AlongAll x (k.fill ts) := by
  induction k generalizing x with
  | hole before mark after =>
    exact Discipline.alongAll_append.2
      ⟨h, Discipline.alongAll_append.2 ⟨hts, hD.placeholders _ after⟩⟩
  | under before check guard inner otherwise after ih =>
    exact Discipline.alongAll_append.2
      ⟨h.1, ⟨h.2.1, ih h.2.2 hts, ⟨hD.line _ _ rfl, trivial⟩, trivial⟩, hD.placeholders _ after⟩

theorem reach_surround (xs : List (Stmt Unit)) (ids : List Unit) (k : Chain Unit) :
    (k.surround xs ids).reach D x = k.reach D (D.after x xs) := by
  cases k <;> simp only [surround, reach, Discipline.after_append]

theorem meets_surround {xs : List (Stmt Unit)} {ids : List Unit} :
    (k.surround xs ids).Meets D x ↔ D.AlongAll x xs ∧ k.Meets D (D.after x xs) := by
  cases k <;> simp only [surround, Meets, Discipline.alongAll_append, Discipline.after_append,
    and_assoc]

theorem reach_plug (k r : Chain Unit) : (k.plug r).reach D x = r.reach D (k.reach D x) := by
  induction k generalizing x with
  | hole before mark after => exact reach_surround before after r
  | under before check guard inner otherwise after ih => exact ih

theorem meets_plug : (k.plug r).Meets D x ↔ k.Meets D x ∧ r.Meets D (k.reach D x) := by
  induction k generalizing x with
  | hole before mark after => exact meets_surround
  | under before check guard inner otherwise after ih =>
    simp only [plug, Meets, reach, ih, and_assoc]

theorem reach_leave (depth : Nat) (k : Chain Unit) :
    (k.leave () depth).reach D x = k.reach D x := by
  induction k generalizing depth x with
  | hole before mark after => cases depth <;> cases mark <;> rfl
  | under before check guard inner otherwise after ih =>
    cases depth with
    | zero => rfl
    | succ depth => exact ih depth

theorem meets_leave {depth : Nat} : (k.leave () depth).Meets D x ↔ k.Meets D x := by
  induction k generalizing depth x with
  | hole before mark after => cases depth <;> cases mark <;> exact Iff.rfl
  | under before check guard inner otherwise after ih =>
    cases depth with
    | zero => exact Iff.rfl
    | succ depth => simp only [leave, Meets, ih]

/-- The chain of an operand is attached. A guard that joins two of them has to be met where the
first of the two stands. -/
theorem Meets.attach (hD : D.IsIdle) (hk : k.Meets D x) (hr : r.Meets D (k.reach D x))
    (joins : Bool) (hjoin : ∀ g, joinGuard? k r = some g → D.guard x g) :
    (k.attach joins () r).Meets D x ∧
    (k.attach joins () r).reach D x = r.reach D (k.reach D x) := by
  unfold Chain.attach
  split
  · rename_i g hg
    split_ifs at hg
    obtain ⟨f, f', countAt, first, second, count, halign, hf, hf', -, -, -⟩ := joinGuard?_eq_some hg
    obtain ⟨before, after, rfl⟩ := eq_under_of_front? hf
    obtain ⟨before', after', rfl⟩ := eq_under_of_front? hf'
    rw [front?] at hf hf'
    split_ifs at hf hf' with hidle hidle'
    rw [Bool.not_eq_true] at hidle hidle'
    have hbefore : D.after x before = x := hD.after x hidle
    have hnoop : ∀ y, D.after y [noop ()] = y := fun y => hD.after y rfl
    -- nothing is done before the comparison that loses its branch
    have hinner : f'.inner.Meets D (f.inner.reach D x) := by
      have h := hr.2.2
      rwa [reach, hbefore, hD.after _ hidle'] at h
    have hguard : D.guard (D.after x before) g := by
      rw [hbefore]
      exact hjoin g hg
    refine ⟨meets_plug.2
        ⟨⟨hk.1, hguard, hk.2.2⟩, meets_surround.2 ⟨⟨hD.line _ _ rfl, trivial⟩, ?_⟩⟩,
      ?_⟩
    · rw [hnoop, setGuard, reach, hbefore]
      exact hinner
    · rw [reach_plug, reach_surround, hnoop, setGuard, body, reach, reach, reach, hbefore,
        hD.after _ hidle']
  · exact ⟨meets_plug.2 ⟨hk, hr⟩, reach_plug k r⟩

end Chain

/-! ### Patterns -/

namespace Matcher

open Discipline Temporaries

variable {o : Options} {l : Language} {checks : List (List CheckName)} {t : Trail}
  {x y : Temporaries} {groups : Groups} {shape : Shape}

theorem ready_after (x : Temporaries) (ts : List (Stmt Unit)) :
    x.ready ⊆ ((bound l checks).after x ts).ready := by
  induction ts generalizing x with
  | nil => exact List.Subset.refl _
  | cons s rest ih => exact List.Subset.trans (ready_step x s) (ih (x.step s))

theorem ready_reach (x : Temporaries) (k : Chain Unit) :
    x.ready ⊆ (k.reach (bound l checks) x).ready := by
  induction k generalizing x with
  | hole before mark after => exact ready_after x before
  | under before check guard inner otherwise after ih =>
    exact List.Subset.trans (ready_after x before) (ih _)

theorem along_noop (x : Temporaries) : (bound l checks).Along x (noop ()) :=
  (isIdle_bound l checks).line x _ rfl

/-- The definitions of operands read the temporary of the node and bind those of the operands. -/
theorem operandLines_along (ht : t ∈ x.ready) (index count : Nat) :
    (bound l checks).AlongAll x (operandLines t index count) ∧
    ∀ i, index ≤ i → i < index + count →
      t.child i ∈ ((bound l checks).after x (operandLines t index count)).ready := by
  induction count generalizing x index with
  | zero => exact ⟨trivial, fun i hle hlt => absurd hlt (by omega)⟩
  | succ count ih =>
    let y : Temporaries := x.step (fresh () (.definition (t.child index) (.operand t index) true))
    obtain ⟨hrest, hbound⟩ := ih (x := y) (List.mem_cons_of_mem (t.child index) ht) (index + 1)
    refine ⟨⟨⟨fun _ => rfl, ht, Bool.noConfusion⟩, hrest⟩, fun i hle hlt => ?_⟩
    rcases Nat.eq_or_lt_of_le hle with rfl | hlt'
    · exact ready_after y _ List.mem_cons_self
    · exact hbound i hlt' (by omega)

/-- The temporaries of two operands are declared, and a choice assigns both of them. -/
structure Chosen (l : Language) (checks : List (List CheckName)) (t : Trail) (x : Temporaries)
    (before : List (Stmt Unit)) : Prop where
  along : (bound l checks).AlongAll x before
  bound : ∀ i, i < 2 → t.child i ∈ ((Discipline.bound l checks).after x before).ready

theorem declarations_along (x : Temporaries) : (bound l checks).AlongAll x (declarations t) :=
  ⟨⟨fun _ => rfl, trivial⟩, ⟨fun _ => rfl, trivial⟩, trivial⟩

theorem mem_after_declarations (x : Temporaries) {i : Nat} (hi : i < 2) :
    t.child i ∈ ((bound l checks).after x (declarations t)).declared := by
  obtain rfl | rfl : i = 0 ∨ i = 1 := by omega
  · exact List.mem_cons_of_mem _ List.mem_cons_self
  · exact List.mem_cons_self

/-- A form of a node: the body of a choice after the declarations, which assigns the temporaries of
both operands. -/
structure IsForm (l : Language) (checks : List (List CheckName)) (t : Trail) (x : Temporaries)
    (body : List (Stmt Unit)) : Prop where
  along : (bound l checks).AlongAll ((bound l checks).after x (declarations t)) body
  assigns : ∀ i, i < 2 → body.any (Stmt.assigns (t.child i)) = true

theorem isForm_assignments {position : Nat} {one other : Binding}
    (hposition : position = 0 ∨ position = 1) (hone : one.Within l (· ∈ x.ready))
    (hother : other.Within l (· ∈ x.ready)) :
    IsForm l checks t x
      (assignments (t.child position, one) (t.child (1 - position), other)) where
  along := ⟨along_noop _, ⟨fun _ => rfl, hone, fun _ => mem_after_declarations x (by omega)⟩,
    ⟨fun _ => rfl, hother, fun _ => mem_after_declarations x (by omega)⟩, trivial⟩
  assigns i hi := by
    obtain rfl | rfl : i = position ∨ i = 1 - position := by omega
    all_goals simp [assignments, Stmt.assigns, fresh, noop]

/-- A choice between forms binds the temporaries of both operands. -/
theorem chosen_of_forms {guard : Guard} {full absent others : List (Stmt Unit)}
    (hguard : guard.Within l checks (· ∈ x.ready)) (hfull : IsForm l checks t x full)
    (habsent : IsForm l checks t x absent)
    (hothers : (bound l checks).AlongEach ((bound l checks).after x (declarations t)) others)
    (hassigns : ∀ i, i < 2 → others.all (thenAssigns (t.child i)) = true) :
    Chosen l checks t x (declarations t ++ [.branch () guard full absent others]) := by
  refine ⟨alongAll_append.2
      ⟨declarations_along x, ⟨hguard, hfull.along, habsent.along, hothers⟩, trivial⟩,
    fun i hi => ?_⟩
  have halways : (Stmt.branch () guard full absent others).assignsAlways (t.child i) = true := by
    rw [assignsAlways, thenAssigns, hfull.assigns i hi, habsent.assigns i hi, hassigns i hi]
    rfl
  rw [after_append]
  exact List.mem_append_left _ (List.mem_filter.2 ⟨mem_after_declarations x hi, halways⟩)

theorem chosen_idle {s : Stmt Unit} {before : List (Stmt Unit)}
    (halong : (bound l checks).Along x s) (hstep : x.step s = x) (h : Chosen l checks t x before) :
    Chosen l checks t x (s :: before) := by
  refine ⟨⟨halong, ?_⟩, fun i hi => ?_⟩
  · change (bound l checks).AlongAll (x.step s) before
    rw [hstep]
    exact h.along
  · have hafter : (bound l checks).after x (s :: before) = (bound l checks).after x before := by
      change (bound l checks).after (x.step s) before = _
      rw [hstep]
    rw [hafter]
    exact h.bound i hi

/-- What is known of the groups of a chain: the temporaries of their first nodes are bound, and
those of the parents of these. -/
def GroupsReady (groups : Groups) (x : Temporaries) : Prop :=
  ∀ group first, groups.firstTrail? group = some first → first ∈ x.ready ∧ first.holder ∈ x.ready

theorem GroupsReady.mono (h : GroupsReady groups x) (hsub : x.ready ⊆ y.ready) :
    GroupsReady groups y :=
  fun group first hfirst => (h group first hfirst).imp (hsub ·) (hsub ·)

theorem pending_ready (hgroups : GroupsReady groups x) {first : Trail}
    (h : shape.pending? groups = some first) : first ∈ x.ready ∧ first.holder ∈ x.ready := by
  cases shape with
  | anyway group => exact hgroups group first h
  | _ => cases h

/-- The guard of a node uses the temporary of the node. -/
theorem trails_guard (shape : Shape) (l : Language) (t : Trail) (count : Nat) :
    ∀ u ∈ (shape.guard l t count).trails, u = t := by
  cases shape with
  | symbol name =>
    rw [Shape.guard]
    split <;> exact fun u hu => List.mem_singleton.1 hu
  | _ => exact fun u hu => List.mem_singleton.1 hu

theorem guard_within (ht : t ∈ x.ready) (shape : Shape) (count : Nat) :
    (shape.guard l t count).Within l checks (· ∈ x.ready) :=
  (Guard.within_iff (isFree_guard shape count)).2 fun u hu => trails_guard shape l t count u hu ▸ ht

theorem countGuard_within {pending : Option Trail} {count : Nat} {g : Guard} (ht : t ∈ x.ready)
    (hholder : t.holder ∈ x.ready)
    (hpending : ∀ first, pending = some first → first.holder ∈ x.ready)
    (h : shape.countGuard t pending count = .ok g) : g.Within l checks (· ∈ x.ready) := by
  rcases cases_of_countGuard h with ⟨name, rfl⟩ | ⟨first, hfirst, rfl⟩ | rfl
  · exact List.forall_mem_singleton.2 ht
  · refine List.forall_mem_cons.2 ⟨ht, List.forall_mem_singleton.2 ?_⟩
    change (if t = first then t.holder else first.holder) ∈ x.ready
    split_ifs
    · exact hholder
    · exact hpending first hfirst
  · exact List.forall_mem_singleton.2 ht

/-- What an entry does for the temporaries of its operands. -/
structure Supplies (l : Language) (checks : List (List CheckName)) (t : Trail) (x : Temporaries)
    (k : Chain Unit) (count : Nat) : Prop where
  meets : k.Meets (bound l checks) x
  bound : ∀ i, i < count → t.child i ∈ (k.reach (Discipline.bound l checks) x).ready

theorem Supplies.guarded {k : Chain Unit} {count : Nat} {g : Guard}
    (hg : g.Within l checks (· ∈ x.ready)) (h : Supplies l checks t x k count) :
    Supplies l checks t x (guarded g k) count :=
  ⟨⟨⟨along_noop x, trivial⟩, hg, h.meets⟩, h.bound⟩

theorem plainEntry_supplies {guard : Guard} {pending : Option Trail} {count : Nat}
    (ht : t ∈ x.ready) (hguard : guard.Within l checks (· ∈ x.ready))
    (hpending : ∀ first, pending = some first → first ∈ x.ready) :
    Supplies l checks t x (plainEntry o t guard pending count).1 count := by
  obtain ⟨hlines, hbound⟩ := @operandLines_along l checks t x ht 0 count
  have hinner : Supplies l checks t x (.hole (noop () :: operandLines t 0 count) none []) count :=
    ⟨⟨along_noop x, hlines⟩, fun i hi => hbound i (Nat.zero_le i) (by omega)⟩
  unfold plainEntry
  split_ifs
  · exact ⟨⟨along_noop x, ⟨Bool.noConfusion, Or.inl (isCommentLine_implied guard)⟩, hlines⟩,
      fun i hi => hbound i (Nat.zero_le i) (by omega)⟩
  · cases pending with
    | none => exact hinner.guarded hguard
    | some first =>
      have hsame : (Guard.sameOperator first t).Within l checks (· ∈ x.ready) :=
        List.forall_mem_cons.2 ⟨hpending first rfl, List.forall_mem_singleton.2 ht⟩
      exact (hinner.guarded hguard).guarded hsame

theorem Chosen.supplies {before : List (Stmt Unit)} (h : Chosen l checks t x before) :
    Supplies l checks t x (.hole (noop () :: before) none []) 2 :=
  have hline := chosen_idle (along_noop x) rfl h
  ⟨hline.along, hline.bound⟩

/-- The forms of a node with an optional operand, as a choice between two of them or between three.
-/
theorem optionalEntry_supplies {position : Nat} {missing : Binding} {pending : Option Trail}
    {e : Entry} (hposition : position = 0 ∨ position = 1)
    (hmissing : missing.Within l (· ∈ x.ready)) (ht : t ∈ x.ready) (hholder : t.holder ∈ x.ready)
    (hpending : ∀ first, pending = some first → first ∈ x.ready ∧ first.holder ∈ x.ready)
    (h : IsOptionalEntry o l t position missing pending shape e) : Supplies l checks t x e.1 2 := by
  have hread : ∀ i, (Binding.operand t i).Within l (· ∈ x.ready) := fun _ => ht
  have hsame : (Binding.same t).Within l (· ∈ x.ready) := ht
  have hfullForm :
      IsForm l checks t x (assignments (t.child 0, .operand t 0) (t.child 1, .operand t 1)) :=
    isForm_assignments (Or.inl rfl) (hread 0) (hread 1)
  have hshortForm : IsForm l checks t x
      (assignments (t.child position, missing) (t.child (1 - position), .operand t 0)) :=
    isForm_assignments hposition hmissing (hread 0)
  have hchosen : Chosen l checks t x (declarations t ++ [.branch () (.operandCountIs t 2)
      (assignments (t.child 0, .operand t 0) (t.child 1, .operand t 1))
      (assignments (t.child position, missing) (t.child (1 - position), .operand t 0)) []]) :=
    chosen_of_forms (List.forall_mem_singleton.2 ht) hfullForm hshortForm trivial fun _ _ => rfl
  cases h with
  | @implied name hroot ho htakes =>
    exact (chosen_idle (s := impliedStmt (.operatorIs t name))
      ⟨Bool.noConfusion, Or.inl (isCommentLine_implied _)⟩ rfl hchosen).supplies
  | root hroot ho htakes => exact hchosen.supplies.guarded (List.forall_mem_singleton.2 ht)
  | @below _ full short hroot hfull hshort =>
    have hguards : ∀ {count g}, shape.countGuard t pending count = .ok g →
        g.Within l checks (· ∈ x.ready) :=
      fun hg => countGuard_within ht hholder (fun first hfirst => (hpending first hfirst).2) hg
    have hothers : (bound l checks).AlongEach ((bound l checks).after x (declarations t))
        [.branch () short
          (assignments (t.child position, missing) (t.child (1 - position), .operand t 0)) [noop ()]
          []] := ⟨⟨hguards hshort, hshortForm.along, ⟨along_noop _, trivial⟩, trivial⟩, trivial⟩
    refine (chosen_of_forms (hguards hfull) hfullForm (isForm_assignments hposition hmissing hsame)
      hothers fun i hi => ?_).supplies
    rw [List.all_cons, thenAssigns, hshortForm.assigns i hi]
    rfl

/-- **The check of a node** uses temporaries that are bound, and binds those of the operands. -/
theorem entry_supplies {operands : List Expr} {e : Entry} {skipped : Option Nat} (ht : t ∈ x.ready)
    (hholder : t.holder ∈ x.ready) (hgroups : GroupsReady groups x)
    (h : entry o l shape t operands groups = some (e, skipped)) :
    Supplies l checks t x e.1 operands.length := by
  rcases cases_of_entry h with
    ⟨-, -, rfl⟩ | ⟨position, pattern, default, id, code, hop, -, -, hcode, hentry⟩
  · exact plainEntry_supplies ht (guard_within ht shape _) fun first hfirst =>
      (pending_ready hgroups hfirst).1
  · obtain ⟨built, hbuilt, hwithin⟩ := exists_of_groundCode hcode
    have hmissing : (Binding.constructed code default.unwrap).Within l (· ∈ x.ready) :=
      ⟨built, hbuilt, Construction.Within.mono (fun _ h => h.elim) built hwithin⟩
    rw [length_of_optionalOperand? hop]
    exact optionalEntry_supplies (position_of_optionalOperand? hop) hmissing ht hholder
      (fun first => pending_ready hgroups) hentry

/-! ### Patterns in a chain -/

/-- The temporaries of the metavariables that occur, and of the groups, are bound. -/
structure Holds (occurrences : List (MetaId × Trail)) (groups : Groups) (x : Temporaries) :
    Prop where
  metas : ∀ m ∈ occurrences, m.2 ∈ x.ready
  groups : GroupsReady groups x

/-- What is known of a chain between two operands of the node at a trail. -/
structure Halfway (l : Language) (checks : List (List CheckName)) (t : Trail) (x : Temporaries)
    (index : Nat) (patterns : List Expr) (skipped : Option Nat) (groups : Groups) (k : Chain Unit) :
    Prop where
  meets : k.Meets (bound l checks) x
  node : t ∈ x.ready
  operands : ∀ i, i < patterns.length → t.child (index + i) ∈ (k.reach (bound l checks) x).ready
  groups : GroupsReady groups (k.reach (bound l checks) x)
  busy : k.Busy
  counts : ∀ g countAt count, k.frontGuard? = some g →
      g.operandCountCheck? = some (countAt, count) → countAt = t
  skipped : ∀ j p, skipped = some (index + j) → patterns[j]? = some p →
      ∃ id, p.optionalMeta? = some id

namespace Halfway

variable {index : Nat} {p : Expr} {rest : List Expr} {skipped : Option Nat}
  {groups groups' : Groups} {k r : Chain Unit}

theorem operand (h : Halfway l checks t x index (p :: rest) skipped groups k) :
    t.child index ∈ (k.reach (bound l checks) x).ready :=
  h.operands 0 (Nat.zero_lt_succ _)

theorem holder (h : Halfway l checks t x index (p :: rest) skipped groups k) :
    (t.child index).holder ∈ (k.reach (bound l checks) x).ready := by
  rw [Trail.holder_child]
  exact ready_reach x k h.node

/-- The next operand has no chain. -/
theorem next (h : Halfway l checks t x index (p :: rest) skipped groups k)
    (hgroups : GroupsReady groups' (k.reach (bound l checks) x)) :
    Halfway l checks t x (index + 1) rest skipped groups' k where
  meets := h.meets
  node := h.node
  operands i hi := by
    rw [Nat.add_assoc, Nat.add_comm 1 i]
    exact h.operands (i + 1) (Nat.succ_lt_succ hi)
  groups := hgroups
  busy := h.busy
  counts := h.counts
  skipped j q hj hq := h.skipped (j + 1) q (by rw [hj, Nat.add_assoc, Nat.add_comm 1 j]) hq

/-- The guard that joins a count with the comparison of an operand uses the temporary of the node
only. -/
theorem join (h : Halfway l checks t x index (p :: rest) skipped groups k)
    (hr : patternChain o l p (t.child index) groups = some (some r, groups')) {g : Guard}
    (hg : Chain.joinGuard? k r = some g) : g.Within l checks (· ∈ x.ready) := by
  obtain ⟨f, f', countAt, first, second, count, halign, hf, hf', hcount, hpair, rfl⟩ :=
    Chain.joinGuard?_eq_some hg
  obtain rfl : countAt = t := h.counts _ _ _ (Chain.frontGuard?_of_front? hf) hcount
  obtain ⟨rfl, -⟩ := pairing_patternChain p hr (Chain.frontGuard?_of_front? hf') hpair
  obtain rfl : countAt = first :=
    halign.resolve_right fun heq => Trail.child_ne countAt index heq.symm
  refine List.forall_mem_cons.2 ⟨h.node, List.forall_mem_singleton.2 ?_⟩
  change (if countAt = countAt then (countAt.child index).holder else countAt.holder) ∈ x.ready
  rw [if_pos rfl, Trail.holder_child]
  exact h.node

/-- The chain of the next operand is attached. -/
theorem attach (h : Halfway l checks t x index (p :: rest) skipped groups k) (joins : Bool)
    (hr : patternChain o l p (t.child index) groups = some (some r, groups'))
    (hmeets : r.Meets (bound l checks) (k.reach (bound l checks) x))
    (hgroups : GroupsReady groups' (r.reach (bound l checks) (k.reach (bound l checks) x))) :
    (k.attach joins () r).reach (bound l checks) x =
      r.reach (bound l checks) (k.reach (bound l checks) x) ∧
    Halfway l checks t x (index + 1) rest skipped groups' (k.attach joins () r) := by
  obtain ⟨hattach, hreach⟩ :=
    h.meets.attach (isIdle_bound l checks) hmeets joins fun g hg => h.join hr hg
  have hnext := h.next h.groups
  refine ⟨hreach, hattach, h.node, fun i hi => ?_, ?_, h.busy.attach _ () r,
    fun g countAt count hfront hcount => ?_, hnext.skipped⟩
  · rw [hreach]
    exact ready_reach _ r (hnext.operands i hi)
  · rw [hreach]
    exact hgroups
  · rcases Chain.frontGuard?_attach h.busy joins () r with hsame | ⟨c, hany⟩
    · exact h.counts g countAt count (hsame ▸ hfront) hcount
    · cases hany.symm.trans hfront
      cases hcount

end Halfway

theorem GroupsReady.joinGroup (h : GroupsReady groups x) (ht : t ∈ x.ready)
    (hholder : t.holder ∈ x.ready) (shape : Shape) : GroupsReady (shape.joinGroup groups t) x := by
  cases shape with
  | anyway group =>
    intro g first hfirst
    rcases @Table.firstTrail?_foldl groups [(group, t)] g first hfirst with hfirst | ⟨m, hm, rfl⟩
    · exact h g first hfirst
    · rw [List.mem_singleton.1 hm]
      exact ⟨ht, hholder⟩
  | _ => exact h

theorem IsNode.metaOccurrences_eq {e : Expr} {operands : List Expr}
    (hnode : IsNode l e shape operands) (t : Trail) :
    e.metaOccurrences t = Expr.metaOccurrencesAll t 0 operands := by
  cases hnode <;> rfl

theorem entry_halfway {operands : List Expr} {groups' : Groups} {e : Entry} {skipped : Option Nat}
    (ht : t ∈ x.ready) (hholder : t.holder ∈ x.ready) (hgroups : GroupsReady groups x)
    (hgroups' : GroupsReady groups' x) (h : entry o l shape t operands groups = some (e, skipped)) :
    Halfway l checks t x 0 operands skipped groups' e.1 := by
  have hsupplies : Supplies l checks t x e.1 operands.length := entry_supplies ht hholder hgroups h
  refine ⟨hsupplies.meets, ht, fun i hi => ?_, hgroups'.mono (ready_reach x e.1),
    (isEntry_entry h).2.1,
    fun g countAt count hfront hcount => ((frontGuard?_entry h hfront).2 countAt count hcount).1,
    fun j p hj hp => entry_skipped h (by rw [hj, Nat.zero_add]) hp⟩
  rw [Nat.zero_add]
  exact hsupplies.bound i hi

/-- A placeholder at the end of a chain changes nothing. -/
theorem meets_closed {k : Chain Unit} {depth : Nat} {occurrences : List (MetaId × Trail)}
    (wanted : Bool) (hmeets : k.Meets (bound l checks) x)
    (hholds : Holds occurrences groups (k.reach (bound l checks) x)) :
    (∀ r, some (if wanted then k.leave () depth else k) = some r → r.Meets (bound l checks) x) ∧
    Holds occurrences groups
      ((if wanted then k.leave () depth else k).reach (bound l checks) x) := by
  split_ifs
  · exact ⟨fun r hr => Option.some.inj hr ▸ Chain.meets_leave.2 hmeets, by rwa [Chain.reach_leave]⟩
  · exact ⟨fun r hr => Option.some.inj hr ▸ hmeets, hholds⟩

/-- A pattern keeps the discipline and binds what it captures, and so do the operands of a node. -/
theorem patternChain_meets_all (o : Options) (l : Language) (checks : List (List CheckName)) :
    (∀ (p : Expr) (t : Trail) (x : Temporaries) (groups groups' : Groups) (k : Option (Chain Unit)),
      t ∈ x.ready → t.holder ∈ x.ready → GroupsReady groups x →
      patternChain o l p t groups = some (k, groups') →
      (∀ r, k = some r → r.Meets (bound l checks) x) ∧
        Holds (p.metaOccurrences t) groups' ((k.map (Chain.reach (bound l checks) x)).getD x)) ∧
    ∀ (ps : List Expr) (skipped : Option Nat) (t : Trail) (x : Temporaries) (index : Nat)
      (k k' : Chain Unit) (wanted wanted' : Bool) (groups groups' : Groups),
      Halfway l checks t x index ps skipped groups k →
      operandsChain o l skipped t index ps k wanted groups = some (k', wanted', groups') →
      k'.Meets (bound l checks) x ∧
        (k.reach (bound l checks) x).ready ⊆ (k'.reach (bound l checks) x).ready ∧
        Holds (Expr.metaOccurrencesAll t index ps) groups' (k'.reach (bound l checks) x) := by
  apply pattern_induct l
  case metavar =>
    intro id t x groups groups' k ht _ hgroups h
    cases h
    exact ⟨fun r hr => (by cases hr), List.forall_mem_singleton.2 ht, hgroups⟩
  case compound => exact fun inner ih => ih
  case optional =>
    intro pattern default _ _ t x groups groups' k _ _ _ h
    simp [patternChain] at h
  case node =>
    intro p shape operands hnode ih t x groups groups' k ht hholder hgroups h
    obtain ⟨e0, skipped, k', wanted, he, hk, rfl⟩ := hnode.exists_of_patternChain h
    have hjoined := hgroups.joinGroup ht hholder shape
    obtain ⟨hmeets, -, hholds⟩ :=
      ih _ _ _ _ _ _ _ _ _ _ (entry_halfway ht hholder hgroups hjoined he) hk
    rw [hnode.metaOccurrences_eq]
    exact meets_closed wanted hmeets hholds
  case nil =>
    intro skipped t x index k k' wanted wanted' groups groups' hk h
    cases h
    exact ⟨hk.meets, List.Subset.refl _, List.forall_mem_nil _, hk.groups⟩
  case cons =>
    intro p rest hp hrest skipped t x index k k' wanted wanted' groups groups' hk h
    -- what the operand binds is bound to the end
    have later : ∀ {k1 : Chain Unit} {groups1 wanted1},
        Halfway l checks t x (index + 1) rest skipped groups1 k1 →
        (k.reach (bound l checks) x).ready ⊆ (k1.reach (bound l checks) x).ready →
        (∀ m ∈ p.metaOccurrences (t.child index), m.2 ∈ (k1.reach (bound l checks) x).ready) →
        operandsChain o l skipped t (index + 1) rest k1 wanted1 groups1 =
          some (k', wanted', groups') →
        k'.Meets (bound l checks) x ∧
          (k.reach (bound l checks) x).ready ⊆ (k'.reach (bound l checks) x).ready ∧
          Holds (Expr.metaOccurrencesAll t index (p :: rest)) groups'
            (k'.reach (bound l checks) x) := by
      intro k1 groups1 wanted1 hk1 hsub hmetas h
      obtain ⟨hmeets, hsub', hholds⟩ := hrest _ _ _ _ _ _ _ _ _ _ hk1 h
      refine ⟨hmeets, List.Subset.trans hsub hsub', fun m hm => ?_, hholds.groups⟩
      rcases List.mem_append.1 hm with hm | hm
      · exact hsub' (hmetas m hm)
      · exact hholds.metas m hm
    rcases cases_of_operandsChain h with ⟨hs, h⟩ | ⟨-, k1, groups1, hr, h⟩
    · obtain ⟨id, hid⟩ := hk.skipped 0 p hs rfl
      refine later (hk.next hk.groups) (List.Subset.refl _) ?_ h
      rw [(Expr.of_optionalMeta? hid).2.1]
      exact List.forall_mem_singleton.2 hk.operand
    · obtain ⟨hmeets, hholds⟩ := hp _ _ _ _ _ hk.operand hk.holder hk.groups hr
      cases k1 with
      | none => exact later (hk.next hholds.groups) (List.Subset.refl _) hholds.metas h
      | some r =>
        obtain ⟨hreach, hnext⟩ := hk.attach o.joinComparisons hr (hmeets r rfl) hholds.groups
        refine later hnext ?_ ?_ h
        · rw [hreach]
          exact ready_reach _ r
        · rw [hreach]
          exact hholds.metas

end Matcher

end Rulewright
