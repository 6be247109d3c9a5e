import Rulewright.Proofs.Matching.Named

/-!
# The operands that matchers read

A matcher reads the operands of a node after it has checked the node. The check counts the operands
where an operator takes several counts, where the operator is left open and where an operand is
optional. Elsewhere it is the name alone that is checked, and the operands are there only if the
pattern has no more of them than the operator takes.

* `Code.assigned`: the definitions that are run.
* `Expr.uncounted`: the nodes of a pattern whose operands are not counted.
* `Expr.IsProper`: a ground term in which operators are used with the counts they declare.
* `sound_patternChain`: the matcher of a pattern finds what it reads, node by node.
* `operand_reads`: every operand that is read is there, or it is one of a node whose operands are
  not counted.
-/

namespace Rulewright

open Stmt

/-- A definition that is run, and what is bound before. -/
structure Assignment where
  target : Trail
  binding : Binding
  bindings : Bindings

/-- Definitions that are run are noted down. -/
def Assignment.recorder : Recorder Assignment :=
  ⟨fun target binding b => [⟨target, binding, b⟩], fun _ _ => []⟩

/-- The definitions that are run on a term. -/
def Code.assigned (c : Code) (l : Language) (free : String → Bool) (id : NodeId)
    (candidate : Expr) : List Assignment :=
  c.recorded Assignment.recorder l free id candidate

/-- An operator that stands at a trail of a pattern, with its number of operands. -/
structure Use where
  trail : Trail
  operator : String
  count : Nat
  deriving DecidableEq

namespace Expr

variable {l : Language}

mutual

/-- The uses of operators in a pattern whose operands are not counted: the operator does not take
several counts, and no operand is optional. -/
def uncounted (l : Language) (trail : Trail) : Expr → List Use
  | .compound inner => inner.uncounted l trail
  | .app symbol operands =>
    (if (Matcher.optionalOperand? operands).isNone && l.declarationState (l.name symbol) !=
          some .overloaded then [⟨trail, l.name symbol, operands.length⟩]
      else []) ++ uncountedAll l trail 0 operands
  | .anyway _ operands => uncountedAll l trail 0 operands
  | .metavar _ | .var _ | .literal _ | .optional _ _ => []

def uncountedAll (l : Language) (trail : Trail) (index : Nat) : List Expr → List Use
  | [] => []
  | e :: rest => e.uncounted l (trail.child index) ++ uncountedAll l trail (index + 1) rest

end

mutual

/-- Operators with declared operand counts are used with one of them. A variable is used without
operands. -/
def keepsCounts (l : Language) : Expr → Bool
  | .metavar _ | .literal _ => true
  | .var name => (l.arities? name).all (·.contains 0)
  | .app symbol operands =>
    (l.arities? (l.name symbol)).all (·.contains operands.length) && allKeepCounts l operands
  | .compound inner => inner.keepsCounts l
  | .optional pattern default => pattern.keepsCounts l && default.keepsCounts l
  | .anyway _ operands => allKeepCounts l operands

def allKeepCounts (l : Language) : List Expr → Bool
  | [] => true
  | e :: rest => e.keepsCounts l && allKeepCounts l rest

end

theorem mem_allKeepCounts {es : List Expr} (h : allKeepCounts l es = true) {x : Expr}
    (hx : x ∈ es) : x.keepsCounts l = true := by
  induction es with
  | nil => cases hx
  | cons e rest ih =>
    rw [allKeepCounts, Bool.and_eq_true] at h
    rcases List.mem_cons.1 hx with rfl | hx
    · exact h.1
    · exact ih h.2 hx

theorem uncounted_below :
    (∀ e : Expr, ∀ t, ∀ u ∈ e.uncounted l t, u.trail = t ∨ t.Below u.trail) ∧
    ∀ es : List Expr, ∀ t index, ∀ u ∈ uncountedAll l t index es, t.Below u.trail := by
  apply Expr.induct
  case metavar => exact fun id t u hu => (by cases hu)
  case var => exact fun name t u hu => (by cases hu)
  case literal => exact fun value t u hu => (by cases hu)
  case app =>
    intro symbol operands ih t u hu
    rcases List.mem_append.1 hu with hu | hu
    · split_ifs at hu
      · rw [List.mem_singleton.1 hu]
        exact Or.inl rfl
      · cases hu
    · exact Or.inr (ih t 0 u hu)
  case compound => exact fun inner ih => ih
  case optional => exact fun pattern default _ _ t u hu => (by cases hu)
  case anyway => exact fun group operands ih t u hu => Or.inr (ih t 0 u hu)
  case nil => exact fun t index u hu => (by cases hu)
  case cons =>
    intro e rest he hrest t index u hu
    rcases List.mem_append.1 hu with hu | hu
    · rcases he _ u hu with heq | hbelow
      · exact heq ▸ t.below_child index
      · exact hbelow.of_child
    · exact hrest t (index + 1) u hu

/-- A use at the trail of a pattern is the one of its root. -/
theorem uncounted_self {e : Expr} {t : Trail} {u : Use} (hu : u ∈ e.uncounted l t)
    (ht : u.trail = t) :
    ∃ symbol operands, e.unwrap = .app symbol operands ∧ Matcher.optionalOperand? operands = none ∧
      l.declarationState (l.name symbol) ≠ some .overloaded ∧
      u = ⟨t, l.name symbol, operands.length⟩ := by
  fun_induction unwrap e with
  | case1 inner ih => exact ih hu
  | case2 e hne =>
    cases e with
    | compound inner => exact absurd rfl (hne inner)
    | app symbol operands =>
      rcases List.mem_append.1 hu with hu | hu
      · split_ifs at hu with hplain
        · rw [Bool.and_eq_true, Option.isNone_iff_eq_none, bne_iff_ne] at hplain
          exact ⟨symbol, operands, rfl, hplain.1, hplain.2, List.mem_singleton.1 hu⟩
        · cases hu
      · exact absurd (ht ▸ uncounted_below.2 operands t 0 u hu) t.not_below_self
    | anyway group operands =>
      exact absurd (ht ▸ uncounted_below.2 operands t 0 u hu) t.not_below_self
    | _ => cases hu

/-- A ground term in which operators with declared operand counts are used with one of them. -/
structure IsProper (l : Language) (e : Expr) : Prop where
  ground : e.isGround = true
  counts : e.keepsCounts l = true

namespace IsProper

variable {e : Expr}

theorem operand (h : e.IsProper l) {x : Expr} (hx : x ∈ e.operands) : x.IsProper l := by
  cases e with
  | app symbol operands =>
    obtain ⟨-, hcounts⟩ := Bool.and_eq_true_iff.1 h.counts
    exact ⟨mem_allGround h.ground hx, mem_allKeepCounts hcounts hx⟩
  | anyway group operands => cases h.ground
  | _ => cases hx

theorem count_mem (h : e.IsProper l) {name : String} (hname : e.operator? l = some name)
    {counts : List Nat} (hcounts : l.arities? name = some counts) : e.operands.length ∈ counts := by
  have hkeeps := h.counts
  cases e with
  | var x =>
    cases hname
    rw [keepsCounts, hcounts] at hkeeps
    exact List.contains_iff_mem.1 hkeeps
  | app symbol operands =>
    cases hname
    rw [keepsCounts, hcounts, Bool.and_eq_true] at hkeeps
    exact List.contains_iff_mem.1 hkeeps.1
  | literal value => cases hname
  | _ => cases h.ground

/-- An operator that declares no other count is used properly with this many zeros. -/
theorem zeros {symbol : SymbolId} {n : Nat}
    (h : ∀ counts, l.arities? (l.name symbol) = some counts → counts = [n]) :
    (Expr.app symbol (List.replicate n (.literal (.int 0)))).IsProper l := by
  have hoperands : ∀ m, allGround (List.replicate m (.literal (.int 0))) = true ∧
      allKeepCounts l (List.replicate m (.literal (.int 0))) = true := by
    intro m
    induction m with
    | zero => exact ⟨rfl, rfl⟩
    | succ m ih => exact ih
  refine ⟨(hoperands n).1, ?_⟩
  rw [keepsCounts, (hoperands n).2, List.length_replicate, Bool.and_true]
  cases hcounts : l.arities? (l.name symbol) with
  | none => rfl
  | some counts =>
    rw [h counts hcounts]
    simp

end IsProper

end Expr

namespace Bindings

variable {l : Language} {uses : List Use} {b b' : Bindings} {s t : Trail}

/-- The node at a trail is there, and so is the operand that is read. Else the operands of the node
are not counted: the pattern has more of them than the operator takes, or the operator declares
nothing. -/
def Finds (l : Language) (uses : List Use) (b : Bindings) (parent : Trail) (index : Nat) : Prop :=
  ∃ whole, b.nodeAt parent = some whole ∧
    (index < whole.operands.length ∨
      ∃ u ∈ uses, u.trail = parent ∧ index < u.count ∧ whole.operator? l = some u.operator ∧
        ∀ counts, l.arities? u.operator = some counts → counts = [whole.operands.length])

theorem Finds.congr {index : Nat} (h : b.Finds l uses t index) (hnode : b'.nodeAt t = b.nodeAt t) :
    b'.Finds l uses t index := by
  obtain ⟨whole, hwhole, hfinds⟩ := h
  exact ⟨whole, hnode.trans hwhole, hfinds⟩

theorem finds_of_countIs {count index : Nat} (h : b.countIs t count = true) (hlt : index < count) :
    b.Finds l uses t index := by
  obtain ⟨whole, hwhole, rfl⟩ := exists_of_countIs h
  exact ⟨whole, hwhole, Or.inl hlt⟩

theorem exists_of_operatorIs {free : String → Bool} {name : String}
    (h : (Guard.operatorIs t name).holds l free b = true) :
    ∃ whole, b.nodeAt t = some whole ∧ whole.operator? l = some name := by
  cases hnode : b.nodeAt t with
  | none => simp [Guard.operatorIs, Guard.holds, Side.value?, operatorAt, hnode] at h
  | some whole =>
    simp only [Guard.operatorIs, Guard.holds, Side.value?, operatorAt, hnode, Option.bind_some] at h
    refine ⟨whole, rfl, ?_⟩
    cases hname : whole.operator? l with
    | none => simp [hname] at h
    | some other => simpa [hname] using h

/-- The node at a trail is bound there, and a proper term. -/
structure Proper (l : Language) (b : Bindings) (t : Trail) : Prop where
  bound : b.get? t = b.nodeAt t
  proper : ∀ x, b.nodeAt t = some x → x.IsProper l

theorem Proper.frame (h : Proper l b t) (hframe : ∀ t', ¬ s.Below t' → b'.get? t' = b.get? t')
    (ht : ¬ s.Below t) : Proper l b' t := by
  have hnode := nodeAt_frame hframe ht
  exact ⟨by rw [hframe t ht, h.bound, hnode], fun x hx => h.proper x (hnode.symm.trans hx)⟩

/-- A node that is held below a proper one is proper, displaced or not. -/
theorem Proper.child (h : Proper l b t) {operands : List Expr} {j : Nat}
    (hheld :
      Held ((Matcher.optionalOperand? operands).toList.map fun x => (t, x.1)) b (t.child j)) :
    Proper l b (t.child j) := by
  have parent_eq : ∀ {parent position},
      (parent, position) ∈ (Matcher.optionalOperand? operands).toList.map (fun x => (t, x.1)) →
      parent = t := by
    intro parent position hmem
    obtain ⟨x, -, hx⟩ := List.mem_map.1 hmem
    exact (Prod.mk.inj hx).1.symm
  refine ⟨hheld.bound, fun x hx => ?_⟩
  rcases hheld.reads with hreads | hdisplaced
  · rw [hx, accessed?_child, h.bound] at hreads
    obtain ⟨whole, hwhole, hpart⟩ := Option.bind_eq_some_iff.1 hreads
    exact (h.proper whole hwhole).operand (List.mem_of_getElem? hpart)
  · cases hdisplaced with
    | absent mem trail bound node =>
      obtain rfl := parent_eq mem
      exact h.proper x (h.bound.symm.trans (bound.trans (node.symm.trans hx)))
    | short mem trail bound count first node =>
      obtain rfl := parent_eq mem
      obtain rfl := Option.some.inj (node.symm.trans hx)
      exact (h.proper _ (h.bound.symm.trans bound)).operand (List.mem_of_getElem? first)

end Bindings

open Bindings

/-- An operand that is read is found. -/
def Assignment.Sound (l : Language) (uses : List Use) (d : Assignment) : Prop :=
  ∀ parent index, d.binding = .operand parent index → d.bindings.Finds l uses parent index

namespace Matcher

variable {o : Options} {l : Language} {free : String → Bool} {t : Trail} {p : Code.Progress}
  {d : Assignment} {uses : List Use} {shape : Shape} {operands : List Expr} {groups : Groups}
  {skipped : Option Nat}

/-! ### The definitions at the entry of a node -/

theorem sound_operandLines {index count : Nat}
    (h : ∀ i, index ≤ i → i < index + count → p.bindings.Finds l uses t i)
    (hd : d ∈ recordedAll Assignment.recorder l free (operandLines t index count) p) :
    d.Sound l uses := by
  induction count generalizing index p with
  | zero => cases hd
  | succ count ih =>
    rcases List.mem_cons.1 hd with rfl | hd
    · intro parent i hi
      cases hi
      exact h index le_rfl (by omega)
    · refine ih (fun i hi hlt => ?_) hd
      exact (h i (by omega) (by omega)).congr (nodeAt_assign_child p.bindings t index _)

/-- Operands are read under a guard from which it follows that they are found. -/
theorem sound_plainEntry (ho : o.skipRootGuard = false) {guard : Guard} {pending : Option Trail}
    {count : Nat}
    (h : guard.holds l free p.bindings = true → ∀ i, i < count → p.bindings.Finds l uses t i)
    (hd : d ∈ (plainEntry o t guard pending count).1.recorded Assignment.recorder l free p) :
    d.Sound l uses := by
  have inner : ∀ {guard},
      (guard.holds l free p.bindings = true → ∀ i, i < count → p.bindings.Finds l uses t i) →
      d ∈
        (guarded guard (.hole (noop () :: operandLines t 0 count) none [])).recorded
          Assignment.recorder l free p →
      d.Sound l uses := by
    intro guard h hd
    rcases mem_recorded_guarded hd with hd | ⟨hg, hd⟩
    · cases hd
    · exact sound_operandLines (fun i _ hlt => h hg i (by omega)) hd
  unfold plainEntry at hd
  rw [ho] at hd
  cases pending with
  | none => exact inner h hd
  | some first =>
    rcases mem_recorded_guarded hd with hd | ⟨-, hd⟩
    · cases hd
    · exact inner h hd

/-- Two assignments that read operands of one node, both of which are found. -/
theorem sound_assignments {i j : Nat} {β γ : Binding}
    (h : ∀ parent index, β = .operand parent index ∨ γ = .operand parent index →
      parent = t ∧ p.bindings.Finds l uses t index)
    (hd : d ∈
      recordedAll Assignment.recorder l free (assignments (t.child i, β) (t.child j, γ)) p) :
    d.Sound l uses := by
  rcases List.mem_cons.1 hd with rfl | hd
  · intro parent index hindex
    obtain ⟨rfl, hfinds⟩ := h parent index (Or.inl hindex)
    exact hfinds
  · obtain rfl := List.mem_singleton.1 hd
    intro parent index hindex
    obtain ⟨rfl, hfinds⟩ := h parent index (Or.inr hindex)
    exact hfinds.congr (nodeAt_assign_child p.bindings parent i β)

theorem sound_full (h : p.bindings.countIs t 2 = true)
    (hd : d ∈
      recordedAll Assignment.recorder l free
        (assignments (t.child 0, .operand t 0) (t.child 1, .operand t 1)) p) :
    d.Sound l uses := by
  refine sound_assignments (fun parent index hindex => ?_) hd
  rcases hindex with hindex | hindex <;> cases hindex
  · exact ⟨rfl, finds_of_countIs h (by omega)⟩
  · exact ⟨rfl, finds_of_countIs h (by omega)⟩

theorem sound_short (h : p.bindings.countIs t 1 = true) {i j : Nat} {code : String} {value : Expr}
    (hd : d ∈
      recordedAll Assignment.recorder l free
        (assignments (t.child i, .constructed code value) (t.child j, .operand t 0)) p) :
    d.Sound l uses := by
  refine sound_assignments (fun parent index hindex => ?_) hd
  rcases hindex with hindex | hindex <;> cases hindex
  exact ⟨rfl, finds_of_countIs h (by omega)⟩

/-- A root with an optional operand takes one or two operands, so one that does not have two has
one. -/
theorem countIs_one {b : Bindings} (hb : b.Proper l t) {name : String}
    (htakes : takesOneOrTwo l name = true) (hg : (Guard.operatorIs t name).holds l free b = true)
    (htwo : b.countIs t 2 = false) : b.countIs t 1 = true := by
  obtain ⟨whole, hwhole, hname⟩ := exists_of_operatorIs hg
  unfold takesOneOrTwo at htakes
  split at htakes
  · rename_i counts hcounts
    have hmem := (hb.proper whole hwhole).count_mem hname hcounts
    have hone := List.all_eq_true.1 (Bool.and_eq_true_iff.1 htakes).2 _ hmem
    rw [countIs, hwhole] at htwo ⊢
    simpa [htwo] using hone
  · cases htakes

/-- A node with an optional operand is counted before its operands are read. -/
theorem sound_optionalEntry (ho : o.skipRootGuard = false) (hp : p.bindings.Proper l t)
    {pending : Option Trail} {position : Nat} {code : String} {value : Expr} {e : Entry}
    (h : IsOptionalEntry o l t position (.constructed code value) pending shape e)
    (hd : d ∈ e.1.recorded Assignment.recorder l free p) : d.Sound l uses := by
  have hcount : (Guard.operandCountIs t 2).holds l free p.bindings = p.bindings.countIs t 2 :=
    Guard.holds_of_operandCountCheck? l free p.bindings rfl
  cases h with
  | implied _ hskip => cases ho.symm.trans hskip
  | root hroot _ htakes =>
    rcases mem_recorded_guarded hd with hd | ⟨hg, hd⟩
    · cases hd
    · rcases mem_recorded_choice hd with hd | ⟨htwo, hd⟩ | ⟨htwo, hd | hd⟩
      · cases hd
      · exact sound_full (hcount.symm.trans htwo) hd
      · cases hd
      · exact sound_short (countIs_one hp htakes hg (hcount.symm.trans htwo)) hd
  | @below _ full short hroot hfull hshort =>
    rcases mem_recorded_choice hd with hd | ⟨htwo, hd⟩ | ⟨-, hd | hd⟩
    · cases hd
    · exact sound_full (countIs_of_countGuard hfull htwo) hd
    · rw [recordedElseIfs, recordedElseIfs] at hd
      change d ∈ (if short.holds l free p.bindings then _ else []) at hd
      split_ifs at hd with hone
      · exact sound_short (countIs_of_countGuard hshort hone) hd
      · cases hd
    · -- without the node no operand is read
      refine sound_assignments (fun parent index hindex => ?_) hd
      rcases hindex with hindex | hindex <;> cases hindex

/-- The guard of a node without an optional operand counts its operands or leaves them uncounted. -/
theorem finds_of_guard (hp : p.bindings.Proper l t)
    (huses : ∀ name, shape = .symbol name → l.declarationState name ≠ some .overloaded →
      ⟨t, name, operands.length⟩ ∈ uses)
    (hleaf : (∀ name, shape ≠ .symbol name) → (∀ group, shape ≠ .anyway group) → operands = [])
    (hg : (shape.guard l t operands.length).holds l free p.bindings = true) {i : Nat}
    (hi : i < operands.length) : p.bindings.Finds l uses t i := by
  cases shape with
  | symbol name =>
    rw [Shape.guard] at hg
    split at hg
    · exact finds_of_countIs (Bool.and_eq_true_iff.1 hg).2 hi
    · rename_i hstate
      obtain ⟨whole, hwhole, hname⟩ := exists_of_operatorIs hg
      refine ⟨whole, hwhole,
        Or.inr ⟨_, huses name rfl hstate, rfl, hi, hname, fun counts hcounts => ?_⟩⟩
      exact eq_singleton_of_mem hstate hcounts ((hp.proper whole hwhole).count_mem hname hcounts)
  | anyway group =>
    rw [Shape.guard,
      Guard.holds_of_operandCountCheck? l free p.bindings (t := t) (n := operands.length) rfl] at hg
    exact finds_of_countIs hg hi
  | _ =>
    rw [hleaf (by simp) (by simp)] at hi
    cases hi

/-- The definitions at the entry of a node are sound. -/
theorem sound_entry (ho : o.skipRootGuard = false) (hp : p.bindings.Proper l t) {e : Entry}
    (h : entry o l shape t operands groups = some (e, skipped))
    (huses : ∀ name, shape = .symbol name → optionalOperand? operands = none →
      l.declarationState name ≠ some .overloaded → ⟨t, name, operands.length⟩ ∈ uses)
    (hleaf : (∀ name, shape ≠ .symbol name) → (∀ group, shape ≠ .anyway group) → operands = [])
    (hd : d ∈ e.1.recorded Assignment.recorder l free p) : d.Sound l uses := by
  rcases cases_of_entry h with ⟨hnone, -, rfl⟩ | ⟨_, _, _, _, _, -, -, -, -, hentry⟩
  · exact sound_plainEntry ho
      (fun hg i hi => finds_of_guard hp (fun name hname => huses name hname hnone) hleaf hg hi) hd
  · exact sound_optionalEntry ho hp hentry hd

/-- The operands that matchers follow for are proper when the entry of their node has been passed.
-/
theorem proper_entry {b b' : Bindings} (hb : b.Proper l t) {e : Entry}
    (h : entry o l shape t operands groups = some (e, skipped)) (hp : e.1.pass l free b = some b')
    {j : Nat} (hj : j < operands.length) (hs : skipped ≠ some j) : b'.Proper l (t.child j) := by
  have hheld : Held ((optionalOperand? operands).toList.map fun x => (t, x.1)) b' (t.child j) :=
    held_entry h (fun x hx => List.mem_map.2 ⟨x, hx, rfl⟩) hb.bound hp hj hs
  exact (hb.frame (fun t' ht => ((entry_binds h).mono below_of_child).frame hp ht)
    t.not_below_self).child hheld

/-! ### Patterns -/

/-- The chain of a node while the matchers of its operands are added, those from number `index` on
being left. -/
structure Partway (l : Language) (free : String → Bool) (uses : List Use) (t : Trail) (total : Nat)
    (skipped : Option Nat) (p : Code.Progress) (index : Nat) (k : Chain Unit) : Prop where
  footing : Footing l t index k
  sound : ∀ d ∈ k.recorded Assignment.recorder l free p, d.Sound l uses
  proper : ∀ b', k.pass l free p.bindings = some b' →
      ∀ j, index ≤ j → j < total → skipped ≠ some j → b'.Proper l (t.child j)

namespace Partway

variable {total index : Nat} {skipped : Option Nat} {k : Chain Unit} {groups groups' : Groups}

theorem next (h : Partway l free uses t total skipped p index k) :
    Partway l free uses t total skipped p (index + 1) k where
  footing := h.footing.next
  sound := h.sound
  proper b' hb' j hj := h.proper b' hb' j (by omega)

/-- The matcher of an operand is added. -/
theorem attach (h : Partway l free uses t total skipped p index k) (hb : p.bindings.Bare t)
    {e : Expr} {r : Chain Unit}
    (hr : patternChain o l e (t.child index) groups = some (some r, groups')) (hlt : index < total)
    (hs : skipped ≠ some index)
    (hsound : ∀ b', b'.Bare (t.child index) → b'.Proper l (t.child index) →
      ∀ d ∈ r.recorded Assignment.recorder l free { p with bindings := b' }, d.Sound l uses) :
    Partway l free uses t total skipped p (index + 1) (k.attach o.joinComparisons () r) where
  footing := h.footing.attach hr o.joinComparisons
  sound d hd := by
    rcases Chain.mem_recorded_attach h.footing.tidy.isQuiet
      (fun b' hb' => h.footing.same_operators hr hb hb') hd with
      hd | ⟨b', hb', hd⟩ | ⟨_, _, _, _, _, _, _, _, _, _, _, hd⟩
    · exact h.sound d hd
    · exact hsound b' (h.footing.bare free _ b' hb hb' index le_rfl)
        (h.proper b' hb' index le_rfl hlt hs) d hd
    · -- a joined guard defines nothing
      cases hd
  proper b' hb' j hj hlt' hs' := by
    rw [h.footing.pass_attach hr o.joinComparisons free hb] at hb'
    obtain ⟨b1, hk, hr'⟩ := Option.bind_eq_some_iff.1 hb'
    -- the matcher binds below its own operand only, so the later ones stay as they are
    exact (h.proper b1 hk j (by omega) hlt' hs').frame
      (fun t' ht' => (patternChain_binds hr).frame hr' ht') (Trail.not_below_child t j index)

end Partway

/-- The definitions of the matcher of a pattern are sound wherever its node is proper. -/
def PatternSound (o : Options) (l : Language) (free : String → Bool) (uses : List Use) (e : Expr) :
    Prop :=
  ∀ (t : Trail) (groups groups' : Groups) (k : Chain Unit) (p : Code.Progress),
    patternChain o l e t groups = some (some k, groups') → e.uncounted l t ⊆ uses →
    p.bindings.Bare t → p.bindings.Proper l t →
    ∀ d ∈ k.recorded Assignment.recorder l free p, d.Sound l uses

/-- The matchers of the operands keep the definitions sound. -/
def OperandsSound (o : Options) (l : Language) (free : String → Bool) (uses : List Use)
    (es : List Expr) : Prop :=
  ∀ (skipped : Option Nat) (t : Trail) (index : Nat) (k k' : Chain Unit) (w w' : Bool)
    (groups groups' : Groups) (p : Code.Progress),
    operandsChain o l skipped t index es k w groups = some (k', w', groups') →
    Expr.uncountedAll l t index es ⊆ uses → p.bindings.Bare t →
    Partway l free uses t (index + es.length) skipped p index k →
    Partway l free uses t (index + es.length) skipped p (index + es.length) k'

/-- A node, given its operands. -/
theorem patternSound_node (ho : o.skipRootGuard = false) {groups1 groups' : Groups} {e : Entry}
    {k : Chain Unit} {w : Bool} (he : entry o l shape t operands groups = some (e, skipped))
    (hk : operandsChain o l skipped t 0 operands e.1 true groups1 = some (k, w, groups'))
    (huses : ∀ name, shape = .symbol name → optionalOperand? operands = none →
      l.declarationState name ≠ some .overloaded → ⟨t, name, operands.length⟩ ∈ uses)
    (hleaf : (∀ name, shape ≠ .symbol name) → (∀ group, shape ≠ .anyway group) → operands = [])
    (hbelow : Expr.uncountedAll l t 0 operands ⊆ uses) (hb : p.bindings.Bare t)
    (hp : p.bindings.Proper l t) (ih : OperandsSound o l free uses operands)
    (hd : d ∈ (if w = true then k.leave () e.2 else k).recorded Assignment.recorder l free p) :
    d.Sound l uses := by
  have hentry : Partway l free uses t (0 + operands.length) skipped p 0 e.1 :=
    ⟨footing_entry he, fun d hd => sound_entry ho hp he huses hleaf hd,
      fun b' hb' j _ hj hs => proper_entry hp he hb' (by omega) hs⟩
  have hall := ih skipped t 0 e.1 k true w _ groups' p hk hbelow hb hentry
  refine hall.sound d ?_
  cases w with
  | true => rwa [if_pos rfl, Chain.recorded_leave] at hd
  | false => exact hd

theorem operandsSound_cons {e : Expr} {rest : List Expr} (he : PatternSound o l free uses e)
    (hrest : OperandsSound o l free uses rest) : OperandsSound o l free uses (e :: rest) := by
  intro skipped t index k k' w w' groups groups' p h huses hb hk
  obtain ⟨hhere, hlater⟩ := List.append_subset.1 huses
  rw [List.length_cons, ← Nat.add_assoc, Nat.add_right_comm] at hk ⊢
  rcases cases_of_operandsChain h with ⟨-, h⟩ | ⟨hs, x, groups1, hx, h⟩
  · exact hrest _ _ _ _ _ _ _ _ _ _ h hlater hb hk.next
  · cases x with
    | none => exact hrest _ _ _ _ _ _ _ _ _ _ h hlater hb hk.next
    | some r =>
      refine hrest _ _ _ _ _ _ _ _ _ _ h hlater hb
        (hk.attach hb hx (by omega) hs fun b' hbare hproper => ?_)
      exact he _ _ _ _ { p with bindings := b' } hx hhere hbare hproper

/-- Only names and open operators have operands. -/
theorem IsNode.operands_eq_nil {e : Expr} (hnode : IsNode l e shape operands)
    (hsymbol : ∀ name, shape ≠ .symbol name) (hanyway : ∀ group, shape ≠ .anyway group) :
    operands = [] := by
  cases hnode with
  | var name => rfl
  | literal value => rfl
  | app symbol operands => exact absurd rfl (hsymbol _)
  | anyway group operands => exact absurd rfl (hanyway _)

/-- The uses of a node that are not counted are its own one and those below it. -/
theorem IsNode.uncounted {e : Expr} (hnode : IsNode l e shape operands)
    (huses : e.uncounted l t ⊆ uses) :
    (∀ name, shape = .symbol name → optionalOperand? operands = none →
      l.declarationState name ≠ some .overloaded → ⟨t, name, operands.length⟩ ∈ uses) ∧
    Expr.uncountedAll l t 0 operands ⊆ uses := by
  cases hnode with
  | var name => exact ⟨fun _ h => (by cases h), huses⟩
  | literal value => exact ⟨fun _ h => (by cases h), huses⟩
  | anyway group operands => exact ⟨fun _ h => (by cases h), huses⟩
  | app symbol operands =>
    obtain ⟨hhere, hbelow⟩ := List.append_subset.1 huses
    refine ⟨fun name hname hnone hstate => hhere ?_, hbelow⟩
    cases hname
    simp [hnone, hstate]

/-- **The matcher of a pattern** reads operands that it finds. -/
theorem sound_patternChain (ho : o.skipRootGuard = false) :
    (∀ e, PatternSound o l free uses e) ∧ ∀ es, OperandsSound o l free uses es := by
  apply pattern_induct l
  case metavar =>
    intro id t groups groups' k p h
    cases h
  case compound => exact fun inner ih => ih
  case optional =>
    intro pattern default _ _ t groups groups' k p h
    simp [patternChain] at h
  case node =>
    intro e shape operands hnode ih t groups groups' k p h huses hb hp d hd
    obtain ⟨e0, skipped, k', w, he, hk, hx⟩ := hnode.exists_of_patternChain h
    cases hx
    obtain ⟨hhere, hbelow⟩ := hnode.uncounted huses
    exact patternSound_node ho he hk hhere hnode.operands_eq_nil hbelow hb hp ih hd
  case nil =>
    intro skipped t index k k' w w' groups groups' p h _ _ hk
    cases h
    exact hk
  case cons => exact fun e rest he hrest => operandsSound_cons he hrest

/-! ### Operands of the root that are missing -/

/-- The definitions of operands are run one after the other, whether or not the operands are there.
-/
theorem exists_mem_operandLines {index count i : Nat} (hi : index ≤ i) (hlt : i < index + count) :
    ∃ d ∈ recordedAll Assignment.recorder l free (operandLines t index count) p,
      d.binding = .operand t i ∧ d.bindings.nodeAt t = p.bindings.nodeAt t := by
  induction count generalizing index p with
  | zero => omega
  | succ count ih =>
    rcases Nat.eq_or_lt_of_le hi with rfl | hi
    · exact ⟨⟨t.child index, .operand t index, p.bindings⟩, List.mem_cons_self, rfl, rfl⟩
    · obtain ⟨d, hd, hbinding, hnode⟩ :=
        @ih { p with bindings := p.bindings.assign (t.child index) (.operand t index) } _ hi
          (by omega)
      exact ⟨d, List.mem_cons_of_mem _ hd, hbinding,
        hnode.trans (nodeAt_assign_child p.bindings t index _)⟩

/-- A guard that counts no operands is not joined with another one. -/
theorem attach_eq_plug {k : Chain Unit}
    (h : ∀ g, k.frontGuard? = some g → g.operandCountCheck? = none) (joins : Bool)
    (r : Chain Unit) : k.attach joins () r = k.plug r := by
  unfold Chain.attach
  split
  · rename_i g hg
    split_ifs at hg
    obtain ⟨x, y, _, _, _, _, _, hx, -, hcount, -⟩ := Chain.joinGuard?_eq_some hg
    rw [h _ (Chain.frontGuard?_of_front? hx)] at hcount
    cases hcount
  · rfl

/-- Where no operands are counted first, the matchers of operands go behind what is there. -/
theorem recorded_operandsChain {es : List Expr} {index : Nat} {k k' : Chain Unit} {w w' : Bool}
    {groups' : Groups}
    (h : operandsChain o l skipped t index es k w groups = some (k', w', groups')) (hk : k.Tidy)
    (hbusy : k.Busy) (hfront : ∀ g, k.frontGuard? = some g → g.operandCountCheck? = none) :
    k.recorded Assignment.recorder l free p ⊆ k'.recorded Assignment.recorder l free p := by
  let I : Chain Unit → Prop :=
    fun x =>
      x.Tidy ∧ x.Busy ∧ (∀ g, x.frontGuard? = some g → g.operandCountCheck? = none) ∧
      k.recorded Assignment.recorder l free p ⊆ x.recorded Assignment.recorder l free p
  refine (operandsChain_invariant (I := I) (fun {_ _ x r _ _} hr hx => ?_) h
    ⟨hk, hbusy, hfront, List.Subset.refl _⟩).2.2.2
  obtain ⟨htidy, hbusy, hfront, hsub⟩ := hx
  have hplug := attach_eq_plug hfront o.joinComparisons r
  refine ⟨htidy.attach (patternChain_fit hr).1 _ (), hbusy.attach _ () r, ?_,
    List.Subset.trans hsub fun d hd => ?_⟩
  · rwa [hplug, Chain.frontGuard?_plug hbusy]
  · rw [hplug, Chain.recorded_plug htidy.isQuiet]
    exact List.mem_append_left _ hd

theorem patternChain_unwrap (e : Expr) (groups : Groups) :
    patternChain o l e.unwrap t groups = patternChain o l e t groups := by
  fun_induction Expr.unwrap e with
  | case1 inner ih => exact ih
  | case2 e _ => rfl

/-- The entry of a node whose operands are not counted checks the name, and reads the operands under
this check. -/
theorem entry_uncounted (ho : o.skipRootGuard = false) {name : String}
    (hnone : optionalOperand? operands = none) (hstate : l.declarationState name ≠ some .overloaded)
    {e : Entry} (h : entry o l (.symbol name) t operands groups = some (e, skipped)) :
    e =
      (guarded (.operatorIs t name) (.hole (noop () :: operandLines t 0 operands.length) none []),
        1) := by
  have hguard : (Shape.symbol name).guard l t operands.length = .operatorIs t name := by
    rw [Shape.guard]
    split
    · rename_i hover
      exact absurd hover hstate
    · rfl
  rw [eq_plainEntry h hnone, hguard, plainEntry, ho]
  rfl

/-- The matcher of a node whose operands are not counted reads all operands that the pattern has. -/
theorem exists_read (ho : o.skipRootGuard = false) {symbol : SymbolId}
    (hnone : optionalOperand? operands = none)
    (hstate : l.declarationState (l.name symbol) ≠ some .overloaded) {groups' : Groups}
    {k : Chain Unit} (h : patternChain o l (.app symbol operands) t groups = some (some k, groups'))
    (hg : (Guard.operatorIs t (l.name symbol)).holds l free p.bindings = true) {i : Nat}
    (hi : i < operands.length) :
    ∃ d ∈ k.recorded Assignment.recorder l free p, d.binding = .operand t i ∧
      d.bindings.nodeAt t = p.bindings.nodeAt t := by
  obtain ⟨e, skipped, k', w, he, hk, hx⟩ := (IsNode.app symbol operands).exists_of_patternChain h
  cases hx
  have hentry := entry_uncounted ho hnone hstate he
  obtain ⟨d, hd, hbinding, hnode⟩ :
      ∃ d ∈ recordedAll Assignment.recorder l free (operandLines t 0 operands.length) p,
        d.binding = .operand t i ∧ d.bindings.nodeAt t = p.bindings.nodeAt t :=
    exists_mem_operandLines (Nat.zero_le i) (by omega)
  have hfirst : d ∈ e.1.recorded Assignment.recorder l free p := by
    rw [hentry]
    change d ∈ if (Guard.operatorIs t (l.name symbol)).holds l free p.bindings = true then _ else _
    rw [if_pos hg]
    exact hd
  -- a check of the name is not joined with anything, so the definitions stay where they are
  have hlast : d ∈ k'.recorded Assignment.recorder l free p := by
    refine recorded_operandsChain hk (isEntry_entry he).1 (isEntry_entry he).2.1
      (fun g hfront => ?_) hfirst
    rw [hentry] at hfront
    cases hfront
    rfl
  refine ⟨d, ?_, hbinding, hnode⟩
  cases w with
  | true => rwa [if_pos rfl, Chain.recorded_leave]
  | false => exact hlast

end Matcher

open Matcher

theorem Bindings.proper_ofTerm {l : Language} {e : Expr} (he : e.IsProper l) :
    (ofTerm e).Proper l Trail.root := by
  have hget : (ofTerm e).get? Trail.root = some e := by rw [ofTerm, Table.get?_insert, if_pos rfl]
  have hnode := nodeAt_of_get? hget
  refine ⟨hget.trans hnode.symm, fun x hx => ?_⟩
  rwa [← Option.some.inj (hnode.symm.trans hx)]

/-- The definitions that are run while the code of a rule runs on a proper term are sound. -/
theorem Matcher.sound_assigned {o : CompileOptions} {l : Language} {r : Rule} {c : Code}
    {head : NodeId} (hc : (r.compile o l c).1 = .ok head) (ho : o.skipRootGuard = false) {e : Expr}
    (he : e.IsProper l) (free : String → Bool) {d : Assignment}
    (hd : d ∈ (r.compile o l c).2.assigned l free head e) :
    d.Sound l (r.pattern.uncounted l Trail.root) := by
  obtain ⟨ts, hcode, hrecorded⟩ := compile_records hc Assignment.recorder free e
  rw [Code.assigned, hrecorded] at hd
  obtain ⟨k, groups, hk, ⟨k', rfl, hd⟩ | ⟨b, hd⟩⟩ := mem_recordedAll_ruleCode hcode hd
  · exact (sound_patternChain ho).1 _ _ _ _ _ _ hk (List.Subset.refl _) (bare_ofTerm e)
      (proper_ofTerm he) d hd
  · -- the action defines nothing
    rcases hd with ⟨_, hd⟩ | ⟨_, hd⟩ <;> cases hd

/-- An operand of the root that the operator does not take is read, on a proper term. -/
theorem Matcher.exists_missing {o : CompileOptions} {l : Language} {r : Rule} {c : Code}
    {head : NodeId} (hc : (r.compile o l c).1 = .ok head) (ho : o.skipRootGuard = false)
    (free : String → Bool) {u : Use} (hu : u ∈ r.pattern.uncounted l Trail.root)
    (htrail : u.trail = Trail.root) {n : Nat} (hn : n < u.count)
    (hcounts : ∀ counts, l.arities? u.operator = some counts → counts = [n]) :
    ∃ e, e.IsProper l ∧ e.operands.length = n ∧
      ∃ d ∈ (r.compile o l c).2.assigned l free head e, d.binding = .operand Trail.root n ∧
        d.bindings.nodeAt Trail.root = some e := by
  obtain ⟨symbol, operands, hpattern, hnone, hstate, rfl⟩ := Expr.uncounted_self hu htrail
  -- the pattern asks for more operands than this term has, and the check lets it pass
  let e : Expr := .app symbol (List.replicate n (.literal (.int 0)))
  have hget : (ofTerm e).get? Trail.root = some e := by rw [ofTerm, Table.get?_insert, if_pos rfl]
  have hg : (Guard.operatorIs Trail.root (l.name symbol)).holds l free (ofTerm e) = true := by
    rw [holds_operatorIs l free hget]
    exact beq_self_eq_true _
  refine ⟨e, .zeros hcounts, List.length_replicate, ?_⟩
  obtain ⟨ts, hcode, hassigned⟩ := compile_records hc Assignment.recorder free e
  obtain ⟨k, groups, action, hk, -, hrecorded⟩ :=
    recordedAll_ruleCode hcode Assignment.recorder free ⟨[], ofTerm e⟩
  rw [← patternChain_unwrap, hpattern] at hk
  cases k with
  | none =>
    -- an operator has a matcher
    obtain ⟨_, -, hk⟩ := Option.bind_eq_some_iff.1 hk
    obtain ⟨_, -, hk⟩ := Option.bind_eq_some_iff.1 hk
    cases hk
  | some k =>
    obtain ⟨d, hd, hbinding, hnode⟩ := exists_read (p := ⟨[], ofTerm e⟩) ho hnone hstate hk hg hn
    refine ⟨d, ?_, hbinding, hnode.trans (nodeAt_of_get? hget)⟩
    rw [Code.assigned, hassigned, hrecorded]
    exact List.mem_append_left _ hd

/-- **What matchers read.** While the code of a rule runs on a ground term in which operators are
used with counts that they declare, every definition that reads an operand finds the node that it
reads from. The operand is there too, unless the operator of the node takes one count or declares
none and the pattern has more operands at this node. At the root such operands are indeed read:
there is a term on which a definition does not find its operand. -/
theorem operand_reads {o : CompileOptions} {l : Language} {r : Rule} {c : Code} {head : NodeId}
    (hc : (r.compile o l c).1 = .ok head) (ho : o.skipRootGuard = false) (free : String → Bool) :
    (∀ e : Expr, e.isGround = true → e.keepsCounts l = true →
      ∀ d ∈ (r.compile o l c).2.assigned l free head e, ∀ parent index,
        d.binding = .operand parent index →
        ∃ whole, d.bindings.nodeAt parent = some whole ∧
          (index < whole.operands.length ∨
            (whole.operands.length ≤ index ∧
              ∃ u ∈ r.pattern.uncounted l Trail.root, u.trail = parent ∧ index < u.count ∧
                whole.operator? l = some u.operator ∧
                ∀ counts, l.arities? u.operator = some counts →
                  counts = [whole.operands.length]))) ∧
    ∀ u ∈ r.pattern.uncounted l Trail.root, u.trail = Trail.root →
      ∀ n, n < u.count → (∀ counts, l.arities? u.operator = some counts → counts = [n]) →
        ∃ e : Expr, e.isGround = true ∧ e.keepsCounts l = true ∧ e.operands.length = n ∧
          ∃ d ∈ (r.compile o l c).2.assigned l free head e, d.binding = .operand Trail.root n ∧
            d.bindings.nodeAt Trail.root = some e := by
  refine ⟨fun e hground hkeeps d hd parent index hindex => ?_, fun u hu htrail n hn hcounts => ?_⟩
  · obtain ⟨whole, hwhole, hfinds⟩ :=
      sound_assigned hc ho ⟨hground, hkeeps⟩ free hd parent index hindex
    rcases Nat.lt_or_ge index whole.operands.length with hlt | hge
    · exact ⟨whole, hwhole, Or.inl hlt⟩
    · exact ⟨whole, hwhole, Or.inr ⟨hge, hfinds.resolve_left (by omega)⟩⟩
  · obtain ⟨e, he, hlength, hread⟩ := exists_missing hc ho free hu htrail hn hcounts
    exact ⟨e, he.ground, he.counts, hlength, hread⟩

/-- In `(+ (* x y) (* x (- y)))` the node `(- y)` has one operand, and it is the one that is read
there. -/
theorem cancelling_reads :
    ∃ d ∈ (cancelling.compile ⟨false, false, true⟩ .arithmetic Code.empty).2.assigned .arithmetic
        (fun _ => false) 0 opposites,
      d.target = [1, 1, 1] ∧ d.binding = .operand [1, 1] 0 ∧
      ∃ whole, d.bindings.nodeAt [1, 1] = some whole ∧ 0 < whole.operands.length := by
  have hc : (cancelling.compile ⟨false, false, true⟩ .arithmetic Code.empty).1 = .ok 0 := by
    decide +kernel
  obtain ⟨d, hd, htarget, hbinding⟩ :=
    exists_recorded hc Assignment.recorder (fun _ => false) opposites
      (fun d => d.target = [1, 1, 1] ∧ d.binding = .operand [1, 1] 0) (by decide +kernel)
  obtain ⟨whole, hwhole, hreads⟩ :=
    (operand_reads hc rfl fun _ => false).1 opposites (by decide +kernel) (by decide +kernel) d hd
      [1, 1] 0 hbinding
  refine ⟨d, hd, htarget, hbinding, whole, hwhole, hreads.resolve_right ?_⟩
  -- only the root of the pattern is not counted
  rintro ⟨-, u, hu, htrail, -⟩
  have huses : cancelling.pattern.uncounted .arithmetic Trail.root = [⟨Trail.root, "+", 2⟩] := by
    decide +kernel
  rw [huses, List.mem_singleton] at hu
  subst hu
  cases htrail

/-- The rule `(sin $0 $1) ==> $1`, with an operator that takes one operand. -/
def overreaching : Rule := ⟨.app 4 [.metavar 0, .metavar 1], .metavar 1, [], .noCheck, 0, false⟩

/-- On `(sin x)` the second operand is read, and the rule replaces the term by it. -/
theorem overreaching_misses :
    (RuleDefinition.mk "(sin $0 $1)" "$1" [] .noCheck 0 false).toRule .arithmetic =
      .ok overreaching ∧
    Language.arithmetic.parse "(sin x)" = .ok (.app 4 [.var "x"]) ∧
    (Expr.app 4 [.var "x"]).isGround = true ∧
    (Expr.app 4 [.var "x"]).keepsCounts .arithmetic = true ∧
    (overreaching.compile ⟨false, false, true⟩ .arithmetic Code.empty).1 = .ok 0 ∧
    (∃ d ∈ (overreaching.compile ⟨false, false, true⟩ .arithmetic Code.empty).2.assigned
        .arithmetic (fun _ => false) 0 (.app 4 [.var "x"]),
      d.binding = .operand Trail.root 1 ∧ d.bindings.nodeAt Trail.root = some (.app 4 [.var "x"])) ∧
    ((overreaching.compile ⟨false, false, true⟩ .arithmetic Code.empty).2.run .arithmetic
      (fun _ => false) 0 (.app 4 [.var "x"])).changed = true := by
  have hc : (overreaching.compile ⟨false, false, true⟩ .arithmetic Code.empty).1 = .ok 0 := by
    decide +kernel
  refine ⟨by decide +kernel, by decide +kernel, by decide +kernel, by decide +kernel, hc, ?_,
    by decide +kernel⟩
  exact exists_recorded hc Assignment.recorder (fun _ => false) _ _ (by decide +kernel)

end Rulewright
