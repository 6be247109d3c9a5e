import Rulewright.Proofs.Chain.Pattern

/-!
# What stands in chains

Between the branches of the chain of a pattern stand the statements that introduce the operands of
its nodes. What they are is told once here, node by node, and carried over to chains by one
induction over patterns.

* `Chain.lines`: the statements of a chain that are not on its way down.
* `Chain.guards`: the guards on its way down.
* `Setup`: the statements that introduce the operands of a node.
* `patternChain_induct`: what holds of the entries of nodes and is kept when chains are plugged
  together holds of chains.
* `patternChain_lines`: what holds of the statements of all entries holds of the statements of
  chains.
-/

namespace Rulewright

namespace Chain

open Stmt

variable {ι : Type} {k r : Chain ι} {s : Stmt ι}

/-- The statements before the branches and before the innermost point of a chain. -/
def lines : Chain ι → List (Stmt ι)
  | .hole before _ _ => before
  | .under before _ _ inner _ _ => before ++ inner.lines

theorem lines_surround (xs : List (Stmt ι)) (ids : List ι) (k : Chain ι) :
    (k.surround xs ids).lines = xs ++ k.lines := by
  cases k with
  | hole before mark after => rfl
  | under before check guard inner otherwise after => exact List.append_assoc xs before inner.lines

theorem lines_plug (k r : Chain ι) : (k.plug r).lines = k.lines ++ r.lines := by
  induction k with
  | hole before mark after => exact lines_surround before after r
  | under before check guard inner otherwise after ih =>
    rw [plug, lines, lines, ih, List.append_assoc]

theorem lines_leave (new : ι) (depth : Nat) (k : Chain ι) :
    (k.leave new depth).lines = k.lines := by
  induction k generalizing depth with
  | hole before mark after => cases depth <;> cases mark <;> rfl
  | under before check guard inner otherwise after ih =>
    cases depth with
    | zero => rfl
    | succ depth => rw [leave, lines, lines, ih]

theorem mem_lines_body (h : s ∈ k.body.lines) : s ∈ k.lines := by
  cases k with
  | hole before mark after => exact h
  | under before check guard inner otherwise after => exact List.mem_append_right _ h

/-- Nothing but an empty statement is added where the chain of an operand is plugged in. -/
theorem mem_lines_attach {joins : Bool} {new : ι} (h : s ∈ (k.attach joins new r).lines) :
    s ∈ k.lines ∨ s ∈ r.lines ∨ s = noop new := by
  have hset : ∀ guard, (k.setGuard guard).lines = k.lines := fun guard => by cases k <;> rfl
  unfold attach at h
  split at h
  · rw [lines_plug, lines_surround, hset] at h
    rcases List.mem_append.1 h with h | h
    · exact Or.inl h
    · rcases List.mem_cons.1 h with h | h
      · exact Or.inr (Or.inr h)
      · exact Or.inr (Or.inl (mem_lines_body h))
  · rw [lines_plug] at h
    exact (List.mem_append.1 h).imp_right Or.inl

/-- The guards of the branches of a chain. -/
def guards : Chain ι → List Guard
  | .hole _ _ _ => []
  | .under _ _ guard inner _ _ => guard :: inner.guards

theorem guards_surround (xs : List (Stmt ι)) (ids : List ι) (k : Chain ι) :
    (k.surround xs ids).guards = k.guards := by
  cases k <;> rfl

theorem guards_plug (k r : Chain ι) : (k.plug r).guards = k.guards ++ r.guards := by
  induction k with
  | hole before mark after => exact guards_surround before after r
  | under before check guard inner otherwise after ih =>
    rw [plug, guards, guards, ih, List.cons_append]

theorem guards_leave (new : ι) (depth : Nat) (k : Chain ι) :
    (k.leave new depth).guards = k.guards := by
  induction k generalizing depth with
  | hole before mark after => cases depth <;> cases mark <;> rfl
  | under before check guard inner otherwise after ih =>
    cases depth with
    | zero => rfl
    | succ depth => rw [leave, guards, guards, ih]

theorem mem_guards_setGuard {guard g : Guard} (h : g ∈ (k.setGuard guard).guards) :
    g = guard ∨ g ∈ k.guards := by
  cases k with
  | hole before mark after => exact Or.inr h
  | under before check guard' inner otherwise after =>
    exact (List.mem_cons.1 h).imp_right (List.mem_cons_of_mem _)

theorem mem_guards_body {g : Guard} (h : g ∈ k.body.guards) : g ∈ k.guards := by
  cases k with
  | hole before mark after => exact h
  | under before check guard inner otherwise after => exact List.mem_cons_of_mem _ h

theorem eq_anyway_of_joinGuard? {g : Guard} (h : joinGuard? k r = some g) :
    ∃ comparison, g = .anyway comparison := by
  unfold joinGuard? at h
  split at h
  · rename_i countAt count first second _ _
    rw [Guard.anyway?] at h
    split_ifs at h with haligned
    · cases h
      exact ⟨_, rfl⟩
    · cases h
  · cases h

/-- No guard is added where the chain of an operand is plugged in, but for one that joins two of
them. -/
theorem mem_guards_attach {joins : Bool} {new : ι} {g : Guard}
    (h : g ∈ (k.attach joins new r).guards) :
    g ∈ k.guards ∨ g ∈ r.guards ∨ ∃ comparison, g = .anyway comparison := by
  unfold attach at h
  split at h
  · rename_i guard hjoin
    rw [guards_plug, guards_surround] at h
    rcases List.mem_append.1 h with h | h
    · rcases mem_guards_setGuard h with rfl | h
      · split_ifs at hjoin
        exact Or.inr (Or.inr (eq_anyway_of_joinGuard? hjoin))
      · exact Or.inl h
    · exact Or.inr (Or.inl (mem_guards_body h))
  · rw [guards_plug] at h
    exact (List.mem_append.1 h).imp_right Or.inl

end Chain

namespace Matcher

open Stmt

/-- The statements that introduce the operands of the node at a trail where none of them is
optional. -/
inductive PlainSetup (t : Trail) : Stmt Unit → Prop where
  | noop : PlainSetup t (noop ())
  | implied (guard : Guard) : PlainSetup t (impliedStmt guard)
  | operand (i : Nat) : PlainSetup t (fresh () (.definition (t.child i) (.operand t i) true))

/-- The statements that introduce the operands of the node at a trail. A choice between two or three
ways to bind them stands where one of them is optional. -/
inductive Setup (t : Trail) : Stmt Unit → Prop where
  | noop : Setup t (noop ())
  | implied (guard : Guard) : Setup t (impliedStmt guard)
  | operand (i : Nat) : Setup t (fresh () (.definition (t.child i) (.operand t i) true))
  | declaration (i : Nat) : Setup t (fresh () (.declaration (t.child i)))
  | choice (guard : Guard) (hguard : guard.isFree = false) (i j i' j' : Nat) (β γ β' γ' : Binding) :
      Setup t (.branch () guard (assignments (t.child i, β) (t.child j, γ))
        (assignments (t.child i', β') (t.child j', γ')) [])
  | choiceOfThree (guard short : Guard) (hguard : guard.isFree = false)
      (hshort : short.isFree = false) (i j i' j' i'' j'' : Nat) (β γ β' γ' β'' γ'' : Binding) :
      Setup t (.branch () guard (assignments (t.child i, β) (t.child j, γ))
        (assignments (t.child i', β') (t.child j', γ'))
        [.branch () short (assignments (t.child i'', β'') (t.child j'', γ'')) [Stmt.noop ()] []])

variable {o : Options} {l : Language} {t : Trail} {s : Stmt Unit} {shape : Shape}
  {operands : List Expr} {groups : Groups} {G : Expr → Prop}

theorem PlainSetup.setup (h : PlainSetup t s) : Setup t s := by
  cases h with
  | noop => exact .noop
  | implied guard => exact .implied guard
  | operand i => exact .operand i

theorem plainSetup_operandLines {index count : Nat} (h : s ∈ operandLines t index count) :
    PlainSetup t s := by
  induction count generalizing index with
  | zero => cases h
  | succ count ih =>
    rcases List.mem_cons.1 h with rfl | h
    · exact .operand index
    · exact ih h

theorem setup_declarations (h : s ∈ declarations t) : Setup t s := by
  rcases List.mem_cons.1 h with rfl | h
  · exact .declaration 0
  · rw [List.mem_singleton.1 h]
    exact .declaration 1

theorem plainSetup_plainEntry {guard : Guard} {pending : Option Trail} {count : Nat}
    (h : s ∈ (plainEntry o t guard pending count).1.lines) : PlainSetup t s := by
  have hinner : s ∈ Stmt.noop () :: operandLines t 0 count → PlainSetup t s := fun h =>
    (List.mem_cons.1 h).elim (fun heq => heq ▸ .noop) plainSetup_operandLines
  have hguarded : ∀ {guard : Guard} {k : Chain Unit}, s ∈ (guarded guard k).lines →
      s = Stmt.noop () ∨ s ∈ k.lines := List.mem_cons.1
  unfold plainEntry at h
  split_ifs at h
  · rcases List.mem_cons.1 h with rfl | h
    · exact .noop
    · exact (List.mem_cons.1 h).elim (fun heq => heq ▸ .implied guard) plainSetup_operandLines
  · cases pending with
    | none => exact (hguarded h).elim (fun heq => heq ▸ .noop) hinner
    | some first =>
      rcases hguarded h with rfl | h
      · exact .noop
      · exact (hguarded h).elim (fun heq => heq ▸ .noop) hinner

theorem isFree_countGuard {pending : Option Trail} {count : Nat} {guard : Guard}
    (h : shape.countGuard t pending count = .ok guard) : guard.isFree = false := by
  rcases cases_of_countGuard h with ⟨name, rfl⟩ | ⟨first, -, rfl⟩ | rfl <;> rfl

theorem setup_choice {choice : Stmt Unit} (hchoice : Setup t choice)
    (h : s ∈ Stmt.noop () :: declarations t ++ [choice]) : Setup t s := by
  rcases List.mem_append.1 h with h | h
  · exact (List.mem_cons.1 h).elim (fun heq => heq ▸ .noop) setup_declarations
  · rwa [List.mem_singleton.1 h]

theorem setup_optionalEntry {position : Nat} {missing : Binding} {pending : Option Trail}
    {e : Entry} (he : IsOptionalEntry o l t position missing pending shape e) (h : s ∈ e.1.lines) :
    Setup t s := by
  cases he with
  | implied hroot ho htakes =>
    rcases List.mem_cons.1 h with rfl | h
    · exact .noop
    · rcases List.mem_cons.1 h with rfl | h
      · exact .implied _
      · exact setup_choice (.choice _ rfl _ _ _ _ _ _ _ _) (List.mem_cons_of_mem _ h)
  | root hroot ho htakes =>
    rcases List.mem_cons.1 h with rfl | h
    · exact .noop
    · exact setup_choice (.choice _ rfl _ _ _ _ _ _ _ _) h
  | below hroot hfull hshort =>
    exact setup_choice (.choiceOfThree _ _ (isFree_countGuard hfull) (isFree_countGuard hshort) _ _
      _ _ _ _ _ _ _ _ _ _) h

theorem setup_entry {e : Entry} {skipped : Option Nat}
    (he : entry o l shape t operands groups = some (e, skipped)) (h : s ∈ e.1.lines) :
    Setup t s := by
  rcases cases_of_entry he with ⟨-, -, rfl⟩ | ⟨_, _, _, _, _, -, -, -, -, hentry⟩
  · exact (plainSetup_plainEntry h).setup
  · exact setup_optionalEntry hentry h

theorem isFree_guard (shape : Shape) (count : Nat) : (shape.guard l t count).isFree = false := by
  cases shape with
  | symbol name =>
    rw [Shape.guard]
    split <;> rfl
  | _ => rfl

/-- No guard at the entry of a node is free. -/
theorem isFree_entry {e : Entry} {skipped : Option Nat}
    (he : entry o l shape t operands groups = some (e, skipped)) :
    ∀ g ∈ e.1.guards, g.isFree = false := by
  rcases cases_of_entry he with ⟨-, -, rfl⟩ | ⟨_, _, _, _, _, -, -, -, -, hentry⟩
  · unfold plainEntry
    split_ifs
    · exact List.forall_mem_nil _
    · cases shape.pending? groups with
      | none => exact List.forall_mem_singleton.2 (isFree_guard shape _)
      | some first =>
        exact List.forall_mem_cons.2 ⟨rfl, List.forall_mem_singleton.2 (isFree_guard shape _)⟩
  · -- the forms of a node are told apart within a statement of the chain
    cases hentry with
    | implied hroot ho htakes => exact List.forall_mem_nil _
    | root hroot ho htakes => exact List.forall_mem_singleton.2 rfl
    | below hroot hfull hshort => exact List.forall_mem_nil _

/-- The property of a pattern is one of its operands too. -/
structure Hereditary (G : Expr → Prop) : Prop where
  app {symbol : SymbolId} {operands : List Expr} : G (.app symbol operands) → ∀ e ∈ operands, G e
  anyway {group : GroupId} {operands : List Expr} : G (.anyway group operands) → ∀ e ∈ operands, G e
  compound {inner : Expr} : G (.compound inner) → G inner

theorem hereditary_true : Hereditary fun _ => True :=
  ⟨fun _ _ _ => trivial, fun _ _ _ => trivial, fun _ => trivial⟩

/-- What holds of patterns says something of the shapes of nodes and their operands. -/
structure Describes (l : Language) (G : Expr → Prop) (N : Shape → List Expr → Prop) : Prop where
  var {name : String} : G (.var name) → N (.var name) []
  literal {value : Literal} : G (.literal value) → N (.literal value) []
  app {symbol : SymbolId} {operands : List Expr} : G (.app symbol operands) →
      N (.symbol (l.name symbol)) operands
  anyway {group : GroupId} {operands : List Expr} : G (.anyway group operands) →
      N (.anyway group) operands

theorem Hereditary.node (h : Hereditary G) {e : Expr} (hnode : IsNode l e shape operands)
    (hgood : G e) : ∀ e ∈ operands, G e := by
  cases hnode with
  | var name => exact List.forall_mem_nil _
  | literal value => exact List.forall_mem_nil _
  | app symbol operands => exact h.app hgood
  | anyway group operands => exact h.anyway hgood

theorem Describes.node {N : Shape → List Expr → Prop} (h : Describes l G N) {e : Expr}
    (hnode : IsNode l e shape operands) (hgood : G e) : N shape operands := by
  cases hnode with
  | var name => exact h.var hgood
  | literal value => exact h.literal hgood
  | app symbol operands => exact h.app hgood
  | anyway group operands => exact h.anyway hgood

theorem Hereditary.describes (h : Hereditary G) (l : Language) :
    Describes l G fun _ operands => ∀ e ∈ operands, G e :=
  ⟨fun _ => List.forall_mem_nil _, fun _ => List.forall_mem_nil _, h.app, h.anyway⟩

section Induct

variable {G : Expr → Prop} {N : Shape → List Expr → Prop} {I : Trail → Chain Unit → Prop}

/-- **Induction over the chain of a pattern**: what holds of the entries of nodes and is kept by
leaving branches and by plugging in the chains of operands holds of the chain. -/
theorem patternChain_induct_all (hG : Hereditary G) (hN : Describes l G N)
    (leave : ∀ {t k} depth, I t k → I t (k.leave () depth))
    (attach : ∀ {t i k r}, I t k → I (Trail.child t i) r → I t (k.attach o.joinComparisons () r))
    (entry : ∀ {shape t operands groups e skipped}, N shape operands →
      entry o l shape t operands groups = some (e, skipped) → I t e.1) :
    (∀ e : Expr, G e →
      ∀ t groups k groups', patternChain o l e t groups = some (some k, groups') → I t k) ∧
    ∀ es : List Expr, (∀ e ∈ es, G e) →
      ∀ skipped t index k wanted groups k' wanted' groups',
        operandsChain o l skipped t index es k wanted groups = some (k', wanted', groups') → I t k →
        I t k' := by
  apply pattern_induct l
  case metavar =>
    intro id _ t groups k groups' h
    simp [patternChain] at h
  case compound =>
    exact fun inner ih hgood t groups k groups' h => ih (hG.compound hgood) t groups k groups' h
  case optional =>
    intro pattern default _ _ _ t groups k groups' h
    simp [patternChain] at h
  case node =>
    intro e shape operands hnode ih hgood t groups k groups' h
    obtain ⟨e0, skipped, k', wanted, he, hk, hx⟩ := hnode.exists_of_patternChain h
    cases hx
    have hall := ih (hG.node hnode hgood) _ _ _ _ _ _ _ _ _ hk (entry (hN.node hnode hgood) he)
    split_ifs
    · exact leave e0.2 hall
    · exact hall
  case nil =>
    intro _ skipped t index k wanted groups k' wanted' groups' h hk
    cases h
    exact hk
  case cons =>
    intro e rest he hrest hgood skipped t index k wanted groups k' wanted' groups' h hk
    obtain ⟨hfirst, hothers⟩ := List.forall_mem_cons.1 hgood
    rcases cases_of_operandsChain h with ⟨-, h⟩ | ⟨-, x, groups1, hx, h⟩
    · exact hrest hothers _ _ _ _ _ _ _ _ _ h hk
    · cases x with
      | none => exact hrest hothers _ _ _ _ _ _ _ _ _ h hk
      | some r => exact hrest hothers _ _ _ _ _ _ _ _ _ h (attach hk (he hfirst _ _ _ _ hx))

/-- The same for entries of which only the operands matter. -/
theorem patternChain_induct (hG : Hereditary G)
    (leave : ∀ {t k} depth, I t k → I t (k.leave () depth))
    (attach : ∀ {t i k r}, I t k → I (Trail.child t i) r → I t (k.attach o.joinComparisons () r))
    (entry : ∀ {shape t operands groups e skipped}, (∀ e ∈ operands, G e) →
      entry o l shape t operands groups = some (e, skipped) → I t e.1)
    {e : Expr} {groups groups' : Groups} {k : Chain Unit} (hgood : G e)
    (h : patternChain o l e t groups = some (some k, groups')) : I t k :=
  (patternChain_induct_all hG (hG.describes l) leave attach entry).1 e hgood t groups k groups' h

end Induct

/-- **The statements of the chain of a pattern**, from those of the entries of nodes. -/
theorem patternChain_lines (hG : Hereditary G) {P : Trail → Stmt Unit → Prop}
    (noop : ∀ t, P t (noop ())) (above : ∀ {t i s}, P (Trail.child t i) s → P t s)
    (entry : ∀ {shape t operands groups e skipped}, (∀ e ∈ operands, G e) →
      entry o l shape t operands groups = some (e, skipped) → ∀ s ∈ e.1.lines, P t s)
    {e : Expr} {groups' : Groups} {k : Chain Unit} (hgood : G e)
    (h : patternChain o l e t groups = some (some k, groups')) : ∀ s ∈ k.lines, P t s := by
  refine patternChain_induct (I := fun t k => ∀ s ∈ k.lines, P t s) hG (fun depth hk => ?_)
    (fun hk hr s hs => ?_) entry hgood h
  · rwa [Chain.lines_leave]
  · rcases Chain.mem_lines_attach hs with hs | hs | rfl
    · exact hk s hs
    · exact above (hr s hs)
    · exact noop _

/-- No guard of the chain of a pattern is free. -/
theorem patternChain_isFree {e : Expr} {groups' : Groups} {k : Chain Unit}
    (h : patternChain o l e t groups = some (some k, groups')) :
    ∀ g ∈ k.guards, g.isFree = false := by
  refine patternChain_induct (I := fun _ k => ∀ g ∈ k.guards, g.isFree = false) hereditary_true
    (fun depth hk => ?_) (fun hk hr g hg => ?_) (fun _ he => isFree_entry he) trivial h
  · rwa [Chain.guards_leave]
  · rcases Chain.mem_guards_attach hg with hg | hg | ⟨comparison, rfl⟩
    · exact hk g hg
    · exact hr g hg
    · rfl

/-- The statements of the chain of a pattern introduce operands. -/
theorem patternChain_setup {e : Expr} {groups' : Groups} {k : Chain Unit}
    (h : patternChain o l e t groups = some (some k, groups')) :
    ∀ s ∈ k.lines, ∃ t', Setup t' s :=
  patternChain_lines (P := fun _ s => ∃ t', Setup t' s) hereditary_true (fun t => ⟨t, .noop⟩)
    (fun h => h) (fun _ he _ hs => ⟨_, setup_entry he hs⟩) trivial h

end Matcher

end Rulewright
