import Rulewright.Proofs.Tree.Calm
import Rulewright.Proofs.Tree.Walk

/-!
# Traces of runs

What a run does in the end is known. Here something is noted down on its way, each time that a
definition is run and each time that a guard is asked, along with what is bound at that time. To
choose the body of a branch, a run asks the guard of the branch and, while the answers are no, those
of its `else if`s.

* `Recorder`: what is noted down.
* `Code.recorded`: the notes of a run of code.
* `Stmt.recordedAll`: the notes of a run of a tree.
* `recorded_eq`: those of code are those of the tree that it is.
-/

namespace Rulewright

/-- What is noted down of a definition that is run and of a guard that is asked. -/
structure Recorder (ε : Type) where
  define : Trail → Binding → Bindings → List ε
  ask : Guard → Bindings → List ε

/-- What is noted down of a line that is run. -/
def Recorder.line {ε : Type} (w : Recorder ε) : Line → Bindings → List ε
  | .definition target binding _, b => w.define target binding b
  | _, _ => []

/-- The elements up to the first one with a property. -/
def upTo {α : Type} (f : α → Bool) : List α → List α
  | [] => []
  | a :: rest => a :: if f a then [] else upTo f rest

namespace Code

variable {ε : Type} (w : Recorder ε) (c : Code) (l : Language) (free : String → Bool)

/-- What is noted down to choose the body of a branch. -/
def recordedAt (b : Bindings) (x : Branch) : List ε :=
  (upTo (fun guard => guard.holds l free b)
    (x.guard :: (x.elseIfs.filterMap c.branch?).map Branch.guard)).flatMap (w.ask · b)

/-- What is noted down at one node, with `record` for what is noted down in a body. -/
def recordedNode (record : NodeId → Progress → List ε) (id : NodeId) (p : Progress) : List ε :=
  if c.isCommentedOut id then []
  else
    match c.kind id with
    | .definition target binding _ => w.define target binding p.bindings
    | .branch x => c.recordedAt w l free p.bindings x ++ record (c.choose l free p.bindings x) p
    | _ => []

/-- What is noted down from a node on, at most `n` steps deep. -/
def recordedFrom : Nat → NodeId → Progress → List ε
  | 0, _, _ => []
  | n + 1, id, p =>
    c.recordedNode w l free (recordedFrom n) id p ++
      match Owns.runNode c l free (c.runFrom l free n) id p, c.next id with
      | (none, q), some k => recordedFrom n k q
      | _, _ => []

/-- What is noted down while code runs on a term. -/
def recorded (id : NodeId) (candidate : Expr) : List ε :=
  c.recordedFrom w l free (c.stateBound candidate) id
    { fired := [], bindings := Table.empty.insert Trail.root candidate }

end Code

namespace Stmt

variable {ι κ ε : Type} (w : Recorder ε) (l : Language) (free : String → Bool)

mutual

/-- What is noted down while a statement runs. -/
def recorded : Stmt ι → Code.Progress → List ε
  | .line _ x _ off, p => if off then [] else w.line x p.bindings
  | .branch _ guard t e es, p =>
    w.ask guard p.bindings ++
      if guard.holds l free p.bindings then recordedAll t p
      else recordedElseIfs es p ++ if (execElseIfs l free es p).isSome then [] else recordedAll e p

/-- What is noted down while a sequence runs. -/
def recordedAll : List (Stmt ι) → Code.Progress → List ε
  | [], _ => []
  | s :: rest, p =>
    recorded s p ++
      match exec l free s p with
      | (some _, _) => []
      | (none, q) => recordedAll rest q

def recordedElseIfs : List (Stmt ι) → Code.Progress → List ε
  | [], _ => []
  | .line _ _ _ _ :: rest, p => recordedElseIfs rest p
  | .branch _ guard t _ _ :: rest, p =>
    w.ask guard p.bindings ++
      if guard.holds l free p.bindings then recordedAll t p else recordedElseIfs rest p

end

variable {w l free}

theorem recordedAll_append (xs ys : List (Stmt ι)) (p : Code.Progress) :
    recordedAll w l free (xs ++ ys) p =
      recordedAll w l free xs p ++
        match execAll l free xs p with
        | (some _, _) => []
        | (none, q) => recordedAll w l free ys q := by
  induction xs generalizing p with
  | nil => rfl
  | cons s rest ih =>
    rw [List.cons_append, recordedAll, recordedAll, execAll, List.append_assoc]
    rcases exec l free s p with ⟨_ | value, q⟩
    · exact congrArg (recorded w l free s p ++ ·) (ih q)
    · rfl

theorem recordedAll_singleton (s : Stmt ι) (p : Code.Progress) :
    recordedAll w l free [s] p = recorded w l free s p := by
  rw [recordedAll]
  rcases exec l free s p with ⟨_ | value, q⟩ <;> exact List.append_nil _

/-- Statements of which nothing is noted down. -/
theorem recordedAll_lines {ts : List (Stmt ι)} (h : ∀ s ∈ ts, ∀ p, recorded w l free s p = [])
    (p : Code.Progress) : recordedAll w l free ts p = [] := by
  induction ts generalizing p with
  | nil => rfl
  | cons s rest ih =>
    obtain ⟨hs, hrest⟩ := List.forall_mem_cons.1 h
    rw [recordedAll, hs p, List.nil_append]
    rcases exec l free s p with ⟨_ | value, q⟩
    · exact ih hrest q
    · rfl

theorem recordedAll_append_lines (xs : List (Stmt ι)) {ys : List (Stmt ι)}
    (h : ∀ p, recordedAll w l free ys p = []) (p : Code.Progress) :
    recordedAll w l free (xs ++ ys) p = recordedAll w l free xs p := by
  rw [recordedAll_append]
  rcases execAll l free xs p with ⟨_ | value, q⟩
  · exact (congrArg (recordedAll w l free xs p ++ ·) (h q)).trans (List.append_nil _)
  · exact List.append_nil _

/-- What is noted down does not depend on the numbers of nodes. -/
theorem recorded_map_all (f : ι → κ) :
    (∀ (s : Stmt ι) p, recorded w l free (s.map f) p = recorded w l free s p) ∧
    (∀ (ts : List (Stmt ι)) p, recordedAll w l free (mapAll f ts) p = recordedAll w l free ts p) ∧
    ∀ (es : List (Stmt ι)) p,
      recordedElseIfs w l free (mapAll f es) p = recordedElseIfs w l free es p := by
  obtain ⟨hexec, -, hchoice⟩ := @exec_map_all ι κ l free f
  apply run_induct
  case line => exact fun _ _ _ _ _ => rfl
  case branch =>
    intro id guard t e es ht he hes p
    simp only [map, recorded, ht, he, hes, hchoice]
  case nil => exact fun _ => rfl
  case cons =>
    intro s rest hs hrest p
    simp only [mapAll, recordedAll, hs, hrest, hexec]
  case choiceNil => exact fun _ => rfl
  case choiceLine =>
    intro id x comment off rest hrest p
    simp only [mapAll, map, recordedElseIfs, hrest]
  case choiceBranch =>
    intro id guard t e es rest ht hrest p
    simp only [mapAll, map, recordedElseIfs, ht, hrest]

/-- Nothing is noted down of placeholders. -/
theorem recorded_calm_all :
    (∀ (s : Stmt ι) p, recorded w l free s.calm p = recorded w l free s p) ∧
    (∀ (ts : List (Stmt ι)) p, recordedAll w l free (calmAll ts) p = recordedAll w l free ts p) ∧
    ∀ (es : List (Stmt ι)) p,
      recordedElseIfs w l free (calmAll es) p = recordedElseIfs w l free es p := by
  obtain ⟨hexec, -, hchoice⟩ := @exec_calm_all ι l free
  apply run_induct
  case line =>
    intro id x comment off p
    cases x <;> rfl
  case branch =>
    intro id guard t e es ht he hes p
    simp only [calm, recorded, ht, he, hes, hchoice]
  case nil => exact fun _ => rfl
  case cons =>
    intro s rest hs hrest p
    simp only [calmAll, recordedAll, hs, hrest, hexec]
  case choiceNil => exact fun _ => rfl
  case choiceLine =>
    intro id x comment off rest hrest p
    simp only [calmAll, calm, recordedElseIfs, hrest]
  case choiceBranch =>
    intro id guard t e es rest ht hrest p
    simp only [calmAll, calm, recordedElseIfs, ht, hrest]

/-- The `else if`s are asked up to the first one that holds, and its body goes on. -/
theorem recordedElseIfs_eq (es : List (Stmt NodeId)) (p : Code.Progress) :
    recordedElseIfs w l free es p =
      (upTo (fun guard => guard.holds l free p.bindings)
        ((es.filterMap branchOf).map Branch.guard)).flatMap (w.ask · p.bindings) ++
        ((elseIf? l free p.bindings es).map (recordedAll w l free · p)).getD [] := by
  induction es with
  | nil => rfl
  | cons s rest ih =>
    cases s with
    | line id x comment off => exact ih
    | branch id guard t e es =>
      simp only [List.filterMap_cons, branchOf, recordedElseIfs, elseIf?, List.map_cons, upTo,
        List.flatMap_cons, List.append_assoc]
      split_ifs
      · rfl
      · rw [ih]

/-- Guards are asked up to the first one that holds, and the body of the branch goes on that is
chosen. -/
theorem recorded_branch (id : NodeId) (guard : Guard) (t e es : List (Stmt NodeId))
    (p : Code.Progress) :
    recorded w l free (.branch id guard t e es) p =
      (upTo (fun guard => guard.holds l free p.bindings)
        (guard :: (es.filterMap branchOf).map Branch.guard)).flatMap (w.ask · p.bindings) ++
        recordedAll w l free (chosen l free p.bindings guard t e es) p := by
  rw [recorded, recordedElseIfs_eq, execElseIfs_eq, chosen, upTo, List.flatMap_cons]
  cases guard.holds l free p.bindings with
  | true => simp
  | false => cases elseIf? l free p.bindings es <;> simp

end Stmt

namespace Code.Owns

open Stmt

variable {ε : Type} {w : Recorder ε} {c : Code} {m : Multiset Cell} {link : Link} {l : Language}
  {free : String → Bool}

/-- One node notes down what its statement does, given that bodies do. -/
theorem recordedNode_eq {s : Stmt NodeId} {rest : List (Stmt NodeId)} (hs : s.Solid)
    (h : c.Owns (cells link none (s :: rest) + m)) {n : Nat} (hn : s.count ≤ n + 1)
    {record : NodeId → Code.Progress → List ε}
    (hrecord : ∀ {link ts}, SolidAll ts → ts ≠ [] → c.Owns (cells link none ts + m) →
      countAll ts ≤ n → ∀ p, record (start ts) p = recordedAll w l free ts p)
    (p : Code.Progress) : c.recordedNode w l free record s.id p = Stmt.recorded w l free s p := by
  rw [Code.recordedNode, isCommentedOut_of h.head, kind_of h.head]
  cases s with
  | line id x comment off => cases off <;> cases x <;> rfl
  | branch id guard t e es =>
    obtain ⟨link', hsolid, hne, hown, hcount⟩ := h.chosen_owned hs p.bindings
    rw [recorded_branch, ← hrecord hsolid hne hown (by omega) p, ← h.choose_eq,
      ← h.bodies.2.2.filterMap_elseIfs]
    rfl

theorem recordedFrom_eq {ts : List (Stmt NodeId)} (hs : SolidAll ts) (hne : ts ≠ [])
    (h : c.Owns (cells link none ts + m)) {n : Nat} (hn : countAll ts ≤ n) (p : Code.Progress) :
    c.recordedFrom w l free n (start ts) p = recordedAll w l free ts p := by
  induction hne, hn using bounded_induct generalizing link p with
  | cons n s rest _ _ hcount hrest ih =>
    have hnode : c.recordedNode w l free (c.recordedFrom w l free n) s.id p =
        Stmt.recorded w l free s p :=
      recordedNode_eq hs.1 h hcount (fun hs hne h hn p => ih _ hne hn hs h p) p
    have hrun : runNode c l free (c.runFrom l free n) s.id p = exec l free s p :=
      runNode_eq hs.1 h hcount (fun hs hne h hn p => h.runFrom_eq hs hne hn p) p
    rw [start_cons, Code.recordedFrom, hnode, hrun, h.next_head, recordedAll]
    -- the run goes on behind the node unless it has returned
    rcases exec l free s p with ⟨_ | value, q⟩
    · cases rest with
      | nil => rfl
      | cons s' rest' => exact congrArg (_ ++ ·) (ih _ (by simp) hrest hs.2 h.tail q)
    · rfl

/-- **A run notes down what the tree does.** -/
theorem recorded_eq {ts : List (Stmt NodeId)} (hs : SolidAll ts) (hne : ts ≠ [])
    (h : c.Owns (cells link none ts + m)) (candidate : Expr) :
    c.recorded w l free (start ts) candidate =
      recordedAll w l free ts ⟨[], Table.empty.insert Trail.root candidate⟩ :=
  h.recordedFrom_eq hs hne (le_trans h.countAll_le_size (size_le_stateBound c candidate)) _

end Code.Owns

end Rulewright
