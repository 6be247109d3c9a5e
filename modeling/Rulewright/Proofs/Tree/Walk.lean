import Rulewright.Proofs.Tree.Cells

/-!
# Walks through the code of a tree

A walk through a store that owns a tree visits the nodes of the tree. No path is longer than the
store has nodes, so the bounds on walks and runs are never met.

* `chain_eq`, `last_eq`: the nodes of a sequence and the last of them.
* `descendants_eq`: the walk through all nodes.
* `findPlaceholder?_eq`: the first placeholder is that of the tree.
* `run_eq`: a run does what the tree does.
-/

namespace Rulewright

namespace Stmt

variable {ι : Type}

mutual

/-- The labels of the nodes, bodies before their branch. -/
def walk : Stmt ι → List ι
  | .line id _ _ _ => [id]
  | .branch id _ t e es => walkAll t ++ (walkAll e ++ walkAll es) ++ [id]

def walkAll : List (Stmt ι) → List ι
  | [] => []
  | s :: rest => s.walk ++ walkAll rest

end

mutual

/-- The first placeholder in the order of a walk. -/
def hole? : Stmt ι → Option ι
  | .line id x _ _ => if x = .placeholder then some id else none
  | .branch _ _ t e es => (holeAll? t).or ((holeAll? e).or (holeAll? es))

def holeAll? : List (Stmt ι) → Option ι
  | [] => none
  | s :: rest => s.hole?.or (holeAll? rest)

end

/-- The statement does something, or has bodies. -/
def isMeaningful : Stmt ι → Bool
  | .line _ x _ _ => x.kind.isMeaningful
  | .branch _ _ _ _ _ => true

def isBranch : Stmt ι → Bool
  | .line _ _ _ _ => false
  | .branch _ _ _ _ _ => true

theorem holeAll?_append (xs ys : List (Stmt ι)) :
    holeAll? (xs ++ ys) = (holeAll? xs).or (holeAll? ys) := by
  induction xs with
  | nil => simp [holeAll?]
  | cons s rest ih => rw [List.cons_append, holeAll?, holeAll?, ih, Option.or_assoc]

/-- The node of a statement as a branch. -/
def branchOf : Stmt NodeId → Option Branch
  | .line _ _ _ _ => none
  | .branch _ guard t e es =>
    some { guard, thenBody := start t, elseBody := start e, elseIfs := es.map Stmt.id }

theorem kind_branch? (link : Link) (next : Option NodeId) (s : Stmt NodeId) :
    (s.node link next).kind.branch? = s.branchOf := by
  cases s with
  | line id x comment off => cases x <;> rfl
  | branch id guard t e es => rfl

/-! ### The body that a branch goes on with -/

section Chosen

variable (l : Language) (free : String → Bool) (b : Bindings)

/-- The body of the first `else if` whose guard holds. -/
def elseIf? : List (Stmt ι) → Option (List (Stmt ι))
  | [] => none
  | .line _ _ _ _ :: rest => elseIf? rest
  | .branch _ guard t _ _ :: rest => if guard.holds l free b then some t else elseIf? rest

/-- The body that a branch goes on with. -/
def chosen (guard : Guard) (t e es : List (Stmt ι)) : List (Stmt ι) :=
  if guard.holds l free b then t else (elseIf? l free b es).getD e

theorem execElseIfs_eq (es : List (Stmt ι)) (p : Code.Progress) :
    execElseIfs l free es p = (elseIf? l free p.bindings es).map (execAll l free · p) := by
  induction es with
  | nil => rfl
  | cons s rest ih =>
    cases s with
    | line id x comment off => rw [execElseIfs, elseIf?, ih]
    | branch id guard t e es =>
      rw [execElseIfs, elseIf?, ih]
      split_ifs <;> rfl

theorem exec_branch (id : ι) (guard : Guard) (t e es : List (Stmt ι)) (p : Code.Progress) :
    exec l free (.branch id guard t e es) p =
      execAll l free (chosen l free p.bindings guard t e es) p := by
  rw [exec, chosen, execElseIfs_eq]
  split_ifs
  · rfl
  · cases elseIf? l free p.bindings es <;> rfl

theorem find?_branchOf (es : List (Stmt NodeId)) :
    ((es.filterMap branchOf).find? fun x => x.guard.holds l free b).map Branch.thenBody =
      (elseIf? l free b es).map start := by
  induction es with
  | nil => rfl
  | cons s rest ih =>
    cases s with
    | line id x comment off => exact ih
    | branch id guard t e es =>
      simp only [List.filterMap_cons, branchOf, List.find?_cons, elseIf?]
      cases guard.holds l free b with
      | true => rfl
      | false => exact ih

variable {l free b}

theorem exists_of_elseIf? {es t : List (Stmt ι)} (h : elseIf? l free b es = some t) :
    ∃ id guard e es', Stmt.branch id guard t e es' ∈ es := by
  induction es with
  | nil => cases h
  | cons s rest ih =>
    cases s with
    | line id x comment off =>
      obtain ⟨id, guard, e, es', hmem⟩ := ih h
      exact ⟨id, guard, e, es', List.mem_cons_of_mem _ hmem⟩
    | branch id guard t' e es =>
      rw [elseIf?] at h
      split_ifs at h
      · cases h
        exact ⟨id, guard, e, es, List.mem_cons_self⟩
      · obtain ⟨id, guard, e, es', hmem⟩ := ih h
        exact ⟨id, guard, e, es', List.mem_cons_of_mem _ hmem⟩

end Chosen

end Stmt

namespace Code.Owns

open Stmt

variable {c : Code} {m : Multiset Cell} {link : Link} {t e es rest ts : List (Stmt NodeId)}
  {next : Option NodeId} {s : Stmt NodeId}

section Read

variable {id : NodeId} {n : Node}

theorem kind_of (h : c.node? id = some n) : c.kind id = n.kind := by rw [Code.kind, h]

theorem next_of (h : c.node? id = some n) : c.next id = n.next := by rw [Code.next, h]; rfl

theorem link_of (h : c.node? id = some n) : c.link id = n.link := by rw [Code.link, h]

theorem isCommentedOut_of (h : c.node? id = some n) : c.isCommentedOut id = n.commentedOut := by
  rw [Code.isCommentedOut, h]

theorem branch?_of {link : Link} {next : Option NodeId} {s : Stmt NodeId}
    (h : c.node? s.id = some (s.node link next)) : c.branch? s.id = s.branchOf := by
  rw [Code.branch?, kind_of h, kind_branch?]

end Read

/-- The bodies of a branch are owned. -/
theorem bodies {id : NodeId} {guard : Guard}
    (h : c.Owns (cells link next (.branch id guard t e es :: rest) + m)) :
    c.Owns (cells (.childOf id .thenBody) none t + m) ∧
    c.Owns (cells (.childOf id .elseBody) none e + m) ∧ c.Owns (elseIfCells id 0 es + m) := by
  rw [cells_cons, bodyCells_branch, id_branch] at h
  set x : Multiset Cell := {(id, (Stmt.branch id guard t e es).node link ((start? rest).or next))} +
    cells (.after id) next rest
  refine ⟨?_, ?_, ?_⟩
  · exact h.drop (x + cells (.childOf id .elseBody) none e + elseIfCells id 0 es)
      (by simp only [x]; abel)
  · exact h.drop (x + cells (.childOf id .thenBody) none t + elseIfCells id 0 es)
      (by simp only [x]; abel)
  · exact h.drop (x + cells (.childOf id .thenBody) none t + cells (.childOf id .elseBody) none e)
      (by simp only [x]; abel)

/-- An `else if` is a sequence of its own. -/
theorem elseIf_cons {parent : NodeId} {index : Nat}
    (h : c.Owns (elseIfCells parent index (s :: rest) + m)) :
    c.Owns (cells (.childOf parent (.elseIf index)) none [s] + m) ∧
    c.Owns (elseIfCells parent (index + 1) rest + m) := by
  rw [elseIfCells] at h
  refine ⟨?_, ?_⟩
  · rw [cells_singleton]; exact h.drop (elseIfCells parent (index + 1) rest) (by abel)
  · rw [add_assoc] at h; exact h.right

theorem next_head (h : c.Owns (cells link next (s :: rest) + m)) :
    c.next s.id = (start? rest).or next := by
  rw [next_of h.head]; cases s <;> rfl

theorem bodies_line {id : NodeId} {x : Line} {comment : Option String} {off : Bool}
    (h : c.Owns (cells link next (.line id x comment off :: rest) + m)) : c.bodies id = [] := by
  have := branch?_of h.head
  simp only [Stmt.id, branchOf] at this
  rw [Code.bodies, this]

theorem bodies_branch {id : NodeId} {guard : Guard}
    (h : c.Owns (cells link next (.branch id guard t e es :: rest) + m)) :
    c.bodies id = start t :: start e :: es.map Stmt.id := by
  have := branch?_of h.head
  simp only [Stmt.id, branchOf] at this
  rw [Code.bodies, this]; rfl

/-! ### Sequences -/

theorem chainFrom_eq (hne : ts ≠ []) (h : c.Owns (cells link none ts + m)) {n : Nat}
    (hn : ts.length ≤ n) : c.chainFrom n (start ts) = ts.map Stmt.id := by
  induction ts generalizing n link with
  | nil => exact absurd rfl hne
  | cons s rest ih =>
    obtain ⟨n, rfl⟩ : ∃ k, n = k + 1 := ⟨n - 1, by rw [List.length_cons] at hn; omega⟩
    rw [start_cons, Code.chainFrom, h.next_head, List.map_cons]
    cases rest with
    | nil => rfl
    | cons s' rest =>
      have := ih (by simp) h.tail (n := n) (by simpa using hn)
      rw [start_cons] at this
      simp [this]

theorem chain_eq (hne : ts ≠ []) (h : c.Owns (cells link none ts + m)) :
    c.chain (start ts) = ts.map Stmt.id :=
  h.chainFrom_eq hne (le_trans (length_le_countAll ts) h.countAll_le_size)

/-- The last node of a sequence. -/
theorem last_eq (hne : ts ≠ []) (h : c.Owns (cells link none ts + m)) :
    c.last (start ts) = stop ts := by
  rw [Code.last, h.chain_eq hne, List.getLastD_eq_getLast?, List.getLast?_map, stop]
  obtain ⟨init, s, rfl⟩ := List.eq_nil_or_concat ts |>.resolve_left hne
  simp

theorem kind_mem (h : c.Owns (cells link none ts + m)) (hs : s ∈ ts) :
    ∃ link next, c.node? s.id = some (s.node link next) := by
  induction ts generalizing link with
  | nil => simp at hs
  | cons s' rest ih =>
    rcases List.mem_cons.1 hs with rfl | hs
    · exact ⟨_, _, h.head⟩
    · exact ih h.tail hs

theorem isMeaningful_mem (h : c.Owns (cells link none ts + m)) (hs : s ∈ ts) :
    (c.kind s.id).isMeaningful = s.isMeaningful := by
  obtain ⟨link, next, hn⟩ := h.kind_mem hs
  rw [kind_of hn]
  cases s <;> rfl

theorem branch?_mem (h : c.Owns (cells link none ts + m)) (hs : s ∈ ts) :
    c.branch? s.id = s.branchOf := by
  obtain ⟨link, next, hn⟩ := h.kind_mem hs
  exact branch?_of hn

theorem find?_map_id {f : NodeId → Bool} {g : Stmt NodeId → Bool} (h : ∀ s ∈ ts, f s.id = g s) :
    (ts.map Stmt.id).find? f = (ts.find? g).map Stmt.id := by
  induction ts with
  | nil => rfl
  | cons s rest ih =>
    have hs := h s (by simp)
    have := ih fun s hs => h s (by simp [hs])
    simp only [List.map_cons, List.find?_cons, hs]
    cases g s with
    | true => rfl
    | false => exact this

/-- The first node that does something. -/
theorem nextMeaningful?_eq (hne : ts ≠ []) (h : c.Owns (cells link none ts + m)) :
    c.nextMeaningful? (start ts) = (ts.find? isMeaningful).map Stmt.id := by
  rw [Code.nextMeaningful?, h.chain_eq hne]
  exact find?_map_id fun s hs => h.isMeaningful_mem hs

/-- The last branch of a sequence. -/
theorem lastBranch?_eq (hne : ts ≠ []) (h : c.Owns (cells link none ts + m)) :
    c.lastBranch? (start ts) = (ts.reverse.find? isBranch).map Stmt.id := by
  rw [Code.lastBranch?, h.chain_eq hne, ← List.map_reverse]
  refine find?_map_id fun s hs => ?_
  rw [h.branch?_mem (List.mem_reverse.1 hs)]
  cases s <;> rfl

/-! ### Whole trees -/

theorem flatMap_elseIfs {α : Type} {f : NodeId → List α} {g : Stmt NodeId → List α}
    {parent : NodeId} {index : Nat} (h : c.Owns (elseIfCells parent index es + m))
    (hf : ∀ link s, s ∈ es → c.Owns (cells link none [s] + m) → f s.id = g s) :
    (es.map Stmt.id).flatMap f = es.flatMap g := by
  induction es generalizing index with
  | nil => rfl
  | cons s rest ih =>
    rw [List.map_cons, List.flatMap_cons, List.flatMap_cons, hf _ s (by simp) h.elseIf_cons.1]
    rw [ih h.elseIf_cons.2 fun link s hs => hf link s (by simp [hs])]

theorem walkAll_eq_flatMap {ι : Type} (ts : List (Stmt ι)) : walkAll ts = ts.flatMap walk := by
  induction ts with
  | nil => rfl
  | cons s rest ih => rw [walkAll, ih, List.flatMap_cons]

theorem descendantsFrom_eq (hs : SolidAll ts) (hne : ts ≠ []) (h : c.Owns (cells link none ts + m))
    {n : Nat} (hn : countAll ts ≤ n) : c.descendantsFrom n (start ts) = walkAll ts := by
  induction hne, hn using bounded_induct generalizing link with
  | cons n s rest _ _ hcount hrest ih =>
    have hstep : c.descendantsFrom (n + 1) s.id = (c.bodies s.id).flatMap (c.descendantsFrom n) ++
        s.id :: walkAll rest := by
      rw [Code.descendantsFrom, h.next_head]
      cases rest with
      | nil => rfl
      | cons s' rest' => rw [← ih _ (by simp) hrest hs.2 h.tail]; rfl
    rw [start_cons, hstep, walkAll]
    cases s with
    | line id x comment off => rw [Stmt.id, h.bodies_line]; rfl
    | branch id guard t e es =>
      rw [count] at hcount
      obtain ⟨ht, he, hes⟩ := h.bodies
      obtain ⟨hnt, hne', hst, hse, hses⟩ := hs.1
      have helse : (es.map Stmt.id).flatMap (c.descendantsFrom n) = walkAll es := by
        rw [walkAll_eq_flatMap]
        refine hes.flatMap_elseIfs fun link s hs' hown => ?_
        have := ih [s] (by simp) (by have := countAll_mem hs'; simp only [countAll]; omega)
          ⟨(solidAll_iff es).1 hses s hs', trivial⟩ hown
        simpa [walkAll] using this
      rw [id_branch, h.bodies_branch, List.flatMap_cons, List.flatMap_cons,
        ih t hnt (by omega) hst ht, ih e hne' (by omega) hse he, helse]
      simp [walk, List.append_assoc]

/-- The walk through all nodes. -/
theorem descendants_eq (hs : SolidAll ts) (hne : ts ≠ []) (h : c.Owns (cells link none ts + m)) :
    c.descendants (start ts) = walkAll ts :=
  h.descendantsFrom_eq hs hne h.countAll_le_size

/-- The first placeholder of a walk is that of the tree, in a sequence and among `else if`s. -/
theorem find?_walk_all (c : Code) (m : Multiset Cell) :
    (∀ s : Stmt NodeId, ∀ link rest, c.Owns (cells link none (s :: rest) + m) →
      s.walk.find? (fun k => (c.kind k).isPlaceholder) = s.hole?) ∧
    ∀ ts : List (Stmt NodeId),
      (∀ link, c.Owns (cells link none ts + m) →
        (walkAll ts).find? (fun k => (c.kind k).isPlaceholder) = holeAll? ts) ∧
      ∀ parent index, c.Owns (elseIfCells parent index ts + m) →
        (walkAll ts).find? (fun k => (c.kind k).isPlaceholder) = holeAll? ts := by
  apply Stmt.induct
  case line =>
    intro id x comment off link rest h
    have hkind : c.kind id = x.kind := kind_of h.head
    rw [walk, List.find?_singleton, hkind, hole?]
    cases x <;> rfl
  case branch =>
    intro id guard t e es ht he hes link rest h
    obtain ⟨hot, hoe, hoes⟩ := h.bodies
    have hkind : (c.kind id).isPlaceholder = false := by
      rw [show c.kind id = _ from kind_of h.head]
      rfl
    rw [walk, List.find?_append, List.find?_append, List.find?_append, ht.1 _ hot, he.1 _ hoe,
      hes.2 _ _ hoes, List.find?_singleton, hkind, hole?]
    exact Option.or_none
  case nil => exact ⟨fun _ _ => rfl, fun _ _ _ => rfl⟩
  case cons =>
    intro s rest hs hrest
    refine ⟨fun link h => ?_, fun parent index h => ?_⟩
    · rw [walkAll, List.find?_append, hs _ _ h, hrest.1 _ h.tail, holeAll?]
    · rw [walkAll, List.find?_append, hs _ _ h.elseIf_cons.1, hrest.2 _ _ h.elseIf_cons.2, holeAll?]

/-- The first placeholder of the store is that of the tree. -/
theorem findPlaceholder?_eq (hs : SolidAll ts) (hne : ts ≠ [])
    (h : c.Owns (cells link none ts + m)) : c.findPlaceholder? (start ts) = holeAll? ts := by
  rw [Code.findPlaceholder?_eq_find?, h.descendants_eq hs hne]
  exact ((find?_walk_all c m).2 ts).1 link h

/-! ### Runs -/

variable {l : Language} {free : String → Bool}

theorem filterMap_elseIfs {parent : NodeId} {index : Nat}
    (h : c.Owns (elseIfCells parent index es + m)) :
    (es.map Stmt.id).filterMap c.branch? = es.filterMap branchOf := by
  induction es generalizing index with
  | nil => rfl
  | cons s rest ih =>
    rw [List.map_cons, List.filterMap_cons, List.filterMap_cons, branch?_of h.elseIf_cons.1.head,
      ih h.elseIf_cons.2]

/-- What a run does at one node, with `run` for what it does in a body. -/
def runNode (c : Code) (l : Language) (free : String → Bool)
    (run : NodeId → Code.Progress → Option Bool × Code.Progress) (id : NodeId) (p : Code.Progress) :
    Option Bool × Code.Progress :=
  if c.isCommentedOut id then (none, p)
  else
    match c.kind id with
    | .definition target binding _ =>
      (none, { p with bindings := p.bindings.assign target binding })
    | .ret value => (some value, p)
    | .branch b => run (c.choose l free p.bindings b) p
    | .custom text =>
      if Code.isCommentLine text then (none, p)
      else (none, { p with fired := p.fired ++ [withRoot text "formula"] })
    | .declaration _ | .noop | .placeholder => (none, p)

theorem runFrom_succ (c : Code) (n : Nat) (id : NodeId) (p : Code.Progress) :
    c.runFrom l free (n + 1) id p =
      match runNode c l free (c.runFrom l free n) id p, c.next id with
      | (some value, p), _ => (some value, p)
      | (none, p), some k => c.runFrom l free n k p
      | (none, p), none => (none, p) := by
  rw [Code.runFrom, runNode]
  cases c.isCommentedOut id with
  | true => cases c.next id <;> rfl
  | false =>
    cases c.kind id with
    | definition target binding declares =>
      simp only [Bindings.assign]
      cases p.bindings.bind binding <;> cases c.next id <;> rfl
    | custom text => cases hc : Code.isCommentLine text <;> cases c.next id <;> simp [hc]
    | branch b =>
      simp only [Bool.false_eq_true, if_false]
      rcases c.runFrom l free n (c.choose l free p.bindings b) p with ⟨_ | value, q⟩ <;>
        cases c.next id <;> rfl
    | _ => cases c.next id <;> rfl

theorem elseIf_mem {parent : NodeId} {index : Nat} (h : c.Owns (elseIfCells parent index es + m))
    (hs : s ∈ es) : ∃ link, c.Owns (cells link none [s] + m) := by
  induction es generalizing index with
  | nil => simp at hs
  | cons s' rest ih =>
    rcases List.mem_cons.1 hs with rfl | hs
    · exact ⟨_, h.elseIf_cons.1⟩
    · exact ih h.elseIf_cons.2 hs

/-- A node chooses the body that its statement goes on with. -/
theorem choose_eq {id : NodeId} {guard : Guard}
    (h : c.Owns (cells link none (.branch id guard t e es :: rest) + m)) (b : Bindings) :
    c.choose l free b ⟨guard, start t, start e, es.map Stmt.id⟩ =
      start (chosen l free b guard t e es) := by
  have hfind := find?_branchOf l free b es
  rw [Code.choose, chosen, h.bodies.2.2.filterMap_elseIfs]
  split_ifs
  · rfl
  · cases hchoice : elseIf? l free b es with
    | none =>
      rw [hchoice, Option.map_none, Option.map_eq_none_iff] at hfind
      rw [hfind]
      rfl
    | some t' =>
      rw [hchoice, Option.map_some] at hfind
      obtain ⟨x, hx, hbody⟩ := Option.map_eq_some_iff.1 hfind
      rw [hx]
      exact hbody

/-- The body that a statement goes on with is owned, and is smaller than the statement. -/
theorem chosen_owned {id : NodeId} {guard : Guard} (hs : (Stmt.branch id guard t e es).Solid)
    (h : c.Owns (cells link none (.branch id guard t e es :: rest) + m)) (b : Bindings) :
    ∃ link', SolidAll (chosen l free b guard t e es) ∧ chosen l free b guard t e es ≠ [] ∧
      c.Owns (cells link' none (chosen l free b guard t e es) + m) ∧
      countAll (chosen l free b guard t e es) < (Stmt.branch id guard t e es).count := by
  obtain ⟨ht, he, hes⟩ := h.bodies
  obtain ⟨hnt, hne, hst, hse, hses⟩ := hs
  rw [chosen, count]
  split_ifs
  · exact ⟨_, hst, hnt, ht, by omega⟩
  · cases hchoice : elseIf? l free b es with
    | none => exact ⟨_, hse, hne, he, by rw [Option.getD_none]; omega⟩
    | some t' =>
      obtain ⟨id', guard', e', es', hmem⟩ := exists_of_elseIf? hchoice
      obtain ⟨link', hown⟩ := hes.elseIf_mem hmem
      have hsolid := (solidAll_iff es).1 hses _ hmem
      have hcount := countAll_mem hmem
      rw [count] at hcount
      exact ⟨_, hsolid.2.2.1, hsolid.1, hown.bodies.1, by rw [Option.getD_some]; omega⟩

/-- One node does what its statement does, given that bodies do. -/
theorem runNode_eq (hs : s.Solid) (h : c.Owns (cells link none (s :: rest) + m)) {n : Nat}
    (hn : s.count ≤ n + 1) {run : NodeId → Code.Progress → Option Bool × Code.Progress}
    (hrun : ∀ {link ts}, SolidAll ts → ts ≠ [] → c.Owns (cells link none ts + m) → countAll ts ≤ n →
      ∀ p, run (start ts) p = execAll l free ts p)
    (p : Code.Progress) : runNode c l free run s.id p = exec l free s p := by
  rw [runNode, isCommentedOut_of h.head, kind_of h.head]
  cases s with
  | line id x comment off => cases off <;> cases x <;> rfl
  | branch id guard t e es =>
    obtain ⟨link', hsolid, hne, hown, hcount⟩ := h.chosen_owned hs p.bindings
    rw [exec_branch, ← hrun hsolid hne hown (by omega) p, ← h.choose_eq]
    rfl

theorem runFrom_eq (hs : SolidAll ts) (hne : ts ≠ []) (h : c.Owns (cells link none ts + m))
    {n : Nat} (hn : countAll ts ≤ n) (p : Code.Progress) :
    c.runFrom l free n (start ts) p = execAll l free ts p := by
  induction hne, hn using bounded_induct generalizing link p with
  | cons n s rest _ _ hcount hrest ih =>
    rw [start_cons, runFrom_succ,
      runNode_eq hs.1 h hcount (fun hs hne h hn p => ih _ hne hn hs h p), h.next_head, execAll]
    rcases exec l free s p with ⟨_ | value, q⟩
    · cases rest with
      | nil => rfl
      | cons s' rest' => exact ih _ (by simp) hrest hs.2 h.tail q
    · rfl

theorem size_le_stateBound (c : Code) (candidate : Expr) : c.size ≤ c.stateBound candidate := by
  rw [Code.stateBound]
  exact Nat.le_mul_of_pos_right _ (Nat.pow_pos (by omega))

/-- **A run does what the tree does.** -/
theorem run_eq (hs : SolidAll ts) (hne : ts ≠ []) (h : c.Owns (cells link none ts + m))
    (candidate : Expr) :
    c.run l free (start ts) candidate =
      let r :=
        execAll l free ts { fired := [], bindings := Table.empty.insert Trail.root candidate }
      { changed := r.1.getD false, fired := r.2.fired, bindings := r.2.bindings } := by
  rw [Code.run, h.runFrom_eq hs hne (le_trans h.countAll_le_size (size_le_stateBound c candidate))]

end Code.Owns

end Rulewright
