import Rulewright.Proofs.Tree.Walk

/-!
# Operations on code as operations on trees

Each operation takes the trees of its arguments to the tree of its result. What else a store owns
stays as it is.

* `Owns.append`: one sequence after another.
* `Owns.replace`: a sequence in the place of a line.
* `Owns.createIf`, `Owns.addElseIf`: branches.
* `Owns.moveBody`: the body of a branch moved out of it.
-/

namespace Rulewright.Code.Owns

open Stmt

variable {c : Code} {m : Multiset Cell} {link : Link} {next : Option NodeId}
  {ts xs ys t e es : List (Stmt NodeId)} {id : NodeId} {guard : Guard}

theorem swap {a b : Multiset Cell} (h : c.Owns (a + (b + m))) : c.Owns (b + (a + m)) :=
  h.of_eq (by abel)

/-- A new line is a sequence of its own. -/
theorem alloc (h : c.Owns m) (x : Line) :
    (c.push (.fresh x.kind)).Owns (cells .root none [fresh c.size x] + m) := by
  rw [cells_singleton, bodyCells_fresh, add_zero]
  exact h.push _

theorem link_head {s : Stmt NodeId} {rest : List (Stmt NodeId)}
    (h : c.Owns (cells link next (s :: rest) + m)) : c.link s.id = link := by
  rw [link_of h.head]; cases s <;> rfl

theorem link_start (hne : ts ≠ []) (h : c.Owns (cells link next ts + m)) :
    c.link (start ts) = link := by
  cases ts with
  | nil => exact absurd rfl hne
  | cons s rest => exact h.link_head

theorem next_stop (hne : ts ≠ []) (h : c.Owns (cells link next ts + m)) :
    c.next (stop ts) = next := by
  obtain ⟨init, s, rfl⟩ := List.eq_nil_or_concat ts |>.resolve_left hne
  rw [List.concat_eq_append] at h ⊢
  rw [cells_append] at h
  have h' : c.Owns
      (cells (linkAfter link init) next [s] + (cells link ((start? [s]).or next) init + m)) :=
    h.of_eq (by abel)
  rw [stop_concat, h'.next_head]; rfl

theorem relink_start (hne : ts ≠ []) (h : c.Owns (cells link next ts + m)) (link' : Link) :
    (c.setLink (start ts) link').Owns (cells link' next ts + m) := by
  cases ts with
  | nil => exact absurd rfl hne
  | cons s rest => exact h.relink link'

/-- Two sequences that stand beside each other are joined. -/
theorem connect (hx : xs ≠ []) (hy : ys ≠ []) {next' : Option NodeId} {link' : Link}
    (h : c.Owns (cells link next' xs + (cells link' next ys + m))) :
    ((c.setNext (stop xs) (some (start ys))).setLink (start ys) (.after (stop xs))).Owns
      (cells link next (xs ++ ys) + m) := by
  have h1 := (h.renext hx (some (start ys))).swap
  have h2 := h1.relink_start hy (.after (stop xs))
  refine h2.of_eq ?_
  rw [cells_append, start?_eq hy, Option.some_or, linkAfter_eq link hx]
  abel

theorem setPredecessor (hx : xs ≠ []) (hy : ys ≠ [])
    (h : c.Owns (cells link none xs + (cells .root none ys + m))) :
    (c.setPredecessor (start ys) (stop xs)).Owns (cells link none (xs ++ ys) + m) := by
  have hdetach : c.detach (start ys) = c := by
    rw [Code.detach, h.swap.link_start hy]
  rw [Code.setPredecessor, hdetach]
  simp only [h.next_stop hx]
  exact h.connect hx hy

/-- **One sequence after another.** -/
theorem append (hx : xs ≠ []) (hy : ys ≠ [])
    (h : c.Owns (cells link none xs + (cells .root none ys + m))) :
    (c.append (start xs) (start ys)).Owns (cells link none (xs ++ ys) + m) := by
  rw [Code.append, Code.attach, h.last_eq hx]
  exact h.setPredecessor hx hy

/-- Put a line at the end of a sequence. -/
theorem appendLine (hx : xs ≠ []) (h : c.Owns (cells link none xs + m)) (x : Line) :
    ((c.push (.fresh x.kind)).append (start xs) c.size).Owns
      (cells link none (xs ++ [fresh c.size x]) + m) := by
  have h' := (h.alloc x).swap.append hx (by simp)
  rwa [start_cons, id_fresh] at h'

/-- The line at `hole` is replaced in the case that its neighbours are known. -/
theorem replace_parts {fs : List (Stmt NodeId)} (hx : xs ≠ []) (hf : fs ≠ []) {hole : NodeId}
    {x : Line}
    (h : c.Owns (cells (.after (stop xs)) (start? ys) [fresh hole x] +
      (cells link (some hole) xs + (cells .root none fs + (cells (.after hole) none ys + m))))) :
    (c.replace hole (start fs)).Owns (cells link (some (start fs)) xs +
      (cells (.after (stop xs)) (start? ys) fs + (cells (.after (stop fs)) none ys + m))) := by
  have hnext : c.next hole = start? ys := by simpa using h.next_head
  have hhole : stop [fresh hole x] = hole := rfl
  -- the line is cut off from what follows it and from its place
  have h1 := h.renext (by simp) none
  rw [hhole] at h1
  set c1 := c.setNext hole none with hc1
  have hlink1 : c1.link hole = .after (stop xs) := by simpa using h1.link_head
  have hdetach1 : c1.detach (start fs) = c1 := by
    have : c1.Owns (cells .root none fs + (cells (.after (stop xs)) none [fresh hole x] +
      (cells link (some hole) xs + (cells (.after hole) none ys + m)))) := h1.of_eq (by abel)
    rw [Code.detach, this.link_start hf]
  have h2 := h1.relink .root
  rw [id_fresh] at h2
  set c2 := c1.setLink hole .root with hc2
  -- the sequence gets its place
  have h3 := h2.swap.renext hx (some (start fs))
  set c3 := c2.setNext (stop xs) (some (start fs)) with hc3
  have h4 : c3.Owns (cells .root none fs + (cells link (some (start fs)) xs +
      (cells .root none [fresh hole x] + (cells (.after hole) none ys + m)))) := h3.of_eq (by abel)
  have h5 := h4.relink_start hf (.after (stop xs))
  set c4 := c3.setLink (start fs) (.after (stop xs)) with hc4
  -- for a moment the line follows the sequence
  have h6 := h5.renext hf (some hole)
  set c5 := c4.setNext (stop fs) (some hole) with hc5
  have h7 : c5.Owns (cells .root none [fresh hole x] + (cells (.after (stop xs)) (some hole) fs +
      (cells link (some (start fs)) xs + (cells (.after hole) none ys + m)))) := h6.of_eq (by abel)
  have h8 := h7.relink (.after (stop fs))
  rw [id_fresh] at h8
  set c6 := c5.setLink hole (.after (stop fs)) with hc6
  have hlink6 : c6.link hole = .after (stop fs) := by simpa using h8.link_head
  have h9 := h8.swap.renext hf none
  set c7 := c6.setNext (stop fs) none with hc7
  have h10 := h9.swap.relink .root
  rw [id_fresh] at h10
  set c8 := c7.setLink hole .root with hc8
  have h11 : c8.Owns (cells (.after (stop xs)) none fs + (cells (.after hole) none ys +
      (cells link (some (start fs)) xs + m))) :=
    h10.drop (cells .root none [fresh hole x]) (by abel)
  have hinsert : c1.insertBefore hole (start fs) = c6 := by
    simp only [Code.insertBefore, hlink1, hdetach1]
    rw [← hc2, ← hc3, ← hc4, h5.last_eq hf]
  have hdetach : c6.detach hole = c8 := by rw [Code.detach, hlink6]
  rw [Code.replace]
  simp only [hnext, ← hc1, hinsert, hdetach]
  cases ys with
  | nil => exact h11.of_eq (by simp only [cells_nil, start?_nil]; abel)
  | cons s rest =>
    simp only [start?_cons, h11.last_eq hf]
    have h12 := (h11.renext hf (some s.id)).swap.relink (.after (stop fs))
    exact h12.of_eq (by abel)

/-- **A sequence in the place of a line.** What followed the line follows the sequence. -/
theorem replace {fs : List (Stmt NodeId)} (hx : xs ≠ []) (hf : fs ≠ []) {hole : NodeId} {x : Line}
    (h : c.Owns (cells link none (xs ++ fresh hole x :: ys) + (cells .root none fs + m))) :
    (c.replace hole (start fs)).Owns (cells link none (xs ++ fs ++ ys) + m) := by
  have hparts : c.Owns (cells (.after (stop xs)) (start? ys) [fresh hole x] +
      (cells link (some hole) xs + (cells .root none fs + (cells (.after hole) none ys + m)))) := by
    refine h.of_eq ?_
    rw [cells_append, cells_cons, cells_singleton, linkAfter_eq link hx]
    simp only [start?_cons, id_fresh, Option.or_none]
    abel
  refine (hparts.replace_parts hx hf).of_eq ?_
  rw [cells_append, cells_append, start?_eq hf, linkAfter_eq link hx,
    linkAfter_eq link (by simp [hx])]
  have : stop (xs ++ fs) = stop fs := by
    obtain ⟨init, s, rfl⟩ := List.eq_nil_or_concat fs |>.resolve_left hf
    rw [List.concat_eq_append, ← List.append_assoc, stop_concat, stop_concat]
  rw [this, Option.or_none, Option.some_or]
  abel

/-! ### Branches -/

/-- A new branch takes two sequences as its bodies. -/
theorem newBranch (ht : t ≠ []) (he : e ≠ []) (guard : Guard)
    (h : c.Owns (cells .root none t + (cells .root none e + m))) :
    (((c.push
      (.fresh (.branch { guard, thenBody := start t, elseBody := start e, elseIfs := [] }))).setLink
      (start t) (.childOf c.size .thenBody)).setLink (start e) (.childOf c.size .elseBody)).Owns
      (cells .root none [.branch c.size guard t e []] + m) := by
  have h1 :=
    h.push (.fresh (.branch { guard, thenBody := start t, elseBody := start e, elseIfs := [] }))
  have h2 := (h1.swap.relink_start ht (.childOf c.size .thenBody)).of_eq
    (w := cells .root none e +
      ({(c.size, (Stmt.branch c.size guard t e []).node .root none)} +
        (cells (.childOf c.size .thenBody) none t + m)))
    (by simp only [Stmt.node, Node.fresh, List.map_nil]; abel)
  refine (h2.relink_start he (.childOf c.size .elseBody)).of_eq ?_
  rw [cells_singleton, bodyCells_branch, elseIfCells_nil, id_branch]
  abel

theorem detach_start (hne : ts ≠ []) (h : c.Owns (cells .root next ts + m)) :
    c.detach (start ts) = c := by
  rw [Code.detach, h.link_start hne]

theorem createIf_both (ht : t ≠ []) (he : e ≠ []) (guard : Guard)
    (h : c.Owns (cells .root none t + (cells .root none e + m))) :
    ∃ c', c.createIf guard (some (start t)) (some (start e)) = (c.size, c') ∧
      c'.Owns (cells .root none [.branch c.size guard t e []] + m) := by
  refine ⟨_, ?_, h.newBranch ht he guard⟩
  simp only [Code.createIf, Code.bodyOrNoop, h.detach_start ht, h.swap.detach_start he, Code.alloc]

/-- **A branch** around a sequence, with a new `else` body. -/
theorem createIf (ht : t ≠ []) (guard : Guard) (h : c.Owns (cells .root none t + m)) :
    ∃ c', c.createIf guard (some (start t)) none = (c.size + 1, c') ∧
      c'.Owns (cells .root none [.branch (c.size + 1) guard t [noop c.size] []] + m) := by
  have h1 := (h.alloc .noop).swap
  have h2 := h1.newBranch ht (by simp) guard
  rw [size_push] at h2
  refine ⟨_, ?_, h2⟩
  have hd : (c.push (.fresh .noop)).detach c.size = c.push (.fresh .noop) :=
    (h.alloc .noop).detach_start (by simp)
  have hd' : (c.push (.fresh .noop)).detach (start t) = c.push (.fresh .noop) := h1.detach_start ht
  simp only [Code.createIf, Code.bodyOrNoop, Code.alloc, hd', hd, size_push]
  rfl

theorem elseIfCells_append (parent : NodeId) (index : Nat) (xs ys : List (Stmt NodeId)) :
    elseIfCells parent index (xs ++ ys) =
      elseIfCells parent index xs + elseIfCells parent (index + xs.length) ys := by
  induction xs generalizing index with
  | nil => simp
  | cons s rest ih =>
    rw [List.cons_append, elseIfCells, elseIfCells, ih, List.length_cons, add_assoc,
      show index + 1 + rest.length = index + (rest.length + 1) by omega, add_assoc]
    abel

/-- A statement becomes the last `else if` of a branch. -/
theorem giveElseIf {s : Stmt NodeId}
    (h : c.Owns (cells .root none [.branch id guard t e es] + (cells .root none [s] + m))) :
    ((c.setKind id (.branch ⟨guard, start t, start e, es.map Stmt.id ++ [s.id]⟩)).setLink s.id
      (.childOf id (.elseIf es.length))).Owns
      (cells .root none [.branch id guard t e (es ++ [s])] + m) := by
  rw [cells_singleton, add_assoc, id_branch] at h
  have h1 :=
    (h.modify fun n =>
      { n with kind := .branch ⟨guard, start t, start e, es.map Stmt.id ++ [s.id]⟩ }).of_eq
      (w := cells .root none [s] +
        ({(id, (Stmt.branch id guard t e (es ++ [s])).node .root none)} +
          ((Stmt.branch id guard t e es).bodyCells + m)))
      (by simp only [Stmt.node, List.map_append, List.map_cons, List.map_nil]; abel)
  refine (h1.relink (.childOf id (.elseIf es.length))).of_eq ?_
  rw [cells_singleton, cells_singleton, bodyCells_branch, bodyCells_branch, elseIfCells_append,
    zero_add, elseIfCells, elseIfCells_nil, id_branch]
  abel

/-- An `else if` is added to a branch. -/
theorem addElseIf (hts : ts ≠ []) (guard' : Guard)
    (h : c.Owns (cells .root none [.branch id guard t e es] + (cells .root none ts + m))) :
    ∃ c', c.addElseIf id guard' (some (start ts)) = (c.size + 1, c') ∧
      c'.Owns (cells .root none
        [.branch id guard t e (es ++ [.branch (c.size + 1) guard' ts [noop c.size] []])] + m) := by
  obtain ⟨c1, hc1, h1⟩ := h.swap.createIf hts guard'
  have h2 := h1.swap
  have hnode := h2.head
  rw [id_branch] at hnode
  have hkind : c1.kind id = .branch ⟨guard, start t, start e, es.map Stmt.id⟩ := kind_of hnode
  have h3 := h2.giveElseIf
  rw [id_branch] at h3
  refine ⟨_, ?_, h3⟩
  unfold Code.addElseIf
  simp only [hc1, hkind, List.length_map]

/-- The guard of a branch is replaced, wherever the branch stands. -/
theorem setGuard (h : c.Owns (cells link none (xs ++ .branch id guard t e es :: ys) + m))
    (guard' : Guard) :
    (c.setGuard id guard').Owns (cells link none (xs ++ .branch id guard' t e es :: ys) + m) := by
  have h1 : c.Owns (cells (linkAfter link xs) none (.branch id guard t e es :: ys) +
      (cells link (some id) xs + m)) :=
    h.of_eq (by rw [cells_append, start?_cons, Option.some_or, id_branch]; abel)
  have hnode := h1.head
  rw [id_branch] at hnode
  have hkind : c.kind id = .branch ⟨guard, start t, start e, es.map Stmt.id⟩ := kind_of hnode
  rw [cells_cons, add_assoc, add_assoc, id_branch] at h1
  have h2 :=
    h1.modify fun n => { n with kind := .branch ⟨guard', start t, start e, es.map Stmt.id⟩ }
  unfold Code.setGuard
  simp only [hkind]
  refine h2.of_eq ?_
  rw [cells_append, start?_cons, Option.some_or, cells_cons, bodyCells_branch, bodyCells_branch,
    id_branch]
  simp only [Stmt.node]
  abel

/-- A line that is kept as a comment. -/
theorem commentOut {x : Line} (h : c.Owns (cells .root none [fresh id x] + m)) (comment : String) :
    (c.commentOut id comment).Owns (cells .root none [.line id x (some comment) true] + m) := by
  rw [cells_singleton, bodyCells_fresh, add_assoc, id_fresh] at h
  have h1 := h.modify fun n => { n with commentedOut := true, comment := some comment }
  refine h1.of_eq ?_
  rw [cells_singleton, bodyCells, add_zero, zero_add]
  rfl

theorem appendEach (hx : xs ≠ []) {t : List (List (Stmt NodeId))} (hne : ∀ ts ∈ t, ts ≠ [])
    (h : c.Owns (cells link none xs + ((t.map (cells .root none)).sum + m))) :
    ((t.map start).foldl (fun c item => c.append (start xs) item) c).Owns
      (cells link none (xs ++ t.flatten) + m) := by
  induction t generalizing c xs with
  | nil => simpa using h
  | cons ts rest ih =>
    rw [List.map_cons, List.sum_cons, add_assoc] at h
    have h1 := h.append hx (hne ts (by simp))
    have h2 := ih (show xs ++ ts ≠ [] by simp [hx]) (fun ts hts => hne ts (by simp [hts])) h1
    rw [start_append hx] at h2
    simpa [List.append_assoc] using h2

/-- Sequences one after the other, behind a new node. -/
theorem sequence {t : List (List (Stmt NodeId))} (hne : ∀ ts ∈ t, ts ≠ [])
    (h : c.Owns ((t.map (cells .root none)).sum + m)) :
    ∃ c', c.sequence (t.map start) = (c.size, c') ∧
      c'.Owns (cells .root none (noop c.size :: t.flatten) + m) := by
  have h1 := (h.alloc .noop).appendEach (by simp) hne
  exact ⟨_, rfl, h1⟩

/-- The body of a branch is taken from it. The branch is left behind. -/
theorem detach_body (ht : t ≠ [])
    (h : c.Owns (cells link next (.branch id guard t e es :: ys) + m)) :
    (c.detach (start t)).Owns (cells .root none t + m) := by
  have hnode := h.head
  rw [id_branch] at hnode
  have hlink : c.link (start t) = .childOf id .thenBody := h.bodies.1.link_start ht
  have h1 : c.Owns ({(id, (Stmt.branch id guard t e es).node link ((start? ys).or next))} +
      (cells (.childOf id .thenBody) none t + m)) :=
    h.drop (cells (.childOf id .elseBody) none e + elseIfCells id 0 es + cells (.after id) next ys)
      (by rw [cells_cons, bodyCells_branch, id_branch]; abel)
  -- a node that does nothing takes the place of the body
  have h2 := (h1.push (.fresh .noop)).swap
  have hkind : (c.push (.fresh .noop)).kind id =
      .branch ⟨guard, start t, start e, es.map Stmt.id⟩ := kind_of h2.find
  have h3 :=
    (h2.modify fun n => { n with kind := .branch ⟨guard, c.size, start e, es.map Stmt.id⟩ }).swap
  have h4 := (h3.modify fun n => { n with link := .childOf id .thenBody }).right.right
  have h5 := h4.relink_start ht .root
  rw [Code.detach]
  simp only [hlink, Code.alloc]
  unfold Code.fillSlot
  simp only [hkind, Branch.slot?, Branch.setSlot]
  exact h5

/-- The body of a branch is moved behind a new node. -/
theorem moveBody (ht : t ≠ []) {head : NodeId}
    (h : c.Owns
      (cells link next (.branch id guard t e es :: ys) + (cells .root none [noop head] + m))) :
    (c.setPredecessor (start t) head).Owns (cells .root none (noop head :: t) + m) := by
  have h1 := (h.detach_body ht).swap
  have hnext : (c.detach (start t)).next head = none := by simpa using h1.next_head
  rw [Code.setPredecessor]
  simp only [hnext]
  have h2 := h1.connect (by simp) ht
  rwa [show stop [noop head] = head from rfl] at h2

end Rulewright.Code.Owns
