import Mathlib.Algebra.Order.Group.Multiset
import Mathlib.Data.Multiset.Range
import Mathlib.Tactic.Abel
import Rulewright.Code.Surgery
import Rulewright.Proofs.Tree.Basic

/-!
# The nodes of a tree in a store

A cell is a node together with its number. A store owns a collection of cells if the numbers are
different and each node is in the store under its number. Collections are multisets, and a sum of
two of them says that they have no number in common, so the operations on a store can be described
by the cells that they change and an arbitrary rest.

* `cells`: the cells of a sequence, given where its head stands and what comes after its end.
* `Owns.push`, `Owns.modify`: the two ways to change a store.
* `Owns.relink`, `Owns.renext`: the head and the end of a sequence set to other neighbours.
-/

namespace Rulewright

/-- A node with its number. -/
abbrev Cell := NodeId × Node

namespace Code

variable {c : Code}

theorem node?_push (c : Code) (n : Node) (id : NodeId) :
    (c.push n).node? id = if id = c.size then some n else c.node? id := by
  simp only [node?, push, size]
  exact Array.getElem?_push

theorem node?_modify (c : Code) (id k : NodeId) (f : Node → Node) :
    (c.modify id f).node? k = if id = k then (c.node? k).map f else c.node? k := by
  simp only [node?, modify, Array.getElem?_modify]

@[simp] theorem size_push (c : Code) (n : Node) : (c.push n).size = c.size + 1 := by
  simp [size, push]

@[simp] theorem size_modify (c : Code) (id : NodeId) (f : Node → Node) :
    (c.modify id f).size = c.size := by
  simp [size, modify]

theorem lt_size_of_node? {id : NodeId} {n : Node} (h : c.node? id = some n) : id < c.size := by
  rw [node?, Array.getElem?_eq_some_iff] at h
  exact h.1

/-- The nodes are in the store under their numbers, which are all different. -/
structure Owns (c : Code) (m : Multiset Cell) : Prop where
  nodup : (m.map Prod.fst).Nodup
  node : ∀ p ∈ m, c.node? p.1 = some p.2

namespace Owns

variable {m w : Multiset Cell} {id : NodeId} {n : Node}

theorem of_eq (h : c.Owns m) (e : m = w) : c.Owns w := e ▸ h

theorem of_le (h : c.Owns m) (le : w ≤ m) : c.Owns w :=
  ⟨Multiset.nodup_of_le (Multiset.map_le_map le) h.nodup,
    fun p hp => h.node p (Multiset.mem_of_le le hp)⟩

theorem left (h : c.Owns (m + w)) : c.Owns m := h.of_le (Multiset.le_add_right m w)

theorem right (h : c.Owns (m + w)) : c.Owns w := h.of_le (Multiset.le_add_left w m)

theorem drop (h : c.Owns m) (x : Multiset Cell) (e : m = x + w) : c.Owns w := (h.of_eq e).right

theorem zero (c : Code) : c.Owns 0 := ⟨by simp, by simp⟩

theorem find (h : c.Owns ({(id, n)} + m)) : c.node? id = some n := h.node (id, n) (by simp)

theorem notMem (h : c.Owns ({(id, n)} + m)) {p : Cell} (hp : p ∈ m) : p.1 ≠ id := by
  have hn := h.nodup
  rw [Multiset.singleton_add, Multiset.map_cons, Multiset.nodup_cons] at hn
  rintro rfl
  exact hn.1 (Multiset.mem_map.2 ⟨p, hp, rfl⟩)

theorem lt_size (h : c.Owns m) {p : Cell} (hp : p ∈ m) : p.1 < c.size :=
  lt_size_of_node? (h.node p hp)

theorem card_le_size (h : c.Owns m) : m.card ≤ c.size := by
  have hsub : m.map Prod.fst ≤ Multiset.range c.size := by
    rw [Multiset.le_iff_subset h.nodup]
    intro k hk
    obtain ⟨p, hp, rfl⟩ := Multiset.mem_map.1 hk
    exact Multiset.mem_range.2 (h.lt_size hp)
  simpa using Multiset.card_le_card hsub

/-- A new node is owned beside the others. -/
theorem push (h : c.Owns m) (n : Node) : (c.push n).Owns ({(c.size, n)} + m) := by
  refine ⟨?_, ?_⟩
  · rw [Multiset.singleton_add, Multiset.map_cons, Multiset.nodup_cons]
    refine ⟨fun hk => ?_, h.nodup⟩
    obtain ⟨p, hp, he⟩ := Multiset.mem_map.1 hk
    exact Nat.ne_of_lt (h.lt_size hp) he
  · intro p hp
    rw [Multiset.mem_add, Multiset.mem_singleton] at hp
    rcases hp with rfl | hp
    · rw [node?_push, if_pos rfl]
    · rw [node?_push, if_neg (Nat.ne_of_lt (h.lt_size hp)), h.node p hp]

/-- A node is changed in its place. -/
theorem modify (h : c.Owns ({(id, n)} + m)) (f : Node → Node) :
    (c.modify id f).Owns ({(id, f n)} + m) := by
  refine ⟨by simpa using h.nodup, ?_⟩
  intro p hp
  rw [Multiset.mem_add, Multiset.mem_singleton] at hp
  rcases hp with rfl | hp
  · rw [node?_modify, if_pos rfl, h.find]; rfl
  · rw [node?_modify, if_neg (h.notMem hp).symm]
    exact h.node p (Multiset.mem_add.2 (Or.inr hp))

end Owns

end Code

namespace Stmt

/-- The number of the first node; there is one in a sequence that is not empty. -/
def start (ts : List (Stmt NodeId)) : NodeId := (start? ts).getD 0

/-- The node of a statement that stands at `link` and has `next` after it. -/
def node (link : Link) (next : Option NodeId) : Stmt NodeId → Node
  | .line _ x comment off => { kind := x.kind, comment, commentedOut := off, link, next }
  | .branch _ guard t e es =>
    { kind := .branch { guard, thenBody := start t, elseBody := start e, elseIfs := es.map Stmt.id }
      comment := none, commentedOut := false, link, next }

mutual

/-- The cells of the bodies of a statement. -/
def bodyCells : Stmt NodeId → Multiset Cell
  | .line _ _ _ _ => 0
  | .branch id _ t e es =>
    cells (.childOf id .thenBody) none t + cells (.childOf id .elseBody) none e +
      elseIfCells id 0 es

/-- The cells of a sequence whose head stands at `link`, with `next` after its end. -/
def cells (link : Link) (next : Option NodeId) : List (Stmt NodeId) → Multiset Cell
  | [] => 0
  | s :: rest =>
    {(s.id, s.node link ((start? rest).or next))} + s.bodyCells + cells (.after s.id) next rest

/-- The cells of the `else if`s of a branch from number `index` on. -/
def elseIfCells (parent : NodeId) (index : Nat) : List (Stmt NodeId) → Multiset Cell
  | [] => 0
  | s :: rest =>
    {(s.id, s.node (.childOf parent (.elseIf index)) none)} + s.bodyCells +
      elseIfCells parent (index + 1) rest

end

/-- Where a statement stands that follows the sequence. -/
def linkAfter (link : Link) (ts : List (Stmt NodeId)) : Link :=
  match ts.getLast? with
  | some s => .after s.id
  | none => link

/-- The number of the last node. -/
def stop (ts : List (Stmt NodeId)) : NodeId := (ts.getLast?.map Stmt.id).getD 0

@[simp] theorem start_cons (s : Stmt NodeId) (ts : List (Stmt NodeId)) :
    start (s :: ts) = s.id := rfl

theorem start?_eq {ts : List (Stmt NodeId)} (h : ts ≠ []) : start? ts = some (start ts) := by
  cases ts with
  | nil => exact absurd rfl h
  | cons s rest => rfl

theorem start_append {xs : List (Stmt NodeId)} (h : xs ≠ []) (ys : List (Stmt NodeId)) :
    start (xs ++ ys) = start xs := by
  rw [start, start?_append h, start]

@[simp] theorem stop_concat (ts : List (Stmt NodeId)) (s : Stmt NodeId) :
    stop (ts ++ [s]) = s.id := by
  simp [stop]

theorem linkAfter_eq (link : Link) {ts : List (Stmt NodeId)} (h : ts ≠ []) :
    linkAfter link ts = .after (stop ts) := by
  obtain ⟨init, s, rfl⟩ := List.eq_nil_or_concat ts |>.resolve_left h
  simp [linkAfter, stop]

theorem linkAfter_cons (link : Link) (s : Stmt NodeId) (ts : List (Stmt NodeId)) :
    linkAfter link (s :: ts) = linkAfter (.after s.id) ts := by
  cases ts with
  | nil => rfl
  | cons s' rest => rw [linkAfter_eq _ (by simp), linkAfter_eq _ (by simp)]; simp [stop]

@[simp] theorem cells_nil (link : Link) (next : Option NodeId) : cells link next [] = 0 := by
  rw [cells]

theorem cells_cons (link : Link) (next : Option NodeId) (s : Stmt NodeId)
    (rest : List (Stmt NodeId)) :
    cells link next (s :: rest) = {(s.id, s.node link ((start? rest).or next))} + s.bodyCells +
      cells (.after s.id) next rest := by
  rw [cells]

theorem cells_append (link : Link) (next : Option NodeId) (xs ys : List (Stmt NodeId)) :
    cells link next (xs ++ ys) =
      cells link ((start? ys).or next) xs + cells (linkAfter link xs) next ys := by
  induction xs generalizing link with
  | nil => simp [linkAfter]
  | cons s rest ih =>
    have hstart : (start? (rest ++ ys)).or next = (start? rest).or ((start? ys).or next) := by
      cases rest <;> rfl
    rw [List.cons_append, cells_cons, cells_cons, ih, hstart, linkAfter_cons, add_assoc, add_assoc,
      add_assoc]

/-- The cell of a single statement. -/
theorem cells_singleton (link : Link) (next : Option NodeId) (s : Stmt NodeId) :
    cells link next [s] = {(s.id, s.node link next)} + s.bodyCells := by
  rw [cells_cons, cells_nil, add_zero]; rfl

@[simp] theorem bodyCells_fresh (id : NodeId) (x : Line) : (fresh id x).bodyCells = 0 := by
  rw [fresh, bodyCells]

theorem bodyCells_branch (id : NodeId) (guard : Guard) (t e es : List (Stmt NodeId)) :
    (Stmt.branch id guard t e es).bodyCells =
      cells (.childOf id .thenBody) none t + cells (.childOf id .elseBody) none e +
        elseIfCells id 0 es := by
  rw [bodyCells]

@[simp] theorem elseIfCells_nil (parent : NodeId) (index : Nat) :
    elseIfCells parent index [] = 0 := by
  rw [elseIfCells]

theorem card_cells_all :
    (∀ s : Stmt NodeId, s.bodyCells.card + 1 = s.count) ∧
    ∀ ts : List (Stmt NodeId), (∀ link next, (cells link next ts).card = countAll ts) ∧
      ∀ parent index, (elseIfCells parent index ts).card = countAll ts := by
  apply Stmt.induct
  case line => intro id x comment off; rw [bodyCells, count]; rfl
  case branch =>
    intro id guard t e es ht he hes
    rw [bodyCells_branch, Multiset.card_add, Multiset.card_add, ht.1, he.1, hes.2, count]; omega
  case nil =>
    exact ⟨fun _ _ => by rw [cells_nil, countAll]; rfl,
      fun _ _ => by rw [elseIfCells_nil, countAll]; rfl⟩
  case cons =>
    intro s rest hs hrest
    refine ⟨fun link next => ?_, fun parent index => ?_⟩
    · rw [cells_cons, Multiset.card_add, Multiset.card_add, hrest.1, Multiset.card_singleton,
        countAll]; omega
    · rw [elseIfCells, Multiset.card_add, Multiset.card_add, hrest.2, Multiset.card_singleton,
        countAll]; omega

theorem card_cells (link : Link) (next : Option NodeId) (ts : List (Stmt NodeId)) :
    (cells link next ts).card = countAll ts :=
  (card_cells_all.2 ts).1 link next

end Stmt

namespace Code.Owns

open Stmt

variable {c : Code} {m : Multiset Cell} {next : Option NodeId}

theorem countAll_le_size {link : Link} {ts : List (Stmt NodeId)}
    (h : c.Owns (cells link next ts + m)) : countAll ts ≤ c.size := by
  rw [← card_cells link next ts]; exact h.left.card_le_size

/-- The node of the first statement is in the store. -/
theorem head {link : Link} {s : Stmt NodeId} {rest : List (Stmt NodeId)}
    (h : c.Owns (cells link next (s :: rest) + m)) :
    c.node? s.id = some (s.node link ((start? rest).or next)) := by
  rw [cells_cons, add_assoc, add_assoc] at h
  exact h.find

theorem tail {link : Link} {s : Stmt NodeId} {rest : List (Stmt NodeId)}
    (h : c.Owns (cells link next (s :: rest) + m)) :
    c.Owns (cells (.after s.id) next rest + m) := by
  rw [cells_cons, add_assoc] at h
  exact h.right

/-- The head of a sequence gets another place. -/
theorem relink {link : Link} {s : Stmt NodeId} {rest : List (Stmt NodeId)}
    (h : c.Owns (cells link next (s :: rest) + m)) (link' : Link) :
    (c.setLink s.id link').Owns (cells link' next (s :: rest) + m) := by
  rw [cells_cons, add_assoc, add_assoc] at h
  have h' := h.modify fun n => { n with link := link' }
  rw [cells_cons, add_assoc, add_assoc]
  refine h'.of_eq ?_
  cases s <;> rfl

/-- The end of a sequence gets another node after it. -/
theorem renext {link : Link} {ts : List (Stmt NodeId)} (hne : ts ≠ [])
    (h : c.Owns (cells link next ts + m)) (next' : Option NodeId) :
    (c.setNext (stop ts) next').Owns (cells link next' ts + m) := by
  obtain ⟨init, s, rfl⟩ := List.eq_nil_or_concat ts |>.resolve_left hne
  rw [List.concat_eq_append] at h ⊢
  rw [cells_append, cells_singleton] at h
  have h' : c.Owns ({(s.id, s.node (linkAfter link init) next)} +
      (cells link (some s.id) init + s.bodyCells + m)) :=
    h.of_eq (by rw [start?_cons, Option.some_or]; abel)
  have h'' := h'.modify fun n => { n with next := next' }
  rw [stop_concat]
  refine h''.of_eq ?_
  rw [cells_append, cells_singleton, start?_cons, Option.some_or]
  have : ({s.node (linkAfter link init) next with next := next'} : Node) =
      s.node (linkAfter link init) next' := by
    cases s <;> rfl
  rw [this]; abel

end Code.Owns

end Rulewright
