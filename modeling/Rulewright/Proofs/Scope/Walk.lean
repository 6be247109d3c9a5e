import Rulewright.Proofs.Fusion.Fuse
import Rulewright.Proofs.Tree.Calm

/-!
# Conditions along the ways down a tree

What a statement may use depends on what was introduced before and around it. A discipline says what
is known after a statement and what is asked of a line and of a guard, given what is known there. It
is a condition on trees, and what it says of a tree can be read off the store that owns the tree:
the nodes before and around a node are its ancestors there.

* `Discipline.AlongAll`: the statements of a sequence and of its bodies meet a discipline.
* `Code.Path`: the nodes before and around a place of a store.
* `Tracks.descendants`: what a discipline says of the nodes of a tree holds of the nodes that are
  reachable in the store.
-/

namespace Rulewright

open Stmt

/-- What is asked of the statements of a tree, given what came before and around them. -/
structure Discipline (C : Type) where
  /-- What is known after a statement. -/
  step : C → Stmt Unit → C
  /-- What is asked of a line, the flag telling whether it is a comment only. -/
  line : C → Line → Bool → Prop
  guard : C → Guard → Prop

namespace Discipline

variable {C : Type} (D : Discipline C)

/-- What is known after a sequence. -/
def after (x : C) (ts : List (Stmt Unit)) : C := ts.foldl D.step x

mutual

/-- The statement and its bodies meet the discipline. -/
def Along (x : C) : Stmt Unit → Prop
  | .line _ content _ off => D.line x content off
  | .branch _ guard t e es => D.guard x guard ∧ AlongAll x t ∧ AlongAll x e ∧ AlongEach x es

/-- The same of a sequence, where more and more is known. -/
def AlongAll (x : C) : List (Stmt Unit) → Prop
  | [] => True
  | s :: rest => Along x s ∧ AlongAll (D.step x s) rest

/-- The same of statements of which one is run. -/
def AlongEach (x : C) : List (Stmt Unit) → Prop
  | [] => True
  | s :: rest => Along x s ∧ AlongEach x rest

end

variable {D} {x : C}

theorem after_append (x : C) (xs ys : List (Stmt Unit)) :
    D.after x (xs ++ ys) = D.after (D.after x xs) ys := List.foldl_append

theorem alongAll_append {xs ys : List (Stmt Unit)} :
    D.AlongAll x (xs ++ ys) ↔ D.AlongAll x xs ∧ D.AlongAll (D.after x xs) ys := by
  induction xs generalizing x with
  | nil => exact ⟨fun h => ⟨trivial, h⟩, fun h => h.2⟩
  | cons s rest ih => rw [List.cons_append, AlongAll, AlongAll, ih, and_assoc]; rfl

/-- A sequence meets a discipline if the parts of its fork do. -/
theorem alongAll_code {f : Fork Unit} :
    D.AlongAll x f.code ↔
    D.AlongAll x f.before ∧
      D.Along (D.after x f.before) (.branch f.check f.guard f.thenBody f.elseBody f.elseIfs) ∧
      D.AlongAll
        (D.step (D.after x f.before) (.branch f.check f.guard f.thenBody f.elseBody f.elseIfs))
        f.after := by
  rw [Fork.code, alongAll_append]
  rfl

theorem alongAll_calm
    (hline : ∀ x content off, D.line x content off → D.line x (Line.calm content) off)
    (hstep : ∀ x s, D.step x (calm s) = D.step x s) :
    (∀ s x, D.Along x s → D.Along x s.calm) ∧
    ∀ ts, (∀ x, D.AlongAll x ts → D.AlongAll x (calmAll ts)) ∧
      ∀ x, D.AlongEach x ts → D.AlongEach x (calmAll ts) := by
  apply Stmt.induct
  case line => exact fun id content comment off x h => hline x content off h
  case branch =>
    intro id guard t e es ht he hes x h
    exact ⟨h.1, ht.1 x h.2.1, he.1 x h.2.2.1, hes.2 x h.2.2.2⟩
  case nil => exact ⟨fun _ _ => trivial, fun _ _ => trivial⟩
  case cons =>
    intro s rest hs hrest
    refine ⟨fun x h => ⟨hs x h.1, ?_⟩, fun x h => ⟨hs x h.1, hrest.2 x h.2⟩⟩
    rw [hstep]
    exact hrest.1 _ h.2

/-- What one discipline says follows from another one, where what is known for the two is related.
-/
theorem along_imp {B : Type} {E : Discipline B} {R : C → B → Prop}
    (step : ∀ {x y} s, R x y → R (D.step x s) (E.step y s))
    (line : ∀ {x y content off}, R x y → D.line x content off → E.line y content off)
    (guard : ∀ {x y g}, R x y → D.guard x g → E.guard y g) :
    (∀ s x y, R x y → D.Along x s → E.Along y s) ∧
    ∀ ts, (∀ x y, R x y → D.AlongAll x ts → E.AlongAll y ts) ∧
      ∀ x y, R x y → D.AlongEach x ts → E.AlongEach y ts := by
  apply Stmt.induct
  case line => exact fun id content comment off x y hR h => line hR h
  case branch =>
    intro id g t e es ht he hes x y hR h
    exact ⟨guard hR h.1, ht.1 x y hR h.2.1, he.1 x y hR h.2.2.1, hes.2 x y hR h.2.2.2⟩
  case nil => exact ⟨fun _ _ _ _ => trivial, fun _ _ _ _ => trivial⟩
  case cons =>
    intro s rest hs hrest
    exact ⟨fun x y hR h => ⟨hs x y hR h.1, hrest.1 _ _ (step s hR) h.2⟩,
      fun x y hR h => ⟨hs x y hR h.1, hrest.2 x y hR h.2⟩⟩

end Discipline

/-! ### Stores -/

namespace Code

variable {c : Code}

/-- The nodes before and around a place, nearest first. -/
inductive Path (c : Code) : Link → List NodeId → Prop where
  | root : c.Path .root []
  | after {p : NodeId} {above : List NodeId} (h : c.Path (c.link p) above) :
      c.Path (.after p) (p :: above)
  | inside {p : NodeId} {slot : Slot} {above : List NodeId} (h : c.Path (c.link p) above) :
      c.Path (.childOf p slot) (p :: above)

theorem Path.ancestorsFrom {id : NodeId} {above : List NodeId} (h : c.Path (c.link id) above)
    {n : Nat} (hn : above.length ≤ n) : c.ancestorsFrom n id = above := by
  induction n generalizing id above with
  | zero => exact (List.length_eq_zero_iff.1 (Nat.le_zero.1 hn)).symm
  | succ n ih =>
    rw [Code.ancestorsFrom, up?]
    generalize hlink : c.link id = link at h
    cases h with
    | root => rfl
    | after h => exact congrArg (_ :: ·) (ih h (Nat.le_of_succ_le_succ hn))
    | inside h => exact congrArg (_ :: ·) (ih h (Nat.le_of_succ_le_succ hn))

theorem Path.ancestors {id : NodeId} {above : List NodeId} (h : c.Path (c.link id) above)
    (hn : above.length ≤ c.size) : c.ancestors id = above :=
  h.ancestorsFrom hn

/-- What is before and around a node that is before or around a place. -/
theorem Path.of_append {link : Link} {xs ys : List NodeId} {p : NodeId}
    (h : c.Path link (xs ++ p :: ys)) : c.Path (c.link p) ys := by
  induction xs generalizing link with
  | nil => cases h <;> assumption
  | cons x xs ih => cases h <;> exact ih ‹_›

end Code

section Tracks

variable {C : Type}

/-- A property of nodes follows from a discipline, where `fits` says how what is known at a place
shows in the nodes before and around the place, which are among the given ones. -/
structure Tracks (c : Code) (nodes : List NodeId) (D : Discipline C)
    (fits : Link → List NodeId → C → Prop) (P : NodeId → Prop) : Prop where
  here {s : Stmt NodeId} {link : Link} {next : Option NodeId} {above : List NodeId} {x : C}
        (owns : c.Owns ({(s.id, s.node link next)} + s.bodyCells))
        (path : c.Path (c.link s.id) (c.ancestors s.id)) (ancestors : c.ancestors s.id = above)
        (reached : ∀ a ∈ above, a ∈ nodes) (known : fits link above x)
        (along : D.Along x (s.map fun _ => ())) : P s.id
  after {s : Stmt NodeId} {link : Link} {next : Option NodeId} {above : List NodeId} {x : C}
    (owns : c.Owns ({(s.id, s.node link next)} + s.bodyCells)) (solid : s.Solid)
    (ancestors : c.ancestors s.id = above) (known : fits link above x) :
    fits (.after s.id) (s.id :: above) (D.step x (s.map fun _ => ()))
  inside {id : NodeId} {link : Link} {above : List NodeId} {x : C} (slot : Slot)
        (place : c.link id = link) (known : fits link above x) :
      fits (.childOf id slot) (id :: above) x

variable {c : Code} {nodes above : List NodeId} {D : Discipline C}
  {fits : Link → List NodeId → C → Prop} {P : NodeId → Prop} {link : Link} {next : Option NodeId}

theorem link_of_owns {s : Stmt NodeId} {m : Multiset Cell}
    (h : c.Owns ({(s.id, s.node link next)} + m)) : c.link s.id = link :=
  (Code.Owns.link_of h.find).trans (by cases s <;> rfl)

theorem Stmt.id_mem_walk (s : Stmt NodeId) : s.id ∈ s.walk := by
  cases s with
  | line id content comment off => exact List.mem_singleton_self id
  | branch id guard t e es => exact List.mem_append_right _ (List.mem_singleton_self id)

/-- What is before and around a statement, and how many nodes that can be. -/
structure Placed (c : Code) (nodes : List NodeId) (fits : Link → List NodeId → C → Prop)
    (link : Link) (above : List NodeId) (x : C) (count : Nat) : Prop where
  path : c.Path link above
  reached : ∀ a ∈ above, a ∈ nodes
  room : above.length + count ≤ c.size
  known : fits link above x

theorem Placed.ancestors {s : Stmt NodeId} {m : Multiset Cell} {x : C} {count : Nat}
    (h : Placed c nodes fits link above x count) (howns : c.Owns ({(s.id, s.node link next)} + m)) :
    c.ancestors s.id = above := by
  refine Code.Path.ancestors ?_ (Nat.le_trans (Nat.le_add_right _ _) h.room)
  rw [link_of_owns howns]
  exact h.path

theorem Placed.fewer {x : C} {count count' : Nat} (h : Placed c nodes fits link above x count)
    (hle : count' ≤ count) : Placed c nodes fits link above x count' :=
  ⟨h.path, h.reached, Nat.le_trans (Nat.add_le_add_left hle _) h.room, h.known⟩

/-- The statement itself, whatever its bodies are. -/
theorem Tracks.self (h : Tracks c nodes D fits P) {s : Stmt NodeId} {x : C}
    (howns : c.Owns ({(s.id, s.node link next)} + s.bodyCells))
    (hplaced : Placed c nodes fits link above x s.count) (halong : D.Along x (s.map fun _ => ())) :
    P s.id := by
  have hanc := hplaced.ancestors howns
  refine h.here howns ?_ hanc hplaced.reached hplaced.known halong
  rw [hanc, link_of_owns howns]
  exact hplaced.path

/-- One more node is before the rest of a sequence. -/
theorem Tracks.placed_after (h : Tracks c nodes D fits P) {s : Stmt NodeId} {x : C} {count : Nat}
    (howns : c.Owns ({(s.id, s.node link next)} + s.bodyCells)) (hsolid : s.Solid)
    (hs : s.id ∈ nodes) (hplaced : Placed c nodes fits link above x (s.count + count)) :
    Placed c nodes fits (.after s.id) (s.id :: above) (D.step x (s.map fun _ => ())) count where
  path := .after (by rw [link_of_owns howns]; exact hplaced.path)
  reached := List.forall_mem_cons.2 ⟨hs, hplaced.reached⟩
  room := by
    have hroom := hplaced.room
    have hpos := s.count_pos
    rw [List.length_cons]
    omega
  known := h.after howns hsolid (hplaced.ancestors howns) hplaced.known

/-- One more node is around the bodies of a branch. -/
theorem Tracks.placed_inside (h : Tracks c nodes D fits P) {id : NodeId} {x : C} {count : Nat}
    (hlink : c.link id = link) (hid : id ∈ nodes)
    (hplaced : Placed c nodes fits link above x (count + 1)) (slot : Slot) :
    Placed c nodes fits (.childOf id slot) (id :: above) x count where
  path := .inside (by rw [hlink]; exact hplaced.path)
  reached := List.forall_mem_cons.2 ⟨hid, hplaced.reached⟩
  room := by
    have hroom := hplaced.room
    rw [List.length_cons]
    omega
  known := h.inside slot hlink hplaced.known

theorem Tracks.walk_all (h : Tracks c nodes D fits P) :
    (∀ s : Stmt NodeId, ∀ link next above x, c.Owns ({(s.id, s.node link next)} + s.bodyCells) →
      s.Solid → (∀ id ∈ s.walk, id ∈ nodes) → Placed c nodes fits link above x s.count →
      D.Along x (s.map fun _ => ()) → ∀ id ∈ s.walk, P id) ∧
    ∀ ts : List (Stmt NodeId),
      (∀ link next above x, c.Owns (cells link next ts) → SolidAll ts →
        (∀ id ∈ walkAll ts, id ∈ nodes) → Placed c nodes fits link above x (countAll ts) →
        D.AlongAll x (strip ts) → ∀ id ∈ walkAll ts, P id) ∧
      ∀ parent index above x, c.Owns (elseIfCells parent index ts) → SolidAll ts →
        (∀ id ∈ walkAll ts, id ∈ nodes) →
        (∀ slot, Placed c nodes fits (.childOf parent slot) above x (countAll ts)) →
        D.AlongEach x (strip ts) → ∀ id ∈ walkAll ts, P id := by
  apply Stmt.induct
  case line =>
    intro id content comment off link next above x howns _ _ hplaced halong
    exact List.forall_mem_singleton.2 (h.self howns hplaced halong)
  case branch =>
    intro id guard t e es ht he hes link next above x howns hsolid hnodes hplaced halong
    obtain ⟨-, -, hst, hse, hses⟩ := hsolid
    obtain ⟨hbodies, hid⟩ := List.forall_mem_append.1 hnodes
    obtain ⟨hnt, hnodes⟩ := List.forall_mem_append.1 hbodies
    obtain ⟨hne, hnes⟩ := List.forall_mem_append.1 hnodes
    have hself : P id := h.self howns hplaced halong
    have hbody : ∀ slot count, count + 1 ≤ (Stmt.branch id guard t e es).count →
        Placed c nodes fits (.childOf id slot) (id :: above) x count :=
      fun slot count hle =>
        h.placed_inside (link_of_owns howns) (hid id (List.mem_singleton_self id))
          (hplaced.fewer hle) slot
    rw [bodyCells_branch] at howns
    have hcells := howns.right
    rw [Stmt.walk]
    refine List.forall_mem_append.2 ⟨List.forall_mem_append.2
        ⟨?_, List.forall_mem_append.2 ⟨?_, ?_⟩⟩,
      List.forall_mem_singleton.2 hself⟩
    · exact ht.1 _ _ _ _ hcells.left.left hst hnt (hbody _ _ (by rw [count]; omega)) halong.2.1
    · exact he.1 _ _ _ _ hcells.left.right hse hne (hbody _ _ (by rw [count]; omega)) halong.2.2.1
    · exact hes.2 _ _ _ _ hcells.right hses hnes (fun slot => hbody slot _ (by rw [count]; omega))
        halong.2.2.2
  case nil =>
    exact ⟨fun _ _ _ _ _ _ _ _ _ => List.forall_mem_nil _,
      fun _ _ _ _ _ _ _ _ _ => List.forall_mem_nil _⟩
  case cons =>
    intro s rest hs hrest
    refine ⟨fun link next above x howns hsolid hnodes hplaced halong => ?_,
      fun parent index above x howns hsolid hnodes hplaced halong => ?_⟩
    · obtain ⟨hns, hnrest⟩ := List.forall_mem_append.1 hnodes
      rw [cells_cons] at howns
      have hafter := h.placed_after howns.left hsolid.1 (hns s.id s.id_mem_walk) hplaced
      exact List.forall_mem_append.2 ⟨hs _ _ _ _ howns.left hsolid.1 hns
          (hplaced.fewer (Nat.le_add_right _ _)) halong.1,
        hrest.1 _ _ _ _ howns.right hsolid.2 hnrest hafter halong.2⟩
    -- alternatives are each entered with what is known before the branch
    · obtain ⟨hns, hnrest⟩ := List.forall_mem_append.1 hnodes
      rw [elseIfCells] at howns
      exact List.forall_mem_append.2 ⟨hs _ _ _ _ howns.left hsolid.1 hns
          ((hplaced (.elseIf index)).fewer (Nat.le_add_right _ _)) halong.1,
        hrest.2 _ _ _ _ howns.right hsolid.2 hnrest
          (fun slot => (hplaced slot).fewer (Nat.le_add_left _ _)) halong.2⟩

/-- **What a discipline says of a tree** holds of the nodes that are reachable in the store that
owns the tree. -/
theorem Tracks.descendants {ts : List (Stmt NodeId)} (h : Tracks c (walkAll ts) D fits P)
    (hs : SolidAll ts) (hne : ts ≠ []) {m : Multiset Cell}
    (howns : c.Owns (cells .root none ts + m)) {x : C} (hx : fits .root [] x)
    (halong : D.AlongAll x (strip ts)) : ∀ id ∈ c.descendants (start ts), P id := by
  rw [howns.descendants_eq hs hne]
  refine (h.walk_all.2 ts).1 _ _ _ _ howns.left hs (fun _ hid => hid)
    ⟨.root, List.forall_mem_nil _, ?_, hx⟩ halong
  rw [List.length_nil, Nat.zero_add]
  exact howns.countAll_le_size

end Tracks

end Rulewright
