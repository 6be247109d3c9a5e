import Rulewright.Code.Integrity
import Rulewright.Proofs.Chain.Store
import Rulewright.Proofs.Fusion.Redundancy
import Rulewright.Proofs.Fusion.Fuse

/-!
# Integrity of trees

In a store that owns a tree the three kinds of reference between nodes are in step, because the
cells of a tree are computed from where its statements stand. So the integrity check has nothing to
say about an owned tree, whatever was done to the store before.

* `Owns.checkIntegrity`: nothing is wrong with an owned tree.
* `Code.IsFinished`: nothing is wrong with the code under a node, and no place in it is left open.
* `holeAll?_calmAll`, `holeAll?_fuse`: where trees have no open place.
-/

namespace Rulewright

open Stmt

namespace Code

variable {c : Code} {m : Multiset Cell} {link : Link}

/-- **What the check asks of one node.** -/
theorem nodeViolations_eq_nil_iff {id : NodeId} :
    c.nodeViolations id = [] ↔
      (∀ parent slot, c.link id = .childOf parent slot → c.slot? parent slot = some id) ∧
      (∀ b, c.branch? id = some b → ∀ held ∈ b.slots, c.link held.2 = .childOf id held.1) ∧
      ∀ k, c.next id = some k → c.link k = .after id := by
  have hparent : c.parentViolations id = [] ↔
      ∀ parent slot, c.link id = .childOf parent slot → c.slot? parent slot = some id := by
    unfold parentViolations
    cases c.link id <;> simp
  have hbodies : c.bodyViolations id = [] ↔
      ∀ b, c.branch? id = some b → ∀ held ∈ b.slots, c.link held.2 = .childOf id held.1 := by
    unfold bodyViolations
    cases c.branch? id <;> simp
  have hnext : c.sequenceViolations id = [] ↔ ∀ k, c.next id = some k → c.link k = .after id := by
    unfold sequenceViolations
    cases c.next id <;> simp
  rw [nodeViolations, List.append_eq_nil_iff, List.append_eq_nil_iff, hparent, hbodies, hnext,
    and_assoc]

namespace Owns

/-- Each `else if` names its branch and its place in it. -/
theorem link_elseIf {parent : NodeId} {index : Nat} {es : List (Stmt NodeId)}
    (h : c.Owns (elseIfCells parent index es + m)) {j : Nat} {s : Stmt NodeId}
    (hs : es[j]? = some s) : c.link s.id = .childOf parent (.elseIf (index + j)) := by
  induction es generalizing index j with
  | nil => simp at hs
  | cons s' rest ih =>
    cases j with
    | zero =>
      rw [List.getElem?_cons_zero] at hs
      cases hs
      exact h.elseIf_cons.1.link_head
    | succ j =>
      rw [List.getElem?_cons_succ] at hs
      rw [ih h.elseIf_cons.2 hs, Nat.add_assoc, Nat.add_comm 1 j]

/-- The bodies of a branch name it. -/
theorem link_bodies {id : NodeId} {guard : Guard} {t e es rest : List (Stmt NodeId)}
    (h : c.Owns (cells link none (.branch id guard t e es :: rest) + m)) (ht : t ≠ []) (he : e ≠ [])
    {b : Branch} (hb : c.branch? id = some b) :
    ∀ held ∈ b.slots, c.link held.2 = .childOf id held.1 := by
  obtain ⟨hthen, helse, hes⟩ := h.bodies
  have hbranch := branch?_of h.head
  rw [id_branch, hb, branchOf] at hbranch
  cases hbranch
  intro held hheld
  simp only [Branch.slots, List.mem_cons] at hheld
  rcases hheld with rfl | rfl | hheld
  · exact hthen.link_start ht
  · exact helse.link_start he
  · obtain ⟨j, hj, rfl⟩ := List.mem_mapIdx.1 hheld
    rw [List.getElem_map]
    have hlink := hes.link_elseIf (List.getElem?_eq_getElem (by simpa using hj))
    rwa [Nat.zero_add] at hlink

/-- A branch holds its `else if`s in their places. -/
theorem slot?_elseIf {id : NodeId} {guard : Guard} {t e es rest : List (Stmt NodeId)}
    (h : c.Owns (cells link none (.branch id guard t e es :: rest) + m)) (j : Nat) :
    c.slot? id (.elseIf j) = (es.map Stmt.id)[j]? := by
  have hbranch := branch?_of h.head
  rw [id_branch, branchOf] at hbranch
  rw [Code.slot?, hbranch]
  rfl

theorem slot?_bodies {id : NodeId} {guard : Guard} {t e es rest : List (Stmt NodeId)}
    (h : c.Owns (cells link none (.branch id guard t e es :: rest) + m)) :
    c.slot? id .thenBody = some (start t) ∧ c.slot? id .elseBody = some (start e) := by
  have hbranch := branch?_of h.head
  rw [id_branch, branchOf] at hbranch
  rw [Code.slot?, Code.slot?, hbranch]
  exact ⟨rfl, rfl⟩

/-- **Each node of an owned tree** and its neighbours name each other. -/
theorem nodeViolations_all :
    (∀ s : Stmt NodeId, s.Solid →
      ∀ link rest, c.Owns (cells link none (s :: rest) + m) →
        (∀ parent slot, link = .childOf parent slot → c.slot? parent slot = some s.id) →
        ∀ id ∈ s.walk, c.nodeViolations id = []) ∧
    ∀ ts : List (Stmt NodeId), SolidAll ts →
      (∀ link, c.Owns (cells link none ts + m) →
          (∀ parent slot, link = .childOf parent slot → c.slot? parent slot = some (start ts)) →
          ∀ id ∈ walkAll ts, c.nodeViolations id = []) ∧
        ∀ parent index, c.Owns (elseIfCells parent index ts + m) →
          (∀ j, j < ts.length → c.slot? parent (.elseIf (index + j)) = (ts.map Stmt.id)[j]?) →
          ∀ id ∈ walkAll ts, c.nodeViolations id = [] := by
  -- the node of a statement, its bodies apart
  have own : ∀ (s : Stmt NodeId) (link : Link) (rest : List (Stmt NodeId)),
      c.Owns (cells link none (s :: rest) + m) →
      (∀ parent slot, link = .childOf parent slot → c.slot? parent slot = some s.id) →
      (∀ b, c.branch? s.id = some b → ∀ held ∈ b.slots, c.link held.2 = .childOf s.id held.1) →
      c.nodeViolations s.id = [] := by
    intro s link rest h hheld hbodies
    refine nodeViolations_eq_nil_iff.2
      ⟨fun parent slot hlink => hheld parent slot ?_, hbodies, fun k hk => ?_⟩
    · rw [← hlink, h.link_head]
    · rw [h.next_head, Option.or_none] at hk
      cases rest with
      | nil => cases hk
      | cons s' rest' =>
        cases hk
        exact h.tail.link_head
  apply Stmt.induct
  case line =>
    intro id x comment off _ link rest h hheld k hk
    rw [walk, List.mem_singleton] at hk
    subst hk
    refine own (.line k x comment off) link rest h hheld fun b hb => ?_
    rw [branch?_of h.head] at hb
    cases hb
  case branch =>
    intro id guard t e es iht ihe ihes hsolid link rest h hheld k hk
    obtain ⟨ht, he, hts, hes, hess⟩ := hsolid
    obtain ⟨hthen, helse, helseIfs⟩ := h.bodies
    obtain ⟨hslotThen, hslotElse⟩ := h.slot?_bodies
    simp only [walk, List.mem_append, List.mem_singleton] at hk
    rcases hk with (hk | hk | hk) | rfl
    · refine (iht hts).1 _ hthen (fun parent slot hp => ?_) k hk
      cases hp
      exact hslotThen
    · refine (ihe hes).1 _ helse (fun parent slot hp => ?_) k hk
      cases hp
      exact hslotElse
    · refine (ihes hess).2 id 0 helseIfs (fun j _ => ?_) k hk
      rw [Nat.zero_add]
      exact h.slot?_elseIf j
    · exact own _ link rest h hheld fun b hb => h.link_bodies ht he hb
  case nil =>
    exact fun _ =>
      ⟨fun _ _ _ _ hk => absurd hk (by simp [walkAll]),
        fun _ _ _ _ _ hk => absurd hk (by simp [walkAll])⟩
  case cons =>
    intro s rest ihs ihrest hsolid
    refine ⟨fun link h hheld k hk => ?_, fun parent index h hheld k hk => ?_⟩
    · rw [walkAll, List.mem_append] at hk
      rcases hk with hk | hk
      · exact ihs hsolid.1 link rest h hheld k hk
      · refine (ihrest hsolid.2).1 _ h.tail (fun parent slot hp => ?_) k hk
        cases hp
    · rw [walkAll, List.mem_append] at hk
      rcases hk with hk | hk
      · refine ihs hsolid.1 _ [] h.elseIf_cons.1 (fun parent' slot hp => ?_) k hk
        cases hp
        simpa using hheld 0 (by simp)
      · refine (ihrest hsolid.2).2 parent (index + 1) h.elseIf_cons.2 (fun j hj => ?_) k hk
        have := hheld (j + 1) (by simpa using hj)
        rw [Nat.add_assoc, Nat.add_comm 1 j, this]
        simp

/-- **Nothing is wrong with an owned tree.** -/
theorem checkIntegrity {ts : List (Stmt NodeId)} (hs : SolidAll ts) (hne : ts ≠ [])
    (h : c.Owns (cells .root none ts + m)) : c.checkIntegrity (start ts) = [] := by
  rw [Code.checkIntegrity, h.descendants_eq hs hne, List.flatMap_eq_nil_iff]
  refine ((nodeViolations_all.2 ts hs).1 .root h fun parent slot hp => ?_)
  cases hp

end Owns

/-- Nothing is wrong with the links of the code under a node, and no place in it is left open. -/
structure IsFinished (c : Code) (head : NodeId) : Prop where
  integrity : c.checkIntegrity head = []
  closed : ∀ id ∈ c.descendants head, (c.kind id).isPlaceholder = false

theorem Owns.isFinished {ts : List (Stmt NodeId)} (hs : SolidAll ts) (hne : ts ≠ [])
    (h : c.Owns (cells .root none ts + m)) (hhole : holeAll? ts = none) :
    c.IsFinished (start ts) := by
  refine ⟨h.checkIntegrity hs hne, fun id hid => ?_⟩
  rw [← h.findPlaceholder?_eq hs hne, findPlaceholder?_eq_find?, List.find?_eq_none] at hhole
  simpa using hhole id hid

end Code

/-! ### Trees without an open place -/

namespace Stmt

variable {ι κ : Type}

theorem holeAll?_eq_none_append {xs ys : List (Stmt ι)} :
    holeAll? (xs ++ ys) = none ↔ holeAll? xs = none ∧ holeAll? ys = none := by
  rw [holeAll?_append, Option.or_eq_none_iff]

theorem hole?_calm_all :
    (∀ s : Stmt ι, s.calm.hole? = none) ∧ ∀ ts : List (Stmt ι), holeAll? (calmAll ts) = none := by
  apply Stmt.induct
  case line =>
    intro id x comment off
    cases x <;> rfl
  case branch =>
    intro id guard t e es ht he hes
    simp only [calm, hole?, ht, he, hes, Option.or_none]
  case nil => rfl
  case cons =>
    intro s rest hs hrest
    simp only [calmAll, holeAll?, hs, hrest, Option.or_none]

theorem holeAll?_strip {ts : List (Stmt ι)} : holeAll? (strip ts) = none ↔ holeAll? ts = none := by
  rw [strip, (hole?_map_all _).2 ts, Option.map_eq_none_iff]

/-- Definitions are no open places. -/
theorem hole?_sketch_all :
    (∀ s : Stmt ι, s.sketch.hole? = s.hole?) ∧
    ∀ ts : List (Stmt ι), holeAll? (sketchAll ts) = holeAll? ts := by
  apply Stmt.induct
  case line =>
    intro id x comment off
    cases x <;> rfl
  case branch =>
    intro id guard t e es ht he hes
    simp only [sketch, hole?, ht, he, hes]
  case nil => rfl
  case cons =>
    intro s rest hs hrest
    simp only [sketchAll, holeAll?, hs, hrest]

theorem Fork.holeAll?_code (f : Fork ι) :
    holeAll? f.code = none ↔
    holeAll? f.before = none ∧
      (holeAll? f.thenBody = none ∧ holeAll? f.elseBody = none ∧ holeAll? f.elseIfs = none) ∧
      holeAll? f.after = none := by
  rw [Fork.code, Fork.rest, holeAll?_eq_none_append, holeAll?, hole?, Option.or_eq_none_iff,
    Option.or_eq_none_iff, Option.or_eq_none_iff]

/-- Fusing leaves no place open. -/
theorem holeAll?_fuse (l : Language) {mine other : List (Stmt ι)} (hm : holeAll? mine = none)
    (ho : holeAll? other = none) : holeAll? (fuse l mine other) = none := by
  fun_induction fuse l mine other with
  | case1 mine other => exact hm
  | case2 mine other => exact holeAll?_eq_none_append.2 ⟨hm, ho⟩
  | case3 mine other f g hf hg _ ih =>
    rw [(lastFork?_eq_some hf).1, Fork.holeAll?_code] at hm
    rw [(lastFork?_eq_some hg).1, Fork.holeAll?_code] at ho
    obtain ⟨h1, ⟨h2, h3, h4⟩, h5⟩ := hm
    exact (Fork.holeAll?_code { f with thenBody := fuse l f.thenBody g.thenBody }).2
      ⟨h1, ⟨ih h2 ho.2.1.1, h3, h4⟩, h5⟩
  | case4 mine other f g hf hg _ _ ih =>
    rw [(lastFork?_eq_some hf).1, Fork.holeAll?_code] at hm
    rw [(lastFork?_eq_some hg).1, Fork.code, holeAll?_eq_none_append] at ho
    obtain ⟨h1, ⟨h2, h3, h4⟩, h5⟩ := hm
    exact (Fork.holeAll?_code { f with thenBody := fuse l f.thenBody g.rest }).2
      ⟨h1, ⟨ih h2 ho.2, h3, h4⟩, h5⟩
  | case5 mine other f g hf hg _ _ ih =>
    rw [(lastFork?_eq_some hf).1, Fork.holeAll?_code] at hm
    obtain ⟨h1, ⟨h2, h3, h4⟩, h5⟩ := hm
    exact (Fork.holeAll?_code { f with elseBody := fuse l f.elseBody other }).2
      ⟨h1, ⟨h2, ih h3 ho, h4⟩, h5⟩

end Stmt

end Rulewright
