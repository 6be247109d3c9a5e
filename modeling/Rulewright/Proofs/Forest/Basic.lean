import Mathlib.Logic.Relation
import Rulewright.Proofs.Tree.Cells

/-!
# Well-formed code

The references between nodes say three times where a node stands: its link names a place, and the
place holds it, as what follows a node or as the body in a slot. In well-formed code the two always
agree, and whoever goes up from a node through the links comes to the start of a sequence. So the
nodes form trees.

* `Code.held`: what stands at a place. Links and places are one bijection (`WellFormed.held_iff`).
* `Code.Climbs`: to go up through the links.
* `WellFormed.placed`: a tree may be put at a place outside of it, whatever stood there before.
* `WellFormed.taken`: a node may be taken from the end of what is before it.
-/

namespace Rulewright

/-- The node that a place belongs to. -/
def Link.holder? : Link → Option NodeId
  | .root => none
  | .after p => some p
  | .childOf p _ => some p

theorem Link.ne_root_of_holder? {k : Link} {p : NodeId} (h : k.holder? = some p) : k ≠ .root := by
  rintro rfl
  cases h

namespace Code

variable {c c' : Code}

/-- What stands at a place. -/
def held (c : Code) : Link → Option NodeId
  | .root => none
  | .after p => c.next p
  | .childOf p slot => c.slot? p slot

theorem up?_eq (c : Code) (n : NodeId) : c.up? n = (c.link n).holder? := by
  unfold up?
  cases c.link n <;> rfl

/-- From `n` one comes to `r` by going up, in any number of steps. -/
def Climbs (c : Code) : NodeId → NodeId → Prop := Relation.ReflTransGen fun n p => c.up? n = some p

/-- Links, next nodes and bodies agree both ways, and every way up ends. -/
structure WellFormed (c : Code) : Prop where
  after_iff : ∀ n p, c.link n = .after p ↔ c.next p = some n
  child_iff : ∀ n p slot, c.link n = .childOf p slot ↔ c.slot? p slot = some n
  grounded : ∀ n, ∃ r, c.Climbs n r ∧ c.link r = .root

/-! ### Going up -/

theorem Climbs.step {n p : NodeId} (h : c.up? n = some p) : c.Climbs n p := .single h

theorem Climbs.eq_of_root {n r : NodeId} (h : c.Climbs n r) (hn : c.link n = .root) : r = n := by
  have hup : c.up? n = none := by rw [up?_eq, hn]; rfl
  rcases Relation.ReflTransGen.cases_head h with rfl | ⟨p, hp, -⟩
  · rfl
  · rw [hup] at hp
    cases hp

/-- Two nodes above one node are above each other. -/
theorem Climbs.total {n a b : NodeId} (ha : c.Climbs n a) (hb : c.Climbs n b) :
    c.Climbs a b ∨ c.Climbs b a := by
  refine Relation.ReflTransGen.total_of_right_unique ?_ ha hb
  intro x y z hy hz
  exact Option.some.inj (hy.symm.trans hz)

/-- The way up from a node does not depend on more than the links on it. -/
theorem Climbs.mono {n r : NodeId} (h : c'.Climbs n r)
    (hup : ∀ x, c'.Climbs n x → ∀ p, c'.up? x = some p → c.up? x = some p) : c.Climbs n r := by
  induction h with
  | refl => exact .refl
  | tail hx hp ih => exact ih.tail (hup _ hx _ hp)

theorem ne_root_of_up? {n p : NodeId} (h : c.up? n = some p) : c.link n ≠ .root := by
  rw [up?_eq] at h
  exact Link.ne_root_of_holder? h

theorem lt_size_of_link {n : NodeId} (h : c.link n ≠ .root) : n < c.size := by
  by_contra hn
  have hnone : c.node? n = none := by
    rw [node?, Array.getElem?_eq_none_iff]
    exact Nat.le_of_not_lt hn
  apply h
  rw [link, hnone]

theorem next_of_le {n : NodeId} (h : c.size ≤ n) : c.next n = none := by
  rw [next, node?, Array.getElem?_eq_none h]
  rfl

theorem slot?_of_le {n : NodeId} (h : c.size ≤ n) (slot : Slot) : c.slot? n slot = none := by
  have hkind : c.kind n = .noop := by rw [kind, node?, Array.getElem?_eq_none h]
  rw [slot?, branch?, hkind]
  rfl

/-- Only a node of the code holds something. -/
theorem lt_size_of_held {k : Link} {n p : NodeId} (hk : k.holder? = some p)
    (h : c.held k = some n) : p < c.size := by
  by_contra hp
  have hle : c.size ≤ p := Nat.le_of_not_lt hp
  cases k with
  | root => cases hk
  | after q =>
    cases hk
    rw [held, next_of_le hle] at h
    cases h
  | childOf q slot =>
    cases hk
    rw [held, slot?_of_le hle] at h
    cases h

namespace WellFormed

/-- **A node stands at a place** if and only if the place holds it. -/
theorem held_iff (h : c.WellFormed) (n : NodeId) {k : Link} (hk : k ≠ .root) :
    c.link n = k ↔ c.held k = some n := by
  cases k with
  | root => exact absurd rfl hk
  | after p => exact h.after_iff n p
  | childOf p slot => exact h.child_iff n p slot

/-- Places and the ways up are all there is to well-formed code. -/
theorem of_held (hheld : ∀ n k, k ≠ .root → (c.link n = k ↔ c.held k = some n))
    (hgrounded : ∀ n, ∃ r, c.Climbs n r ∧ c.link r = .root) : c.WellFormed :=
  ⟨fun n p => hheld n (.after p) (by simp), fun n p slot => hheld n (.childOf p slot) (by simp),
    hgrounded⟩

/-- Induction from the starts of sequences down. -/
theorem induct (h : c.WellFormed) {P : NodeId → Prop}
    (step : ∀ n, (∀ p, c.up? n = some p → P p) → P n) (n : NodeId) : P n := by
  obtain ⟨r, hclimb, hr⟩ := h.grounded n
  induction hclimb using Relation.ReflTransGen.head_induction_on with
  | refl =>
    apply step
    intro p hp
    exact absurd hr (ne_root_of_up? hp)
  | head hp _ ih =>
    apply step
    intro q hq
    obtain rfl := Option.some.inj (hp.symm.trans hq)
    exact ih

theorem grounded_of_induct
    (step : ∀ P : NodeId → Prop, (∀ n, (∀ p, c.up? n = some p → P p) → P n) → ∀ n, P n)
    (n : NodeId) : ∃ r, c.Climbs n r ∧ c.link r = .root := by
  refine step (fun n => ∃ r, c.Climbs n r ∧ c.link r = .root) ?_ n
  intro n ih
  cases hup : c.up? n with
  | none =>
    refine ⟨n, .refl, ?_⟩
    rw [up?_eq] at hup
    cases hlink : c.link n with
    | root => rfl
    | _ => rw [hlink] at hup; cases hup
  | some p =>
    obtain ⟨r, hr, hroot⟩ := ih p hup
    exact ⟨r, .head hup hr, hroot⟩

/-- No way up leads back to where it started. -/
theorem not_climbs (h : c.WellFormed) {n p : NodeId} (hp : c.up? n = some p) : ¬ c.Climbs p n := by
  revert p
  refine h.induct (P := fun n => ∀ {p}, c.up? n = some p → ¬ c.Climbs p n) ?_ n
  intro n ih p hp hclimb
  -- the way from `p` to `n` starts with the node above `p`, from which it goes on to `p` again
  rcases Relation.ReflTransGen.cases_head hclimb with rfl | ⟨q, hq, hrest⟩
  · exact ih p hp hp .refl
  · exact ih p hp hq (hrest.tail hp)

theorem lt_size_of_up? (h : c.WellFormed) {n p : NodeId} (hp : c.up? n = some p) : p < c.size := by
  have hheld := (h.held_iff n (ne_root_of_up? hp)).1 rfl
  rw [up?_eq] at hp
  exact lt_size_of_held hp hheld

theorem lt_size_of_climbs (h : c.WellFormed) {n r : NodeId} (hclimb : c.Climbs n r)
    (hn : n < c.size) : r < c.size := by
  induction hclimb with
  | refl => exact hn
  | tail _ hp _ => exact h.lt_size_of_up? hp

/-- What a place holds is a node of the code that stands there. -/
theorem lt_size_of_mem (h : c.WellFormed) {k : Link} {n : NodeId} (hk : k ≠ .root)
    (hn : c.held k = some n) : n < c.size := by
  apply lt_size_of_link
  rw [(h.held_iff n hk).2 hn]
  exact hk

theorem empty : WellFormed Code.empty := by
  refine ⟨?_, ?_, ?_⟩
  · intro n p
    simp [Code.link, Code.next, Code.node?, Code.empty]
  · intro n p slot
    simp [Code.link, Code.slot?, Code.branch?, Code.kind, Code.node?, Code.empty, NodeKind.branch?]
  · intro n
    exact ⟨n, .refl, rfl⟩

end WellFormed

/-! ### Putting trees at places -/

/-- The second code is the first one with `n` put at the place `k`. What stood there starts a
sequence of its own. -/
structure Placed (c c' : Code) (n : NodeId) (k : Link) : Prop where
  link : ∀ x, c'.link x = if x = n then k else if c.held k = some x then .root else c.link x
  held : ∀ j, c'.held j = if j = k then some n else c.held j

/-- The second code is the first one with `n` taken from its place, which is empty after that. -/
structure Taken (c c' : Code) (n : NodeId) : Prop where
  link : ∀ x, c'.link x = if x = n then .root else c.link x
  held : ∀ j, j ≠ .root → c'.held j = if j = c.link n then none else c.held j

namespace Placed

variable {n : NodeId} {k : Link}

theorem up? (h : Placed c c' n k) (x : NodeId) :
    c'.up? x = if x = n then k.holder? else if c.held k = some x then none else c.up? x := by
  rw [up?_eq, h.link, up?_eq]
  split_ifs <;> rfl

/-- A way up that does not come through the node is not a new one. -/
theorem climbs (h : Placed c c' n k) {x y : NodeId} (hclimb : c'.Climbs x y) (hx : ¬ c.Climbs x n) :
    c.Climbs x y := by
  induction hclimb with
  | refl => exact .refl
  | @tail a b _ hp ih =>
    rw [h.up?] at hp
    have ha : a ≠ n := by
      rintro rfl
      exact hx ih
    rw [if_neg ha] at hp
    split_ifs at hp
    exact ih.tail hp

end Placed

namespace WellFormed

variable {n : NodeId} {k : Link}

/-- **A tree may be put at a place outside of it.** -/
theorem placed (h : c.WellFormed) (hp : Placed c c' n k) (hn : c.link n = .root) {p : NodeId}
    (hk : k.holder? = some p) (hfree : ¬ c.Climbs p n) : c'.WellFormed := by
  have hroot := Link.ne_root_of_holder? hk
  refine of_held ?_ (grounded_of_induct ?_)
  · intro x j hj
    have hx := h.held_iff x hj
    have hxk := h.held_iff x hroot
    have hnj := h.held_iff n hj
    rw [hp.link, hp.held]
    grind
  · intro P step
    have hstep : ∀ x, x ≠ n → (∀ q, c.up? x = some q → P q) → P x := by
      intro x hx hq
      apply step
      intro q hup
      rw [hp.up?, if_neg hx] at hup
      split_ifs at hup
      exact hq q hup
    -- first what is not below the node, then the node, then all the rest
    have houtside : ∀ x, ¬ c.Climbs x n → P x := by
      refine h.induct (P := fun x => ¬ c.Climbs x n → P x) ?_
      intro x ih hx
      refine hstep x (fun he => hx (he ▸ .refl)) ?_
      intro q hq
      exact ih q hq fun hclimb => hx (.head hq hclimb)
    have hself : P n := by
      apply step
      intro q hq
      rw [hp.up?, if_pos rfl, hk] at hq
      obtain rfl := Option.some.inj hq
      exact houtside _ hfree
    refine h.induct ?_
    intro x ih
    by_cases hx : x = n
    · rw [hx]
      exact hself
    · exact hstep x hx ih

/-- **A node may be taken from its place** where the place can be empty. -/
theorem taken (h : c.WellFormed) (ht : Taken c c' n) : c'.WellFormed := by
  refine of_held ?_ (grounded_of_induct ?_)
  · intro x j hj
    have hx := h.held_iff x hj
    have hnj := h.held_iff n hj
    rw [ht.link, ht.held j hj]
    grind
  · intro P step
    refine h.induct ?_
    intro x ih
    apply step
    intro q hq
    rw [up?_eq, ht.link] at hq
    split_ifs at hq
    · cases hq
    · rw [← up?_eq] at hq
      exact ih q hq

end WellFormed

end Code

end Rulewright
