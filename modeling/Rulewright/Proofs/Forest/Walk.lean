import Rulewright.Proofs.Forest.Reach

/-!
# Walks through well-formed code

A way down gets deeper with every node, and no node is deeper than the code has nodes. So walks that
are bounded by the size of the code are never cut off. To go down is to go up the other way, so no
way down returns, every link is truthful, and no walk meets a node twice.

* `AtDepth`: how far a node is below the start of its tree. It is less than the size of the code.
* `WellFormed.last_spec`: the last node of a sequence has nothing after it.
* `Code.Visits`: a walk that comes to its end; `WellFormed.visits`: every walk does.
* `WellFormed.nodup_descendants`, `WellFormed.checkIntegrity`: no node is met twice, nothing is
  wrong.
-/

namespace Rulewright

namespace Code

variable {c : Code}

/-! ### Depth -/

/-- The node is this many steps below the start of its tree. -/
inductive AtDepth (c : Code) : NodeId → Nat → Prop
  | root {n : NodeId} : c.up? n = none → AtDepth c n 0
  | step {n p : NodeId} {d : Nat} : c.up? n = some p → AtDepth c p d → AtDepth c n (d + 1)

namespace AtDepth

theorem unique {n : NodeId} {d e : Nat} (hd : c.AtDepth n d) (he : c.AtDepth n e) : d = e := by
  induction hd generalizing e with
  | root hn =>
    cases he with
    | root _ => rfl
    | step hp _ =>
      rw [hn] at hp
      cases hp
  | step hp _ ih =>
    cases he with
    | root hn =>
      rw [hn] at hp
      cases hp
    | step hq hd =>
      obtain rfl := Option.some.inj (hp.symm.trans hq)
      rw [ih hd]

/-- A node has as many nodes above it as it is deep, all of them different. -/
theorem exists_nodup (h : c.WellFormed) {n : NodeId} {d : Nat} (hd : c.AtDepth n d)
    (hn : n < c.size) :
    ∃ above : List NodeId, above.Nodup ∧ above.length = d + 1 ∧
      ∀ x ∈ above, x < c.size ∧ ∃ e, e ≤ d ∧ c.AtDepth x e := by
  induction hd with
  | @root n hup =>
    refine ⟨[n], List.nodup_singleton n, rfl, ?_⟩
    intro x hx
    rw [List.mem_singleton.1 hx]
    exact ⟨hn, 0, le_rfl, .root hup⟩
  | @step n p d hp hd ih =>
    obtain ⟨above, hnodup, hlength, habove⟩ := ih (h.lt_size_of_up? hp)
    have hdeep : c.AtDepth n (d + 1) := .step hp hd
    refine ⟨n :: above, ?_, by rw [List.length_cons, hlength], ?_⟩
    · refine List.nodup_cons.2 ⟨fun hmem => ?_, hnodup⟩
      obtain ⟨-, e, hle, he⟩ := habove n hmem
      have := he.unique hdeep
      omega
    · intro x hx
      rcases List.mem_cons.1 hx with rfl | hx
      · exact ⟨hn, d + 1, le_rfl, hdeep⟩
      · obtain ⟨hlt, e, hle, he⟩ := habove x hx
        exact ⟨hlt, e, by omega, he⟩

/-- **No node is deeper than the code has nodes.** -/
theorem lt_size (h : c.WellFormed) {n : NodeId} {d : Nat} (hd : c.AtDepth n d) (hn : n < c.size) :
    d < c.size := by
  obtain ⟨above, hnodup, hlength, habove⟩ := hd.exists_nodup h hn
  have hsub : above ⊆ List.range c.size := fun x hx => List.mem_range.2 (habove x hx).1
  have hle := (List.subperm_of_subset hnodup hsub).length_le
  rw [List.length_range] at hle
  omega

end AtDepth

theorem lt_size_of_below {n p : NodeId} (hup : c.up? n = some p) : n < c.size :=
  lt_size_of_link (ne_root_of_up? hup)

theorem Climbs.lt_size {n r : NodeId} (h : c.Climbs n r) (hr : r < c.size) : n < c.size := by
  rcases Relation.ReflTransGen.cases_head h with rfl | ⟨p, hp, -⟩
  · exact hr
  · exact lt_size_of_below hp

/-! ### Sequences -/

namespace WellFormed

theorem exists_depth (h : c.WellFormed) (n : NodeId) : ∃ d, c.AtDepth n d := by
  refine h.induct (P := fun n => ∃ d, c.AtDepth n d) ?_ n
  intro n ih
  cases hup : c.up? n with
  | none => exact ⟨0, .root hup⟩
  | some p =>
    obtain ⟨d, hd⟩ := ih p hup
    exact ⟨d + 1, .step hup hd⟩

theorem up?_next (h : c.WellFormed) {p n : NodeId} (hn : c.next p = some n) : c.up? n = some p := by
  rw [up?_eq, (h.after_iff n p).2 hn]
  rfl

theorem up?_slot (h : c.WellFormed) {p n : NodeId} {slot : Slot} (hn : c.slot? p slot = some n) :
    c.up? n = some p := by
  rw [up?_eq, (h.child_iff n p slot).2 hn]
  rfl

theorem up?_body (h : c.WellFormed) {p n : NodeId} (hn : n ∈ c.bodies p) : c.up? n = some p := by
  obtain ⟨slot, hslot⟩ := mem_bodies.1 hn
  exact h.up?_slot hslot

theorem chainFrom_spec (h : c.WellFormed) {fuel : Nat} {id : NodeId} {d : Nat} (hd : c.AtDepth id d)
    (hid : id < c.size) (hfuel : c.size ≤ fuel + d) :
    ∃ z, (c.chainFrom fuel id).getLast? = some z ∧ c.next z = none ∧ c.Climbs z id := by
  induction fuel generalizing id d with
  | zero =>
    have := hd.lt_size h hid
    omega
  | succ fuel ih =>
    rw [chainFrom]
    cases hnext : c.next id with
    | none => exact ⟨id, rfl, hnext, .refl⟩
    | some k =>
      have hup := h.up?_next hnext
      obtain ⟨z, hz, hznext, hclimb⟩ := ih (.step hup hd) (lt_size_of_below hup) (by omega)
      refine ⟨z, ?_, hznext, hclimb.tail hup⟩
      rw [List.getLast?_cons, hz]
      rfl

/-- **The last node** of a sequence has nothing after it. -/
theorem last_spec (h : c.WellFormed) {id : NodeId} (hid : id < c.size) :
    c.next (c.last id) = none ∧ c.Climbs (c.last id) id := by
  obtain ⟨d, hd⟩ := h.exists_depth id
  obtain ⟨z, hz, hnext, hclimb⟩ := h.chainFrom_spec hd hid (Nat.le_add_right _ _)
  have hlast : c.last id = z := by rw [last, chain, List.getLastD_eq_getLast?, hz]; rfl
  rw [hlast]
  exact ⟨hnext, hclimb⟩

end WellFormed

/-! ### Walks -/

mutual

/-- A walk from a node comes to its end, after it has visited these nodes in this order: the bodies
of the node, each to its end, then the node, then what follows it. -/
inductive Visits (c : Code) : NodeId → List NodeId → Prop
  | last {id : NodeId} {inside : List NodeId} :
      VisitsAll c (c.bodies id) inside → c.next id = none → Visits c id (inside ++ [id])
  | next {id k : NodeId} {inside rest : List NodeId} :
      VisitsAll c (c.bodies id) inside → c.next id = some k → Visits c k rest →
      Visits c id (inside ++ id :: rest)

inductive VisitsAll (c : Code) : List NodeId → List NodeId → Prop
  | nil : VisitsAll c [] []
  | cons {id : NodeId} {ids visited rest : List NodeId} :
      Visits c id visited → VisitsAll c ids rest → VisitsAll c (id :: ids) (visited ++ rest)

end

theorem visitsAll_flatMap {f : NodeId → List NodeId} {ids : List NodeId}
    (h : ∀ id ∈ ids, c.Visits id (f id)) : c.VisitsAll ids (ids.flatMap f) := by
  induction ids with
  | nil => exact .nil
  | cons id ids ih =>
    rw [List.flatMap_cons]
    exact .cons (h id List.mem_cons_self) (ih fun k hk => h k (List.mem_cons_of_mem _ hk))

namespace WellFormed

theorem visits_descendantsFrom (h : c.WellFormed) {fuel : Nat} {id : NodeId} {d : Nat}
    (hd : c.AtDepth id d) (hid : id < c.size) (hfuel : c.size ≤ fuel + d) :
    c.Visits id (c.descendantsFrom fuel id) := by
  induction fuel generalizing id d with
  | zero =>
    have := hd.lt_size h hid
    omega
  | succ fuel ih =>
    -- whatever stands under the node is one step deeper
    have hbelow : ∀ k, c.up? k = some id → c.Visits k (c.descendantsFrom fuel k) := by
      intro k hup
      exact ih (.step hup hd) (lt_size_of_below hup) (by omega)
    have hinside := visitsAll_flatMap fun k hk => hbelow k (h.up?_body hk)
    rw [descendantsFrom]
    cases hnext : c.next id with
    | none => exact .last hinside hnext
    | some k => exact .next hinside hnext (hbelow k (h.up?_next hnext))

/-- **Every walk ends.** -/
theorem visits (h : c.WellFormed) {id : NodeId} (hid : id < c.size) :
    c.Visits id (c.descendants id) := by
  obtain ⟨d, hd⟩ := h.exists_depth id
  exact h.visits_descendantsFrom hd hid (Nat.le_add_right _ _)

/-- In well-formed code to go down is to go up the other way. -/
theorem up?_eq_some_iff (h : c.WellFormed) {n p : NodeId} : c.up? n = some p ↔ c.Carries p n := by
  rw [up?_eq]
  constructor
  · intro hup
    exact ⟨c.link n, hup, (h.held_iff n (Link.ne_root_of_holder? hup)).1 rfl⟩
  · rintro ⟨k, hk, hheld⟩
    rw [(h.held_iff n (Link.ne_root_of_holder? hk)).2 hheld]
    exact hk

theorem reaches_iff (h : c.WellFormed) {a b : NodeId} : c.Reaches a b ↔ c.Climbs b a := by
  have hswap : c.Carries = Function.swap fun n p => c.up? n = some p := by
    funext p n
    exact propext h.up?_eq_some_iff.symm
  rw [Reaches, hswap]
  exact Relation.reflTransGen_swap

/-- What a walk visits is below the node it starts from. -/
theorem climbs_of_mem_descendantsFrom (h : c.WellFormed) {fuel : Nat} {id x : NodeId}
    (hx : x ∈ c.descendantsFrom fuel id) : c.Climbs x id :=
  h.reaches_iff.1 (reaches_of_mem_descendantsFrom hx)

theorem truthful (h : c.WellFormed) (id : NodeId) : c.Truthful id := by
  rintro n k ⟨p, hk, -, hheld⟩
  exact (h.held_iff n (Link.ne_root_of_holder? hk)).2 hheld

theorem neverReturns (h : c.WellFormed) (id : NodeId) : c.NeverReturns id := by
  intro n _ hcycle
  obtain ⟨k, hk, hback⟩ := Relation.TransGen.head'_iff.1 hcycle
  exact h.not_climbs (h.up?_eq_some_iff.2 hk) (h.reaches_iff.1 hback)

/-- **No walk meets a node twice.** -/
theorem nodup_descendants (h : c.WellFormed) (id : NodeId) : (c.descendants id).Nodup :=
  (h.truthful id).nodup_descendants (h.neverReturns id)

/-- **Nothing is wrong** with any node. -/
theorem checkIntegrity (h : c.WellFormed) (id : NodeId) : c.checkIntegrity id = [] :=
  (h.neverReturns id).checkIntegrity_eq_nil_iff.2
    ⟨h.truthful id, fun p slot => (h.child_iff id p slot).1⟩

end WellFormed

end Code

end Rulewright
