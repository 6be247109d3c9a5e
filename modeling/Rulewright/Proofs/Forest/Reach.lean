import Mathlib.Data.List.Nodup
import Rulewright.Proofs.Forest.Basic
import Rulewright.Proofs.Tree.Integrity

/-!
# What the integrity check decides

The check looks at single nodes and their neighbours, and it may be asked about any code. If no way
down from a node leads back to a node that is on it, the check is silent exactly when the code under
the node is a tree: every node in it stands at one place only, which is the one that its link names.
So no node is shared by two bodies, or by a body and a sequence, however far apart they are, and a
walk meets no node twice.

* `Code.Carries`, `Code.Reaches`: the way down, through next nodes and bodies. Links are not asked.
* `Code.NeverReturns`: no way down from a node comes to a node that it has left.
* `NeverReturns.mem_descendants_iff`: a walk visits what can be reached.
* `Code.Truthful`: what is held under a node has a link that says so. `Truthful.nodup_descendants`:
  no node is met twice.
* `checkIntegrity_eq_nil_iff`: the check asks for that, and for a root that is where it says.
-/

namespace Rulewright

/-! ### Slots -/

namespace Branch

theorem mem_slots (b : Branch) (slot : Slot) (n : NodeId) :
    (slot, n) ∈ b.slots ↔ b.slot? slot = some n := by
  simp only [slots, List.mem_cons, List.mem_mapIdx, Prod.mk.injEq]
  cases slot with
  | thenBody => simp [slot?, eq_comm]
  | elseBody => simp [slot?, eq_comm]
  | elseIf index =>
    rw [slot?, List.getElem?_eq_some_iff]
    simp

theorem map_snd_slots (b : Branch) : b.slots.map Prod.snd = b.bodies := by
  have helseIfs : (b.elseIfs.mapIdx fun index node => (Slot.elseIf index, node)).map Prod.snd =
      b.elseIfs := by
    rw [List.mapIdx_eq_zipIdx_map, List.map_map]
    exact List.zipIdx_map_fst 0 b.elseIfs
  rw [slots, List.map_cons, List.map_cons, helseIfs, bodies]

theorem nodup_slots (b : Branch) : (b.slots.map Prod.fst).Nodup := by
  have helseIfs : (b.elseIfs.mapIdx fun index node => (Slot.elseIf index, node)).map Prod.fst =
      (List.range b.elseIfs.length).map Slot.elseIf := by
    rw [List.mapIdx_eq_zipIdx_map, List.map_map, List.range_eq_range',
      ← List.zipIdx_map_snd 0 b.elseIfs, List.map_map]
    rfl
  rw [slots, List.map_cons, List.map_cons, helseIfs, List.nodup_cons, List.nodup_cons]
  refine ⟨by simp, by simp, List.nodup_range.map ?_⟩
  intro i j h
  exact Slot.elseIf.inj h

theorem mem_bodies {b : Branch} {n : NodeId} : n ∈ b.bodies ↔ ∃ slot, b.slot? slot = some n := by
  rw [← map_snd_slots, List.mem_map]
  constructor
  · rintro ⟨⟨slot, m⟩, hm, rfl⟩
    exact ⟨slot, (b.mem_slots slot m).1 hm⟩
  · rintro ⟨slot, h⟩
    exact ⟨(slot, n), (b.mem_slots slot n).2 h, rfl⟩

end Branch

namespace Code

variable {c : Code} {root n p : NodeId}

theorem mem_bodies {p n : NodeId} : n ∈ c.bodies p ↔ ∃ slot, c.slot? p slot = some n := by
  unfold bodies slot?
  cases c.branch? p with
  | none => simp
  | some b => exact Branch.mem_bodies

/-! ### The way down -/

/-- The second node stands at a place of the first one: it follows it or is a body of it. -/
def Carries (c : Code) (p n : NodeId) : Prop := ∃ k : Link, k.holder? = some p ∧ c.held k = some n

/-- From the first node one comes to the second one by going down, in any number of steps. -/
def Reaches (c : Code) : NodeId → NodeId → Prop := Relation.ReflTransGen c.Carries

/-- No way down from the node comes to a node that it has left. -/
def NeverReturns (c : Code) (root : NodeId) : Prop :=
  ∀ n, c.Reaches root n → ¬ Relation.TransGen c.Carries n n

theorem carries_iff : c.Carries p n ↔ c.next p = some n ∨ n ∈ c.bodies p := by
  rw [mem_bodies]
  constructor
  · rintro ⟨k, hk, hheld⟩
    cases k with
    | root => cases hk
    | after q =>
      cases hk
      exact .inl hheld
    | childOf q slot =>
      cases hk
      exact .inr ⟨slot, hheld⟩
  · rintro (hnext | ⟨slot, hslot⟩)
    · exact ⟨.after p, rfl, hnext⟩
    · exact ⟨.childOf p slot, rfl, hslot⟩

theorem Carries.lt_size (h : c.Carries p n) : p < c.size := by
  obtain ⟨k, hk, hheld⟩ := h
  exact lt_size_of_held hk hheld

theorem mem_descendantsFrom_succ {fuel : Nat} {x id : NodeId} :
    x ∈ c.descendantsFrom (fuel + 1) id ↔
    x = id ∨ ∃ k, c.Carries id k ∧ x ∈ c.descendantsFrom fuel k := by
  rw [descendantsFrom, List.mem_append, List.mem_flatMap, List.mem_cons]
  simp only [carries_iff, or_and_right, exists_or]
  cases c.next id with
  | none => simp [or_comm]
  | some k =>
    simp only [Option.some.injEq, exists_eq_left']
    exact or_rotate

/-- A walk visits only what can be reached. -/
theorem reaches_of_mem_descendantsFrom {fuel : Nat} {x id : NodeId}
    (hx : x ∈ c.descendantsFrom fuel id) : c.Reaches id x := by
  induction fuel generalizing id with
  | zero => cases hx
  | succ fuel ih =>
    rcases mem_descendantsFrom_succ.1 hx with rfl | ⟨k, hk, hx⟩
    · exact .refl
    · exact .head hk (ih hx)

namespace NeverReturns

theorem not_reaches (h : c.NeverReturns root) (hp : c.Reaches root p) (hn : c.Carries p n) :
    ¬ c.Reaches n p :=
  fun hback => h p hp (.head' hn hback)

/-- Numbers that grow on every way down do not return. -/
theorem of_lt (h : ∀ p < c.size, ∀ n ∈ (c.next p).toList ++ c.bodies p, p < n) (root : NodeId) :
    c.NeverReturns root := by
  have hstep : ∀ {p n}, c.Carries p n → p < n := by
    intro p n hcarries
    refine h p hcarries.lt_size n ?_
    rw [List.mem_append, Option.mem_toList]
    exact carries_iff.1 hcarries
  have hgrows : ∀ {n x}, Relation.TransGen c.Carries n x → n < x := by
    intro n x hx
    induction hx with
    | single hcarries => exact hstep hcarries
    | tail _ hcarries ih => exact ih.trans (hstep hcarries)
  exact fun n _ hcycle => Nat.lt_irrefl n (hgrows hcycle)

/-- The nodes above a node are all different, so they are fewer than the code has. -/
theorem length_lt (h : c.NeverReturns root) {id : NodeId} {above : List NodeId}
    (hid : c.Reaches root id) (hlt : id < c.size) (hnodup : above.Nodup)
    (habove : ∀ y ∈ above, y < c.size ∧ Relation.TransGen c.Carries y id) :
    above.length < c.size := by
  have hnew : id ∉ above := fun hmem => h id hid (habove id hmem).2
  have hall : id :: above ⊆ List.range c.size := by
    intro y hy
    rcases List.mem_cons.1 hy with rfl | hy
    · exact List.mem_range.2 hlt
    · exact List.mem_range.2 (habove y hy).1
  have hle := (List.subperm_of_subset (List.nodup_cons.2 ⟨hnew, hnodup⟩) hall).length_le
  rw [List.length_cons, List.length_range] at hle
  exact hle

/-- A walk is not cut off before it has visited what can be reached. -/
theorem mem_descendantsFrom (h : c.NeverReturns root) {fuel : Nat} {x id : NodeId}
    {above : List NodeId} (hid : c.Reaches root id) (hnodup : above.Nodup)
    (habove : ∀ y ∈ above, y < c.size ∧ Relation.TransGen c.Carries y id)
    (hfuel : c.size ≤ fuel + above.length) (hx : c.Reaches id x) (hlt : x < c.size) :
    x ∈ c.descendantsFrom fuel id := by
  induction hx using Relation.ReflTransGen.head_induction_on generalizing fuel above with
  | refl =>
    have hlength := h.length_lt hid hlt hnodup habove
    obtain ⟨fuel, rfl⟩ : ∃ k, fuel = k + 1 := ⟨fuel - 1, by omega⟩
    exact mem_descendantsFrom_succ.2 (.inl rfl)
  | @head id k hstep _ ih =>
    have hlength := h.length_lt hid hstep.lt_size hnodup habove
    obtain ⟨fuel, rfl⟩ : ∃ k, fuel = k + 1 := ⟨fuel - 1, by omega⟩
    -- the node is above what it carries, and so is all that was above it
    have hnodup' : (id :: above).Nodup :=
      List.nodup_cons.2 ⟨fun hmem => h id hid (habove id hmem).2, hnodup⟩
    have habove' : ∀ y ∈ id :: above, y < c.size ∧ Relation.TransGen c.Carries y k := by
      intro y hy
      rcases List.mem_cons.1 hy with rfl | hy
      · exact ⟨hstep.lt_size, .single hstep⟩
      · exact ⟨(habove y hy).1, (habove y hy).2.tail hstep⟩
    refine mem_descendantsFrom_succ.2 (.inr ⟨k, hstep, ih (hid.tail hstep) hnodup' habove' ?_⟩)
    rw [List.length_cons]
    omega

/-- **A walk visits what can be reached.** -/
theorem mem_descendants_iff (h : c.NeverReturns root) {x : NodeId} (hx : x < c.size) :
    x ∈ c.descendants root ↔ c.Reaches root x :=
  ⟨reaches_of_mem_descendantsFrom,
    fun hreach => h.mem_descendantsFrom .refl List.nodup_nil (by simp) le_rfl hreach hx⟩

end NeverReturns

/-! ### Links that say where a node stands -/

/-- The node stands at the place, which belongs to a node that can be reached. -/
def StandsAt (c : Code) (root n : NodeId) (k : Link) : Prop :=
  ∃ p, k.holder? = some p ∧ c.Reaches root p ∧ c.held k = some n

/-- Whatever stands under a node has a link that says so. -/
def Truthful (c : Code) (root : NodeId) : Prop := ∀ n k, c.StandsAt root n k → c.link n = k

namespace Truthful

variable {a b x : NodeId}

/-- A node is carried by one node only. -/
theorem eq_of_carries (h : c.Truthful root) (ha : c.Reaches root a) (hb : c.Reaches root b)
    (hax : c.Carries a x) (hbx : c.Carries b x) : a = b := by
  obtain ⟨k, hk, hheld⟩ := hax
  obtain ⟨k', hk', hheld'⟩ := hbx
  have hlink := (h x k ⟨a, hk, ha, hheld⟩).symm.trans (h x k' ⟨b, hk', hb, hheld'⟩)
  rw [← hlink, hk] at hk'
  exact Option.some.inj hk'

/-- Two nodes from which one can be reached reach each other. -/
theorem total (h : c.Truthful root) (ha : c.Reaches root a) (hb : c.Reaches root b)
    (hax : c.Reaches a x) (hbx : c.Reaches b x) : c.Reaches a b ∨ c.Reaches b a := by
  induction hax with
  | refl => exact .inr hbx
  | @tail y x hay hyx ih =>
    rcases Relation.ReflTransGen.cases_tail hbx with rfl | ⟨z, hbz, hzx⟩
    · exact .inl (hay.tail hyx)
    · obtain rfl := h.eq_of_carries (ha.trans hay) (hb.trans hbz) hyx hzx
      exact ih hbz

/-- **What is below one place of a node** is not below another one. -/
theorem eq_of_places (h : c.Truthful root) (hreturn : c.NeverReturns root) (hp : c.Reaches root p)
    {k k' : Link} (hk : k.holder? = some p) (hk' : k'.holder? = some p) (ha : c.held k = some a)
    (hb : c.held k' = some b) (hax : c.Reaches a x) (hbx : c.Reaches b x) : k = k' := by
  have hpa : c.Carries p a := ⟨k, hk, ha⟩
  have hpb : c.Carries p b := ⟨k', hk', hb⟩
  -- the last step of a way from one to the other would start at the node again
  have hsame : ∀ {a b}, c.Carries p a → c.Carries p b → c.Reaches a b → a = b := by
    intro a b hpa hpb hab
    rcases Relation.ReflTransGen.cases_tail hab with rfl | ⟨z, haz, hzb⟩
    · rfl
    · obtain rfl := h.eq_of_carries ((hp.tail hpa).trans haz) hp hzb hpb
      exact absurd haz (hreturn.not_reaches hp hpa)
  obtain rfl : a = b := by
    rcases h.total (hp.tail hpa) (hp.tail hpb) hax hbx with hab | hba
    · exact hsame hpa hpb hab
    · exact (hsame hpb hpa hba).symm
  exact (h a k ⟨p, hk, hp, ha⟩).symm.trans (h a k' ⟨p, hk', hp, hb⟩)

theorem nodup_descendantsFrom (h : c.Truthful root) (hreturn : c.NeverReturns root) (fuel : Nat)
    {id : NodeId} (hid : c.Reaches root id) : (c.descendantsFrom fuel id).Nodup := by
  induction fuel generalizing id with
  | zero => exact List.nodup_nil
  | succ fuel ih =>
    have hbelow : ∀ {k}, c.Carries id k →
        (c.descendantsFrom fuel k).Nodup ∧ id ∉ c.descendantsFrom fuel k := by
      intro k hk
      exact ⟨ih (hid.tail hk),
        fun hmem => hreturn.not_reaches hid hk (reaches_of_mem_descendantsFrom hmem)⟩
    -- a node that is below two places of one node would be held twice
    have hapart : ∀ {k j a b x}, k.holder? = some id → j.holder? = some id → c.held k = some a →
        c.held j = some b → x ∈ c.descendantsFrom fuel a → x ∈ c.descendantsFrom fuel b →
        k = j := by
      intro k j a b x hk hj ha hb hxa hxb
      exact h.eq_of_places hreturn hid hk hj ha hb (reaches_of_mem_descendantsFrom hxa)
        (reaches_of_mem_descendantsFrom hxb)
    have hinside : ((c.bodies id).flatMap (c.descendantsFrom fuel)).Nodup := by
      rw [bodies]
      cases hb : c.branch? id with
      | none => exact List.nodup_nil
      | some b =>
        have hheld : ∀ s ∈ b.slots, c.held (.childOf id s.1) = some s.2 := by
          rintro ⟨slot, m⟩ hs
          rw [held, slot?, hb]
          exact (b.mem_slots slot m).1 hs
        show (b.bodies.flatMap _).Nodup
        rw [← b.map_snd_slots, List.flatMap_map, List.nodup_flatMap]
        refine ⟨fun s hs => (hbelow ⟨_, rfl, hheld s hs⟩).1,
          (List.pairwise_map.1 b.nodup_slots).imp_of_mem ?_⟩
        intro s t hs ht hst x hxs hxt
        exact hst (Link.childOf.inj (hapart rfl rfl (hheld s hs) (hheld t ht) hxs hxt)).2
    have hinsideSelf : id ∉ (c.bodies id).flatMap (c.descendantsFrom fuel) := by
      intro hmem
      obtain ⟨k, hk, hmem⟩ := List.mem_flatMap.1 hmem
      exact (hbelow (carries_iff.2 (.inr hk))).2 hmem
    rw [descendantsFrom, List.nodup_append]
    cases hnext : c.next id with
    | none =>
      refine ⟨hinside, List.nodup_singleton id, ?_⟩
      rintro x hx y hy rfl
      exact hinsideSelf (List.mem_singleton.1 hy ▸ hx)
    | some k =>
      have hk := hbelow (carries_iff.2 (.inl hnext))
      refine ⟨hinside, List.nodup_cons.2 ⟨hk.2, hk.1⟩, ?_⟩
      rintro x hx y hy rfl
      rcases List.mem_cons.1 hy with rfl | hy
      · exact hinsideSelf hx
      · obtain ⟨a, ha, hxa⟩ := List.mem_flatMap.1 hx
        obtain ⟨slot, hslot⟩ := mem_bodies.1 ha
        cases hapart (k := .childOf id slot) (j := .after id) rfl rfl hslot hnext hxa hy

/-- **No walk meets a node twice.** -/
theorem nodup_descendants (h : c.Truthful root) (hreturn : c.NeverReturns root) :
    (c.descendants root).Nodup :=
  h.nodup_descendantsFrom hreturn c.size .refl

end Truthful

/-! ### The check -/

/-- The code under a node is a tree: every other node in it stands at exactly one place of the nodes
that can be reached, its link names this place, and the parent that the node itself names holds it.
-/
structure IsTree (c : Code) (root : NodeId) : Prop where
  place : ∀ n, c.Reaches root n → n ≠ root →
      (∃! k, c.StandsAt root n k) ∧ c.StandsAt root n (c.link n)
  parent : ∀ p slot, c.link root = .childOf p slot → c.slot? p slot = some root

theorem nodeViolations_eq_nil_iff_places :
    c.nodeViolations n = [] ↔ (∀ p slot, c.link n = .childOf p slot → c.slot? p slot = some n) ∧
      ∀ k m, k.holder? = some n → c.held k = some m → c.link m = k := by
  rw [nodeViolations_eq_nil_iff]
  refine and_congr_right fun _ => ⟨?_, ?_⟩
  · rintro ⟨hbodies, hnext⟩ k m hk hheld
    cases k with
    | root => cases hk
    | after p =>
      cases hk
      exact hnext m hheld
    | childOf p slot =>
      cases hk
      obtain ⟨b, hb, hslot⟩ := Option.bind_eq_some_iff.1 hheld
      exact hbodies b hb (slot, m) ((b.mem_slots slot m).2 hslot)
  · intro hplaces
    refine ⟨?_, fun k hk => hplaces (.after n) k rfl hk⟩
    rintro b hb ⟨slot, m⟩ hheld
    refine hplaces (.childOf n slot) m rfl ?_
    rw [held, slot?, hb]
    exact (b.mem_slots slot m).1 hheld

/-- A node below the root stands somewhere. -/
theorem Reaches.exists_standsAt (h : c.Reaches root n) (hn : n ≠ root) :
    ∃ k, c.StandsAt root n k := by
  rcases Relation.ReflTransGen.cases_tail h with rfl | ⟨p, hp, k, hk, hheld⟩
  · exact absurd rfl hn
  · exact ⟨k, p, hk, hp, hheld⟩

namespace NeverReturns

theorem ne_root (h : c.NeverReturns root) {k : Link} (hn : c.StandsAt root n k) : n ≠ root := by
  rintro rfl
  obtain ⟨p, hk, hp, hheld⟩ := hn
  exact h n .refl (.tail' hp ⟨k, hk, hheld⟩)

/-- The check compares every link under the root with the place that its node has. -/
theorem checkIntegrity_eq_nil_iff (h : c.NeverReturns root) :
    c.checkIntegrity root = [] ↔
    c.Truthful root ∧ ∀ p slot, c.link root = .childOf p slot → c.slot? p slot = some root := by
  rw [checkIntegrity, List.flatMap_eq_nil_iff]
  constructor
  · intro hall
    refine ⟨?_, fun p slot hlink => ?_⟩
    · rintro n k ⟨p, hk, hp, hheld⟩
      have hmem := (h.mem_descendants_iff (lt_size_of_held hk hheld)).2 hp
      exact (nodeViolations_eq_nil_iff_places.1 (hall p hmem)).2 k n hk hheld
    · have hlt : root < c.size := lt_size_of_link (by rw [hlink]; simp)
      exact (nodeViolations_eq_nil_iff_places.1 (hall root ((h.mem_descendants_iff hlt).2 .refl))).1
        p slot hlink
  · rintro ⟨htruthful, hparent⟩ n hn
    have hreach := reaches_of_mem_descendantsFrom hn
    refine nodeViolations_eq_nil_iff_places.2
      ⟨fun p slot hlink => ?_, fun k m hk hheld => htruthful m k ⟨n, hk, hreach, hheld⟩⟩
    by_cases hroot : n = root
    · rw [hroot] at hlink ⊢
      exact hparent p slot hlink
    · obtain ⟨k, hstands⟩ := hreach.exists_standsAt hroot
      have hk := htruthful n k hstands
      obtain ⟨-, -, -, hheld⟩ := hstands
      rw [← hk, hlink] at hheld
      exact hheld

/-- Links are truthful if and only if nothing stands at two places or at another one than its link
names. -/
theorem truthful_iff (h : c.NeverReturns root) :
    c.Truthful root ↔
    ∀ n, c.Reaches root n → n ≠ root →
      (∃! k, c.StandsAt root n k) ∧ c.StandsAt root n (c.link n) := by
  constructor
  · intro htruthful n hreach hn
    obtain ⟨k, hstands⟩ := hreach.exists_standsAt hn
    obtain rfl := htruthful n k hstands
    exact ⟨⟨_, hstands, fun k' hk' => (htruthful n k' hk').symm⟩, hstands⟩
  · intro hplace n k hstands
    have hreach : c.Reaches root n := by
      obtain ⟨p, hk, hp, hheld⟩ := hstands
      exact hp.tail ⟨k, hk, hheld⟩
    obtain ⟨hunique, hlink⟩ := hplace n hreach (h.ne_root hstands)
    exact hunique.unique hlink hstands

end NeverReturns

/-- **The integrity check decides tree-ness.** It finds nothing wrong below a node to which no way
down returns if and only if the code there is a tree, and then a walk through it meets no node
twice. -/
theorem checked_iff_isTree (h : c.NeverReturns root) :
    (c.checkIntegrity root = [] ↔ c.IsTree root) ∧
    (c.checkIntegrity root = [] → (c.descendants root).Nodup) := by
  refine ⟨?_, fun hchecked => (h.checkIntegrity_eq_nil_iff.1 hchecked).1.nodup_descendants h⟩
  rw [h.checkIntegrity_eq_nil_iff, h.truthful_iff]
  exact ⟨fun hboth => ⟨hboth.1, hboth.2⟩, fun htree => ⟨htree.place, htree.parent⟩⟩

/-- A branch that holds a sequence and a line, beside a branch that holds one line in two of its
slots. -/
def sharedBodies : Code :=
  let branch (thenBody elseBody : NodeId) (elseIfs : List NodeId) : NodeKind :=
    .branch ⟨.irregular, thenBody, elseBody, elseIfs⟩
  ⟨#[⟨branch 1 3 [], none, false, .root, none⟩, ⟨.noop, none, false, .childOf 0 .thenBody, some 2⟩,
    ⟨.ret true, none, false, .after 1, none⟩, ⟨.noop, none, false, .childOf 0 .elseBody, none⟩,
    ⟨branch 5 6 [5], none, false, .after 6, none⟩,
    ⟨.ret true, none, false, .childOf 4 .thenBody, none⟩,
    ⟨.noop, none, false, .childOf 4 .elseBody, none⟩]⟩

theorem sharedBodies_isTree :
    sharedBodies.IsTree 0 ∧ (sharedBodies.descendants 0).Nodup ∧ ¬ sharedBodies.IsTree 4 := by
  have hreturn : ∀ root, sharedBodies.NeverReturns root := NeverReturns.of_lt (by decide)
  obtain ⟨hfirst, hnodup⟩ := checked_iff_isTree (hreturn 0)
  obtain ⟨hsecond, -⟩ := checked_iff_isTree (hreturn 4)
  exact ⟨hfirst.1 (by decide), hnodup (by decide),
    fun htree => absurd (hsecond.2 htree) (by decide)⟩

end Code

end Rulewright
