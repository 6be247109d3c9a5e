import Rulewright.Code.Copy
import Rulewright.Proofs.Forest.Surgery

/-!
# New branches and copies

A new branch takes trees as its bodies. For a moment it holds bodies whose links do not know it, and
then all the links are set at once. Copies are made from the ends of the tree up, so what has been
copied is a handful of new trees in code that is otherwise as it was, until the next branch or
sequence takes them in.

* `Code.Loose`: trees of their own, each listed once. They are what a new branch may take.
* `WellFormed.takeBodies`: a new branch with loose bodies. `WellFormed.createIf`,
  `WellFormed.addElseIf`.
* `Code.Grown`: nothing that was there has changed.
* `WellFormed.deepCopy`: a copy is a new tree, and all else is as before.
-/

namespace Rulewright.Code

variable {c c' : Code} {n p : NodeId}

/-! ### Code that has grown -/

/-- The second code has all the nodes of the first one as they are. -/
structure Grown (c c' : Code) : Prop where
  size_le : c.size ≤ c'.size
  node? : ∀ x, x < c.size → c'.node? x = c.node? x

namespace Grown

theorem refl (c : Code) : Grown c c := ⟨le_rfl, fun _ _ => rfl⟩

theorem trans {c₁ c₂ c₃ : Code} (h : Grown c₁ c₂) (h' : Grown c₂ c₃) : Grown c₁ c₃ := by
  refine ⟨h.size_le.trans h'.size_le, ?_⟩
  intro x hx
  rw [h'.node? x (Nat.lt_of_lt_of_le hx h.size_le), h.node? x hx]

theorem link (h : Grown c c') (hn : n < c.size) : c'.link n = c.link n := by
  rw [link_eq, link_eq, h.node? n hn]

theorem next (h : Grown c c') (hn : n < c.size) : c'.next n = c.next n := by
  rw [next_eq, next_eq, h.node? n hn]

theorem push (h : Grown c c') (node : Node) : Grown c (c'.push node) := by
  refine ⟨?_, ?_⟩
  · rw [size_push]
    exact Nat.le_succ_of_le h.size_le
  · intro x hx
    rw [node?_push, if_neg (Nat.ne_of_lt (Nat.lt_of_lt_of_le hx h.size_le)), h.node? x hx]

/-- What is new may change. -/
theorem modify (h : Grown c c') (hn : c.size ≤ n) (f : Node → Node) : Grown c (c'.modify n f) := by
  refine ⟨?_, ?_⟩
  · rw [size_modify]
    exact h.size_le
  · intro x hx
    rw [node?_modify, if_neg (Nat.ne_of_gt (Nat.lt_of_lt_of_le hx hn)), h.node? x hx]

end Grown

/-! ### Bodies for a new branch -/

/-- The nodes start sequences of their own, and each is there once. -/
structure Loose (c : Code) (ids : List NodeId) : Prop where
  nodup : ids.Nodup
  lt_size : ∀ x ∈ ids, x < c.size
  root : ∀ x ∈ ids, c.link x = .root

/-- Name a holder in the link of each node. -/
def linkEach (c : Code) (id : NodeId) (held : List (Slot × NodeId)) : Code :=
  held.foldl (fun c held => c.setLink held.2 (.childOf id held.1)) c

section LinkEach

variable {id : NodeId} {held : List (Slot × NodeId)}

@[simp] theorem size_linkEach (c : Code) (id : NodeId) (held : List (Slot × NodeId)) :
    (c.linkEach id held).size = c.size := by
  induction held generalizing c with
  | nil => rfl
  | cons a rest ih => exact (ih _).trans (size_setLink c _ _)

@[simp] theorem held_linkEach (c : Code) (id : NodeId) (held : List (Slot × NodeId)) (j : Link) :
    (c.linkEach id held).held j = c.held j := by
  induction held generalizing c with
  | nil => rfl
  | cons a rest ih => exact (ih _).trans (held_setLink c _ _ j)

theorem link_linkEach_of_notMem (hlt : ∀ a ∈ held, a.2 < c.size) {x : NodeId}
    (hx : x ∉ held.map Prod.snd) : (c.linkEach id held).link x = c.link x := by
  induction held generalizing c with
  | nil => rfl
  | cons a rest ih =>
    rw [List.map_cons, List.mem_cons, not_or] at hx
    have hrest :=
      ih (c := c.setLink a.2 (.childOf id a.1))
        (fun b hb => by simpa using hlt b (List.mem_cons_of_mem a hb)) hx.2
    refine hrest.trans ?_
    rw [link_setLink (hlt a List.mem_cons_self), if_neg hx.1]

theorem link_linkEach_of_mem (hlt : ∀ a ∈ held, a.2 < c.size) (hnodup : (held.map Prod.snd).Nodup)
    {slot : Slot} {x : NodeId} (hx : (slot, x) ∈ held) :
    (c.linkEach id held).link x = .childOf id slot := by
  induction held generalizing c with
  | nil => cases hx
  | cons a rest ih =>
    rw [List.map_cons, List.nodup_cons] at hnodup
    have hlt' : ∀ b ∈ rest, b.2 < (c.setLink a.2 (.childOf id a.1)).size := fun b hb => by
      simpa using hlt b (List.mem_cons_of_mem a hb)
    rcases List.mem_cons.1 hx with rfl | hx
    · refine (link_linkEach_of_notMem hlt' hnodup.1).trans ?_
      rw [link_setLink (hlt _ List.mem_cons_self), if_pos rfl]
    · exact ih hlt' hnodup.2 hx

theorem Grown.linkEach (h : Grown c c') (hnew : ∀ a ∈ held, c.size ≤ a.2) :
    Grown c (c'.linkEach id held) := by
  induction held generalizing c' with
  | nil => exact h
  | cons a rest ih =>
    exact ih (h.modify (hnew a List.mem_cons_self) _) fun b hb => hnew b (List.mem_cons_of_mem a hb)

end LinkEach

/-- A new branch, known to its bodies. -/
def takeBodies (c : Code) (node : Node) (b : Branch) : Code :=
  (c.push node).linkEach c.size b.slots

/-- A node that starts a sequence of its own and is this branch. -/
structure IsNewBranch (node : Node) (b : Branch) : Prop where
  kind : node.kind = .branch b
  link : node.link = .root
  next : node.next = none

section TakeBodies

variable {node : Node} {b : Branch}

theorem size_takeBodies (c : Code) (node : Node) (b : Branch) :
    (c.takeBodies node b).size = c.size + 1 := by
  rw [takeBodies, size_linkEach, size_push]

theorem next_takeBodies (hb : IsNewBranch node b) (x : NodeId) :
    (c.takeBodies node b).next x = c.next x :=
  (held_linkEach _ _ _ (.after x)).trans (c.next_push hb.next x)

theorem slot?_takeBodies (hb : IsNewBranch node b) (x : NodeId) (slot : Slot) :
    (c.takeBodies node b).slot? x slot = if x = c.size then b.slot? slot else c.slot? x slot := by
  have hheld : (c.takeBodies node b).slot? x slot = (c.push node).slot? x slot :=
    held_linkEach _ _ _ (.childOf x slot)
  rw [hheld]
  split_ifs with hx
  · apply slot?_eq
    rw [branch?, kind_push, if_pos hx, hb.kind]
    rfl
  · apply slot?_congr
    rw [kind_push, if_neg hx]

theorem link_takeBodies (hb : IsNewBranch node b) (hloose : c.Loose b.bodies) (x : NodeId) :
    (∀ slot, b.slot? slot = some x → (c.takeBodies node b).link x = .childOf c.size slot) ∧
      (x ∉ b.bodies → (c.takeBodies node b).link x = c.link x) := by
  have hlt : ∀ a ∈ b.slots, a.2 < (c.push node).size := by
    intro a ha
    have hmem : a.2 ∈ b.bodies := b.map_snd_slots ▸ List.mem_map_of_mem ha
    rw [size_push]
    exact Nat.lt_succ_of_lt (hloose.lt_size _ hmem)
  have hnodup : (b.slots.map Prod.snd).Nodup := b.map_snd_slots.symm ▸ hloose.nodup
  refine ⟨fun slot hslot => ?_, fun hx => ?_⟩
  · exact link_linkEach_of_mem hlt hnodup ((b.mem_slots slot x).2 hslot)
  · refine (link_linkEach_of_notMem hlt ?_).trans (c.link_push hb.link x)
    rw [b.map_snd_slots]
    exact hx

theorem up?_takeBodies (hb : IsNewBranch node b) (hloose : c.Loose b.bodies) (x : NodeId) :
    (c.takeBodies node b).up? x = if x ∈ b.bodies then some c.size else c.up? x := by
  obtain ⟨hbody, hother⟩ := link_takeBodies hb hloose x
  split_ifs with hx
  · obtain ⟨slot, hslot⟩ := Branch.mem_bodies.1 hx
    rw [up?_eq, hbody slot hslot]
    rfl
  · rw [up?_eq, hother hx, ← up?_eq]

/-- The new branch starts a sequence of its own. -/
theorem link_takeBodies_self (hb : IsNewBranch node b) (hloose : c.Loose b.bodies) :
    (c.takeBodies node b).link c.size = .root := by
  have hself : c.size ∉ b.bodies := fun hmem => Nat.lt_irrefl _ (hloose.lt_size _ hmem)
  rw [(link_takeBodies hb hloose c.size).2 hself, link_of_le le_rfl]

/-- **A new branch takes loose bodies.** -/
theorem WellFormed.takeBodies (h : c.WellFormed) (hb : IsNewBranch node b)
    (hloose : c.Loose b.bodies) : (c.takeBodies node b).WellFormed := by
  have hup := up?_takeBodies hb hloose
  refine ⟨?_, ?_, grounded_of_induct ?_⟩
  · intro x q
    obtain ⟨hbody, hother⟩ := link_takeBodies hb hloose x
    rw [next_takeBodies hb, ← h.after_iff]
    by_cases hx : x ∈ b.bodies
    · obtain ⟨slot, hslot⟩ := Branch.mem_bodies.1 hx
      rw [hbody slot hslot, hloose.root x hx]
      simp
    · rw [hother hx]
  · intro x q slot
    obtain ⟨hbody, hother⟩ := link_takeBodies hb hloose x
    rw [slot?_takeBodies hb]
    by_cases hq : q = c.size
    · rw [if_pos hq, hq]
      refine ⟨fun hlink => ?_, hbody slot⟩
      by_cases hx : x ∈ b.bodies
      · obtain ⟨slot', hslot'⟩ := Branch.mem_bodies.1 hx
        have hsame := (hbody slot' hslot').symm.trans hlink
        cases hsame
        exact hslot'
      · -- nothing stood in a slot of a node that was not there
        rw [hother hx, h.child_iff, slot?_of_le le_rfl] at hlink
        cases hlink
    · rw [if_neg hq, ← h.child_iff]
      by_cases hx : x ∈ b.bodies
      · obtain ⟨slot', hslot'⟩ := Branch.mem_bodies.1 hx
        rw [hbody slot' hslot', hloose.root x hx]
        simp [Ne.symm hq]
      · rw [hother hx]
  · intro P step
    have hself : P c.size := by
      apply step
      intro q hq
      exact absurd (link_takeBodies_self hb hloose) (ne_root_of_up? hq)
    refine h.induct ?_
    intro x ih
    apply step
    intro q hq
    rw [hup] at hq
    split_ifs at hq
    · cases hq
      exact hself
    · exact ih q hq

/-- Whoever comes up to the new branch comes through a body. -/
theorem climbs_takeBodies (h : c.WellFormed) (hb : IsNewBranch node b) (hloose : c.Loose b.bodies)
    {x : NodeId} (hclimb : (c.takeBodies node b).Climbs x c.size) :
    x = c.size ∨ ∃ y ∈ b.bodies, c.Climbs x y := by
  induction hclimb using Relation.ReflTransGen.head_induction_on with
  | refl => exact .inl rfl
  | @head x q hq _ ih =>
    right
    rw [up?_takeBodies hb hloose] at hq
    split_ifs at hq with hx
    · exact ⟨x, hx, .refl⟩
    · rcases ih with rfl | ⟨y, hy, hqy⟩
      · exact absurd (h.lt_size_of_up? hq) (Nat.lt_irrefl _)
      · exact ⟨y, hy, .head hq hqy⟩

end TakeBodies

/-! ### Branches from given bodies -/

theorem bodyOrNoop_wellFormed (h : c.WellFormed) (body : Option NodeId) :
    (c.bodyOrNoop body).2.WellFormed := by
  cases body with
  | none => exact h.push (.fresh .noop) rfl rfl rfl
  | some _ => exact h

theorem size_le_bodyOrNoop (c : Code) (body : Option NodeId) :
    c.size ≤ (c.bodyOrNoop body).2.size := by
  cases body with
  | none => simp [bodyOrNoop, alloc]
  | some _ => exact le_rfl

/-- Only what was below a body already comes to be below it. -/
theorem climbs_bodyOrNoop (c : Code) (body : Option NodeId) {x y : NodeId}
    (h : (c.bodyOrNoop body).2.Climbs x y) : c.Climbs x y := by
  cases body with
  | none => exact climbs_congr (c.link_push rfl) h
  | some _ => exact h

/-- A branch is made from two bodies that are different and in the code when they are taken. -/
structure CanBranch (c : Code) (thenBody elseBody : NodeId) : Prop where
  ne : thenBody ≠ elseBody
  then_lt : thenBody < c.size
  else_lt : elseBody < (c.detach thenBody).size

/-- The branch that two bodies are taken for. -/
def branchOn (guard : Guard) (thenBody elseBody : NodeId) : Branch :=
  { guard, thenBody, elseBody, elseIfs := [] }

/-- Take two bodies from their places for a new branch. -/
def branchFrom (c : Code) (guard : Guard) (thenBody elseBody : NodeId) : Code :=
  ((c.detach thenBody).detach elseBody).takeBodies
    (.fresh (.branch (branchOn guard thenBody elseBody))) (branchOn guard thenBody elseBody)

section BranchFrom

variable {guard : Guard} {t e : NodeId}

theorem isNewBranch_fresh (b : Branch) : IsNewBranch (.fresh (.branch b)) b := ⟨rfl, rfl, rfl⟩

theorem CanBranch.loose (hcan : c.CanBranch t e) (h : c.WellFormed) :
    ((c.detach t).detach e).Loose (branchOn guard t e).bodies := by
  have hd := h.detach t
  have hd' := hd.wellFormed.detach e
  have ht := Nat.lt_of_lt_of_le hcan.then_lt hd.size_le
  refine ⟨?_, ?_, ?_⟩
  · simpa [branchOn, Branch.bodies] using hcan.ne
  · intro x hx
    simp only [branchOn, Branch.bodies, List.mem_cons, List.not_mem_nil, or_false] at hx
    rcases hx with rfl | rfl
    · exact Nat.lt_of_lt_of_le ht hd'.size_le
    · exact Nat.lt_of_lt_of_le hcan.else_lt hd'.size_le
  · intro x hx
    simp only [branchOn, Branch.bodies, List.mem_cons, List.not_mem_nil, or_false] at hx
    rcases hx with rfl | rfl
    · rw [hd'.link x ht hcan.ne, hd.link_self]
    · exact hd'.link_self

theorem WellFormed.branchFrom (h : c.WellFormed) (hcan : c.CanBranch t e) (guard : Guard) :
    (c.branchFrom guard t e).WellFormed :=
  ((h.detach t).wellFormed.detach e).wellFormed.takeBodies (isNewBranch_fresh _) (hcan.loose h)

theorem climbs_branchFrom (h : c.WellFormed) (hcan : c.CanBranch t e) {x : NodeId} (hx : x < c.size)
    (hclimb : (c.branchFrom guard t e).Climbs x ((c.detach t).detach e).size) :
    c.Climbs x t ∨ c.Climbs x e := by
  have hd := h.detach t
  have hd' := hd.wellFormed.detach e
  have hx' := Nat.lt_of_lt_of_le hx hd.size_le
  rcases climbs_takeBodies hd'.wellFormed (isNewBranch_fresh _) (hcan.loose h) hclimb with
    rfl | ⟨y, hy, hxy⟩
  · exact absurd hx (Nat.not_lt.2 (hd.size_le.trans hd'.size_le))
  · have hxy' := hd.climbs h (hd'.climbs hd.wellFormed hxy hx') hx
    simp only [branchOn, Branch.bodies, List.mem_cons, List.not_mem_nil, or_false] at hy
    rcases hy with rfl | rfl
    · exact .inl hxy'
    · exact .inr hxy'

end BranchFrom

/-- The two bodies of a branch, and the code that has them. -/
def bodiesFor (c : Code) (thenBody elseBody : Option NodeId) : NodeId × NodeId × Code :=
  let (t, c) := c.bodyOrNoop thenBody
  let (e, c) := c.bodyOrNoop elseBody
  (t, e, c)

theorem createIf_eq (c : Code) (guard : Guard) (thenBody elseBody : Option NodeId) :
    c.createIf guard thenBody elseBody =
      let (t, e, c₁) := c.bodiesFor thenBody elseBody
      (((c₁.detach t).detach e).size, c₁.branchFrom guard t e) := rfl

theorem bodiesFor_wellFormed (h : c.WellFormed) (thenBody elseBody : Option NodeId) :
    (c.bodiesFor thenBody elseBody).2.2.WellFormed :=
  bodyOrNoop_wellFormed (bodyOrNoop_wellFormed h thenBody) elseBody

theorem size_le_bodiesFor (c : Code) (thenBody elseBody : Option NodeId) :
    c.size ≤ (c.bodiesFor thenBody elseBody).2.2.size :=
  (size_le_bodyOrNoop c thenBody).trans (size_le_bodyOrNoop _ elseBody)

theorem climbs_bodiesFor (c : Code) (thenBody elseBody : Option NodeId) {x y : NodeId}
    (h : (c.bodiesFor thenBody elseBody).2.2.Climbs x y) : c.Climbs x y :=
  climbs_bodyOrNoop c thenBody (climbs_bodyOrNoop _ elseBody h)

theorem WellFormed.createIf (h : c.WellFormed) (guard : Guard) {thenBody elseBody : Option NodeId}
    {t e : NodeId} {c₁ : Code} (hbodies : c.bodiesFor thenBody elseBody = (t, e, c₁))
    (hcan : c₁.CanBranch t e) : (c.createIf guard thenBody elseBody).2.WellFormed := by
  have h₁ := bodiesFor_wellFormed h thenBody elseBody
  rw [createIf_eq, hbodies]
  rw [hbodies] at h₁
  exact h₁.branchFrom hcan guard

/-! ### An `else if` for a branch -/

theorem slot?_addSlot (b : Branch) (n : NodeId) (slot : Slot) :
    ({ b with elseIfs := b.elseIfs ++ [n] } : Branch).slot? slot =
      if slot = .elseIf b.elseIfs.length then some n else b.slot? slot := by
  cases slot with
  | thenBody => simp [Branch.slot?]
  | elseBody => simp [Branch.slot?]
  | elseIf i =>
    simp only [Branch.slot?, List.getElem?_append, Slot.elseIf.injEq]
    grind

/-- A tree is put into a slot that is added for it. -/
theorem WellFormed.addSlot (h : c.WellFormed) {b : Branch} (hb : c.branch? p = some b)
    (hn : n < c.size) (hroot : c.link n = .root) (hfree : ¬ c.Climbs p n) :
    ((c.setKind p (.branch { b with elseIfs := b.elseIfs ++ [n] })).setLink n
      (.childOf p (.elseIf b.elseIfs.length))).WellFormed := by
  have hempty : c.held (.childOf p (.elseIf b.elseIfs.length)) = none := by
    rw [held, slot?_eq hb]
    simp [Branch.slot?]
  have hplaced : Placed c ((c.setKind p (.branch { b with elseIfs := b.elseIfs ++ [n] })).setLink n
      (.childOf p (.elseIf b.elseIfs.length))) n (.childOf p (.elseIf b.elseIfs.length)) := by
    refine ⟨fun x => ?_, fun j => ?_⟩
    · rw [link_setLink (by simpa using hn), link_setKind, hempty]
      simp
    · rw [held_setLink]
      exact held_setKind hb (slot?_addSlot b n) j
  exact h.placed hplaced hroot rfl hfree

theorem addElseIf_eq {guard : Guard} {body : Option NodeId} {id : NodeId} {c₁ : Code}
    (hcreate : c.createIf guard body none = (id, c₁)) {b : Branch} (hb : c₁.branch? p = some b) :
    c.addElseIf p guard body =
      (id,
        (c₁.setKind p (.branch { b with elseIfs := b.elseIfs ++ [id] })).setLink id
          (.childOf p (.elseIf b.elseIfs.length))) := by
  rw [branch?] at hb
  unfold addElseIf
  rw [hcreate]
  cases hkind : c₁.kind p with
  | branch b' =>
    rw [hkind] at hb
    obtain rfl : b' = b := Option.some.inj hb
    simp only [hkind]
  | _ =>
    rw [hkind] at hb
    cases hb

theorem WellFormed.addElseIf (h : c.WellFormed) (guard : Guard) {body : Option NodeId}
    {t e : NodeId} {c₁ : Code} (hbodies : c.bodiesFor body none = (t, e, c₁))
    (hcan : c₁.CanBranch t e) (hp : p < c.size)
    (hbranch : ((c.createIf guard body none).2.branch? p).isSome) (hthen : ¬ c.Climbs p t)
    (helse : ¬ c.Climbs p e) : (c.addElseIf p guard body).2.WellFormed := by
  have h₁ := bodiesFor_wellFormed h body none
  have hle := size_le_bodiesFor c body none
  have hclimbs : ∀ {y}, c₁.Climbs p y → c.Climbs p y := fun {y} hy => by
    apply climbs_bodiesFor c body none
    rw [hbodies]
    exact hy
  have hcreate : c.createIf guard body none =
      (((c₁.detach t).detach e).size, c₁.branchFrom guard t e) := by
    rw [createIf_eq, hbodies]
  rw [hbodies] at h₁ hle
  rw [hcreate] at hbranch
  obtain ⟨b, hb⟩ := Option.isSome_iff_exists.1 hbranch
  rw [addElseIf_eq hcreate hb]
  refine (h₁.branchFrom hcan guard).addSlot hb ?_
    (link_takeBodies_self (isNewBranch_fresh _) (hcan.loose h₁)) ?_
  · rw [Code.branchFrom, size_takeBodies]
    exact Nat.lt_succ_self _
  · intro hclimb
    rcases climbs_branchFrom h₁ hcan (Nat.lt_of_lt_of_le hp hle) hclimb with ht | he
    · exact hthen (hclimbs ht)
    · exact helse (hclimbs he)

/-! ### Copies -/

/-- The second code is the first one with a new tree, which starts at `head`. -/
structure Copied (c c' : Code) (head : NodeId) : Prop where
  wellFormed : c'.WellFormed
  grown : Grown c c'
  new : c.size ≤ head
  lt_size : head < c'.size
  root : c'.link head = .root

/-- A way to copy that gives new trees. -/
def CopiesTrees (copy : Code → NodeId → NodeId × Code) : Prop :=
  ∀ c id, c.WellFormed → Copied c (copy c id).2 (copy c id).1

section Copy

variable {copy : Code → NodeId → NodeId × Code}

/-- A new node that is not a branch is a tree. -/
theorem WellFormed.copied_push (h : c.WellFormed) (node : Node) (hlink : node.link = .root)
    (hnext : node.next = none) (hkind : node.kind.branch? = none) :
    Copied c (c.push node) c.size := by
  refine ⟨h.push node hlink hnext hkind, (Grown.refl c).push node, le_rfl, by simp, ?_⟩
  rw [c.link_push hlink, link_of_le le_rfl]

/-- Copies that are made one after the other are loose. -/
theorem copyEach_loose (hcopy : CopiesTrees copy) (h : c.WellFormed) (ids : List NodeId) :
    (copyEach copy c ids).2.WellFormed ∧ Grown c (copyEach copy c ids).2 ∧
    (copyEach copy c ids).2.Loose (copyEach copy c ids).1 ∧
    ∀ x ∈ (copyEach copy c ids).1, c.size ≤ x := by
  induction ids generalizing c with
  | nil =>
    exact ⟨h, .refl c, ⟨List.nodup_nil, by simp [copyEach], by simp [copyEach]⟩, by simp [copyEach]⟩
  | cons id rest ih =>
    have hhead := hcopy c id h
    obtain ⟨hwf, hgrown, hloose, hnew⟩ := ih hhead.wellFormed
    simp only [copyEach]
    refine ⟨hwf, hhead.grown.trans hgrown, ⟨?_, ?_, ?_⟩, ?_⟩
    · -- what is copied later is newer
      refine List.nodup_cons.2 ⟨fun hmem => ?_, hloose.nodup⟩
      exact Nat.lt_irrefl _ (Nat.lt_of_lt_of_le hhead.lt_size (hnew _ hmem))
    · intro x hx
      rcases List.mem_cons.1 hx with rfl | hx
      · exact Nat.lt_of_lt_of_le hhead.lt_size hgrown.size_le
      · exact hloose.lt_size x hx
    · intro x hx
      rcases List.mem_cons.1 hx with rfl | hx
      · rw [hgrown.link hhead.lt_size, hhead.root]
      · exact hloose.root x hx
    · intro x hx
      rcases List.mem_cons.1 hx with rfl | hx
      · exact hhead.new
      · exact hhead.grown.size_le.trans (hnew x hx)

/-- A new branch on new bodies. -/
theorem WellFormed.copied_takeBodies (h : c'.WellFormed) (hgrown : Grown c c') {node : Node}
    {b : Branch} (hb : IsNewBranch node b) (hloose : c'.Loose b.bodies)
    (hnew : ∀ x ∈ b.bodies, c.size ≤ x) : Copied c (c'.takeBodies node b) c'.size := by
  refine ⟨h.takeBodies hb hloose, ?_, hgrown.size_le, ?_, link_takeBodies_self hb hloose⟩
  · refine (hgrown.push node).linkEach ?_
    intro a ha
    exact hnew a.2 (b.map_snd_slots ▸ List.mem_map_of_mem ha)
  · rw [size_takeBodies]
    exact Nat.lt_succ_self _

/-- One node is copied, and nothing follows the copy. -/
theorem copyNode_copied (hcopy : CopiesTrees copy) (h : c.WellFormed) (id : NodeId) :
    Copied c (c.copyNode copy id).2 (c.copyNode copy id).1 ∧
    (c.copyNode copy id).2.next (c.copyNode copy id).1 = none := by
  have hline : ∀ node : Node, node.link = .root → node.next = none → node.kind.branch? = none →
      Copied c (c.push node) c.size ∧ (c.push node).next c.size = none := by
    intro node hlink hnext hkind
    exact ⟨h.copied_push node hlink hnext hkind, (c.next_push hnext _).trans (next_of_le le_rfl)⟩
  unfold copyNode
  cases c.node? id with
  | none => exact hline _ rfl rfl rfl
  | some n =>
    cases hkind : n.kind with
    | branch b =>
      rcases ht : copy c b.thenBody with ⟨t, c₁⟩
      rcases he : copy c₁ b.elseBody with ⟨e, c₂⟩
      rcases hes : copyEach copy c₂ b.elseIfs with ⟨es, c₃⟩
      have hall : copyEach copy c (b.thenBody :: b.elseBody :: b.elseIfs) = (t :: e :: es, c₃) := by
        simp only [copyEach, ht, he, hes]
      obtain ⟨hwf, hgrown, hloose, hnew⟩ :=
        copyEach_loose hcopy h (b.thenBody :: b.elseBody :: b.elseIfs)
      rw [hall] at hwf hgrown hloose hnew
      have hb : IsNewBranch
          { Node.fresh (.branch { b with thenBody := t, elseBody := e, elseIfs := es }) with
            comment := n.comment, commentedOut := n.commentedOut }
          { b with thenBody := t, elseBody := e, elseIfs := es } :=
        ⟨rfl, rfl, rfl⟩
      simp only [hkind, ht, he, hes]
      exact ⟨hwf.copied_takeBodies hgrown hb hloose hnew,
        (next_takeBodies hb _).trans (next_of_le le_rfl)⟩
    | _ =>
      simp only [hkind]
      refine hline _ ?_ ?_ ?_ <;> rfl

/-- **Copies of sequences are trees.** -/
theorem copyFrom_copied (fuel : Nat) : CopiesTrees (copyFrom fuel) := by
  induction fuel with
  | zero => exact fun c _ h => h.copied_push (.fresh .noop) rfl rfl rfl
  | succ fuel ih =>
    intro c id h
    obtain ⟨hhead, hnext⟩ := copyNode_copied ih h id
    rw [copyFrom]
    generalize c.copyNode (copyFrom fuel) id = r at hhead hnext
    obtain ⟨head, c₁⟩ := r
    simp only at hhead hnext ⊢
    cases c₁.next id with
    | none => exact hhead
    | some k =>
      have hrest := ih c₁ k hhead.wellFormed
      simp only
      generalize copyFrom fuel c₁ k = r' at hrest
      obtain ⟨rest, c₂⟩ := r'
      simp only at hrest ⊢
      have hne : head ≠ rest := Nat.ne_of_lt (Nat.lt_of_lt_of_le hhead.lt_size hrest.new)
      have hlt : head < c₂.size := Nat.lt_of_lt_of_le hhead.lt_size hrest.grown.size_le
      have hroot : c₂.link head = .root := by rw [hrest.grown.link hhead.lt_size, hhead.root]
      have hplace : c₂.HasPlace (.after head) := hlt
      have hempty : c₂.held (.after head) = none := by
        rw [held, hrest.grown.next hhead.lt_size, hnext]
      -- nothing is behind the head yet, so nothing is moved
      have hset : c₂.setPredecessor rest head = c₂.put rest (.after head) := by
        rw [setPredecessor_eq (hrest.wellFormed.detach rest), detach_of_root hrest.root, place,
          hempty]
      have hwf : (c₂.setPredecessor rest head).WellFormed := by
        refine hrest.wellFormed.setPredecessor hrest.lt_size
          (Nat.lt_of_lt_of_le hlt (size_le_detach _ _)) ?_
        intro hclimb
        exact hne (Climbs.eq_of_root hclimb hroot).symm
      -- only new nodes are changed
      refine ⟨hwf, ?_, hhead.new, ?_, ?_⟩
      · rw [hset]
        have hnew : c.size ≤ rest := hhead.grown.size_le.trans hrest.new
        exact ((hhead.grown.trans hrest.grown).modify hhead.new _).modify hnew _
      · rw [hset, size_put]
        exact hlt
      · rw [hset, link_put hplace hrest.lt_size, if_neg hne, hroot]

theorem WellFormed.deepCopy (h : c.WellFormed) (id : NodeId) :
    Copied c (c.deepCopy id).2 (c.deepCopy id).1 :=
  copyFrom_copied c.size c id h

end Copy

end Rulewright.Code
