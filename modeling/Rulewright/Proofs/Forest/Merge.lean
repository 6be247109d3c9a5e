import Rulewright.Fusion
import Rulewright.Proofs.Forest.History
import Rulewright.Proofs.Forest.Likeness

/-!
# Fusing in well-formed code

Fusing goes down two trees at once. Each step leads into a body of the first tree, so there are no
more steps than the code has nodes. Where the way ends, a copy of what is left of the second tree is
put behind the last node of a sequence of the first one, or nothing is done.

* `Code.fuseStep`: where fusing goes on. `WellFormed.exists_fuseEnd`: it comes to an end, and does
  what it does there.
* `Code.Parts`: what the way down can lead to.
* `Code.Extended`: one node has got something behind it, and that is new.
* `merge_extends_one_sequence`: what fusing changes.
-/

namespace Rulewright.Code

variable {l : Language} {c c' : Code} {n : Nat} {mine other x id : NodeId}

/-! ### Reachable nodes -/

theorem Within.climbs (h : c.Within n id) (hclimb : c.Climbs x id) : c.Within n x := by
  induction hclimb using Relation.ReflTransGen.head_induction_on with
  | refl => exact h
  | head hup _ ih =>
    obtain ⟨-, d, hd, hle⟩ := ih
    exact ⟨lt_size_of_below hup, d + 1, .step hup hd, by omega⟩

/-- **Reachable** from a node is what comes up to it. -/
theorem WellFormed.mem_descendants_iff (h : c.WellFormed) (hid : id < c.size) :
    x ∈ c.descendants id ↔ c.Climbs x id :=
  ⟨h.climbs_of_mem_descendantsFrom, fun hclimb =>
    ((h.neverReturns id).mem_descendants_iff (hclimb.lt_size hid)).2 (h.reaches_iff.2 hclimb)⟩

theorem WellFormed.climbs_of_mem_chainFrom (h : c.WellFormed) (hx : x ∈ c.chainFrom n id) :
    c.Climbs x id := by
  induction n generalizing id with
  | zero => cases hx
  | succ n ih =>
    rw [chainFrom, List.mem_cons] at hx
    rcases hx with rfl | hx
    · exact .refl
    · cases hnext : c.next id with
      | none =>
        rw [hnext] at hx
        cases hx
      | some k =>
        rw [hnext] at hx
        exact (ih hx).tail (h.up?_next hnext)

theorem WellFormed.climbs_of_lastBranch? (h : c.WellFormed) (hx : c.lastBranch? id = some x) :
    c.Climbs x id :=
  h.climbs_of_mem_chainFrom (List.mem_reverse.1 (List.mem_of_find?_eq_some hx))

/-! ### The way down -/

/-- Where fusing goes on from two sequences, if it does not end there. -/
def fuseStep (l : Language) (c : Code) : NodeId × NodeId → Option (NodeId × NodeId)
  | (mine, other) => do
    let lastMine ← c.lastBranch? mine
    let lastOther ← c.lastBranch? other
    let ours ← c.branch? lastMine
    let theirs ← c.branch? lastOther
    if ours.guard.equals theirs.guard then return (ours.thenBody, theirs.thenBody)
    else if ours.guard.moreSpecificThan l theirs.guard then return (ours.thenBody, lastOther)
    else return (ours.elseBody, other)

/-- What fusing does where it ends: a sequence without branches gets a copy of one with branches. -/
def fuseEnd (c : Code) : NodeId × NodeId → Code
  | (mine, other) =>
    if (c.lastBranch? mine).isNone && (c.lastBranch? other).isSome then
      (c.deepCopy other).2.append mine (c.deepCopy other).1
    else c

/-- To go on any number of times. -/
def FusesTo (l : Language) (c : Code) : NodeId × NodeId → NodeId × NodeId → Prop :=
  Relation.ReflTransGen fun p q => c.fuseStep l p = some q

theorem mergeFrom_succ (l : Language) (n : Nat) (c : Code) (mine other : NodeId) :
    mergeFrom l (n + 1) c mine other =
      match c.fuseStep l (mine, other) with
      | some (mine, other) => mergeFrom l n c mine other
      | none => c.fuseEnd (mine, other) := by
  rw [mergeFrom, fuseStep, fuseEnd]
  cases hm : c.lastBranch? mine with
  | none => cases c.lastBranch? other <;> rfl
  | some lastMine =>
    cases ho : c.lastBranch? other with
    | none => rfl
    | some lastOther =>
      simp only [Option.bind_eq_bind, Option.bind_some]
      cases c.branch? lastMine with
      | none => rfl
      | some ours =>
        cases c.branch? lastOther with
        | none => rfl
        | some theirs =>
          simp only [Option.bind_some]
          split_ifs <;> rfl

/-- One step leads to the `then` or `else` body of a branch of the first sequence, and stays below
the second node. -/
theorem WellFormed.fuseStep_cases (h : c.WellFormed) {p q : NodeId × NodeId}
    (hstep : c.fuseStep l p = some q) :
    (∃ x b, c.Climbs x p.1 ∧ c.branch? x = some b ∧ (q.1 = b.thenBody ∨ q.1 = b.elseBody)) ∧
    c.Climbs q.2 p.2 := by
  obtain ⟨mine, other⟩ := p
  rw [fuseStep] at hstep
  obtain ⟨lastMine, hm, hstep⟩ := Option.bind_eq_some_iff.1 hstep
  obtain ⟨lastOther, ho, hstep⟩ := Option.bind_eq_some_iff.1 hstep
  obtain ⟨ours, hours, hstep⟩ := Option.bind_eq_some_iff.1 hstep
  obtain ⟨theirs, htheirs, hstep⟩ := Option.bind_eq_some_iff.1 hstep
  have hmine := h.climbs_of_lastBranch? hm
  have hother := h.climbs_of_lastBranch? ho
  split_ifs at hstep
  · cases hstep
    have hslot : c.slot? lastOther .thenBody = some theirs.thenBody := slot?_eq htheirs .thenBody
    exact ⟨⟨lastMine, ours, hmine, hours, .inl rfl⟩, .head (h.up?_slot hslot) hother⟩
  · cases hstep
    exact ⟨⟨lastMine, ours, hmine, hours, .inl rfl⟩, hother⟩
  · cases hstep
    exact ⟨⟨lastMine, ours, hmine, hours, .inr rfl⟩, .refl⟩

theorem WellFormed.up?_thenElse (h : c.WellFormed) {k : NodeId} {b : Branch}
    (hb : c.branch? x = some b) (hk : k = b.thenBody ∨ k = b.elseBody) : c.up? k = some x := by
  rcases hk with rfl | rfl
  · exact h.up?_slot (slot?_eq hb .thenBody)
  · exact h.up?_slot (slot?_eq hb .elseBody)

/-- **Fusing ends**, and no bound from the number of nodes on cuts it off. -/
theorem WellFormed.exists_fuseEnd (h : c.WellFormed) (l : Language) (hmine : c.Within n mine)
    (other : NodeId) :
    ∃ p, c.FusesTo l (mine, other) p ∧ c.fuseStep l p = none ∧
      ∀ fuel, n ≤ fuel → mergeFrom l fuel c mine other = c.fuseEnd p := by
  induction n generalizing mine other with
  | zero => exact absurd (hmine.pos h) (Nat.lt_irrefl 0)
  | succ n ih =>
    cases hstep : c.fuseStep l (mine, other) with
    | none =>
      refine ⟨(mine, other), .refl, hstep, fun fuel hfuel => ?_⟩
      obtain ⟨fuel, rfl⟩ : ∃ m, fuel = m + 1 := ⟨fuel - 1, by omega⟩
      rw [mergeFrom_succ, hstep]
    | some q =>
      -- a step goes to a body of a branch of the first tree, which is deeper in it
      obtain ⟨⟨x, b, hx, hb, hq⟩, -⟩ := h.fuseStep_cases hstep
      obtain ⟨p, hto, hend, hfrom⟩ := ih ((hmine.climbs hx).below (h.up?_thenElse hb hq)) q.2
      refine ⟨p, .head hstep hto, hend, fun fuel hfuel => ?_⟩
      obtain ⟨fuel, rfl⟩ : ∃ m, fuel = m + 1 := ⟨fuel - 1, by omega⟩
      rw [mergeFrom_succ, hstep]
      exact hfrom fuel (by omega)

/-- The heads of a tree's own sequence and of the `then` and `else` bodies inside. -/
def Parts (c : Code) (head part : NodeId) : Prop :=
  part = head ∨
  ∃ x ∈ c.descendants head, ∃ b, c.branch? x = some b ∧ (part = b.thenBody ∨ part = b.elseBody)

theorem Parts.climbs (hpart : c.Parts mine other) (h : c.WellFormed) : c.Climbs other mine := by
  rcases hpart with rfl | ⟨x, hx, b, hb, hbody⟩
  · exact .refl
  · exact .head (h.up?_thenElse hb hbody) (h.climbs_of_mem_descendantsFrom hx)

/-- Wherever fusing comes to, it is at a part of the first tree and at a node of the second. -/
theorem FusesTo.parts {p q : NodeId × NodeId} (hto : c.FusesTo l p q) (h : c.WellFormed)
    (hmine : p.1 < c.size) : c.Parts p.1 q.1 ∧ c.Climbs q.2 p.2 := by
  induction hto with
  | refl => exact ⟨.inl rfl, .refl⟩
  | tail _ hstep ih =>
    obtain ⟨⟨x, b, hx, hb, hbody⟩, hother⟩ := h.fuseStep_cases hstep
    have hmem := (h.mem_descendants_iff hmine).2 (hx.trans (ih.1.climbs h))
    exact ⟨.inr ⟨x, hmem, b, hb, hbody⟩, hother.trans ih.2⟩

/-! ### The end of the way -/

/-- The second code is the first one with something new behind the node `last`, which had nothing
behind it. All else is as it was, and all that is reachable from what is new is new. -/
structure Extended (c c' : Code) (last copy : NodeId) : Prop where
  free : c.next last = none
  node? : ∀ x, x < c.size →
    c'.node? x = if x = last then (c.node? x).map ({ · with next := some copy }) else c.node? x
  link : c'.link copy = .after last
  fresh : ∀ x ∈ c'.descendants copy, c.size ≤ x

/-- Only new nodes are below a new node. -/
theorem WellFormed.new_of_climbs (h : c.WellFormed) (hlink : ∀ x, x < c.size → c'.link x = c.link x)
    {r : NodeId} (hclimb : c'.Climbs x r) (hr : c.size ≤ r) : c.size ≤ x := by
  by_contra hx
  have hlt : r < c.size := by
    clear hr
    induction hclimb with
    | refl => exact Nat.lt_of_not_le hx
    | tail _ hup ih =>
      rw [up?_eq, hlink _ ih, ← up?_eq] at hup
      exact h.lt_size_of_up? hup
  exact Nat.not_le.2 hlt hr

/-- Sequences do not change where code only grows. -/
theorem Grown.chainFrom (hgrown : Grown c c') (h : c.WellFormed) (hid : c.Within n id)
    {fuel fuel' : Nat} (hfuel : n ≤ fuel) (hfuel' : n ≤ fuel') :
    c'.chainFrom fuel' id = c.chainFrom fuel id := by
  induction n generalizing id fuel fuel' with
  | zero => exact absurd (hid.pos h) (Nat.lt_irrefl 0)
  | succ n ih =>
    obtain ⟨fuel, rfl⟩ : ∃ m, fuel = m + 1 := ⟨fuel - 1, by omega⟩
    obtain ⟨fuel', rfl⟩ : ∃ m, fuel' = m + 1 := ⟨fuel' - 1, by omega⟩
    rw [Code.chainFrom, Code.chainFrom, hgrown.next hid.1]
    cases hnext : c.next id with
    | none => rfl
    | some k => exact congrArg (id :: ·) (ih (hid.below (h.up?_next hnext)) (by omega) (by omega))

theorem Grown.last (hgrown : Grown c c') (h : c.WellFormed) (hid : id < c.size) :
    c'.last id = c.last id := by
  rw [Code.last, chain, hgrown.chainFrom h (h.within hid) le_rfl hgrown.size_le, Code.last, chain]

/-- **A copy is put behind a sequence** of another tree. -/
theorem WellFormed.append_deepCopy (h : c.WellFormed) {part source : NodeId} (hpart : part < c.size)
    (hsource : source < c.size) (hapart : c.Apart part source) :
    ((c.deepCopy source).2.append part (c.deepCopy source).1).WellFormed ∧
    Extended c ((c.deepCopy source).2.append part (c.deepCopy source).1) (c.last part)
      (c.deepCopy source).1 ∧
    ((c.deepCopy source).2.append part (c.deepCopy source).1).structurallyEqual source
      (c.deepCopy source).1 = true := by
  have hcopied := h.deepCopy source
  have halike := h.deepCopy_resembles hsource
  generalize c.deepCopy source = r at hcopied halike
  obtain ⟨copy, c₁⟩ := r
  simp only at hcopied halike ⊢
  obtain ⟨hfree, hclimb⟩ := h.last_spec hpart
  have hlast : c.last part < c.size := hclimb.lt_size hpart
  have hlast₁ : c.last part < c₁.size := Nat.lt_of_lt_of_le hlast hcopied.grown.size_le
  have happend : c₁.append part copy = c₁.setPredecessor copy (c.last part) := by
    rw [append, Code.attach, hcopied.grown.last h hpart]
  have hset : c₁.append part copy =
      (c₁.setNext (c.last part) (some copy)).setLink copy (.after (c.last part)) :=
    happend.trans (hcopied.wellFormed.setPredecessor_of_root hcopied.root
      ((hcopied.grown.next hlast).trans hfree))
  have hnotNew : ∀ x, c₁.Climbs x copy → c.size ≤ x := fun x hx =>
    h.new_of_climbs (fun y hy => hcopied.grown.link hy) hx hcopied.new
  have hwf : (c₁.append part copy).WellFormed := by
    rw [happend]
    refine hcopied.wellFormed.setPredecessor hcopied.lt_size
      (Nat.lt_of_lt_of_le hlast₁ (size_le_detach _ _)) ?_
    exact fun hx => Nat.not_le.2 hlast (hnotNew _ hx)
  have hnode? : ∀ x, x < c.size →
      (c₁.append part copy).node? x =
        if x = c.last part then (c.node? x).map ({ · with next := some copy }) else c.node? x := by
    intro x hx
    have hxcopy : copy ≠ x := Nat.ne_of_gt (Nat.lt_of_lt_of_le hx hcopied.new)
    rw [hset, setLink, setNext, node?_modify, if_neg hxcopy, node?_modify, hcopied.grown.node? x hx]
    exact if_congr eq_comm rfl rfl
  have hlink : ∀ x, x < c.size → (c₁.append part copy).link x = c.link x := by
    intro x hx
    have hxcopy : x ≠ copy := Nat.ne_of_lt (Nat.lt_of_lt_of_le hx hcopied.new)
    rw [hset, link_setLink (by simpa using hcopied.lt_size), if_neg hxcopy, link_setNext,
      hcopied.grown.link hx]
  refine ⟨hwf, ⟨hfree, hnode?, ?_, ?_⟩, ?_⟩
  · rw [hset, link_setLink (by simpa using hcopied.lt_size), if_pos rfl]
  · intro x hx
    exact h.new_of_climbs hlink (hwf.climbs_of_mem_descendantsFrom hx) hcopied.new
  · -- neither the copy nor what it is a copy of has the last node in it
    have hsource' : ∀ x, c.Climbs x source → SameAt c (c₁.append part copy) x := by
      intro x hx
      apply SameAt.of_node?
      rw [hnode? x (hx.lt_size hsource), if_neg]
      rintro rfl
      exact hapart (((h.top_eq hclimb).trans (h.top_eq hx).symm))
    have hcopy : ∀ x, c₁.Climbs x copy → SameAt c₁ (c₁.append part copy) x := by
      intro x hx
      rw [hset]
      refine (SameAt.setNext _ ?_).trans (SameAt.setLink _ _ _ x)
      exact Nat.ne_of_gt (Nat.lt_of_lt_of_le hlast (hnotNew x hx))
    refine ((halike.carry hcopied.wellFormed hcopy).carry_left h hsource').structurallyEqual ?_
    rw [hset, size_setLink, size_setNext]
    exact hcopied.grown.size_le

/-- **Fusing changes one place only.** It comes to an end, and the code stays well-formed. What is
reachable from the second node is as it was. Of all the nodes that were there, at most one is
changed: the last one of a part of the first tree. It had nothing behind it, and what it has there
now is new and the same code as a sequence of the second tree. -/
theorem merge_extends_one_sequence (l : Language) (h : c.WellFormed) (hmine : mine < c.size)
    (hother : other < c.size) (hapart : c.Apart mine other) :
    (∃ p, c.FusesTo l (mine, other) p ∧ c.fuseStep l p = none ∧
      c.merge l mine other = c.fuseEnd p) ∧
    (c.merge l mine other).WellFormed ∧
    (∀ x ∈ c.descendants other, (c.merge l mine other).node? x = c.node? x) ∧
    (c.merge l mine other = c ∨
      ∃ part source copy, c.Parts mine part ∧ source ∈ c.descendants other ∧
        Extended c (c.merge l mine other) (c.last part) copy ∧
        (c.merge l mine other).structurallyEqual source copy = true) := by
  obtain ⟨⟨part, source⟩, hto, hend, hfrom⟩ := h.exists_fuseEnd l (h.within hmine) other
  have hmerge : c.merge l mine other = c.fuseEnd (part, source) :=
    hfrom _ (Nat.le_succ_of_le (Nat.le_mul_self _))
  obtain ⟨hpart, hsource⟩ := hto.parts h hmine
  refine ⟨⟨_, hto, hend, hmerge⟩, ?_⟩
  rw [hmerge, fuseEnd]
  split_ifs with hcopy
  · have hclimb := hpart.climbs h
    have hapart' : c.Apart part source := by
      rw [Apart, ← h.top_eq hclimb, ← h.top_eq hsource]
      exact hapart
    have hpartLt := hclimb.lt_size hmine
    obtain ⟨hwf, hextended, hequal⟩ := h.append_deepCopy hpartLt (hsource.lt_size hother) hapart'
    refine ⟨hwf, ?_,
      .inr ⟨part, source, _, hpart, (h.mem_descendants_iff hother).2 hsource, hextended, hequal⟩⟩
    intro x hx
    have hxother := h.climbs_of_mem_descendantsFrom hx
    rw [hextended.node? x (hxother.lt_size hother), if_neg]
    -- the node that is changed is in the first tree
    rintro rfl
    exact hapart ((h.top_eq ((h.last_spec hpartLt).2.trans hclimb)).trans (h.top_eq hxother).symm)
  · exact ⟨h, fun _ _ => rfl, .inl rfl⟩

/-- Two branches on one guard, 4 and 9. Each holds one more branch in its `then` body, on guards
that differ. -/
def twinBranches : List Edit :=
  [.create (.ret true), .createIf (.free "b") (some 0) none,
    .createIf (.operandCountIs .root 2) (some 2) none, .create (.ret true),
    .createIf (.free "c") (some 5) none, .createIf (.operandCountIs .root 2) (some 7) none]

theorem twinBranches_merge :
    ∃ c, Code.empty.performAll twinBranches = .ok c ∧ c.WellFormed ∧ 4 < c.size ∧ 9 < c.size ∧
      c.Apart 4 9 ∧ (c.merge .arithmetic 4 9).next 1 = some 12 ∧
      (∃ p, c.FusesTo .arithmetic (4, 9) p ∧ c.fuseStep .arithmetic p = none ∧
        c.merge .arithmetic 4 9 = c.fuseEnd p) ∧
      (c.merge .arithmetic 4 9).WellFormed ∧
      (∀ x ∈ c.descendants 9, (c.merge .arithmetic 4 9).node? x = c.node? x) ∧
      (c.merge .arithmetic 4 9 = c ∨
        ∃ part source copy, c.Parts 4 part ∧ source ∈ c.descendants 9 ∧
          Extended c (c.merge .arithmetic 4 9) (c.last part) copy ∧
          (c.merge .arithmetic 4 9).structurallyEqual source copy = true) := by
  have hallowed : Code.empty.AllowsAll twinBranches := by decide +kernel
  have hread : (Code.empty.performAll twinBranches).toOption.map
      (fun c => (c.size, decide (c.Apart 4 9), (c.merge .arithmetic 4 9).next 1)) =
      some (10, true, some 12) := by decide +kernel
  cases hrun : Code.empty.performAll twinBranches with
  | error fault =>
    rw [hrun] at hread
    cases hread
  | ok c =>
    rw [hrun] at hread
    obtain ⟨hsize, hapart, hnext⟩ : c.size = 10 ∧ decide (c.Apart 4 9) = true ∧
        (c.merge .arithmetic 4 9).next 1 = some 12 := by
      simpa [Except.toOption] using hread
    have h := performAll_wellFormed .empty hallowed hrun
    have hmine : 4 < c.size := by omega
    have hother : 9 < c.size := by omega
    exact ⟨c, rfl, h, hmine, hother, of_decide_eq_true hapart, hnext,
      merge_extends_one_sequence .arithmetic h hmine hother (of_decide_eq_true hapart)⟩

end Rulewright.Code
