import Rulewright.Code.Copy
import Rulewright.Proofs.Tree.Surgery

/-!
# Copies of trees

A copy of a sequence is owned beside the sequence and has other numbers only.

* `Owns.linkBodies`: the bodies of a new branch get their places.
* `Owns.deepCopy`: the copy of a sequence.
-/

namespace Rulewright.Code.Owns

open Stmt

variable {c : Code} {m : Multiset Cell} {link : Link}

/-- The cells of sequences of one statement each. -/
def loose (es : List (Stmt NodeId)) : Multiset Cell := (es.map fun s => cells .root none [s]).sum

@[simp] theorem loose_nil : loose [] = 0 := rfl

@[simp] theorem loose_cons (s : Stmt NodeId) (es : List (Stmt NodeId)) :
    loose (s :: es) = cells .root none [s] + loose es := rfl

theorem linkElseIfs {es : List (Stmt NodeId)} (h : c.Owns (loose es + m)) (parent : NodeId)
    (index : Nat) :
    (((es.map Stmt.id).mapIdx fun i node => (Slot.elseIf (index + i), node)).foldl
      (fun c held => c.setLink held.2 (.childOf parent held.1)) c).Owns
      (elseIfCells parent index es + m) := by
  induction es generalizing c index m with
  | nil => simpa using h
  | cons s rest ih =>
    rw [loose_cons, add_assoc] at h
    have h1 := (h.relink (.childOf parent (.elseIf index))).swap
    have h2 := ih h1 (index + 1)
    rw [List.map_cons, List.mapIdx_cons, List.foldl_cons, Nat.add_zero]
    have hcongr : (fun i node => (Slot.elseIf (index + (i + 1)), node)) =
        fun i (node : NodeId) => (Slot.elseIf (index + 1 + i), node) := by
      funext i node
      rw [Nat.add_right_comm, Nat.add_assoc]
    rw [hcongr]
    refine h2.of_eq ?_
    rw [cells_singleton, elseIfCells]
    abel

/-- **The bodies of a new branch** get their places. -/
theorem linkBodies {id : NodeId} {guard : Guard} {t e es : List (Stmt NodeId)} (ht : t ≠ [])
    (he : e ≠ [])
    (h : c.Owns ({(id, (Stmt.branch id guard t e es).node .root none)} +
      (cells .root none t + (cells .root none e + (loose es + m))))) :
    (c.linkBodies id ⟨guard, start t, start e, es.map Stmt.id⟩).Owns
      (cells .root none [.branch id guard t e es] + m) := by
  have h1 := (h.swap.relink_start ht (.childOf id .thenBody)).swap
  have h2 : Code.Owns _ (cells .root none e +
      ({(id, (Stmt.branch id guard t e es).node .root none)} +
        (cells (.childOf id .thenBody) none t + (loose es + m)))) := h1.of_eq (by abel)
  have h3 := h2.relink_start he (.childOf id .elseBody)
  have h4 : Code.Owns _ (loose es +
      ({(id, (Stmt.branch id guard t e es).node .root none)} +
        (cells (.childOf id .thenBody) none t + (cells (.childOf id .elseBody) none e + m)))) :=
    h3.of_eq (by abel)
  have h5 := h4.linkElseIfs id 0
  simp only [Nat.zero_add] at h5
  rw [Code.linkBodies, Branch.slots, List.foldl_cons, List.foldl_cons]
  refine h5.of_eq ?_
  rw [cells_singleton, bodyCells_branch, id_branch]
  abel

/-- The function copies sequences with at most this many nodes. -/
def Copies (copy : Code → NodeId → NodeId × Code) (bound : Nat) : Prop :=
  ∀ (c : Code) (link : Link) (m : Multiset Cell) (ts : List (Stmt NodeId)), SolidAll ts → ts ≠ [] →
    countAll ts ≤ bound → c.Owns (cells link none ts + m) →
    ∃ ts', strip ts' = strip ts ∧ ts' ≠ [] ∧ (copy c (start ts)).1 = start ts' ∧
      (copy c (start ts)).2.Owns (cells .root none ts' + (cells link none ts + m))

variable {copy : Code → NodeId → NodeId × Code} {bound : Nat}

theorem copyEach (hcopy : Copies copy bound) {es : List (Stmt NodeId)} (hs : SolidAll es)
    (hn : countAll es ≤ bound) {parent : NodeId} {index : Nat}
    (h : c.Owns (elseIfCells parent index es + m)) :
    ∃ es', strip es' = strip es ∧ (Code.copyEach copy c (es.map Stmt.id)).1 = es'.map Stmt.id ∧
      (Code.copyEach copy c (es.map Stmt.id)).2.Owns
        (loose es' + (elseIfCells parent index es + m)) := by
  induction es generalizing c m index with
  | nil => exact ⟨[], rfl, rfl, by simpa [Code.copyEach] using h⟩
  | cons s rest ih =>
    rw [countAll] at hn
    have h1 : c.Owns (cells (.childOf parent (.elseIf index)) none [s] +
        (elseIfCells parent (index + 1) rest + m)) :=
      h.of_eq (by rw [elseIfCells, cells_singleton]; abel)
    obtain ⟨ts, hstrip, -, hstart, h2⟩ := hcopy c _ _ [s] ⟨hs.1, trivial⟩ (by simp)
      (by rw [countAll, countAll]; omega) h1
    -- an alternative is copied as a sequence of one
    obtain ⟨s', hts⟩ : ∃ s', ts = [s'] := by
      have := congrArg List.length hstrip
      simp only [strip, mapAll_eq_map, List.length_map] at this
      exact List.length_eq_one_iff.1 this
    subst hts
    have h3 : (copy c (start [s])).2.Owns (elseIfCells parent (index + 1) rest +
        (cells .root none [s'] + (cells (.childOf parent (.elseIf index)) none [s] + m))) :=
      h2.of_eq (by abel)
    obtain ⟨es', hstrip', hheads, h4⟩ := ih hs.2 (by omega) h3
    refine ⟨s' :: es', ?_, ?_, ?_⟩
    · rw [strip_cons, strip_cons, hstrip', (List.cons.inj hstrip).1]
    · rw [List.map_cons, List.map_cons, Code.copyEach, ← hheads, show s'.id = start [s'] from rfl,
        ← hstart]
      rfl
    · rw [List.map_cons, Code.copyEach]
      refine h4.of_eq ?_
      rw [loose_cons, elseIfCells, cells_singleton (.childOf parent (.elseIf index))]
      abel

theorem copyNode (hcopy : Copies copy bound) {s : Stmt NodeId} (hs : s.Solid)
    (hn : s.count ≤ bound + 1) {next : Option NodeId}
    (h : c.Owns ({(s.id, s.node link next)} + (s.bodyCells + m))) :
    ∃ s' : Stmt NodeId, s'.map (fun _ => ()) = s.map (fun _ => ()) ∧
      (Code.copyNode copy c s.id).1 = s'.id ∧
      (Code.copyNode copy c s.id).2.Owns
        (cells .root none [s'] + ({(s.id, s.node link next)} + (s.bodyCells + m))) := by
  have hnode := h.find
  cases s with
  | line id x comment off =>
    refine ⟨.line c.size x comment off, rfl, ?_, ?_⟩
    · rw [Code.copyNode, hnode]
      cases x <;> rfl
    · have h1 := h.push ((Stmt.line c.size x comment off).node .root none)
      rw [Code.copyNode, hnode, cells_singleton, bodyCells, add_zero]
      cases x <;> exact h1
  | branch id guard t e es =>
    rw [count] at hn
    set own : Multiset Cell := {(id, (Stmt.branch id guard t e es).node link next)} with hown
    have h1 : c.Owns (cells (.childOf id .thenBody) none t +
        (cells (.childOf id .elseBody) none e + (elseIfCells id 0 es + (own + m)))) :=
      h.of_eq (by rw [bodyCells_branch, id_branch, hown]; abel)
    obtain ⟨t', ht', htne, hts, h2⟩ := hcopy c _ _ t hs.2.2.1 hs.1 (by omega) h1
    set c1 := (copy c (start t)).2 with hc1
    have h3 : c1.Owns (cells (.childOf id .elseBody) none e +
        (cells .root none t' +
          (cells (.childOf id .thenBody) none t + (elseIfCells id 0 es + (own + m))))) :=
      h2.of_eq (by abel)
    obtain ⟨e', he', hene, hes, h4⟩ := hcopy c1 _ _ e hs.2.2.2.1 hs.2.1 (by omega) h3
    set c2 := (copy c1 (start e)).2 with hc2
    have h5 : c2.Owns (elseIfCells id 0 es +
        (cells .root none e' +
          (cells .root none t' +
            (cells (.childOf id .thenBody) none t +
              (cells (.childOf id .elseBody) none e + (own + m)))))) := h4.of_eq (by abel)
    obtain ⟨es', hes', hheads, h6⟩ := copyEach hcopy hs.2.2.2.2 (by omega) h5
    set c3 := (Code.copyEach copy c2 (es.map Stmt.id)).2 with hc3
    -- the node of the copy comes last
    have h7 := h6.push ((Stmt.branch c3.size guard t' e' es').node .root none)
    have h8 : Code.Owns _ ({(c3.size, (Stmt.branch c3.size guard t' e' es').node .root none)} +
        (cells .root none t' +
          (cells .root none e' +
            (loose es' + (own + ((Stmt.branch id guard t e es).bodyCells + m)))))) :=
      h7.of_eq (by rw [bodyCells_branch]; abel)
    have hresult : Code.copyNode copy c id =
        (c3.size,
          (c3.push ((Stmt.branch c3.size guard t' e' es').node .root none)).linkBodies c3.size
            ⟨guard, start t', start e', es'.map Stmt.id⟩) := by
      rw [id_branch] at hnode
      rw [Code.copyNode, hnode]
      simp only [Stmt.node, Node.fresh, ← hc1, ← hc2, ← hc3, hts, hes, hheads]
    refine ⟨.branch c3.size guard t' e' es', ?_, ?_, ?_⟩
    · rw [map_branch_strip, map_branch_strip, ht', he', hes']
    · rw [id_branch, hresult, id_branch]
    · rw [id_branch, hresult]
      exact h8.linkBodies htne hene

theorem copies_copyFrom (bound : Nat) : Copies (Code.copyFrom bound) bound := by
  intro c link m ts hs hne hn h
  induction hne, hn using bounded_induct generalizing c link m with
  | cons bound s rest _ _ hcount hrest ih =>
    -- with one step less it copies the bodies of the head and the rest
    have hcopy : Copies (Code.copyFrom bound) bound :=
      fun c link m ts hs hne hn h => ih ts hne hn c link m hs h
    have h1 : c.Owns ({(s.id, s.node link ((start? rest).or none))} +
        (s.bodyCells + (cells (.after s.id) none rest + m))) := h.of_eq (by rw [cells_cons]; abel)
    obtain ⟨s', hmap, hid, h2⟩ := copyNode hcopy hs.1 hcount h1
    set c1 := (Code.copyNode (Code.copyFrom bound) c s.id).2 with hc1
    have h3 : c1.Owns (cells link none (s :: rest) + (cells .root none [s'] + m)) :=
      h2.of_eq (by rw [cells_cons link]; abel)
    have hnext : c1.next s.id = start? rest := by rw [h3.next_head, Option.or_none]
    rw [start_cons, Code.copyFrom]
    simp only [← hc1, hnext, hid]
    cases rest with
    | nil =>
      refine ⟨[s'], by rw [strip_cons, strip_cons, hmap], by simp, rfl, ?_⟩
      exact h3.of_eq (by abel)
    | cons s1 rest =>
      have h4 : c1.Owns (cells (.after s.id) none (s1 :: rest) + (cells .root none [s'] +
          ({(s.id, s.node link ((start? (s1 :: rest)).or none))} + (s.bodyCells + m)))) :=
        h3.of_eq (by rw [cells_cons link]; abel)
      obtain ⟨rest', hstrip, hrne, hrs, h5⟩ := hcopy c1 _ _ _ hs.2 (by simp) hrest h4
      simp only [start_cons] at hrs
      simp only [start?_cons, hrs]
      refine ⟨s' :: rest', by rw [strip_cons, strip_cons, hmap, hstrip], by simp, rfl, ?_⟩
      have h6 : (Code.copyFrom bound c1 s1.id).2.Owns (cells .root none [s'] +
          (cells .root none rest' + (cells link none (s :: s1 :: rest) + m))) :=
        h5.of_eq (by rw [cells_cons link]; abel)
      have h7 := h6.setPredecessor (show [s'] ≠ [] by simp) hrne
      rw [show stop [s'] = s'.id from rfl, List.singleton_append] at h7
      exact h7

/-- **The copy of a sequence** is owned beside the sequence. -/
theorem deepCopy {ts : List (Stmt NodeId)} (hs : SolidAll ts) (hne : ts ≠ [])
    (h : c.Owns (cells link none ts + m)) :
    ∃ ts', strip ts' = strip ts ∧ ts' ≠ [] ∧ (c.deepCopy (start ts)).1 = start ts' ∧
      (c.deepCopy (start ts)).2.Owns (cells .root none ts' + (cells link none ts + m)) :=
  copies_copyFrom c.size c link m ts hs hne h.countAll_le_size h

end Rulewright.Code.Owns
