import Rulewright.Fusion
import Rulewright.Proofs.Fusion.Structural

/-!
# Eliminating redundant definitions

Eliminating redundancy changes nodes that introduce or assign temporaries, and nothing else: they
may be commented out, get a comment, or become assignments.

* `Code.Revises`: one store is another one with such nodes changed.
* `refreshAll`: a tree as the store has it afterwards.
* `Owns.eliminateRedundancy`: the tree afterwards has the same sketch.
-/

namespace Rulewright

/-- The node introduces or assigns a temporary. -/
def NodeKind.isBinding : NodeKind → Bool
  | .declaration _ | .definition _ _ _ => true
  | _ => false

/-- A definition as an assignment. -/
def NodeKind.assigned : NodeKind → NodeKind
  | .definition target binding _ => .definition target binding false
  | k => k

/-- The node is another one revised. -/
structure Node.Revises (n n' : Node) : Prop where
  link : n'.link = n.link
  next : n'.next = n.next
  kind : n'.kind.assigned = n.kind.assigned
  other : n.kind.isBinding = false → n' = n

theorem NodeKind.isBinding_assigned (k : NodeKind) : k.assigned.isBinding = k.isBinding := by
  cases k <;> rfl

namespace Node.Revises

variable {n n' n'' : Node}

theorem refl (n : Node) : n.Revises n := ⟨rfl, rfl, rfl, fun _ => rfl⟩

theorem isBinding (h : n.Revises n') : n'.kind.isBinding = n.kind.isBinding := by
  rw [← NodeKind.isBinding_assigned, h.kind, NodeKind.isBinding_assigned]

theorem trans (h : n.Revises n') (h' : n'.Revises n'') : n.Revises n'' where
  link := h'.link.trans h.link
  next := h'.next.trans h.next
  kind := h'.kind.trans h.kind
  other := fun hn => (h'.other (h.isBinding.trans hn)).trans (h.other hn)

end Node.Revises

namespace Code

/-- The store is another one with some definitions revised. -/
def Revises (c c' : Code) : Prop :=
  ∀ id n, c.node? id = some n → ∃ n', c'.node? id = some n' ∧ n.Revises n'

theorem Revises.refl (c : Code) : c.Revises c := fun _ n h => ⟨n, h, .refl n⟩

theorem Revises.trans {c c' c'' : Code} (h : c.Revises c') (h' : c'.Revises c'') :
    c.Revises c'' := by
  intro id n hn
  obtain ⟨n', hn', hr⟩ := h id n hn
  obtain ⟨n'', hn'', hr'⟩ := h' id n' hn'
  exact ⟨n'', hn'', hr.trans hr'⟩

theorem revises_modify {c : Code} {id : NodeId} {f : Node → Node}
    (hf : ∀ n, c.node? id = some n → n.Revises (f n)) : c.Revises (c.modify id f) := by
  intro k n hn
  rw [node?_modify, hn]
  split_ifs with hk
  · subst hk
    exact ⟨f n, rfl, hf n hn⟩
  · exact ⟨n, rfl, .refl n⟩

theorem isDefinition_iff {c : Code} {id : NodeId} :
    c.isDefinition id = true ↔ ∃ n, c.node? id = some n ∧ n.kind.isBinding = true := by
  rw [isDefinition, kind]
  cases c.node? id with
  | none => simp
  | some n => cases hk : n.kind <;> simp [hk, NodeKind.isBinding]

theorem Revises.isDefinition {c c' : Code} (h : c.Revises c') {id : NodeId}
    (hd : c.isDefinition id = true) : c'.isDefinition id = true := by
  obtain ⟨n, hn, hb⟩ := isDefinition_iff.1 hd
  obtain ⟨n', hn', hr⟩ := h id n hn
  exact isDefinition_iff.2 ⟨n', hn', hr.isBinding.trans hb⟩

theorem revises_note {c : Code} {id : NodeId} (hd : c.isDefinition id = true) {f : Node → Node}
    (hf : ∀ n, (f n).link = n.link ∧ (f n).next = n.next ∧ (f n).kind = n.kind) :
    c.Revises (c.modify id f) := by
  refine revises_modify fun n hn => ?_
  obtain ⟨n', hn', hb⟩ := isDefinition_iff.1 hd
  obtain rfl : n = n' := Option.some.inj (hn.symm.trans hn')
  obtain ⟨hl, hx, hk⟩ := hf n
  exact ⟨hl, hx, by rw [hk], fun h => by rw [hb] at h; cases h⟩

theorem revises_setDeclares (c : Code) (id : NodeId) (declares : Bool) :
    c.Revises (c.setDeclares id declares) := by
  unfold setDeclares
  split
  · rename_i target binding declares' hk
    refine revises_modify fun n hn => ?_
    have hkind : n.kind = .definition target binding declares' := by rw [← hk, kind, hn]
    exact ⟨rfl, rfl, by rw [hkind]; rfl, fun h => by rw [hkind] at h; cases h⟩
  · exact .refl c

theorem revises_reviseAgainst {c : Code} {id : NodeId} (hd : c.isDefinition id = true)
    (ancestor : NodeId) : c.Revises (reviseAgainst id c ancestor) := by
  unfold reviseAgainst
  split_ifs
  · exact .refl c
  · exact revises_note hd fun n => ⟨rfl, rfl, rfl⟩
  · split
    · split_ifs
      · have h1 : c.Revises (c.setComment id assignedNote) :=
          revises_note hd fun n => ⟨rfl, rfl, rfl⟩
        exact h1.trans (revises_setDeclares _ id false)
      · exact .refl c
    · exact .refl c

/-- Eliminating redundancy is a series of comparisons, each of a definition with a node that was
before or around it at the start. -/
theorem eliminateRedundancy_induct {R : Code → Code → Prop} (refl : ∀ c, R c c)
    (trans : ∀ {c c' c''}, R c c' → R c' c'' → R c c'')
    (step : ∀ {c c' id above}, R c c' → c.isDefinition id = true → above ∈ c.ancestors id →
      R c' (reviseAgainst id c' above))
    (c : Code) (head : NodeId) : R c (c.eliminateRedundancy head) := by
  have hrevise : ∀ c id, R c (revise c id) := by
    intro c id
    unfold revise
    split_ifs with hd
    · exact List.foldlRecOn (c.ancestors id) _ (refl c) fun c' h above hmem =>
        trans h (step h hd hmem)
    · exact refl c
  exact List.foldlRecOn (c.descendants head) _ (refl c) fun c' h id _ => trans h (hrevise c' id)

/-- Eliminating redundancy revises definitions. -/
theorem revises_eliminateRedundancy (c : Code) (head : NodeId) :
    c.Revises (c.eliminateRedundancy head) :=
  eliminateRedundancy_induct .refl .trans
    (fun h hd _ => revises_reviseAgainst (h.isDefinition hd) _) c head

end Code

/-! ### Trees -/

/-- The line as a revised node has it. -/
def Line.revised (kind : NodeKind) : Line → Line
  | .definition target binding declares =>
    match kind with
    | .definition _ _ declares => .definition target binding declares
    | _ => .definition target binding declares
  | x => x

namespace Line

theorem kind_isBinding (x : Line) : x.kind.isBinding = x.isBinding := by cases x <;> rfl

theorem kind_revised {x : Line} {k : NodeKind} (h : k.assigned = x.kind.assigned) :
    (x.revised k).kind = k := by
  cases x <;> cases k <;> simp_all [revised, kind, NodeKind.assigned]

theorem isBinding_revised (x : Line) (k : NodeKind) : (x.revised k).isBinding = x.isBinding := by
  cases x <;> cases k <;> rfl

theorem isStructural_revised (x : Line) (k : NodeKind) :
    (x.revised k).isStructural = x.isStructural := by
  cases x with
  | definition target binding declares => cases binding <;> cases k <;> rfl
  | _ => rfl

theorem revised_of_not {x : Line} (h : x.isBinding = false) (k : NodeKind) : x.revised k = x := by
  cases x <;> first | rfl | cases h

end Line

namespace Stmt

mutual

/-- The statement as the store has it after a revision. -/
def refresh (c : Code) : Stmt NodeId → Stmt NodeId
  | .line id x _ _ => .line id (x.revised (c.kind id)) (c.comment? id) (c.isCommentedOut id)
  | .branch id guard t e es => .branch id guard (refreshAll c t) (refreshAll c e) (refreshAll c es)

def refreshAll (c : Code) : List (Stmt NodeId) → List (Stmt NodeId)
  | [] => []
  | s :: rest => s.refresh c :: refreshAll c rest

end

@[simp] theorem id_refresh (c : Code) (s : Stmt NodeId) : (s.refresh c).id = s.id := by
  cases s <;> rfl

@[simp] theorem start?_refreshAll (c : Code) (ts : List (Stmt NodeId)) :
    start? (refreshAll c ts) = start? ts := by
  cases ts with
  | nil => rfl
  | cons s rest => simp [refreshAll]

theorem map_id_refreshAll (c : Code) (ts : List (Stmt NodeId)) :
    (refreshAll c ts).map Stmt.id = ts.map Stmt.id := by
  induction ts with
  | nil => rfl
  | cons s rest ih => simp [refreshAll, ih]

theorem refreshAll_ne_nil {c : Code} {ts : List (Stmt NodeId)} (h : ts ≠ []) :
    refreshAll c ts ≠ [] := by
  cases ts with
  | nil => exact absurd rfl h
  | cons s rest => simp [refreshAll]

theorem solid_refresh_all (c : Code) :
    (∀ s : Stmt NodeId, s.Solid → (s.refresh c).Solid) ∧
    ∀ ts : List (Stmt NodeId), SolidAll ts → SolidAll (refreshAll c ts) := by
  apply Stmt.induct
  case line => exact fun _ _ _ _ h => h
  case branch =>
    intro id guard t e es ht he hes h
    exact ⟨refreshAll_ne_nil h.1, refreshAll_ne_nil h.2.1, ht h.2.2.1, he h.2.2.2.1, hes h.2.2.2.2⟩
  case nil => exact fun h => h
  case cons => exact fun s rest hs hrest h => ⟨hs h.1, hrest h.2⟩

theorem isStructural_refresh_all (c : Code) :
    (∀ s : Stmt NodeId, (s.refresh c).isStructural = s.isStructural) ∧
      ∀ ts : List (Stmt NodeId), isStructuralAll (refreshAll c ts) = isStructuralAll ts := by
  apply Stmt.induct
  case line => exact fun _ x _ _ => x.isStructural_revised _
  case branch =>
    intro id guard t e es ht he hes
    simp only [refresh, isStructural, ht, he, hes]
  case nil => rfl
  case cons =>
    intro s rest hs hrest
    simp only [refreshAll, isStructuralAll, hs, hrest]

/-- The cell as the store has it. -/
def current (c : Code) (p : Cell) : Cell := (p.1, (c.node? p.1).getD p.2)

/-- The nodes are in the store, revised. -/
def Current (c : Code) (m : Multiset Cell) : Prop :=
  ∀ p ∈ m, ∃ n, c.node? p.1 = some n ∧ p.2.Revises n

theorem Current.left {c : Code} {m w : Multiset Cell} (h : Current c (m + w)) : Current c m :=
  fun p hp => h p (Multiset.mem_add.2 (Or.inl hp))

theorem Current.right {c : Code} {m w : Multiset Cell} (h : Current c (m + w)) : Current c w :=
  fun p hp => h p (Multiset.mem_add.2 (Or.inr hp))

/-- The node of a refreshed statement is the revised one. -/
theorem node_refresh {c : Code} {link : Link} {next : Option NodeId} {s : Stmt NodeId} {n : Node}
    (hn : c.node? s.id = some n) (hr : (s.node link next).Revises n) :
    (s.refresh c).node link next = n := by
  cases s with
  | branch id guard t e es =>
    rw [hr.other rfl]
    simp only [refresh, node, start, start?_refreshAll, map_id_refreshAll]
  | line id x comment off =>
    have hid : c.node? id = some n := hn
    have hkind := Line.kind_revised hr.kind
    have hlink := hr.link
    have hnext := hr.next
    simp only [node] at hlink hnext
    simp only [refresh, node, Code.kind, Code.comment?, Code.isCommentedOut, hid, hkind,
      Option.bind_some, ← hlink, ← hnext]

theorem sketch_refresh {c : Code} {link : Link} {next : Option NodeId} {id : NodeId} {x : Line}
    {comment : Option String} {off : Bool} {n : Node} (hn : c.node? id = some n)
    (hr : ((Stmt.line id x comment off).node link next).Revises n) :
    ((Stmt.line id x comment off).refresh c).sketch = (Stmt.line id x comment off).sketch := by
  simp only [refresh, sketch, Line.isBinding_revised]
  split_ifs with hx
  · rfl
  · have hx' : x.isBinding = false := by simpa using hx
    have hsame := hr.other (by rw [node, Line.kind_isBinding, hx'])
    simp only [Line.revised_of_not hx', Code.comment?, Code.isCommentedOut, hn, hsame, node,
      Option.bind_some]

theorem refresh_all (c : Code) :
    (∀ s : Stmt NodeId,
      (∀ id guard t e es, s = .branch id guard t e es → Current c s.bodyCells →
        (s.refresh c).bodyCells = s.bodyCells.map (current c) ∧ (s.refresh c).sketch = s.sketch)) ∧
    ∀ ts : List (Stmt NodeId),
      (∀ link next, Current c (cells link next ts) →
        cells link next (refreshAll c ts) = (cells link next ts).map (current c) ∧
          sketchAll (refreshAll c ts) = sketchAll ts) ∧
      ∀ parent index, Current c (elseIfCells parent index ts) →
        elseIfCells parent index (refreshAll c ts) = (elseIfCells parent index ts).map (current c) ∧
          sketchAll (refreshAll c ts) = sketchAll ts := by
  -- one statement, given its node and its bodies
  have stmt : ∀ (s : Stmt NodeId) (link : Link) (next : Option NodeId),
      (∀ id guard t e es, s = .branch id guard t e es → Current c s.bodyCells →
        (s.refresh c).bodyCells = s.bodyCells.map (current c) ∧ (s.refresh c).sketch = s.sketch) →
      Current c ({(s.id, s.node link next)} + s.bodyCells) →
      (s.refresh c).node link next = (current c (s.id, s.node link next)).2 ∧
        (s.refresh c).bodyCells = s.bodyCells.map (current c) ∧
        (s.refresh c).sketch = s.sketch := by
    intro s link next hs hcur
    obtain ⟨n, hn, hr⟩ := hcur.left _ (Multiset.mem_singleton_self _)
    have hnode : (s.refresh c).node link next = (current c (s.id, s.node link next)).2 := by
      rw [node_refresh hn hr, current, hn]
      rfl
    cases s with
    | branch id guard t e es => exact ⟨hnode, hs _ _ _ _ _ rfl hcur.right⟩
    | line id x comment off =>
      exact ⟨hnode, by rw [refresh, bodyCells, bodyCells]; rfl, sketch_refresh hn hr⟩
  apply Stmt.induct
  case line =>
    intro id x comment off id' guard t e es h
    cases h
  case branch =>
    intro id guard t e es ht he hes _ _ _ _ _ _ hcur
    rw [bodyCells_branch] at hcur
    obtain ⟨h1, h1'⟩ := ht.1 _ _ hcur.left.left
    obtain ⟨h2, h2'⟩ := he.1 _ _ hcur.left.right
    obtain ⟨h3, h3'⟩ := hes.2 _ _ hcur.right
    refine ⟨?_, by simp only [refresh, sketch, h1', h2', h3']⟩
    rw [refresh, bodyCells_branch, bodyCells_branch, h1, h2, h3, Multiset.map_add, Multiset.map_add]
  case nil =>
    exact ⟨fun _ _ _ => ⟨by simp [refreshAll], rfl⟩, fun _ _ _ => ⟨by simp [refreshAll], rfl⟩⟩
  case cons =>
    intro s rest hs hrest
    refine ⟨fun link next hcur => ?_, fun parent index hcur => ?_⟩
    · rw [cells_cons] at hcur
      obtain ⟨hnode, hinner, hsketch⟩ := stmt s link ((start? rest).or next) hs hcur.left
      obtain ⟨h1, h2⟩ := hrest.1 _ _ hcur.right
      refine ⟨?_, by simp only [refreshAll, sketchAll, hsketch, h2]⟩
      rw [refreshAll, cells_cons, cells_cons, start?_refreshAll, id_refresh, hnode, hinner, h1,
        Multiset.map_add, Multiset.map_add, Multiset.map_singleton]
      rfl
    · rw [elseIfCells] at hcur
      obtain ⟨hnode, hinner, hsketch⟩ := stmt s (.childOf parent (.elseIf index)) none hs hcur.left
      obtain ⟨h1, h2⟩ := hrest.2 _ _ hcur.right
      refine ⟨?_, by simp only [refreshAll, sketchAll, hsketch, h2]⟩
      rw [refreshAll, elseIfCells, elseIfCells, id_refresh, hnode, hinner, h1, Multiset.map_add,
        Multiset.map_add, Multiset.map_singleton]
      rfl

end Stmt

open Stmt in
/-- The tree afterwards is the tree as the store has it then. -/
theorem Code.Owns.refreshed {c : Code} {link : Link} {m : Multiset Cell} {ts : List (Stmt NodeId)}
    (h : c.Owns (cells link none ts + m)) (head : NodeId) :
    sketchAll (refreshAll (c.eliminateRedundancy head) ts) = sketchAll ts ∧
    (c.eliminateRedundancy head).Owns
      (cells link none (refreshAll (c.eliminateRedundancy head) ts)) := by
  set c' := c.eliminateRedundancy head
  have hcurrent : Current c' (cells link none ts) := fun p hp =>
    c.revises_eliminateRedundancy head p.1 p.2 (h.left.node p hp)
  obtain ⟨hcells, hsketch⟩ := ((refresh_all c').2 ts).1 link none hcurrent
  refine ⟨hsketch, ?_, ?_⟩
  · rw [hcells, Multiset.map_map]
    exact h.left.nodup
  · rw [hcells]
    intro p hp
    obtain ⟨q, hq, rfl⟩ := Multiset.mem_map.1 hp
    obtain ⟨n, hn, -⟩ := hcurrent q hq
    simp only [current, hn, Option.getD_some]

open Stmt in
/-- **Eliminating redundancy** leaves all that is not a definition as it was. -/
theorem Code.Owns.eliminateRedundancy {c : Code} {link : Link} {m : Multiset Cell}
    {ts : List (Stmt NodeId)} (hs : SolidAll ts) (hne : ts ≠ [])
    (h : c.Owns (cells link none ts + m)) (head : NodeId) :
    ∃ ts', sketchAll ts' = sketchAll ts ∧ isStructuralAll ts' = isStructuralAll ts ∧
      start ts' = start ts ∧ ts' ≠ [] ∧ SolidAll ts' ∧
      (c.eliminateRedundancy head).Owns (cells link none ts') := by
  obtain ⟨hsketch, howns⟩ := h.refreshed head
  exact ⟨_, hsketch, (isStructural_refresh_all _).2 ts, by rw [start, start, start?_refreshAll],
    refreshAll_ne_nil hne, (solid_refresh_all _).2 ts hs, howns⟩

end Rulewright
