import Rulewright.Matcher.Rule
import Rulewright.Proofs.Tree.Surgery

/-!
# Trees without placeholders

A finished matcher has no placeholders: those that are left do nothing.

* `Owns.neutralizePlaceholders`: the store owns the tree with every placeholder calmed.
* `execAll_calm`: it does what it did before.
-/

namespace Rulewright

/-- A line that does nothing in the place of a placeholder. -/
def Line.calm : Line → Line
  | .placeholder => .noop
  | x => x

namespace Stmt

variable {ι κ : Type}

mutual

/-- The statement with placeholders that are lines doing nothing. -/
def calm : Stmt ι → Stmt ι
  | .line id x comment off => .line id x.calm comment off
  | .branch id guard t e es => .branch id guard (calmAll t) (calmAll e) (calmAll es)

def calmAll : List (Stmt ι) → List (Stmt ι)
  | [] => []
  | s :: rest => s.calm :: calmAll rest

end

@[simp] theorem id_calm (s : Stmt ι) : s.calm.id = s.id := by cases s <;> rfl

@[simp] theorem start?_calmAll (ts : List (Stmt ι)) : start? (calmAll ts) = start? ts := by
  cases ts with
  | nil => rfl
  | cons s rest => simp [calmAll]

theorem map_id_calmAll (ts : List (Stmt ι)) : (calmAll ts).map Stmt.id = ts.map Stmt.id := by
  induction ts with
  | nil => rfl
  | cons s rest ih => simp [calmAll, ih]

@[simp] theorem calmAll_append (xs ys : List (Stmt ι)) :
    calmAll (xs ++ ys) = calmAll xs ++ calmAll ys := by
  induction xs with
  | nil => rfl
  | cons s rest ih => simp [calmAll, ih]

theorem calmAll_ne_nil {ts : List (Stmt ι)} (h : ts ≠ []) : calmAll ts ≠ [] := by
  cases ts with
  | nil => exact absurd rfl h
  | cons s rest => simp [calmAll]

theorem solid_calm_all :
    (∀ s : Stmt ι, s.Solid → s.calm.Solid) ∧
    ∀ ts : List (Stmt ι), SolidAll ts → SolidAll (calmAll ts) := by
  apply Stmt.induct
  case line => exact fun _ _ _ _ h => h
  case branch =>
    intro id guard t e es ht he hes h
    exact ⟨calmAll_ne_nil h.1, calmAll_ne_nil h.2.1, ht h.2.2.1, he h.2.2.2.1, hes h.2.2.2.2⟩
  case nil => exact fun h => h
  case cons => exact fun s rest hs hrest h => ⟨hs h.1, hrest h.2⟩

theorem map_calm_all (f : ι → κ) :
    (∀ s : Stmt ι, s.calm.map f = (s.map f).calm) ∧
    ∀ ts : List (Stmt ι), mapAll f (calmAll ts) = calmAll (mapAll f ts) := by
  apply Stmt.induct
  case line => exact fun _ _ _ _ => rfl
  case branch =>
    intro id guard t e es ht he hes
    simp only [calm, map, ht, he, hes]
  case nil => rfl
  case cons =>
    intro s rest hs hrest
    simp only [calmAll, mapAll, hs, hrest]

theorem exec_calm_line (x : Line) (p : Code.Progress) : x.calm.exec p = x.exec p := by
  cases x <;> rfl

variable (l : Language) (free : String → Bool)

theorem exec_calm_all :
    (∀ (s : Stmt ι) p, exec l free s.calm p = exec l free s p) ∧
    (∀ (ts : List (Stmt ι)) p, execAll l free (calmAll ts) p = execAll l free ts p) ∧
    ∀ (es : List (Stmt ι)) p, execElseIfs l free (calmAll es) p = execElseIfs l free es p := by
  apply run_induct
  case line =>
    intro id x comment off p
    simp only [calm, exec, exec_calm_line]
  case branch =>
    intro id guard t e es ht he hes p
    simp only [calm, exec, ht, he, hes]
  case nil => exact fun _ => rfl
  case cons =>
    intro s rest hs hrest p
    simp only [calmAll, execAll, hs, hrest]
  case choiceNil => exact fun _ => rfl
  case choiceLine =>
    intro id x comment off rest hrest p
    simp only [calmAll, calm, execElseIfs, hrest]
  case choiceBranch =>
    intro id guard t e es rest ht hrest p
    simp only [calmAll, calm, execElseIfs, ht, hrest]

/-- Calm code does what the code does. -/
theorem execAll_calm (ts : List (Stmt ι)) (p : Code.Progress) :
    execAll l free (calmAll ts) p = execAll l free ts p :=
  (exec_calm_all l free).2.1 ts p

end Stmt

/-! ### Placeholders in a store -/

/-- The cell with a node doing nothing in the place of a placeholder. -/
def Cell.calm (p : Cell) : Cell :=
  (p.1, if p.2.kind.isPlaceholder then { p.2 with kind := .noop } else p.2)

namespace Stmt

theorem node_calm (link : Link) (next : Option NodeId) (s : Stmt NodeId) :
    s.calm.node link next =
      if (s.node link next).kind.isPlaceholder then { s.node link next with kind := .noop }
      else s.node link next := by
  cases s with
  | line id x comment off => cases x <;> rfl
  | branch id guard t e es =>
    simp only [calm, node, start, start?_calmAll, map_id_calmAll]
    rfl

theorem cells_calm_all :
    (∀ s : Stmt NodeId, s.calm.bodyCells = s.bodyCells.map Cell.calm) ∧
    ∀ ts : List (Stmt NodeId),
      (∀ link next, cells link next (calmAll ts) = (cells link next ts).map Cell.calm) ∧
      ∀ parent index,
        elseIfCells parent index (calmAll ts) = (elseIfCells parent index ts).map Cell.calm := by
  apply Stmt.induct
  case line =>
    intro id x comment off
    simp only [calm, bodyCells, Multiset.map_zero]
  case branch =>
    intro id guard t e es ht he hes
    simp only [calm, bodyCells_branch, ht.1, he.1, hes.2, Multiset.map_add]
  case nil => exact ⟨fun _ _ => by simp [calmAll], fun _ _ => by simp [calmAll]⟩
  case cons =>
    intro s rest hs hrest
    refine ⟨fun link next => ?_, fun parent index => ?_⟩
    · simp only [calmAll, cells_cons, Multiset.map_add, hs, hrest.1, id_calm, start?_calmAll,
        Multiset.map_singleton, node_calm, Cell.calm]
    · simp only [calmAll, elseIfCells, Multiset.map_add, hs, hrest.2, id_calm,
        Multiset.map_singleton, node_calm, Cell.calm]

theorem walk_eq_cells_all :
    (∀ s : Stmt NodeId, (s.walk : Multiset NodeId) = {s.id} + s.bodyCells.map Prod.fst) ∧
    ∀ ts : List (Stmt NodeId),
      (∀ link next, (walkAll ts : Multiset NodeId) = (cells link next ts).map Prod.fst) ∧
      ∀ parent index,
        (walkAll ts : Multiset NodeId) = (elseIfCells parent index ts).map Prod.fst := by
  apply Stmt.induct
  case line =>
    intro id x comment off
    simp only [walk, bodyCells, Multiset.map_zero, add_zero]; rfl
  case branch =>
    intro id guard t e es ht he hes
    rw [walk, bodyCells_branch, Multiset.map_add, Multiset.map_add, ← ht.1, ← he.1, ← hes.2,
      ← Multiset.coe_add, ← Multiset.coe_add, ← Multiset.coe_add, id_branch]
    change _ + ({id} : Multiset NodeId) = _
    abel
  case nil => exact ⟨fun _ _ => by simp [walkAll], fun _ _ => by simp [walkAll]⟩
  case cons =>
    intro s rest hs hrest
    refine ⟨fun link next => ?_, fun parent index => ?_⟩
    · rw [walkAll, ← Multiset.coe_add, hs, cells_cons, Multiset.map_add, Multiset.map_add,
        ← hrest.1, Multiset.map_singleton]
    · rw [walkAll, ← Multiset.coe_add, hs, elseIfCells, Multiset.map_add, Multiset.map_add,
        ← hrest.2, Multiset.map_singleton]

/-- The nodes of a walk are those of the cells. -/
theorem mem_walkAll (link : Link) (next : Option NodeId) {ts : List (Stmt NodeId)} {id : NodeId} :
    id ∈ walkAll ts ↔ ∃ p ∈ cells link next ts, p.1 = id := by
  rw [← Multiset.mem_coe, (walk_eq_cells_all.2 ts).1 link next, Multiset.mem_map]

end Stmt

namespace Code

open Stmt

theorem node?_foldl_neutralize (ids : List NodeId) (c : Code) (id : NodeId) :
    (ids.foldl Code.neutralize c).node? id =
      if id ∈ ids then (c.node? id).map fun n => { n with kind := .noop } else c.node? id := by
  induction ids generalizing c with
  | nil => simp
  | cons k rest ih =>
    rw [List.foldl_cons, ih, Code.neutralize, Code.setKind, node?_modify]
    by_cases hk : k = id
    · subst hk
      by_cases hr : k ∈ rest <;> simp [hr]
      cases c.node? k <;> rfl
    · have hk' : id ≠ k := fun h => hk h.symm
      simp [hk, hk']

/-- **Placeholders that are left** do nothing. -/
theorem Owns.neutralizePlaceholders {c : Code} {m : Multiset Cell} {link : Link}
    {ts : List (Stmt NodeId)} (hs : SolidAll ts) (hne : ts ≠ [])
    (h : c.Owns (cells link none ts + m)) :
    (Matcher.neutralizePlaceholders c (start ts)).Owns (cells link none (calmAll ts) + m) := by
  rw [Matcher.neutralizePlaceholders, h.descendants_eq hs hne, (cells_calm_all.2 ts).1]
  refine ⟨?_, ?_⟩
  · have : Prod.fst ∘ Cell.calm = Prod.fst := rfl
    rw [Multiset.map_add, Multiset.map_map, this, ← Multiset.map_add]
    exact h.nodup
  · intro p hp
    rw [node?_foldl_neutralize]
    rcases Multiset.mem_add.1 hp with hp | hp
    · obtain ⟨q, hq, rfl⟩ := Multiset.mem_map.1 hp
      have hnode := h.node q (Multiset.mem_add.2 (Or.inl hq))
      have hwalk : q.1 ∈ walkAll ts := (mem_walkAll link none).2 ⟨q, hq, rfl⟩
      have hkind : c.kind q.1 = q.2.kind := Owns.kind_of hnode
      have hmem : (Cell.calm q).1 ∈ (walkAll ts).filter (fun id => (c.kind id).isPlaceholder) ↔
          q.2.kind.isPlaceholder = true := by
        rw [List.mem_filter, Cell.calm, hkind]; exact and_iff_right hwalk
      rw [Cell.calm] at hmem ⊢
      simp only [hmem, hnode, Option.map_some]
      split_ifs <;> rfl
    -- the walk does not meet what is owned beside the sequence
    · have hnode := h.node p (Multiset.mem_add.2 (Or.inr hp))
      have hnot : p.1 ∉ walkAll ts := by
        intro hw
        obtain ⟨q, hq, he⟩ := (mem_walkAll link none).1 hw
        have hd := h.nodup
        rw [Multiset.map_add] at hd
        exact Multiset.disjoint_left.1 (Multiset.nodup_add.1 hd).2.2
          (Multiset.mem_map.2 ⟨q, hq, he⟩) (Multiset.mem_map.2 ⟨p, hp, rfl⟩)
      rw [if_neg fun hm => hnot (List.mem_filter.1 hm).1, hnode]

end Code

end Rulewright
