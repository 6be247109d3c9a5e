import Rulewright.Proofs.Forest.Basic

/-!
# What the single changes of code do

Code changes in few ways: a node is added, or one of its fields is set. Here stands what a reader
sees after each of them, in terms of links and of what places hold.

* `Code.put`: set both ends of a reference. What stood at the place is not told.
* `link_put`, `held_put`: nothing else changes.
* `setLink_comm`, `setNext_setLink`, `push_setLink`: a link that nothing else reads may be set
  before or after.
-/

namespace Rulewright

theorem Branch.slot?_setSlot (b : Branch) {slot : Slot} {old : NodeId} (h : b.slot? slot = some old)
    (n : NodeId) (t : Slot) :
    (b.setSlot slot n).slot? t = if t = slot then some n else b.slot? t := by
  cases slot with
  | thenBody => cases t <;> simp [Branch.setSlot, Branch.slot?]
  | elseBody => cases t <;> simp [Branch.setSlot, Branch.slot?]
  | elseIf index =>
    have hlt : index < b.elseIfs.length := (List.getElem?_eq_some_iff.1 h).1
    cases t with
    | thenBody => simp [Branch.setSlot, Branch.slot?]
    | elseBody => simp [Branch.setSlot, Branch.slot?]
    | elseIf i =>
      simp only [Branch.setSlot, Branch.slot?, List.getElem?_set, Slot.elseIf.injEq]
      grind

namespace Code

variable {c : Code} {n p : NodeId} {k : Link}

/-! ### One field -/

/-- Code is the nodes that it has. -/
theorem ext_node? {c c' : Code} (h : ∀ x, c.node? x = c'.node? x) : c = c' := by
  obtain ⟨nodes⟩ := c
  obtain ⟨nodes'⟩ := c'
  exact congrArg Code.mk (Array.ext_getElem? h)

theorem node?_lt (hn : n < c.size) : ∃ node, c.node? n = some node :=
  ⟨c.nodes[n], Array.getElem?_eq_getElem hn⟩

theorem link_of_le (h : c.size ≤ n) : c.link n = .root := by
  rw [link, node?, Array.getElem?_eq_none h]

theorem link_eq (c : Code) (x : NodeId) : c.link x = ((c.node? x).map Node.link).getD .root := by
  unfold link
  cases c.node? x <;> rfl

theorem next_eq (c : Code) (x : NodeId) : c.next x = ((c.node? x).map Node.next).getD none := by
  unfold next
  cases c.node? x <;> rfl

theorem kind_eq (c : Code) (x : NodeId) : c.kind x = ((c.node? x).map Node.kind).getD .noop := by
  unfold kind
  cases c.node? x <;> rfl

section Field

variable {α : Type} {get : Node → α} {f : Node → Node}

/-- A field that a change does not touch. -/
theorem field_modify (c : Code) (id : NodeId) (hf : ∀ node, get (f node) = get node) (x : NodeId) :
    ((c.modify id f).node? x).map get = (c.node? x).map get := by
  rw [node?_modify]
  split_ifs
  · rw [Option.map_map]
    exact congrArg (fun g => Option.map g (c.node? x)) (funext hf)
  · rfl

/-- The field that a change sets. -/
theorem field_modify_set {v : α} (hn : n < c.size) (hf : ∀ node, get (f node) = v) (d : α)
    (x : NodeId) :
    (((c.modify n f).node? x).map get).getD d =
      if x = n then v else ((c.node? x).map get).getD d := by
  obtain ⟨node, hnode⟩ := node?_lt hn
  rw [node?_modify]
  by_cases hx : x = n
  · rw [if_pos hx.symm, if_pos hx, hx, hnode]
    exact hf node
  · rw [if_neg (Ne.symm hx), if_neg hx]

end Field

theorem link_modify (c : Code) (id : NodeId) {f : Node → Node}
    (hf : ∀ node, (f node).link = node.link) (x : NodeId) : (c.modify id f).link x = c.link x := by
  rw [link_eq, link_eq, field_modify c id hf]

theorem next_modify (c : Code) (id : NodeId) {f : Node → Node}
    (hf : ∀ node, (f node).next = node.next) (x : NodeId) : (c.modify id f).next x = c.next x := by
  rw [next_eq, next_eq, field_modify c id hf]

theorem kind_modify (c : Code) (id : NodeId) {f : Node → Node}
    (hf : ∀ node, (f node).kind = node.kind) (x : NodeId) : (c.modify id f).kind x = c.kind x := by
  rw [kind_eq, kind_eq, field_modify c id hf]

theorem slot?_congr {c c' : Code} (h : c'.kind p = c.kind p) (slot : Slot) :
    c'.slot? p slot = c.slot? p slot := by
  rw [slot?, slot?, branch?, branch?, h]

/-- What places hold is told by next nodes and kinds. -/
theorem held_congr {c c' : Code} (hnext : ∀ x, c'.next x = c.next x)
    (hslot : ∀ x slot, c'.slot? x slot = c.slot? x slot) (j : Link) : c'.held j = c.held j := by
  cases j with
  | root => rfl
  | after p => exact hnext p
  | childOf p slot => exact hslot p slot

@[simp] theorem size_setLink (c : Code) (n : NodeId) (k : Link) :
    (c.setLink n k).size = c.size := size_modify c n _

@[simp] theorem size_setNext (c : Code) (p : NodeId) (v : Option NodeId) :
    (c.setNext p v).size = c.size := size_modify c p _

@[simp] theorem size_setKind (c : Code) (p : NodeId) (kind : NodeKind) :
    (c.setKind p kind).size = c.size := size_modify c p _

theorem link_setLink (hn : n < c.size) (k : Link) (x : NodeId) :
    (c.setLink n k).link x = if x = n then k else c.link x := by
  rw [link_eq, link_eq]
  exact field_modify_set hn (by intro _; rfl) _ x

@[simp] theorem next_setLink (c : Code) (n : NodeId) (k : Link) (x : NodeId) :
    (c.setLink n k).next x = c.next x :=
  next_modify c n (by intro _; rfl) x

@[simp] theorem kind_setLink (c : Code) (n : NodeId) (k : Link) (x : NodeId) :
    (c.setLink n k).kind x = c.kind x :=
  kind_modify c n (by intro _; rfl) x

@[simp] theorem held_setLink (c : Code) (n : NodeId) (k j : Link) :
    (c.setLink n k).held j = c.held j :=
  held_congr (next_setLink c n k) (fun _ => slot?_congr (kind_setLink c n k _)) j

@[simp] theorem link_setNext (c : Code) (p : NodeId) (v : Option NodeId) (x : NodeId) :
    (c.setNext p v).link x = c.link x :=
  link_modify c p (by intro _; rfl) x

@[simp] theorem kind_setNext (c : Code) (p : NodeId) (v : Option NodeId) (x : NodeId) :
    (c.setNext p v).kind x = c.kind x :=
  kind_modify c p (by intro _; rfl) x

theorem next_setNext (hp : p < c.size) (v : Option NodeId) (x : NodeId) :
    (c.setNext p v).next x = if x = p then v else c.next x := by
  rw [next_eq, next_eq]
  exact field_modify_set hp (by intro _; rfl) _ x

theorem held_setNext (hp : p < c.size) (v : Option NodeId) (j : Link) :
    (c.setNext p v).held j = if j = .after p then v else c.held j := by
  cases j with
  | root => rfl
  | after q =>
    simp only [held, Link.after.injEq]
    exact next_setNext hp v q
  | childOf q slot =>
    rw [if_neg (by simp)]
    exact slot?_congr (kind_setNext c p v q) slot

@[simp] theorem link_setKind (c : Code) (p : NodeId) (kind : NodeKind) (x : NodeId) :
    (c.setKind p kind).link x = c.link x :=
  link_modify c p (by intro _; rfl) x

@[simp] theorem next_setKind (c : Code) (p : NodeId) (kind : NodeKind) (x : NodeId) :
    (c.setKind p kind).next x = c.next x :=
  next_modify c p (by intro _; rfl) x

theorem kind_setKind (hp : p < c.size) (kind : NodeKind) (x : NodeId) :
    (c.setKind p kind).kind x = if x = p then kind else c.kind x := by
  rw [kind_eq, kind_eq]
  exact field_modify_set hp (by intro _; rfl) _ x

theorem lt_size_of_branch? {b : Branch} (h : c.branch? p = some b) : p < c.size := by
  by_contra hp
  have hkind : c.kind p = .noop := by rw [kind, node?, Array.getElem?_eq_none (Nat.le_of_not_lt hp)]
  rw [branch?, hkind] at h
  cases h

theorem slot?_eq {b : Branch} (h : c.branch? p = some b) (slot : Slot) :
    c.slot? p slot = b.slot? slot := by
  rw [slot?, h]
  rfl

/-- A branch is set to another one that differs from it in one slot. -/
theorem held_setKind {b b' : Branch} {slot : Slot} (hb : c.branch? p = some b)
    (hslot : ∀ t, b'.slot? t = if t = slot then some n else b.slot? t) (j : Link) :
    (c.setKind p (.branch b')).held j = if j = .childOf p slot then some n else c.held j := by
  have hkind := kind_setKind (lt_size_of_branch? hb) (.branch b')
  cases j with
  | root => rfl
  | after q => exact next_setKind c p _ q
  | childOf q t =>
    simp only [held, Link.childOf.injEq]
    by_cases hq : q = p
    · have hb' : (c.setKind p (.branch b')).branch? p = some b' := by
        rw [branch?, hkind, if_pos rfl]
        rfl
      rw [hq, slot?_eq hb', slot?_eq hb, hslot]
      simp
    · rw [if_neg (fun h => hq h.1)]
      apply slot?_congr
      rw [hkind, if_neg hq]

/-! ### New nodes -/

theorem link_push (c : Code) {node : Node} (hnode : node.link = .root) (x : NodeId) :
    (c.push node).link x = c.link x := by
  rw [link_eq, node?_push]
  by_cases hx : x = c.size
  · rw [if_pos hx, link_of_le (Nat.le_of_eq hx.symm)]
    exact hnode
  · rw [if_neg hx, ← link_eq]

theorem next_push (c : Code) {node : Node} (hnode : node.next = none) (x : NodeId) :
    (c.push node).next x = c.next x := by
  rw [next_eq, node?_push]
  by_cases hx : x = c.size
  · rw [if_pos hx, next_of_le (Nat.le_of_eq hx.symm)]
    exact hnode
  · rw [if_neg hx, ← next_eq]

theorem kind_push (c : Code) (node : Node) (x : NodeId) :
    (c.push node).kind x = if x = c.size then node.kind else c.kind x := by
  rw [kind_eq, node?_push]
  split_ifs
  · rfl
  · rw [← kind_eq]

/-- A new node that is not a branch holds nothing. -/
theorem held_push {node : Node} (hnext : node.next = none) (hkind : node.kind.branch? = none)
    (j : Link) : (c.push node).held j = c.held j := by
  refine held_congr (c.next_push hnext) ?_ j
  intro x slot
  by_cases hx : x = c.size
  · rw [slot?_of_le (Nat.le_of_eq hx.symm), slot?, branch?, kind_push, if_pos hx, hkind]
    rfl
  · apply slot?_congr
    rw [kind_push, if_neg hx]

/-! ### Both ends of a reference -/

/-- There is such a place. -/
def HasPlace (c : Code) : Link → Prop
  | .root => False
  | .after p => p < c.size
  | .childOf p slot => (c.slot? p slot).isSome

/-- Set what a place holds, and the link of that node. -/
def put (c : Code) (n : NodeId) : Link → Code
  | .root => c
  | .after p => (c.setNext p (some n)).setLink n (.after p)
  | .childOf p slot => c.fillSlot p slot n

theorem fillSlot_eq {b : Branch} {slot : Slot} {old : NodeId} (hb : c.branch? p = some b)
    (hold : b.slot? slot = some old) (n : NodeId) :
    c.fillSlot p slot n =
      (c.setKind p (.branch (b.setSlot slot n))).setLink n (.childOf p slot) := by
  rw [branch?] at hb
  unfold fillSlot
  cases hkind : c.kind p with
  | branch b' =>
    rw [hkind] at hb
    obtain rfl : b' = b := Option.some.inj hb
    simp only [hold]
  | _ =>
    rw [hkind] at hb
    cases hb

theorem exists_branch {slot : Slot} (h : (c.slot? p slot).isSome) :
    ∃ b old, c.branch? p = some b ∧ b.slot? slot = some old := by
  obtain ⟨old, hold⟩ := Option.isSome_iff_exists.1 h
  rw [slot?, Option.bind_eq_some_iff] at hold
  obtain ⟨b, hb, hslot⟩ := hold
  exact ⟨b, old, hb, hslot⟩

theorem size_put (c : Code) (n : NodeId) (k : Link) : (c.put n k).size = c.size := by
  cases k with
  | root => rfl
  | after p => simp [put]
  | childOf p slot =>
    rw [put, fillSlot]
    split
    · split <;> simp
    · rfl

theorem link_put (hk : c.HasPlace k) (hn : n < c.size) (x : NodeId) :
    (c.put n k).link x = if x = n then k else c.link x := by
  cases k with
  | root => cases hk
  | after p =>
    rw [put, link_setLink (by simpa using hn), link_setNext]
  | childOf p slot =>
    obtain ⟨b, old, hb, hold⟩ := exists_branch hk
    rw [put, fillSlot_eq hb hold, link_setLink (by simpa using hn), link_setKind]

theorem held_put (hk : c.HasPlace k) (n : NodeId) (j : Link) :
    (c.put n k).held j = if j = k then some n else c.held j := by
  cases k with
  | root => cases hk
  | after p => rw [put, held_setLink, held_setNext hk]
  | childOf p slot =>
    obtain ⟨b, old, hb, hold⟩ := exists_branch hk
    rw [put, fillSlot_eq hb hold, held_setLink, held_setKind hb (b.slot?_setSlot hold n)]

/-! ### A link set at another time -/

variable {s : NodeId}

theorem setLink_self (h : c.link n = k) : c.setLink n k = c := by
  apply ext_node?
  intro x
  rw [setLink, node?_modify]
  split_ifs with hx
  · subst hx
    cases hnode : c.node? n with
    | none => rfl
    | some node =>
      rw [link, hnode] at h
      rw [← h]
      rfl
  · rfl

theorem modify_comm (c : Code) (a b : NodeId) {f g : Node → Node}
    (hfg : a = b → ∀ node, f (g node) = g (f node)) :
    (c.modify a f).modify b g = (c.modify b g).modify a f := by
  apply ext_node?
  intro x
  simp only [node?_modify]
  split_ifs with hb ha
  · cases c.node? x with
    | none => rfl
    | some node => exact congrArg some (hfg (ha.trans hb.symm) node).symm
  all_goals rfl

theorem setLink_comm (hs : s ≠ n) (k k' : Link) :
    (c.setLink s k).setLink n k' = (c.setLink n k').setLink s k :=
  modify_comm c s n fun h => absurd h hs

theorem setNext_setLink (c : Code) (s p : NodeId) (k : Link) (v : Option NodeId) :
    (c.setLink s k).setNext p v = (c.setNext p v).setLink s k :=
  modify_comm c s p fun _ _ => rfl

theorem setKind_setLink (c : Code) (s p : NodeId) (k : Link) (kind : NodeKind) :
    (c.setLink s k).setKind p kind = (c.setKind p kind).setLink s k :=
  modify_comm c s p fun _ _ => rfl

theorem push_setLink (hs : s < c.size) (k : Link) (node : Node) :
    (c.setLink s k).push node = (c.push node).setLink s k := by
  apply ext_node?
  intro x
  rw [setLink, setLink, node?_push, node?_modify, node?_modify, node?_push, size_modify]
  by_cases hx : x = c.size
  · have hsx : s ≠ x := fun h => Nat.ne_of_lt hs (h.trans hx)
    rw [if_pos hx, if_neg hsx, if_pos hx]
  · rw [if_neg hx, if_neg hx]

theorem fillSlot_setLink (hs : s ≠ n) (k : Link) (slot : Slot) :
    (c.setLink s k).fillSlot p slot n = (c.fillSlot p slot n).setLink s k := by
  unfold fillSlot
  rw [kind_setLink]
  split
  · split
    · rw [setKind_setLink, setLink_comm hs]
    · rfl
  · rfl

end Code

end Rulewright
