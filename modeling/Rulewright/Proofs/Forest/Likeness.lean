import Rulewright.Proofs.Forest.Growth

/-!
# Code that reads alike

Two sequences read alike if node by node they say the same and hold bodies that read alike, whatever
the numbers of the nodes are and wherever the sequences stand. The two may be in different code. A
walk that is never cut off sees no difference between them.

* `Code.Resembles`: the sequences read alike, and no way down in them has more nodes than the bound.
* `Resembles.carry`: it is enough that what is below the two nodes stays as it is, their links
  apart.
* `WellFormed.deepCopy_resembles`: a copy reads like what it is a copy of.
* `Resembles.structurallyEqual`: structural equality finds that out.
-/

namespace Rulewright

/-- The kind without the numbers of the bodies. -/
def NodeKind.bare : NodeKind → NodeKind
  | .branch b => .branch { b with thenBody := 0, elseBody := 0, elseIfs := [] }
  | kind => kind

namespace NodeKind

theorem content_bare (kind : NodeKind) : kind.bare.content = kind.content := by
  cases kind <;> rfl

theorem sameSort_of_bare {kind kind' : NodeKind} (h : kind.bare = kind'.bare) :
    kind.sameSort kind' = true := by
  cases kind <;> cases kind' <;> first | rfl | cases h

theorem isMeaningful_bare (kind : NodeKind) : kind.bare.isMeaningful = kind.isMeaningful := by
  cases kind <;> rfl

end NodeKind

/-- The node wherever it stands. -/
def Node.unlinked (node : Node) : Node := { node with link := .root }

namespace Code

variable {c c' d : Code} {n : Nat} {a b : NodeId}

/-! ### What stays as it is -/

/-- The node reads the same in both, its link apart. -/
def SameAt (c c' : Code) (x : NodeId) : Prop :=
  (c'.node? x).map Node.unlinked = (c.node? x).map Node.unlinked

namespace SameAt

variable {x : NodeId}

/-- Every field but the link is read alike. -/
theorem field (h : SameAt c c' x) {α : Type} (get : Node → α)
    (hget : ∀ node : Node, get node.unlinked = get node) :
    (c'.node? x).map get = (c.node? x).map get := by
  have hread : ∀ o : Option Node, (o.map Node.unlinked).map get = o.map get := by
    intro o
    rw [Option.map_map]
    exact congrArg (fun f => o.map f) (funext hget)
  rw [← hread, h, hread]

theorem of_node? (h : c'.node? x = c.node? x) : SameAt c c' x :=
  congrArg (Option.map Node.unlinked) h

theorem trans (h : SameAt c c' x) (h' : SameAt c' d x) : SameAt c d x := Eq.trans h' h

theorem setLink (c : Code) (id : NodeId) (k : Link) (x : NodeId) : SameAt c (c.setLink id k) x :=
  field_modify c id (by intro _; rfl) x

theorem setNext (v : Option NodeId) {p : NodeId} (hx : x ≠ p) : SameAt c (c.setNext p v) x := by
  apply of_node?
  rw [Code.setNext, node?_modify, if_neg (Ne.symm hx)]

theorem kind (h : SameAt c c' x) : c'.kind x = c.kind x := by
  rw [kind_eq, kind_eq, h.field Node.kind fun _ => rfl]

theorem next (h : SameAt c c' x) : c'.next x = c.next x := by
  rw [next_eq, next_eq, h.field Node.next fun _ => rfl]

theorem bodies (h : SameAt c c' x) : c'.bodies x = c.bodies x := by
  rw [Code.bodies, Code.bodies, branch?, branch?, h.kind]

end SameAt

theorem Grown.sameAt (h : Grown c c') {x : NodeId} (hx : x < c.size) : SameAt c c' x :=
  .of_node? (h.node? x hx)

theorem SameAt.linkEach (c : Code) (id : NodeId) (held : List (Slot × NodeId)) (x : NodeId) :
    SameAt c (c.linkEach id held) x := by
  induction held generalizing c with
  | nil => exact .of_node? rfl
  | cons h rest ih => exact (SameAt.setLink c _ _ x).trans (ih _)

/-- A new branch changes nothing but the links of its bodies. -/
theorem SameAt.takeBodies (node : Node) (b : Branch) {x : NodeId} (hx : x ≠ c.size) :
    SameAt c (c.takeBodies node b) x := by
  have hpush : SameAt c (c.push node) x := by
    apply SameAt.of_node?
    rw [node?_push, if_neg hx]
  exact hpush.trans (SameAt.linkEach _ _ _ x)

/-! ### Sequences that read alike -/

/-- What a node says, its bodies and what follows it apart. -/
def label (c : Code) (id : NodeId) : NodeKind × Option String × Bool :=
  ((c.kind id).bare, c.comment? id, c.isCommentedOut id)

theorem label_eq (c : Code) (id : NodeId) :
    c.label id =
      ((c.node? id).map fun node => (node.kind.bare, node.comment, node.commentedOut)).getD
        (.noop, none, false) := by
  rw [label, Code.kind, comment?, isCommentedOut]
  cases c.node? id <;> rfl

@[simp] theorem label_setNext (c : Code) (p : NodeId) (v : Option NodeId) (x : NodeId) :
    (c.setNext p v).label x = c.label x := by
  rw [label_eq, label_eq, setNext, field_modify c p (by intro _; rfl)]

theorem SameAt.label {x : NodeId} (h : SameAt c c' x) : c'.label x = c.label x := by
  rw [label_eq, label_eq, h.field _ fun _ => rfl]

/-- The sequences from two nodes on read alike, and ways down in them have at most `n` nodes. -/
def Resembles (c c' : Code) : Nat → NodeId → NodeId → Prop
  | 0, _, _ => False
  | n + 1, a, b =>
    c.label a = c'.label b ∧ List.Forall₂ (Resembles c c' n) (c.bodies a) (c'.bodies b) ∧
      Option.Rel (Resembles c c' n) (c.next a) (c'.next b)

theorem forall₂_imp_of_mem {α β : Type} {R S : α → β → Prop} {xs : List α} {ys : List β}
    (h : List.Forall₂ R xs ys) (hRS : ∀ x y, y ∈ ys → R x y → S x y) : List.Forall₂ S xs ys :=
  List.forall₂_iff_zip.2
    ⟨h.length_eq, fun hmem => hRS _ _ (List.of_mem_zip hmem).2 (List.forall₂_zip h hmem)⟩

theorem optionRel_imp_of_mem {α β : Type} {R S : α → β → Prop} {o : Option α} {o' : Option β}
    (h : Option.Rel R o o') (hRS : ∀ x y, y ∈ o' → R x y → S x y) : Option.Rel S o o' := by
  cases h with
  | some h => exact .some (hRS _ _ rfl h)
  | none => exact .none

/-- What structural equality asks at one pair of nodes. -/
theorem sameFrom_succ_iff :
    c.sameFrom (n + 1) a b = true ↔
    c.sameNode a b = true ∧
      List.Forall₂ (fun x y => c.sameFrom n x y = true) (c.bodies a) (c.bodies b) ∧
      Option.Rel (fun x y => c.sameFrom n x y = true) (c.next a) (c.next b) := by
  rw [sameFrom, Bool.and_eq_true, Bool.and_eq_true, Bool.and_eq_true, and_assoc, and_assoc,
    List.forall₂_iff_zip, beq_iff_eq, and_assoc]
  refine and_congr_right fun _ => and_congr_right fun _ => and_congr ?_ ?_
  · rw [List.all_eq_true]
    exact ⟨fun h {x y} hmem => h (x, y) hmem, fun h p hmem => h hmem⟩
  · cases c.next a <;> cases c.next b <;> simp

namespace Resembles

theorem mono (h : Resembles c c' n a b) (hm : n ≤ m) : Resembles c c' m a b := by
  induction n generalizing a b m with
  | zero => exact h.elim
  | succ n ih =>
    obtain ⟨m, rfl⟩ : ∃ k, m = k + 1 := ⟨m - 1, by omega⟩
    obtain ⟨hlabel, hbodies, hnext⟩ := h
    have hle : n ≤ m := by omega
    exact ⟨hlabel, hbodies.imp fun _ _ h => ih h hle,
      optionRel_imp_of_mem hnext fun _ _ _ h => ih h hle⟩

theorem symm (h : Resembles c c' n a b) : Resembles c' c n b a := by
  induction n generalizing a b with
  | zero => exact h
  | succ n ih =>
    obtain ⟨hlabel, hbodies, hnext⟩ := h
    refine ⟨hlabel.symm, (hbodies.imp fun _ _ h => ih h).flip, ?_⟩
    generalize c.next a = o, c'.next b = o' at hnext
    cases hnext with
    | some h => exact .some (ih h)
    | none => exact .none

/-- What is below the node on the right may be read in other code that has it too. -/
theorem carry (h : Resembles c c' n a b) (hwf : c'.WellFormed)
    (hsame : ∀ x, c'.Climbs x b → SameAt c' d x) : Resembles c d n a b := by
  induction n generalizing a b with
  | zero => exact h
  | succ n ih =>
    obtain ⟨hlabel, hbodies, hnext⟩ := h
    have hb := hsame b .refl
    have hbelow : ∀ k, c'.up? k = some b → ∀ x, c'.Climbs x k → SameAt c' d x := by
      intro k hup x hx
      exact hsame x (hx.tail hup)
    refine ⟨hlabel.trans hb.label.symm, ?_, ?_⟩
    · rw [hb.bodies]
      exact forall₂_imp_of_mem hbodies fun x y hy h => ih h (hbelow y (hwf.up?_body hy))
    · rw [hb.next]
      exact optionRel_imp_of_mem hnext fun x y hy h => ih h (hbelow y (hwf.up?_next hy))

theorem carry_left (h : Resembles c c' n a b) (hwf : c.WellFormed)
    (hsame : ∀ x, c.Climbs x a → SameAt c d x) : Resembles d c' n a b :=
  (h.symm.carry hwf hsame).symm

theorem carry_grown (h : Resembles c c' n a b) (hwf : c'.WellFormed) (hb : b < c'.size)
    (hgrown : Grown c' d) : Resembles c d n a b :=
  h.carry hwf fun _ hx => hgrown.sameAt (hx.lt_size hb)

theorem sameNode (h : c.label a = c.label b) : c.sameNode a b = true := by
  obtain ⟨hkind, hcomment, hoff⟩ : _ ∧ _ ∧ _ := by simpa only [label, Prod.mk.injEq] using h
  have hcontent : c.content a = c.content b := by
    rw [content, content, ← NodeKind.content_bare, hkind, NodeKind.content_bare]
  simp [Code.sameNode, NodeKind.sameSort_of_bare hkind, hcomment, hoff, hcontent]

theorem sameFrom (h : Resembles c c n a b) : c.sameFrom n a b = true := by
  induction n generalizing a b with
  | zero => exact h.elim
  | succ n ih =>
    obtain ⟨hlabel, hbodies, hnext⟩ := h
    exact sameFrom_succ_iff.2 ⟨sameNode hlabel, hbodies.imp fun _ _ h => ih h,
      optionRel_imp_of_mem hnext fun _ _ _ h => ih h⟩

/-- **Structural equality** is true of what reads alike. -/
theorem structurallyEqual (h : Resembles c c n a b) (hn : n ≤ c.size) :
    c.structurallyEqual a b = true :=
  (h.mono (hn.trans (Nat.le_mul_self _))).sameFrom

end Resembles

/-! ### Copies read alike -/

/-- The node is in the code, and ways down from it have at most so many nodes. -/
def Within (c : Code) (n : Nat) (id : NodeId) : Prop :=
  id < c.size ∧ ∃ d, c.AtDepth id d ∧ c.size ≤ n + d

theorem Within.pos {id : NodeId} (h : c.Within n id) (hwf : c.WellFormed) : 0 < n := by
  obtain ⟨hid, d, hd, hle⟩ := h
  have := hd.lt_size hwf hid
  omega

theorem Within.below {id k : NodeId} (h : c.Within (n + 1) id) (hup : c.up? k = some id) :
    c.Within n k := by
  obtain ⟨-, d, hd, hle⟩ := h
  exact ⟨lt_size_of_below hup, d + 1, .step hup hd, by omega⟩

theorem WellFormed.within (h : c.WellFormed) {id : NodeId} (hid : id < c.size) :
    c.Within c.size id := by
  obtain ⟨d, hd⟩ := h.exists_depth id
  exact ⟨hid, d, hd, Nat.le_add_right _ _⟩

section Copy

variable {fuel : Nat} {copy : Code → NodeId → NodeId × Code}

/-- The copies of nodes of `c` read like them, whatever has been copied before. -/
def CopiesAlike (c : Code) (n : Nat) (copy : Code → NodeId → NodeId × Code) : Prop :=
  ∀ c' id, c'.WellFormed → Grown c c' → c.Within n id →
    Resembles c (copy c' id).2 n id (copy c' id).1

theorem copyEach_resembles (hcopy : CopiesTrees copy) (halike : CopiesAlike c n copy)
    (hwf : c'.WellFormed) (hgrown : Grown c c') {ids : List NodeId}
    (hids : ∀ id ∈ ids, c.Within n id) :
    List.Forall₂ (Resembles c (copyEach copy c' ids).2 n) ids (copyEach copy c' ids).1 := by
  induction ids generalizing c' with
  | nil => exact .nil
  | cons id rest ih =>
    have hhead := hcopy c' id hwf
    have hrest :=
      ih hhead.wellFormed (hgrown.trans hhead.grown) fun k hk => hids k (List.mem_cons_of_mem id hk)
    obtain ⟨-, hlater, -, -⟩ := copyEach_loose hcopy hhead.wellFormed rest
    exact .cons ((halike c' id hwf hgrown (hids id List.mem_cons_self)).carry_grown hhead.wellFormed
      hhead.lt_size hlater) hrest

/-- A root is put behind a node that has nothing behind it. -/
theorem WellFormed.setPredecessor_of_root (h : c.WellFormed) {node last : NodeId}
    (hroot : c.link node = .root) (hfree : c.next last = none) :
    c.setPredecessor node last = (c.setNext last (some node)).setLink node (.after last) := by
  have hempty : c.held (.after last) = none := by rw [held, hfree]
  rw [setPredecessor_eq (h.detach node), detach_of_root hroot, Code.place, hempty]
  rfl

/-- One node is copied: the copy says the same and holds bodies that read alike. -/
theorem copyNode_resembles (hwf₀ : c.WellFormed) (hcopy : CopiesTrees copy)
    (halike : CopiesAlike c n copy) (hwf : c'.WellFormed) (hgrown : Grown c c') {id : NodeId}
    (hid : c.Within (n + 1) id) :
    c.label id = (c'.copyNode copy id).2.label (c'.copyNode copy id).1 ∧
    List.Forall₂ (Resembles c (c'.copyNode copy id).2 n) (c.bodies id)
      ((c'.copyNode copy id).2.bodies (c'.copyNode copy id).1) := by
  obtain ⟨node, hnode⟩ := node?_lt hid.1
  have hnode' : c'.node? id = some node := (hgrown.node? id hid.1).trans hnode
  have hbranch : c.branch? id = node.kind.branch? := by rw [branch?, Code.kind, hnode]
  have hnew : ∀ x : Node, (c'.push x).node? c'.size = some x :=
    fun x => by rw [node?_push, if_pos rfl]
  unfold copyNode
  rw [hnode']
  cases hkind : node.kind with
  | branch b =>
    rcases ht : copy c' b.thenBody with ⟨t, c₁⟩
    rcases he : copy c₁ b.elseBody with ⟨e, c₂⟩
    rcases hes : copyEach copy c₂ b.elseIfs with ⟨es, c₃⟩
    have hall : copyEach copy c' b.bodies = (t :: e :: es, c₃) := by
      simp only [Branch.bodies, copyEach, ht, he, hes]
    have hb : c.bodies id = b.bodies := by rw [bodies, hbranch, hkind]; rfl
    obtain ⟨hwf₃, -, hloose, -⟩ := copyEach_loose hcopy hwf b.bodies
    have hbodies :=
      copyEach_resembles hcopy halike hwf hgrown fun k hk => hid.below (hwf₀.up?_body (hb ▸ hk))
    rw [hall] at hwf₃ hloose hbodies
    simp only [hkind, ht, he, hes]
    set b' : Branch := { b with thenBody := t, elseBody := e, elseIfs := es } with hb'
    set node' : Node :=
      { Node.fresh (.branch b') with comment := node.comment, commentedOut := node.commentedOut }
        with hnode'
    show c.label id = (c₃.takeBodies node' b').label c₃.size ∧
      List.Forall₂ (Resembles c (c₃.takeBodies node' b') n) (c.bodies id)
        ((c₃.takeBodies node' b').bodies c₃.size)
    -- taking the bodies in changes links only, which are not read
    have hsame : SameAt (c₃.push node') (c₃.takeBodies node' b') c₃.size := SameAt.linkEach _ _ _ _
    have hself : (c₃.push node').node? c₃.size = some node' := by rw [node?_push, if_pos rfl]
    refine ⟨?_, ?_⟩
    · rw [hsame.label, label_eq, label_eq, hnode, hself, Option.map_some, Option.map_some, hkind]
      rfl
    · have hheld : (c₃.push node').bodies c₃.size = t :: e :: es := by
        rw [bodies, branch?, Code.kind, hself]
        rfl
      rw [hsame.bodies, hheld, hb]
      refine forall₂_imp_of_mem hbodies fun x y hy h => h.carry hwf₃ ?_
      intro z hz
      exact SameAt.takeBodies node' b' (Nat.ne_of_lt (hz.lt_size (hloose.lt_size y hy)))
  | _ =>
    simp only [hkind]
    refine ⟨?_, ?_⟩
    · rw [label_eq, label_eq, hnode, hnew, Option.map_some, Option.map_some, hkind]
      rfl
    · have hnone : c.bodies id = [] := by rw [bodies, hbranch, hkind]; rfl
      rw [hnone, bodies, branch?, Code.kind, hnew]
      exact .nil

/-- **Copies of sequences read alike.** -/
theorem copyFrom_resembles (h : c.WellFormed) (fuel : Nat) :
    CopiesAlike c fuel (copyFrom fuel) := by
  induction fuel with
  | zero => exact fun c' id _ _ hid => absurd (hid.pos h) (Nat.lt_irrefl 0)
  | succ fuel ih =>
    intro c' id hwf hgrown hid
    obtain ⟨hlabel, hbodies⟩ := copyNode_resembles h (copyFrom_copied fuel) ih hwf hgrown hid
    obtain ⟨hhead, hend⟩ := copyNode_copied (copyFrom_copied fuel) hwf id
    rw [copyFrom]
    generalize c'.copyNode (copyFrom fuel) id = r at hlabel hbodies hhead hend
    obtain ⟨head, c₁⟩ := r
    simp only at hlabel hbodies hhead hend ⊢
    have hgrown₁ := hgrown.trans hhead.grown
    rw [hgrown₁.next hid.1]
    cases hnext : c.next id with
    | none =>
      refine ⟨hlabel, hbodies, ?_⟩
      simp only [hnext, hend]
      exact .none
    | some k =>
      have hrest := copyFrom_copied fuel c₁ k hhead.wellFormed
      have halike := ih c₁ k hhead.wellFormed hgrown₁ (hid.below (h.up?_next hnext))
      simp only
      generalize copyFrom fuel c₁ k = r' at hrest halike
      obtain ⟨rest, c₂⟩ := r'
      simp only at hrest halike ⊢
      have hlt : head < c₂.size := Nat.lt_of_lt_of_le hhead.lt_size hrest.grown.size_le
      have hset : c₂.setPredecessor rest head =
          (c₂.setNext head (some rest)).setLink rest (.after head) :=
        hrest.wellFormed.setPredecessor_of_root hrest.root
          ((hrest.grown.next hhead.lt_size).trans hend)
      -- only what follows the head changes, and nothing that the bodies or the rest read
      have hsame : ∀ {x}, x ≠ head → SameAt c₂ (c₂.setPredecessor rest head) x := fun {x} hx => by
        rw [hset]
        exact (SameAt.setNext _ hx).trans (SameAt.setLink _ _ _ x)
      have hhead₂ : c₂.link head = .root := by rw [hrest.grown.link hhead.lt_size, hhead.root]
      have hother : ∀ x, c₂.Climbs x rest → x ≠ head := by
        rintro x hx rfl
        exact Nat.ne_of_lt (Nat.lt_of_lt_of_le hhead.lt_size hrest.new) (hx.eq_of_root hhead₂).symm
      have hlater := SameAt.setLink (c₂.setNext head (some rest)) rest (.after head) head
      have hgrown₂ := hrest.grown.sameAt hhead.lt_size
      refine ⟨?_, ?_, ?_⟩
      · rw [hset, hlater.label, label_setNext, hgrown₂.label]
        exact hlabel
      · have hheld : (c₂.setPredecessor rest head).bodies head = c₁.bodies head := by
          rw [hset, hlater.bodies, bodies, branch?, kind_setNext, hgrown₂.kind]
          rfl
        rw [hheld]
        refine forall₂_imp_of_mem hbodies fun x y hy h => h.carry hhead.wellFormed ?_
        have hup := hhead.wellFormed.up?_body hy
        intro z hz
        have hne : z ≠ head := by
          rintro rfl
          exact hhead.wellFormed.not_climbs hup hz
        exact (hrest.grown.sameAt (hz.lt_size (lt_size_of_below hup))).trans (hsame hne)
      · rw [hnext, hset, hlater.next, next_setNext hlt, if_pos rfl, ← hset]
        exact .some (halike.carry hrest.wellFormed fun x hx => hsame (hother x hx))

/-- **A copy reads like what it is a copy of.** -/
theorem WellFormed.deepCopy_resembles (h : c.WellFormed) {id : NodeId} (hid : id < c.size) :
    Resembles c (c.deepCopy id).2 c.size id (c.deepCopy id).1 :=
  copyFrom_resembles h c.size c id h (.refl c) (h.within hid)

end Copy

end Code

end Rulewright
