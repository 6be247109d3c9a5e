import Rulewright.Proofs.Forest.Merge
import Rulewright.Proofs.Tree.Text

/-!
# Copies are faithful and separate

A copy reads like what it is a copy of, so it has the same text and does the same on every term, and
it has no node in common with what was there. Structural equality asks for less: it compares texts,
and two guards or two definitions that do different things may have one text. So it says nothing
about runs, but it does say that the sequences have one text.

* `Resembles.run`: code that reads alike runs alike.
* `Code.worded`: the code with every node reduced to its text. It has the text of the code
  (`render_worded`), and what is structurally equal reads alike there (`resembles_worded`).
* `copies_are_faithful`: all of it.
-/

namespace Rulewright

namespace Code

variable {c c' : Code} {n m m' : Nat} {a b : NodeId}

/-! ### Runs -/

namespace Resembles

section Run

variable {l : Language} {free : String → Bool}

/-- The first `else if` that holds is the same one. -/
theorem find?_elseIfs {es es' : List NodeId} (hes : List.Forall₂ (Resembles c c' n) es es')
    (holds : Guard → Bool) :
    Option.Rel (fun x y : Branch => Resembles c c' n x.thenBody y.thenBody)
      ((es.filterMap c.branch?).find? fun x => holds x.guard)
      ((es'.filterMap c'.branch?).find? fun y => holds y.guard) := by
  induction hes with
  | nil => exact .none
  | @cons x y es es' hxy _ ih =>
    obtain ⟨n, rfl⟩ : ∃ k, n = k + 1 := ⟨n - 1, by have := hxy.pos; omega⟩
    have hkinds := hxy.kinds
    rw [List.filterMap_cons, List.filterMap_cons, branch?, branch?]
    generalize c.kind x = kind, c'.kind y = kind' at hkinds
    cases hkinds with
    | line hline => rwa [hline]
    | @branch guard t e t' e' es es' ht _ _ =>
      simp only [NodeKind.branch?, List.find?_cons]
      cases holds guard with
      | true => exact .some (ht.mono (Nat.le_succ n))
      | false => exact ih

/-- Branches on one guard choose bodies that read alike. -/
theorem choose {guard : Guard} {t e t' e' : NodeId} {es es' : List NodeId}
    (ht : Resembles c c' n t t') (he : Resembles c c' n e e')
    (hes : List.Forall₂ (Resembles c c' n) es es') (bindings : Bindings) :
    Resembles c c' n (c.choose l free bindings ⟨guard, t, e, es⟩)
      (c'.choose l free bindings ⟨guard, t', e', es'⟩) := by
  have hfind := find?_elseIfs hes fun guard => guard.holds l free bindings
  simp only [Code.choose]
  cases guard.holds l free bindings with
  | true => exact ht
  | false =>
    generalize (es.filterMap c.branch?).find? _ = o, (es'.filterMap c'.branch?).find? _ = o'
      at hfind
    cases hfind with
    | some hxy => exact hxy
    | none => exact he

/-- One node does the same, given that its bodies do. -/
theorem runNode (h : Resembles c c' (n + 1) a b)
    {run run' : NodeId → Progress → Option Bool × Progress}
    (hrun : ∀ x y, Resembles c c' n x y → run x = run' y) (p : Progress) :
    Owns.runNode c l free run a p = Owns.runNode c' l free run' b p := by
  have hoff : c.isCommentedOut a = c'.isCommentedOut b := congrArg (fun label => label.2.2) h.label
  have hkinds := h.kinds
  rw [Owns.runNode, Owns.runNode, hoff]
  generalize c.kind a = kind, c'.kind b = kind' at hkinds
  cases hkinds with
  | line hline => cases kind <;> first | rfl | cases hline
  | branch ht he hes => simp only [hrun _ _ (ht.choose he hes p.bindings)]

theorem runFrom (h : Resembles c c' n a b) (hm : n ≤ m) (hm' : n ≤ m') :
    c.runFrom l free m a = c'.runFrom l free m' b := by
  induction n generalizing a b m m' with
  | zero => exact h.elim
  | succ n ih =>
    obtain ⟨m, rfl⟩ : ∃ k, m = k + 1 := ⟨m - 1, by omega⟩
    obtain ⟨m', rfl⟩ : ∃ k, m' = k + 1 := ⟨m' - 1, by omega⟩
    have hbelow : ∀ x y, Resembles c c' n x y → c.runFrom l free m x = c'.runFrom l free m' y :=
      fun x y hxy => ih hxy (by omega) (by omega)
    funext p
    have hnext := h.2.2
    rw [Owns.runFrom_succ, Owns.runFrom_succ, h.runNode hbelow p]
    rcases Owns.runNode c' l free (c'.runFrom l free m') b p with ⟨_ | value, q⟩
    · generalize c.next a = o, c'.next b = o' at hnext
      cases hnext with
      | some hxy => exact congrFun (hbelow _ _ hxy) q
      | none => rfl
    · rfl

/-- **Code that reads alike runs alike.** -/
theorem run (h : Resembles c c' n a b) (hc : n ≤ c.size) (hc' : n ≤ c'.size) (candidate : Expr) :
    c.run l free a candidate = c'.run l free b candidate := by
  simp only [Code.run,
    h.runFrom (hc.trans (Owns.size_le_stateBound c candidate))
      (hc'.trans (Owns.size_le_stateBound c' candidate))]

end Run

end Resembles

/-! ### Structural equality -/

/-- In well-formed code no comparison looks further than the ways down from one of the nodes. -/
theorem WellFormed.sameFrom_within (h : c.WellFormed) (hid : c.Within n b)
    (hsame : c.sameFrom m a b = true) : c.sameFrom n a b = true := by
  induction n generalizing a b m with
  | zero => exact absurd (hid.pos h) (Nat.lt_irrefl 0)
  | succ n ih =>
    cases m with
    | zero => cases hsame
    | succ m =>
      obtain ⟨hnode, hbodies, hnext⟩ := sameFrom_succ_iff.1 hsame
      exact sameFrom_succ_iff.2 ⟨hnode,
        forall₂_imp_of_mem hbodies fun _ y hy hxy => ih (hid.below (h.up?_body hy)) hxy,
        optionRel_imp_of_mem hnext fun _ y hy hxy => ih (hid.below (h.up?_next hy)) hxy⟩

end Code

/-! ### Code as it is written -/

/-- The kind with nothing left but its text. -/
def NodeKind.worded : NodeKind → NodeKind
  | .branch b => .branch { b with guard := .free b.guard.text }
  | .noop => .noop
  | .placeholder => .placeholder
  | kind => .custom kind.content

namespace NodeKind

theorem isMeaningful_worded (kind : NodeKind) : kind.worded.isMeaningful = kind.isMeaningful := by
  cases kind <;> rfl

/-- Kinds of one sort with one text differ in nothing else that is written. -/
theorem bare_worded_eq {kind kind' : NodeKind} (hsort : kind.sameSort kind' = true)
    (hcontent : kind.content = kind'.content) : kind.worded.bare = kind'.worded.bare := by
  cases kind with
  | branch b =>
    cases kind' with
    | branch b' => exact congrArg (fun text => NodeKind.branch ⟨.free text, 0, 0, []⟩) hcontent
    | _ => cases hsort
  | noop =>
    cases kind' with
    | noop => rfl
    | _ => cases hsort
  | placeholder =>
    cases kind' with
    | placeholder => rfl
    | _ => cases hsort
  | _ =>
    cases kind' <;> cases hsort
    exact congrArg NodeKind.custom hcontent

end NodeKind

namespace Code

variable {c : Code} {n m : Nat} {a b : NodeId}

/-- The code with every node reduced to its text. -/
def worded (c : Code) : Code := ⟨c.nodes.map fun node => { node with kind := node.kind.worded }⟩

theorem node?_worded (c : Code) (id : NodeId) :
    c.worded.node? id = (c.node? id).map fun node => { node with kind := node.kind.worded } := by
  rw [node?, worded, Array.getElem?_map, node?]

@[simp] theorem size_worded (c : Code) : c.worded.size = c.size := Array.size_map

@[simp] theorem kind_worded (c : Code) (id : NodeId) : c.worded.kind id = (c.kind id).worded := by
  rw [kind, node?_worded, kind]
  cases c.node? id <;> rfl

@[simp] theorem next_worded (c : Code) (id : NodeId) : c.worded.next id = c.next id := by
  rw [next, node?_worded, next]
  cases c.node? id <;> rfl

@[simp] theorem comment?_worded (c : Code) (id : NodeId) :
    c.worded.comment? id = c.comment? id := by
  rw [comment?, node?_worded, comment?]
  cases c.node? id <;> rfl

@[simp] theorem isCommentedOut_worded (c : Code) (id : NodeId) :
    c.worded.isCommentedOut id = c.isCommentedOut id := by
  rw [isCommentedOut, node?_worded, isCommentedOut]
  cases c.node? id <;> rfl

@[simp] theorem branch?_worded (c : Code) (id : NodeId) :
    c.worded.branch? id = (c.branch? id).map fun b => { b with guard := .free b.guard.text } := by
  rw [branch?, kind_worded, branch?]
  cases c.kind id <;> rfl

@[simp] theorem bodies_worded (c : Code) (id : NodeId) : c.worded.bodies id = c.bodies id := by
  rw [bodies, branch?_worded, bodies]
  cases c.branch? id <;> rfl

theorem isBlank_worded (c : Code) (id : NodeId) : c.worded.isBlank id = c.isBlank id := by
  have hchain : c.worded.chain id = c.chain id := by
    rw [chain, size_worded]
    exact chainFrom_congr c.next_worded _ _
  simp only [isBlank, nextMeaningful?, hchain, kind_worded, NodeKind.isMeaningful_worded]

theorem elseIfText_worded (c : Code) (root : String) (depth : Nat) (body : NodeId → String)
    (id : NodeId) : c.worded.elseIfText root depth body id = c.elseIfText root depth body id := by
  rw [elseIfText, branch?_worded, elseIfText]
  cases c.branch? id <;> rfl

theorem nodeText_worded (c : Code) (root : String) (depth : Nat) (body : NodeId → String)
    (id : NodeId) : c.worded.nodeText root depth body id = c.nodeText root depth body id := by
  rw [nodeText, nodeText, kind_worded, comment?_worded, isCommentedOut_worded]
  cases c.kind id with
  | branch b =>
    simp only [NodeKind.worded, lineText, NodeKind.content, Guard.text, elseIfText_worded,
      isBlank_worded]
  | _ => rfl

/-- **Only words are written.** -/
theorem render_worded (c : Code) (id : NodeId) (depth : Nat) (root : String) :
    c.worded.render id depth root = c.render id depth root := by
  have hfrom : ∀ fuel depth id,
      c.worded.renderFrom root fuel depth id = c.renderFrom root fuel depth id := by
    intro fuel
    induction fuel with
    | zero => exact fun _ _ => rfl
    | succ fuel ih =>
      intro depth id
      rw [renderFrom_succ, renderFrom_succ, funext (ih (depth + 1)), funext (ih depth),
        nodeText_worded, next_worded]
  rw [render, render, size_worded, hfrom]

/-- Structural equality is likeness of the words. -/
theorem resembles_worded (h : c.sameFrom n a b = true) : Resembles c.worded c.worded n a b := by
  induction n generalizing a b with
  | zero => cases h
  | succ n ih =>
    obtain ⟨hnode, hbodies, hnext⟩ := sameFrom_succ_iff.1 h
    simp only [sameNode, Bool.and_eq_true, beq_iff_eq] at hnode
    obtain ⟨⟨⟨hsort, hcomment⟩, hoff⟩, hcontent⟩ := hnode
    refine ⟨?_, ?_, ?_⟩
    · simp only [label, kind_worded, comment?_worded, isCommentedOut_worded,
        NodeKind.bare_worded_eq hsort hcontent, hcomment, hoff]
    · rw [bodies_worded, bodies_worded]
      exact hbodies.imp fun _ _ h => ih h
    · rw [next_worded, next_worded]
      exact optionRel_imp_of_mem hnext fun _ _ _ h => ih h

/-- **What is structurally equal has one text.** -/
theorem WellFormed.render_eq_of_structurallyEqual (h : c.WellFormed) (hb : b < c.size)
    (hequal : c.structurallyEqual a b = true) (depth : Nat) (root : String) :
    c.render a depth root = c.render b depth root := by
  have hsame := resembles_worded (h.sameFrom_within (h.within hb) hequal)
  have hle : c.size ≤ c.worded.size := by rw [size_worded]
  rw [← render_worded, hsame.render hle hle, render_worded]

/-! ### Copies -/

/-- The second code is the first one with a new sequence from `copy` on, which has no node in common
with what was there. Both this sequence and the one from `id` on now have the text and do the things
that the latter had and did before. -/
structure IsFaithfulCopy (c : Code) (id : NodeId) (c' : Code) (copy : NodeId) : Prop where
  unchanged : ∀ x, x < c.size → c'.node? x = c.node? x
  wellFormed : c'.WellFormed
  root : c'.link copy = .root
  new : ∀ x, c'.Reaches copy x → c.size ≤ x
  equal : c'.structurallyEqual id copy = true
  render : ∀ depth root, c'.render copy depth root = c.render id depth root ∧
      c'.render id depth root = c.render id depth root
  run : ∀ l free candidate, c'.run l free copy candidate = c.run l free id candidate ∧
      c'.run l free id candidate = c.run l free id candidate

/-- **Copies are faithful and separate**, and what structural equality finds to be the same code has
one text. -/
theorem copies_are_faithful (h : c.WellFormed) :
    (∀ id, id < c.size → IsFaithfulCopy c id (c.deepCopy id).2 (c.deepCopy id).1) ∧
    ∀ a b, a < c.size → b < c.size → c.structurallyEqual a b = true →
      ∀ depth root, c.render a depth root = c.render b depth root := by
  refine ⟨fun id hid => ?_, fun a b _ hb hequal => h.render_eq_of_structurallyEqual hb hequal⟩
  have hcopied := h.deepCopy id
  have halike := h.deepCopy_resembles hid
  have hle := hcopied.grown.size_le
  -- in the code that has both, the original is as it was
  have hboth := halike.carry_left h fun x hx => hcopied.grown.sameAt (hx.lt_size hid)
  refine ⟨hcopied.grown.node?, hcopied.wellFormed, hcopied.root, ?_, hboth.structurallyEqual hle,
    ?_, ?_⟩
  · intro x hx
    exact h.new_of_climbs (fun y hy => hcopied.grown.link hy) (hcopied.wellFormed.reaches_iff.1 hx)
      hcopied.new
  · intro depth root
    have hcopy := (halike.render le_rfl hle depth root).symm
    exact ⟨hcopy, (hboth.render hle hle depth root).trans hcopy⟩
  · intro l free candidate
    have hcopy : _ = c.run l free id candidate := (halike.run le_rfl hle candidate).symm
    exact ⟨hcopy, (hboth.run hle hle candidate).trans hcopy⟩

/-- The copy of a branch with an `else if`, with what follows it. Some nodes of it have comments,
some are comments only. -/
theorem busyHistory_copied :
    ∃ c, Code.empty.performAll busyHistory = .ok c ∧ c.WellFormed ∧ 4 < c.size ∧
      (c.deepCopy 4).1 = 29 ∧ IsFaithfulCopy c 4 (c.deepCopy 4).2 29 ∧
      ∀ depth root,
        (c.deepCopy 4).2.render 4 depth root = (c.deepCopy 4).2.render 29 depth root := by
  have hallowed : Code.empty.AllowsAll busyHistory := by decide +kernel
  have hread : (Code.empty.performAll busyHistory).toOption.map
      (fun c => (c.size, (c.deepCopy 4).1, (c.deepCopy 4).2.size)) = some (21, 29, 41) := by
    decide +kernel
  cases hrun : Code.empty.performAll busyHistory with
  | error fault =>
    rw [hrun] at hread
    cases hread
  | ok c =>
    rw [hrun] at hread
    obtain ⟨hsize, hcopy, hsize'⟩ : c.size = 21 ∧ (c.deepCopy 4).1 = 29 ∧
        (c.deepCopy 4).2.size = 41 := by
      simpa [Except.toOption] using hread
    have h := performAll_wellFormed .empty hallowed hrun
    have hid : 4 < c.size := by omega
    have hfaithful := (copies_are_faithful h).1 4 hid
    rw [hcopy] at hfaithful
    exact ⟨c, rfl, h, hid, hcopy, hfaithful,
      (copies_are_faithful hfaithful.wellFormed).2 4 29 (by omega) (by omega) hfaithful.equal⟩

end Code

end Rulewright
