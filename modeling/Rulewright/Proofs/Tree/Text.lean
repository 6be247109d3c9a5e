import Rulewright.Code.Printer
import Rulewright.Proofs.Forest.Likeness
import Rulewright.Proofs.Tree.Walk

/-!
# The text of code that reads alike

The text of code is made from what its nodes say, in the order in which they follow and hold each
other. So code that reads alike has one text. Code that a store owns as a tree reads like every
other code that is the same tree with other numbers.

* `Resembles.render`: one text for code that reads alike.
* `Owns.resembles`: trees that differ in the numbers of their nodes only read alike.
-/

namespace Rulewright

namespace Code

variable {c c' : Code} {n m m' : Nat} {a b : NodeId}

/-! ### Sequences -/

namespace Resembles

theorem pos (h : Resembles c c' n a b) : 0 < n := by
  cases n with
  | zero => exact h.elim
  | succ n => exact Nat.succ_pos n

theorem label (h : Resembles c c' n a b) : c.label a = c'.label b := by
  cases n with
  | zero => exact h.elim
  | succ n => exact h.1

theorem isMeaningful (h : c.label a = c'.label b) :
    (c.kind a).isMeaningful = (c'.kind b).isMeaningful := by
  rw [← NodeKind.isMeaningful_bare, ← NodeKind.isMeaningful_bare (c'.kind b)]
  exact congrArg (fun label => label.1.isMeaningful) h

theorem chainFrom (h : Resembles c c' n a b) (hm : n ≤ m) (hm' : n ≤ m') :
    List.Forall₂ (fun x y => c.label x = c'.label y) (c.chainFrom m a) (c'.chainFrom m' b) := by
  induction n generalizing a b m m' with
  | zero => exact h.elim
  | succ n ih =>
    obtain ⟨m, rfl⟩ : ∃ k, m = k + 1 := ⟨m - 1, by omega⟩
    obtain ⟨m', rfl⟩ : ∃ k, m' = k + 1 := ⟨m' - 1, by omega⟩
    obtain ⟨hlabel, -, hnext⟩ := h
    rw [Code.chainFrom, Code.chainFrom]
    refine .cons hlabel ?_
    generalize c.next a = o, c'.next b = o' at hnext
    cases hnext with
    | some h => exact ih h (by omega) (by omega)
    | none => exact .nil

theorem isBlank (h : Resembles c c' n a b) (hc : n ≤ c.size) (hc' : n ≤ c'.size) :
    c.isBlank a = c'.isBlank b := by
  have hblank : ∀ {xs ys : List NodeId}, List.Forall₂ (fun x y => c.label x = c'.label y) xs ys →
      (xs.find? fun k => (c.kind k).isMeaningful).isNone =
        (ys.find? fun k => (c'.kind k).isMeaningful).isNone := by
    intro xs ys hall
    induction hall with
    | nil => rfl
    | @cons x y xs ys hlabel _ ih =>
      rw [List.find?_cons, List.find?_cons, isMeaningful hlabel]
      cases (c'.kind y).isMeaningful with
      | true => rfl
      | false => exact ih
  exact hblank (h.chainFrom hc hc')

end Resembles

/-! ### Texts -/

/-- The text of a line. -/
def lineText (root : String) (depth : Nat) (kind : NodeKind) (comment : Option String)
    (off : Bool) : String :=
  line depth (withComment
    (if off then "// " ++ withRoot kind.content root else withRoot kind.content root) comment)

/-- The text of an `else if`, with the given texts of bodies one step deeper. -/
def elseIfText (c : Code) (root : String) (depth : Nat) (body : NodeId → String) (id : NodeId) :
    String :=
  match c.branch? id with
  | some inner =>
    line depth ("\x7d else if " ++ withRoot inner.guard.text root ++ " \x7b") ++ body inner.thenBody
  | none => ""

/-- The text of a node, with the given texts of bodies one step deeper. -/
def nodeText (c : Code) (root : String) (depth : Nat) (body : NodeId → String) (id : NodeId) :
    String :=
  match c.kind id with
  | .noop | .placeholder =>
    ((c.comment? id).map fun comment => line depth ("// " ++ comment)).getD ""
  | .branch b =>
    if c.isCommentedOut id then lineText root depth (.branch b) (c.comment? id) true
    else line depth
      (withComment ("if " ++ withRoot b.guard.text root ++ " \x7b") (c.comment? id)) ++
      body b.thenBody ++ String.join (b.elseIfs.map fun k => c.elseIfText root depth body k) ++
      (if c.isBlank b.elseBody then "" else line depth "\x7d else \x7b" ++ body b.elseBody) ++
      line depth "\x7d"
  | kind => lineText root depth kind (c.comment? id) (c.isCommentedOut id)

theorem renderFrom_succ (c : Code) (root : String) (n depth : Nat) (id : NodeId) :
    c.renderFrom root (n + 1) depth id =
      c.nodeText root depth (c.renderFrom root n (depth + 1)) id ++
        ((c.next id).map (c.renderFrom root n depth)).getD "" := by
  rw [renderFrom]
  refine congrArg₂ (· ++ ·) ?_ (by cases c.next id <;> rfl)
  cases hnode : c.node? id with
  | none => simp [nodeText, kind, comment?, hnode]
  | some node =>
    have hkind : c.kind id = node.kind := by rw [kind, hnode]
    have hcomment : c.comment? id = node.comment := by rw [comment?, hnode]; rfl
    have hoff : c.isCommentedOut id = node.commentedOut := by rw [isCommentedOut, hnode]
    rw [nodeText, hkind, hcomment, hoff]
    obtain ⟨kind, comment, off, link, next⟩ := node
    cases kind with
    | noop => cases comment <;> rfl
    | placeholder => cases comment <;> rfl
    | branch b =>
      cases off with
      | true => simp only [lineText, if_true]
      | false =>
        simp only [Bool.false_eq_true, if_false]
        refine congrArg (· ++ _) (congrArg (· ++ _)
          (congrArg (_ ++ ·) (congrArg String.join (List.map_congr_left fun k _ => ?_))))
        cases hb : c.branch? k <;> simp only [elseIfText, hb]
    | _ => simp only [lineText]

namespace Resembles

/-- Two nodes are the same line, or two branches on one guard whose bodies read alike. -/
inductive Kinds (c c' : Code) (n : Nat) : NodeKind → NodeKind → Prop
  | line {kind : NodeKind} : kind.branch? = none → Kinds c c' n kind kind
  | branch {guard : Guard} {t e t' e' : NodeId} {es es' : List NodeId} :
      Resembles c c' n t t' → Resembles c c' n e e' → List.Forall₂ (Resembles c c' n) es es' →
      Kinds c c' n (.branch ⟨guard, t, e, es⟩) (.branch ⟨guard, t', e', es'⟩)

theorem kinds (h : Resembles c c' (n + 1) a b) : Kinds c c' n (c.kind a) (c'.kind b) := by
  obtain ⟨hlabel, hbodies, -⟩ := h
  have hbare : (c.kind a).bare = (c'.kind b).bare := congrArg Prod.fst hlabel
  rw [Code.bodies, Code.bodies, branch?, branch?] at hbodies
  generalize c.kind a = kind, c'.kind b = kind' at hbare hbodies
  cases kind with
  | branch x =>
    cases kind' with
    | branch y =>
      obtain ⟨guard, t, e, es⟩ := x
      obtain ⟨guard', t', e', es'⟩ := y
      obtain rfl : guard = guard' := by
        cases hbare
        rfl
      cases hbodies with
      | cons ht hbodies =>
        cases hbodies with
        | cons he hes => exact .branch ht he hes
    | _ => cases hbare
  | _ =>
    cases kind' <;> cases hbare
    all_goals exact .line rfl

theorem map_eq_map {α β γ : Type} {R : α → β → Prop} {f : α → γ} {g : β → γ} {xs : List α}
    {ys : List β} (h : List.Forall₂ R xs ys) (hfg : ∀ x y, R x y → f x = g y) :
    xs.map f = ys.map g := by
  induction h with
  | nil => rfl
  | cons hxy _ ih => rw [List.map_cons, List.map_cons, hfg _ _ hxy, ih]

section Text

variable {root : String} {depth : Nat} {body body' : NodeId → String}

theorem elseIfText (h : Resembles c c' n a b)
    (hbody : ∀ x y, Resembles c c' n x y → body x = body' y) :
    c.elseIfText root depth body a = c'.elseIfText root depth body' b := by
  cases n with
  | zero => exact h.elim
  | succ n =>
    have hkinds := h.kinds
    rw [Code.elseIfText, Code.elseIfText, branch?, branch?]
    generalize c.kind a = kind, c'.kind b = kind' at hkinds
    cases hkinds with
    | line hline => rw [hline]
    | branch ht _ _ => exact congrArg (Code.line depth _ ++ ·) (hbody _ _ (ht.mono (Nat.le_succ n)))

/-- One node has one text, given that its bodies have. -/
theorem nodeText (h : Resembles c c' (n + 1) a b) (hc : n ≤ c.size) (hc' : n ≤ c'.size)
    (hbody : ∀ x y, Resembles c c' n x y → body x = body' y) :
    c.nodeText root depth body a = c'.nodeText root depth body' b := by
  obtain ⟨-, hcomment, hoff⟩ : _ ∧ _ ∧ _ := by simpa only [Code.label, Prod.mk.injEq] using h.label
  have hkinds := h.kinds
  rw [Code.nodeText, Code.nodeText, hcomment, hoff]
  generalize c.kind a = kind, c'.kind b = kind' at hkinds
  cases hkinds with
  | line hline => cases kind <;> first | rfl | cases hline
  | @branch guard t e t' e' es es' ht he hes =>
    have helseIfs : (es.map fun k => c.elseIfText root depth body k) =
        es'.map fun k => c'.elseIfText root depth body' k :=
      map_eq_map hes fun x y hxy => hxy.elseIfText hbody
    have hcontent : (NodeKind.branch ⟨guard, t, e, es⟩).content =
        (NodeKind.branch ⟨guard, t', e', es'⟩).content := rfl
    simp only [lineText, hcontent, helseIfs, hbody _ _ ht, hbody _ _ he, he.isBlank hc hc']

end Text

/-- **Code that reads alike has one text.** -/
theorem renderFrom (h : Resembles c c' n a b) (hm : n ≤ m) (hm' : n ≤ m') (hc : n ≤ c.size)
    (hc' : n ≤ c'.size) (root : String) (depth : Nat) :
    c.renderFrom root m depth a = c'.renderFrom root m' depth b := by
  induction n generalizing a b m m' depth with
  | zero => exact h.elim
  | succ n ih =>
    obtain ⟨m, rfl⟩ : ∃ k, m = k + 1 := ⟨m - 1, by omega⟩
    obtain ⟨m', rfl⟩ : ∃ k, m' = k + 1 := ⟨m' - 1, by omega⟩
    have hbelow : ∀ depth x y, Resembles c c' n x y →
        c.renderFrom root m depth x = c'.renderFrom root m' depth y := by
      intro depth x y hxy
      exact ih hxy (by omega) (by omega) (by omega) (by omega) depth
    have hrest : ((c.next a).map (c.renderFrom root m depth)).getD "" =
        ((c'.next b).map (c'.renderFrom root m' depth)).getD "" := by
      have hnext := h.2.2
      generalize c.next a = o, c'.next b = o' at hnext
      cases hnext with
      | some hxy => exact hbelow depth _ _ hxy
      | none => rw [Option.map_none, Option.map_none]
    rw [renderFrom_succ, renderFrom_succ, h.nodeText (by omega) (by omega) (hbelow (depth + 1)),
      hrest]

theorem render (h : Resembles c c' n a b) (hc : n ≤ c.size) (hc' : n ≤ c'.size) (depth : Nat)
    (root : String) : c.render a depth root = c'.render b depth root :=
  h.renderFrom hc hc' hc hc' root depth

end Resembles

end Code

/-! ### Trees -/

namespace Stmt

variable {ι κ : Type}

/-- What the node of a statement says. -/
def label : Stmt ι → NodeKind × Option String × Bool
  | .line _ x comment off => (x.kind.bare, comment, off)
  | .branch _ guard _ _ _ => (.branch ⟨guard, 0, 0, []⟩, none, false)

theorem label_map (f : ι → κ) (s : Stmt ι) : (s.map f).label = s.label := by
  cases s <;> rfl

theorem count_map_all (f : ι → κ) :
    (∀ s : Stmt ι, (s.map f).count = s.count) ∧
    ∀ ts : List (Stmt ι), countAll (mapAll f ts) = countAll ts := by
  apply Stmt.induct
  case line => exact fun _ _ _ _ => rfl
  case branch =>
    intro id guard t e es ht he hes
    simp only [map, count, ht, he, hes]
  case nil => rfl
  case cons =>
    intro s rest hs hrest
    simp only [mapAll, countAll, hs, hrest]

theorem countAll_strip (ts : List (Stmt ι)) : countAll (strip ts) = countAll ts :=
  (count_map_all _).2 ts

theorem label_eq_of_map {f g : ι → κ} {s s' : Stmt ι} (h : s.map f = s'.map g) :
    s.label = s'.label := by
  rw [← label_map f, h, label_map]

end Stmt

namespace Code.Owns

open Stmt

variable {c c' : Code} {m m' : Multiset Cell} {link link' : Link} {n : Nat}

theorem label_head {s : Stmt NodeId} {rest : List (Stmt NodeId)} {next : Option NodeId}
    (h : c.Owns (cells link next (s :: rest) + m)) : c.label s.id = s.label := by
  rw [label_eq, h.head]
  cases s <;> rfl

/-- The `else if`s of two branches read alike if each of them does. -/
theorem resembles_elseIfs {parent parent' : NodeId} {index : Nat} {es es' : List (Stmt NodeId)}
    (hstrip : strip es = strip es') (h : c.Owns (elseIfCells parent index es + m))
    (h' : c'.Owns (elseIfCells parent' index es' + m'))
    (hone : ∀ link link' s s', s ∈ es → strip [s] = strip [s'] → c.Owns (cells link none [s] + m) →
      c'.Owns (cells link' none [s'] + m') → Resembles c c' n s.id s'.id) :
    List.Forall₂ (Resembles c c' n) (es.map Stmt.id) (es'.map Stmt.id) := by
  induction es generalizing es' index with
  | nil =>
    cases es' with
    | nil => exact .nil
    | cons s' rest' => cases hstrip
  | cons s rest ih =>
    cases es' with
    | nil => cases hstrip
    | cons s' rest' =>
      obtain ⟨hs, hrest⟩ := List.cons.inj hstrip
      refine .cons (hone _ _ s s' List.mem_cons_self ?_ h.elseIf_cons.1 h'.elseIf_cons.1) ?_
      · rw [strip_cons, strip_cons, hs]
      · exact ih hrest h.elseIf_cons.2 h'.elseIf_cons.2 fun link link' s s' hs =>
          hone link link' s s' (List.mem_cons_of_mem _ hs)

/-- The bodies of two statements read alike if sequences that are no longer than these bodies do. -/
theorem resembles_bodies {s s' : Stmt NodeId} {rest rest' : List (Stmt NodeId)}
    (hstrip : s.map (fun _ => ()) = s'.map fun _ => ()) (hs : s.Solid)
    (h : c.Owns (cells link none (s :: rest) + m))
    (h' : c'.Owns (cells link' none (s' :: rest') + m')) (hn : s.count ≤ n + 1)
    (ih : ∀ {link link' ts ts'}, strip ts = strip ts' → SolidAll ts → ts ≠ [] →
      c.Owns (cells link none ts + m) → c'.Owns (cells link' none ts' + m') → countAll ts ≤ n →
      Resembles c c' n (start ts) (start ts')) :
    List.Forall₂ (Resembles c c' n) (c.bodies s.id) (c'.bodies s'.id) := by
  cases s with
  | line id x comment off =>
    cases s' with
    | branch id' guard' t' e' es' => cases hstrip
    | line id' x' comment' off' =>
      rw [Stmt.id, Stmt.id, h.bodies_line, h'.bodies_line]
      exact .nil
  | branch id guard t e es =>
    cases s' with
    | line id' x' comment' off' => cases hstrip
    | branch id' guard' t' e' es' =>
      obtain ⟨-, ht, he, hes⟩ : guard = guard' ∧ strip t = strip t' ∧ strip e = strip e' ∧
          strip es = strip es' := by
        simpa using hstrip
      rw [count] at hn
      obtain ⟨hnt, hne, hst, hse, hses⟩ := hs
      obtain ⟨hot, hoe, hoes⟩ := h.bodies
      obtain ⟨hot', hoe', hoes'⟩ := h'.bodies
      rw [Stmt.id, Stmt.id, h.bodies_branch, h'.bodies_branch]
      refine .cons (ih ht hst hnt hot hot' (by omega))
        (.cons (ih he hse hne hoe hoe' (by omega)) ?_)
      -- each alternative is a sequence of one
      refine resembles_elseIfs hes hoes hoes' fun link link' s s' hmem hone ho ho' => ?_
      have hcount := countAll_mem hmem
      exact ih hone ⟨(solidAll_iff es).1 hses s hmem, trivial⟩ (by simp) ho ho'
        (by simp only [countAll]; omega)

/-- **Trees that differ in the numbers of their nodes** read alike. -/
theorem resembles {ts ts' : List (Stmt NodeId)} (hstrip : strip ts = strip ts') (hs : SolidAll ts)
    (hne : ts ≠ []) (h : c.Owns (cells link none ts + m)) (h' : c'.Owns (cells link' none ts' + m'))
    (hn : countAll ts ≤ n) : Resembles c c' n (start ts) (start ts') := by
  induction hne, hn using bounded_induct generalizing ts' link link' with
  | cons n s rest _ _ hcount hbound ih =>
    cases ts' with
    | nil => cases hstrip
    | cons s' rest' =>
      obtain ⟨hhead, hrest⟩ := List.cons.inj hstrip
      rw [start_cons, start_cons]
      refine ⟨?_,
        resembles_bodies hhead hs.1 h h' hcount fun hstrip hs hne h h' hn =>
          ih _ hne hn hstrip hs h h',
        ?_⟩
      · rw [h.label_head, h'.label_head, label_eq_of_map hhead]
      · rw [h.next_head, h'.next_head]
        cases rest with
        | nil =>
          cases rest' with
          | nil => exact .none
          | cons s'' rest'' => cases hrest
        | cons s1 rest1 =>
          cases rest' with
          | nil => cases hrest
          | cons s'' rest'' => exact .some (ih _ (by simp) hbound hrest hs.2 h.tail h'.tail)

/-- Two trees in their stores, as one statement. -/
theorem resembles_start {ts ts' : List (Stmt NodeId)} (hstrip : strip ts = strip ts')
    (hs : SolidAll ts) (hne : ts ≠ []) (h : c.Owns (cells link none ts + m))
    (h' : c'.Owns (cells link' none ts' + m')) :
    ∃ n, n ≤ c.size ∧ n ≤ c'.size ∧ Resembles c c' n (start ts) (start ts') := by
  refine ⟨countAll ts, h.countAll_le_size, ?_, h.resembles hstrip hs hne h' le_rfl⟩
  rw [← countAll_strip, hstrip, countAll_strip]
  exact h'.countAll_le_size

end Code.Owns

end Rulewright
