import Rulewright.Proofs.Tree.Text

/-!
# The text of a tree

A store that owns code as a tree prints the statements of the tree one after the other, and bodies
one level deeper. The numbers of the nodes do not matter.

* `Stmt.printAll`: the text of a sequence.
* `Code.Owns.render_eq`: a store prints its code as the tree is printed.
-/

namespace Rulewright

namespace Stmt

open Code (withComment)

variable {ι κ : Type} (root : String)

mutual

/-- The text of a statement at a depth. A line that does nothing is written only if it has a
comment, and an `else` that does nothing is left out. -/
def print (depth : Nat) : Stmt ι → String
  | .line _ x comment off =>
    if x.kind.isMeaningful then
      let content := withRoot x.kind.content root
      Code.line depth (withComment (if off then "// " ++ content else content) comment)
    else (comment.map fun comment => Code.line depth ("// " ++ comment)).getD ""
  | .branch _ guard t e es =>
    Code.line depth ("if " ++ withRoot guard.text root ++ " \x7b") ++ printAll (depth + 1) t ++
      printElseIfs depth es ++
      (if (e.find? isMeaningful).isNone then ""
        else Code.line depth "\x7d else \x7b" ++ printAll (depth + 1) e) ++
      Code.line depth "\x7d"

def printAll (depth : Nat) : List (Stmt ι) → String
  | [] => ""
  | s :: rest => s.print depth ++ printAll depth rest

/-- The texts of the `else if`s of a branch. -/
def printElseIfs (depth : Nat) : List (Stmt ι) → String
  | [] => ""
  | .line _ _ _ _ :: rest => printElseIfs depth rest
  | .branch _ guard t _ _ :: rest =>
    Code.line depth ("\x7d else if " ++ withRoot guard.text root ++ " \x7b") ++
      printAll (depth + 1) t ++ printElseIfs depth rest

end

theorem printAll_append (depth : Nat) (xs ys : List (Stmt ι)) :
    printAll root depth (xs ++ ys) = printAll root depth xs ++ printAll root depth ys := by
  induction xs with
  | nil => exact (String.empty_append).symm
  | cons s rest ih => rw [List.cons_append, printAll, printAll, ih, String.append_assoc]

theorem isNone_find?_map (f : ι → κ) (ts : List (Stmt ι)) :
    ((mapAll f ts).find? isMeaningful).isNone = (ts.find? isMeaningful).isNone := by
  have hsame : ∀ s : Stmt ι, (s.map f).isMeaningful = s.isMeaningful := fun s => by cases s <;> rfl
  rw [mapAll_eq_map, List.find?_map, Option.isNone_map]
  exact congrArg (fun p => (ts.find? p).isNone) (funext hsame)

theorem print_map_all (f : ι → κ) :
    (∀ (s : Stmt ι) depth, (s.map f).print root depth = s.print root depth) ∧
    (∀ (ts : List (Stmt ι)) depth, printAll root depth (mapAll f ts) = printAll root depth ts) ∧
    ∀ (es : List (Stmt ι)) depth,
      printElseIfs root depth (mapAll f es) = printElseIfs root depth es := by
  apply run_induct
  case line => exact fun _ _ _ _ _ => rfl
  case branch =>
    intro id guard t e es ht he hes depth
    simp only [map, print, ht, he, hes, isNone_find?_map]
  case nil => exact fun _ => rfl
  case cons =>
    intro s rest hs hrest depth
    simp only [mapAll, printAll, hs, hrest]
  case choiceNil => exact fun _ => rfl
  case choiceLine =>
    intro id x comment off rest hrest depth
    simp only [mapAll, map, printElseIfs, hrest]
  case choiceBranch =>
    intro id guard t e es rest ht hrest depth
    simp only [mapAll, map, printElseIfs, ht, hrest]

/-- The text does not depend on the numbers of the nodes. -/
theorem printAll_strip (depth : Nat) (ts : List (Stmt ι)) :
    printAll root depth (strip ts) = printAll root depth ts :=
  (print_map_all root fun _ => ()).2.1 ts depth

end Stmt

namespace Code.Owns

open Stmt

variable {c : Code} {m : Multiset Cell} {link : Link} {root : String} {depth : Nat}

theorem nodeText_line {id : NodeId} {x : Line} {comment : Option String} {off : Bool}
    {rest : List (Stmt NodeId)} {next : Option NodeId}
    (h : c.Owns (cells link next (.line id x comment off :: rest) + m)) (body : NodeId → String) :
    c.nodeText root depth body id = (Stmt.line id x comment off).print root depth := by
  have hnode := h.head
  rw [Stmt.id] at hnode
  have hcomment : c.comment? id = comment := by rw [Code.comment?, hnode]; rfl
  have hoff : c.isCommentedOut id = off := isCommentedOut_of hnode
  rw [nodeText, kind_of hnode, hcomment, hoff, print]
  cases x <;> rfl

theorem printElseIfs_eq (body : NodeId → String) (root : String) (depth : Nat) {parent : NodeId}
    {index : Nat} {es : List (Stmt NodeId)} (h : c.Owns (elseIfCells parent index es + m))
    (hbody : ∀ id guard t e es', Stmt.branch id guard t e es' ∈ es →
      ∀ link, c.Owns (cells link none t + m) → body (start t) = printAll root (depth + 1) t) :
    String.join ((es.map Stmt.id).map fun k => c.elseIfText root depth body k) =
      printElseIfs root depth es := by
  induction es generalizing index with
  | nil => rfl
  | cons s rest ih =>
    obtain ⟨hone, hmore⟩ := h.elseIf_cons
    have hrest := ih hmore fun id guard t e es' hmem =>
      hbody id guard t e es' (List.mem_cons_of_mem _ hmem)
    rw [List.map_cons, List.map_cons, String.join_cons, hrest]
    have hbranch := branch?_of hone.head
    rw [elseIfText, hbranch]
    cases s with
    | line id x comment off => exact String.empty_append
    | branch id guard t e es' =>
      have ht := hbody id guard t e es' List.mem_cons_self _ hone.bodies.1
      simp only [branchOf, ht, printElseIfs]

/-- A store prints a sequence as the tree is printed. -/
theorem renderFrom_eq {ts : List (Stmt NodeId)} (hs : SolidAll ts) (hne : ts ≠ [])
    (h : c.Owns (cells link none ts + m)) {n : Nat} (hn : countAll ts ≤ n) :
    c.renderFrom root n depth (start ts) = printAll root depth ts := by
  induction hne, hn using bounded_induct generalizing link depth with
  | cons n s rest _ _ hcount hrest ih =>
    have hnext : ((c.next s.id).map (c.renderFrom root n depth)).getD "" =
        printAll root depth rest := by
      rw [h.next_head]
      cases rest with
      | nil => rfl
      | cons s' rest' => exact ih _ (List.cons_ne_nil _ _) hrest hs.2 h.tail
    rw [start_cons, renderFrom_succ, hnext, printAll]
    congr 1
    cases s with
    | line id x comment off => exact h.nodeText_line _
    | branch id guard t e es =>
      rw [count] at hcount
      obtain ⟨ht, he, hes⟩ := h.bodies
      obtain ⟨hnt, hne', hst, hse, hses⟩ := hs.1
      have hnode := h.head
      have hkind : c.kind id = .branch ⟨guard, start t, start e, es.map Stmt.id⟩ := kind_of hnode
      have hcomment : c.comment? id = none := congrArg (fun node => node.bind Node.comment) hnode
      have hoff : c.isCommentedOut id = false := isCommentedOut_of hnode
      have hblank : c.isBlank (start e) = (e.find? isMeaningful).isNone := by
        rw [Code.isBlank, he.nextMeaningful?_eq hne', Option.isNone_map]
      have helse := hes.printElseIfs_eq (c.renderFrom root n (depth + 1)) root depth
        fun id' guard' t' e' es' hmem link' ht' => by
          have hsolid := (solidAll_iff es).1 hses _ hmem
          have hsmall := countAll_mem hmem
          rw [count] at hsmall
          exact ih t' hsolid.1 (by omega) hsolid.2.2.1 ht'
      rw [id_branch, nodeText, hkind, hcomment, hoff, print]
      simp only [Bool.false_eq_true, if_false, withComment, ih t hnt (by omega) hst ht,
        ih e hne' (by omega) hse he, hblank, helse]

/-- **A store prints its code as the tree is printed.** -/
theorem render_eq {ts : List (Stmt NodeId)} (hs : SolidAll ts) (hne : ts ≠ [])
    (h : c.Owns (cells link none ts + m)) (depth : Nat) (root : String) :
    c.render (start ts) depth root = printAll root depth ts :=
  h.renderFrom_eq hs hne h.countAll_le_size

end Code.Owns

end Rulewright
