import Rulewright.Code.Run

/-!
# Code as trees

Code that was built by the operations on it is a forest: a sequence is a list of statements, and a
branch holds the sequences of its bodies. A tree keeps the number of every node as a label of its
statement, so that it can be compared with a store of nodes; `strip` forgets the numbers, and what a
sequence does depends on the rest only.

An `else if` is a single statement. Bodies are never empty in a store, which is what `Solid` says.

* `Stmt.execAll`: what a sequence does, by recursion on the tree.
* `execAll_strip`: the numbers of nodes do not matter to it.
-/

namespace Rulewright

/-- A node that is not a branch. -/
inductive Line where
  | declaration (target : Trail)
  | definition (target : Trail) (binding : Binding) (declares : Bool)
  | ret (value : Bool)
  | custom (text : String)
  | noop
  | placeholder
  deriving DecidableEq

/-- The kind of node that a line is. -/
def Line.kind : Line → NodeKind
  | .declaration target => .declaration target
  | .definition target binding declares => .definition target binding declares
  | .ret value => .ret value
  | .custom text => .custom text
  | .noop => .noop
  | .placeholder => .placeholder

/-- A statement with the bodies below it. -/
inductive Stmt (ι : Type) where
  | line (id : ι) (content : Line) (comment : Option String) (off : Bool)
  | branch (id : ι) (guard : Guard) (thenBody elseBody elseIfs : List (Stmt ι))

namespace Stmt

variable {ι κ : Type}

def id : Stmt ι → ι
  | .line id _ _ _ => id
  | .branch id _ _ _ _ => id

/-- A line as it is when it is new. -/
def fresh (id : ι) (x : Line) : Stmt ι := .line id x none false

def noop (id : ι) : Stmt ι := fresh id .noop

def placeholder (id : ι) : Stmt ι := fresh id .placeholder

mutual

/-- Give the nodes other labels. -/
def map (f : ι → κ) : Stmt ι → Stmt κ
  | .line id x comment off => .line (f id) x comment off
  | .branch id guard t e es => .branch (f id) guard (mapAll f t) (mapAll f e) (mapAll f es)

def mapAll (f : ι → κ) : List (Stmt ι) → List (Stmt κ)
  | [] => []
  | s :: rest => s.map f :: mapAll f rest

end

/-- The code without the numbers of its nodes. -/
def strip (ts : List (Stmt ι)) : List (Stmt Unit) := mapAll (fun _ => ()) ts

/-- The label of the first node. -/
def start? (ts : List (Stmt ι)) : Option ι := ts.head?.map Stmt.id

mutual

/-- The number of nodes. -/
def count : Stmt ι → Nat
  | .line _ _ _ _ => 1
  | .branch _ _ t e es => 1 + countAll t + countAll e + countAll es

def countAll : List (Stmt ι) → Nat
  | [] => 0
  | s :: rest => s.count + countAll rest

end

mutual

/-- No body is empty. -/
def Solid : Stmt ι → Prop
  | .line _ _ _ _ => True
  | .branch _ _ t e es => t ≠ [] ∧ e ≠ [] ∧ SolidAll t ∧ SolidAll e ∧ SolidAll es

def SolidAll : List (Stmt ι) → Prop
  | [] => True
  | s :: rest => s.Solid ∧ SolidAll rest

end

/-- Induction over trees, a statement and a sequence at a time. -/
theorem induct {P : Stmt ι → Prop} {Q : List (Stmt ι) → Prop}
    (line : ∀ id x comment off, P (.line id x comment off))
    (branch : ∀ id guard t e es, Q t → Q e → Q es → P (.branch id guard t e es))
    (nil : Q []) (cons : ∀ s rest, P s → Q rest → Q (s :: rest)) :
    (∀ s, P s) ∧ ∀ ts, Q ts :=
  ⟨fun s => Stmt.rec line (fun id guard t e es => branch id guard t e es) nil
      (fun s rest => cons s rest) s,
    fun ts => Stmt.rec_1 line (fun id guard t e es => branch id guard t e es) nil
      (fun s rest => cons s rest) ts⟩

/-- Induction along a run: a statement, a sequence, and the `else if`s of a branch at a time. Lines
among `else if`s are passed over, and of a branch among them only the guard and the `then` body
matter. -/
theorem run_induct {P : Stmt ι → Prop} {Q R : List (Stmt ι) → Prop}
    (line : ∀ id x comment off, P (.line id x comment off))
    (branch : ∀ id guard t e es, Q t → Q e → R es → P (.branch id guard t e es)) (nil : Q [])
    (cons : ∀ s rest, P s → Q rest → Q (s :: rest)) (choiceNil : R [])
    (choiceLine : ∀ id x comment off rest, R rest → R (.line id x comment off :: rest))
    (choiceBranch : ∀ id guard t e es rest, Q t → R rest → R (.branch id guard t e es :: rest)) :
    (∀ s, P s) ∧ (∀ ts, Q ts) ∧ ∀ es, R es := by
  have h : (∀ s : Stmt ι, P s ∧ ∀ rest, R rest → R (s :: rest)) ∧
      ∀ ts : List (Stmt ι), Q ts ∧ R ts := by
    apply Stmt.induct
    case line => exact fun id x comment off => ⟨line id x comment off, choiceLine id x comment off⟩
    case branch =>
      intro id guard t e es ht he hes
      exact ⟨branch id guard t e es ht.1 he.1 hes.2,
        fun rest => choiceBranch id guard t e es rest ht.1⟩
    case nil => exact ⟨nil, choiceNil⟩
    case cons => exact fun s rest hs hrest => ⟨cons s rest hs.1 hrest.1, hs.2 rest hrest.2⟩
  exact ⟨fun s => (h.1 s).1, fun ts => (h.2 ts).1, fun es => (h.2 es).2⟩

theorem mapAll_eq_map (f : ι → κ) (ts : List (Stmt ι)) : mapAll f ts = ts.map (map f) := by
  induction ts with
  | nil => rfl
  | cons s rest ih => rw [mapAll, ih, List.map_cons]

@[simp] theorem strip_nil : strip ([] : List (Stmt ι)) = [] := rfl

@[simp] theorem strip_cons (s : Stmt ι) (ts : List (Stmt ι)) :
    strip (s :: ts) = s.map (fun _ => ()) :: strip ts := rfl

@[simp] theorem strip_append (xs ys : List (Stmt ι)) : strip (xs ++ ys) = strip xs ++ strip ys := by
  simp only [strip, mapAll_eq_map, List.map_append]

@[simp] theorem map_branch_strip (id : ι) (guard : Guard) (t e es : List (Stmt ι)) :
    (Stmt.branch id guard t e es).map (fun _ => ()) =
      .branch () guard (strip t) (strip e) (strip es) := rfl

@[simp] theorem id_fresh (id : ι) (x : Line) : (fresh id x).id = id := rfl

@[simp] theorem id_noop (id : ι) : (noop id).id = id := rfl

@[simp] theorem id_branch (id : ι) (guard : Guard) (t e es : List (Stmt ι)) :
    (Stmt.branch id guard t e es).id = id := rfl

@[simp] theorem start?_nil : start? ([] : List (Stmt ι)) = none := rfl

@[simp] theorem start?_cons (s : Stmt ι) (ts : List (Stmt ι)) : start? (s :: ts) = some s.id := rfl

theorem start?_append {xs : List (Stmt ι)} (h : xs ≠ []) (ys : List (Stmt ι)) :
    start? (xs ++ ys) = start? xs := by
  cases xs with
  | nil => exact absurd rfl h
  | cons s rest => rfl

@[simp] theorem countAll_append (xs ys : List (Stmt ι)) :
    countAll (xs ++ ys) = countAll xs + countAll ys := by
  induction xs with
  | nil => simp [countAll]
  | cons s rest ih => simp only [List.cons_append, countAll, ih]; omega

theorem count_pos (s : Stmt ι) : 0 < s.count := by
  cases s <;> simp only [count] <;> omega

theorem length_le_countAll (ts : List (Stmt ι)) : ts.length ≤ countAll ts := by
  induction ts with
  | nil => exact Nat.le_refl _
  | cons s rest ih => have := s.count_pos; simp only [List.length_cons, countAll]; omega

theorem countAll_pos {ts : List (Stmt ι)} (h : ts ≠ []) : 0 < countAll ts :=
  Nat.lt_of_lt_of_le (List.length_pos_iff.2 h) (length_le_countAll ts)

/-- Induction on a bound on the nodes of a sequence. Bodies, and what stands behind the first
statement, have a smaller one. -/
@[elab_as_elim]
theorem bounded_induct {motive : ∀ (n : Nat) (ts : List (Stmt ι)), ts ≠ [] → countAll ts ≤ n → Prop}
    (cons : ∀ n s rest (hne : s :: rest ≠ []) (hn : countAll (s :: rest) ≤ n + 1), s.count ≤ n + 1 →
      countAll rest ≤ n → (∀ ts (hne : ts ≠ []) (hn : countAll ts ≤ n), motive n ts hne hn) →
      motive (n + 1) (s :: rest) hne hn)
    {n : Nat} {ts : List (Stmt ι)} (hne : ts ≠ []) (hn : countAll ts ≤ n) : motive n ts hne hn := by
  induction n generalizing ts with
  | zero => exact absurd hn (Nat.not_le.2 (countAll_pos hne))
  | succ n ih =>
    cases ts with
    | nil => exact absurd rfl hne
    | cons s rest =>
      have hpos := s.count_pos
      have hcount : s.count + countAll rest ≤ n + 1 := hn
      exact cons n s rest hne hn (by omega) (by omega) fun ts hne hn => ih hne hn

theorem solidAll_iff (ts : List (Stmt ι)) : SolidAll ts ↔ ∀ s ∈ ts, s.Solid := by
  induction ts with
  | nil => simp [SolidAll]
  | cons s rest ih => simp [SolidAll, ih]

theorem countAll_mem {ts : List (Stmt ι)} {s : Stmt ι} (h : s ∈ ts) : s.count ≤ countAll ts := by
  induction ts with
  | nil => simp at h
  | cons s' rest ih =>
    rw [countAll]
    rcases List.mem_cons.1 h with rfl | h
    · omega
    · have := ih h; omega

theorem solidAll_append (xs ys : List (Stmt ι)) :
    SolidAll (xs ++ ys) ↔ SolidAll xs ∧ SolidAll ys := by
  induction xs with
  | nil => simp [SolidAll]
  | cons s rest ih => simp only [List.cons_append, SolidAll, ih, and_assoc]

theorem solid_map_all (f : ι → κ) :
    (∀ s : Stmt ι, (s.map f).Solid ↔ s.Solid) ∧ ∀ ts : List (Stmt ι),
      (SolidAll (mapAll f ts) ↔ SolidAll ts) ∧ (mapAll f ts ≠ [] ↔ ts ≠ []) := by
  apply Stmt.induct
  case line => exact fun _ _ _ _ => Iff.rfl
  case branch =>
    intro id guard t e es ht he hes
    simp only [map, Solid, ht, he, hes]
  case nil => exact ⟨Iff.rfl, by simp [mapAll]⟩
  case cons =>
    intro s rest hs hrest
    simp only [mapAll, SolidAll, hs, hrest, true_and]
    simp

theorem strip_ne_nil {ts : List (Stmt ι)} : strip ts ≠ [] ↔ ts ≠ [] :=
  ((solid_map_all fun _ => ()).2 ts).2

theorem solidAll_strip (ts : List (Stmt ι)) : SolidAll (strip ts) ↔ SolidAll ts :=
  ((solid_map_all fun _ => ()).2 ts).1

end Stmt

/-! ### What code does -/

/-- Bind a trail to the value of the right side of a definition, or to nothing if it has none. -/
def Bindings.assign (b : Bindings) (target : Trail) (binding : Binding) : Bindings :=
  match b.bind binding with
  | some e => b.insert target e
  | none => b.erase target

/-- What a line does: the value that it returns, if it does, and the progress after it. -/
def Line.exec : Line → Code.Progress → Option Bool × Code.Progress
  | .definition target binding _, p =>
    (none, { p with bindings := p.bindings.assign target binding })
  | .ret value, p => (some value, p)
  | .custom text, p =>
    if Code.isCommentLine text then (none, p)
    else (none, { p with fired := p.fired ++ [withRoot text "formula"] })
  | .declaration _, p | .noop, p | .placeholder, p => (none, p)

namespace Stmt

variable {ι κ : Type} (l : Language) (free : String → Bool)

mutual

/-- What a statement does. -/
def exec : Stmt ι → Code.Progress → Option Bool × Code.Progress
  | .line _ x _ off, p => if off then (none, p) else x.exec p
  | .branch _ guard t e es, p =>
    if guard.holds l free p.bindings then execAll t p
    else
      match execElseIfs es p with
      | some result => result
      | none => execAll e p

/-- What a sequence does. -/
def execAll : List (Stmt ι) → Code.Progress → Option Bool × Code.Progress
  | [], p => (none, p)
  | s :: rest, p =>
    match exec s p with
    | (some value, p) => (some value, p)
    | (none, p) => execAll rest p

/-- What the first `else if` does whose guard holds. -/
def execElseIfs : List (Stmt ι) → Code.Progress → Option (Option Bool × Code.Progress)
  | [], _ => none
  | .line _ _ _ _ :: rest, p => execElseIfs rest p
  | .branch _ guard t _ _ :: rest, p =>
    if guard.holds l free p.bindings then some (execAll t p) else execElseIfs rest p

end

theorem execAll_append (xs ys : List (Stmt ι)) (p : Code.Progress) :
    execAll l free (xs ++ ys) p =
      match execAll l free xs p with
      | (some value, p) => (some value, p)
      | (none, p) => execAll l free ys p := by
  induction xs generalizing p with
  | nil => simp [execAll]
  | cons s rest ih =>
    simp only [List.cons_append, execAll]
    rcases exec l free s p with ⟨_ | value, q⟩
    · exact ih q
    · rfl

theorem exec_map_all (f : ι → κ) :
    (∀ (s : Stmt ι) p, exec l free (s.map f) p = exec l free s p) ∧
    (∀ (ts : List (Stmt ι)) p, execAll l free (mapAll f ts) p = execAll l free ts p) ∧
    ∀ (es : List (Stmt ι)) p, execElseIfs l free (mapAll f es) p = execElseIfs l free es p := by
  apply run_induct
  case line => exact fun _ _ _ _ _ => rfl
  case branch =>
    intro id guard t e es ht he hes p
    simp only [map, exec, ht, he, hes]
  case nil => exact fun _ => rfl
  case cons =>
    intro s rest hs hrest p
    simp only [mapAll, execAll, hs, hrest]
  case choiceNil => exact fun _ => rfl
  case choiceLine =>
    intro id x comment off rest hrest p
    simp only [mapAll, map, execElseIfs, hrest]
  case choiceBranch =>
    intro id guard t e es rest ht hrest p
    simp only [mapAll, map, execElseIfs, ht, hrest]

/-- What a sequence does does not depend on the numbers of its nodes. -/
theorem execAll_strip (ts : List (Stmt ι)) (p : Code.Progress) :
    execAll l free (strip ts) p = execAll l free ts p :=
  (exec_map_all l free fun _ => ()).2.1 ts p

end Stmt

end Rulewright
