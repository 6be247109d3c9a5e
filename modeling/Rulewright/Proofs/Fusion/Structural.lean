import Mathlib.Data.List.Induction
import Rulewright.Proofs.Matching.Bindings

/-!
# Code that binds parts of the matched term

Where every definition binds a trail to the operand that the trail leads to, all terms are found at
their trails whether they are bound or not. Then guards mean the same at every point of a run, and
what a run does can be told from the term alone.

* `sketchAll`: a tree without definitions.
* `Bindings.Reads`: the bound terms are those that their trails lead to.
* `playAll`: what a sequence does where all guards are asked of one term.
* `execAll_eq_play`: that is what a run does.
-/

namespace Rulewright

/-- The line introduces or assigns a temporary. -/
def Line.isBinding : Line → Bool
  | .declaration _ | .definition _ _ _ => true
  | _ => false

/-- A definition binds a trail to the operand that it leads to. -/
def Line.isStructural : Line → Bool
  | .definition target (.operand parent index) _ => target == parent.child index
  | .definition _ _ _ => false
  | _ => true

namespace Stmt

variable {ι κ : Type}

mutual

/-- The statement without definitions. -/
def sketch : Stmt ι → Stmt ι
  | .line id x comment off => if x.isBinding then noop id else .line id x comment off
  | .branch id guard t e es => .branch id guard (sketchAll t) (sketchAll e) (sketchAll es)

def sketchAll : List (Stmt ι) → List (Stmt ι)
  | [] => []
  | s :: rest => s.sketch :: sketchAll rest

end

mutual

/-- All definitions bind trails to the operands that they lead to. -/
def isStructural : Stmt ι → Bool
  | .line _ x _ _ => x.isStructural
  | .branch _ _ t e es => isStructuralAll t && isStructuralAll e && isStructuralAll es

def isStructuralAll : List (Stmt ι) → Bool
  | [] => true
  | s :: rest => s.isStructural && isStructuralAll rest

end

@[simp] theorem isStructuralAll_append (xs ys : List (Stmt ι)) :
    isStructuralAll (xs ++ ys) = (isStructuralAll xs && isStructuralAll ys) := by
  induction xs with
  | nil => rfl
  | cons s rest ih => rw [List.cons_append, isStructuralAll, isStructuralAll, ih, Bool.and_assoc]

theorem isStructural_map_all (f : ι → κ) :
    (∀ s : Stmt ι, (s.map f).isStructural = s.isStructural) ∧
      ∀ ts : List (Stmt ι), isStructuralAll (mapAll f ts) = isStructuralAll ts := by
  apply Stmt.induct
  case line => exact fun _ _ _ _ => rfl
  case branch =>
    intro id guard t e es ht he hes
    simp only [map, isStructural, ht, he, hes]
  case nil => rfl
  case cons =>
    intro s rest hs hrest
    simp only [mapAll, isStructuralAll, hs, hrest]

end Stmt

namespace Bindings

/-- The term bound at the root and nothing else. -/
def ofTerm (e : Expr) : Bindings := Table.empty.insert Trail.root e

/-- The bound terms are those that their trails lead to in the term at the root. -/
structure Reads (b : Bindings) (e : Expr) : Prop where
  root : b.get? Trail.root = some e
  part : ∀ t x, b.get? t = some x → (ofTerm e).nodeAt t = some x

theorem get?_ofTerm_child (e : Expr) (t : Trail) (i : Nat) :
    (ofTerm e).get? (t.child i) = none := by
  have hne : Trail.root ≠ t.child i := by simp [Trail.root, Trail.child]
  rw [ofTerm, Table.get?_insert, if_neg hne]
  rfl

theorem reads_ofTerm (e : Expr) : (ofTerm e).Reads e :=
  ⟨by rw [ofTerm, Table.get?_insert, if_pos rfl], fun _ _ h => nodeAt_of_get? h⟩

/-- Terms are read alike whether they are bound or not. -/
theorem Reads.nodeAt_eq {b : Bindings} {e : Expr} (h : b.Reads e) (t : Trail) :
    b.nodeAt t = (ofTerm e).nodeAt t := by
  induction t using List.reverseRecOn with
  | nil => exact (nodeAt_of_get? h.root).trans (nodeAt_of_get? (reads_ofTerm e).root).symm
  | append_singleton t i ih =>
    change b.nodeAt (Trail.child t i) = (ofTerm e).nodeAt (Trail.child t i)
    cases hb : b.get? (Trail.child t i) with
    | some x => rw [nodeAt_of_get? hb, h.part _ x hb]
    | none => rw [nodeAt_child hb, nodeAt_child (get?_ofTerm_child e t i), ih]

theorem Reads.bind_operand {b : Bindings} {e : Expr} (h : b.Reads e) (t : Trail) (i : Nat) :
    b.bind (.operand t i) = (ofTerm e).nodeAt (t.child i) := by
  rw [bind, h.nodeAt_eq, nodeAt_child (get?_ofTerm_child e t i)]

theorem Reads.assign {b : Bindings} {e : Expr} (h : b.Reads e) (t : Trail) (i : Nat) :
    (b.assign (t.child i) (.operand t i)).Reads e := by
  have hbind := h.bind_operand t i
  refine ⟨by rw [get?_assign_of_ne _ (by simp [Trail.root, Trail.child]), h.root],
    fun t' x hx => ?_⟩
  by_cases ht : t.child i = t'
  · subst ht
    rw [Bindings.assign] at hx
    split at hx
    · rename_i y hy
      rw [Table.get?_insert, if_pos rfl] at hx
      rw [← hbind, hy, hx]
    · rw [Table.get?_erase, if_pos rfl] at hx
      cases hx
  · rw [get?_assign_of_ne _ ht] at hx
    exact h.part t' x hx

end Bindings

/-- A guard sees terms at trails only. -/
theorem Guard.holds_congr (l : Language) (free : String → Bool) {b b' : Bindings}
    (h : ∀ t, b.nodeAt t = b'.nodeAt t) (g : Guard) : g.holds l free b = g.holds l free b' := by
  have hop : ∀ t, b.operatorAt l t = b'.operatorAt l t :=
    fun t => by rw [Bindings.operatorAt, Bindings.operatorAt, h]
  have hcount : ∀ t n, b.countIs t n = b'.countIs t n :=
    fun t n => by rw [Bindings.countIs, Bindings.countIs, h]
  have hside : ∀ s : Side, s.value? l b = s.value? l b' :=
    fun s => by cases s <;> simp only [Side.value?, hop, h]
  have hequal : ∀ s t, b.equalAt s t = b'.equalAt s t :=
    fun s t => by rw [Bindings.equalAt, Bindings.equalAt, h, h]
  cases g <;> simp only [holds, hop, hcount, hside, hequal, h]

namespace Stmt

/-- What comes after one part of a run, if it goes on. -/
def andThen (r next : Option Bool × List String) : Option Bool × List String :=
  match r with
  | (some value, fired) => (some value, fired)
  | (none, fired) => (next.1, fired ++ next.2)

@[simp] theorem andThen_none (next : Option Bool × List String) :
    andThen (none, []) next = next := rfl

theorem andThen_assoc (r s t : Option Bool × List String) :
    andThen (andThen r s) t = andThen r (andThen s t) := by
  rcases r with ⟨_ | value, fired⟩
  · rcases s with ⟨_ | value, fired'⟩ <;> simp [andThen]
  · rfl

end Stmt

/-- What a line returns and fires. -/
def Line.play : Line → Option Bool × List String
  | .ret value => (some value, [])
  | .custom text => (none, if Code.isCommentLine text then [] else [withRoot text "formula"])
  | _ => (none, [])

namespace Stmt

open Bindings

variable {ι κ : Type} (l : Language) (free : String → Bool)

section Play

variable (b : Bindings)

mutual

/-- What a statement returns and fires where nothing is bound on the way. -/
def play : Stmt ι → Option Bool × List String
  | .line _ x _ off => if off then (none, []) else x.play
  | .branch _ guard t e es =>
    if guard.holds l free b then playAll t
    else
      match playElseIfs es with
      | some r => r
      | none => playAll e

def playAll : List (Stmt ι) → Option Bool × List String
  | [] => (none, [])
  | s :: rest => andThen (play s) (playAll rest)

def playElseIfs : List (Stmt ι) → Option (Option Bool × List String)
  | [] => none
  | .line _ _ _ _ :: rest => playElseIfs rest
  | .branch _ guard t _ _ :: rest =>
    if guard.holds l free b then some (playAll t) else playElseIfs rest

end

theorem playAll_append (xs ys : List (Stmt ι)) :
    playAll l free b (xs ++ ys) = andThen (playAll l free b xs) (playAll l free b ys) := by
  induction xs with
  | nil => rfl
  | cons s rest ih => rw [List.cons_append, playAll, playAll, ih, andThen_assoc]

theorem play_map_all (f : ι → κ) :
    (∀ s : Stmt ι, play l free b (s.map f) = play l free b s) ∧
    (∀ ts : List (Stmt ι), playAll l free b (mapAll f ts) = playAll l free b ts) ∧
    ∀ es : List (Stmt ι), playElseIfs l free b (mapAll f es) = playElseIfs l free b es := by
  apply run_induct
  case line => exact fun _ _ _ _ => rfl
  case branch =>
    intro id guard t e es ht he hes
    simp only [map, play, ht, he, hes]
  case nil => rfl
  case cons =>
    intro s rest hs hrest
    rw [mapAll, playAll, playAll, hs, hrest]
  case choiceNil => rfl
  case choiceLine =>
    intro id x comment off rest hrest
    simpa only [mapAll, map, playElseIfs] using hrest
  case choiceBranch =>
    intro id guard t e es rest ht hrest
    simp only [mapAll, map, playElseIfs, ht, hrest]

theorem playAll_strip (ts : List (Stmt ι)) : playAll l free b (strip ts) = playAll l free b ts :=
  (play_map_all l free b _).2.1 ts

theorem play_sketch_all :
    (∀ s : Stmt ι, play l free b s.sketch = play l free b s) ∧
    (∀ ts : List (Stmt ι), playAll l free b (sketchAll ts) = playAll l free b ts) ∧
    ∀ es : List (Stmt ι), playElseIfs l free b (sketchAll es) = playElseIfs l free b es := by
  apply run_induct
  case line =>
    intro id x comment off
    cases x <;> cases off <;> rfl
  case branch =>
    intro id guard t e es ht he hes
    simp only [sketch, play, ht, he, hes]
  case nil => rfl
  case cons =>
    intro s rest hs hrest
    rw [sketchAll, playAll, playAll, hs, hrest]
  case choiceNil => rfl
  case choiceLine =>
    intro id x comment off rest hrest
    rw [sketchAll, sketch]
    split_ifs <;> simpa only [noop, fresh, playElseIfs] using hrest
  case choiceBranch =>
    intro id guard t e es rest ht hrest
    simp only [sketchAll, sketch, playElseIfs, ht, hrest]

/-- Trees with one sketch play alike. -/
theorem playAll_eq_of_sketch {ts ts' : List (Stmt ι)} (h : sketchAll ts = sketchAll ts') :
    playAll l free b ts = playAll l free b ts' := by
  rw [← (play_sketch_all l free b).2.1 ts, h, (play_sketch_all l free b).2.1 ts']

end Play

variable (e : Expr)

/-- The run returns and fires what is given, and binds parts of the term. -/
def Performs (run : Code.Progress → Option Bool × Code.Progress) (r : Option Bool × List String) :
    Prop :=
  ∀ fired b, Reads b e → ∃ b', run ⟨fired, b⟩ = (r.1, ⟨fired ++ r.2, b'⟩) ∧ Reads b' e

/-- The same of a run that may be not taken at all. -/
def PerformsChoice (run : Code.Progress → Option (Option Bool × Code.Progress))
    (r : Option (Option Bool × List String)) : Prop :=
  ∀ fired b, Reads b e →
    match r with
    | none => run ⟨fired, b⟩ = none
    | some r => ∃ b', run ⟨fired, b⟩ = some (r.1, ⟨fired ++ r.2, b'⟩) ∧ Reads b' e

theorem performs_line (x : Line) (hx : x.isStructural = true) : Performs e x.exec x.play := by
  intro fired b hb
  cases x with
  | definition target binding declares =>
    cases binding with
    | operand parent index =>
      obtain rfl : target = parent.child index := by simpa [Line.isStructural] using hx
      exact ⟨_, by simp [Line.exec, Line.play], hb.assign parent index⟩
    | same trail => cases hx
    | constructed code value => cases hx
  | custom text =>
    by_cases hc : Code.isCommentLine text = true
    · exact ⟨b, by simp [Line.exec, Line.play, hc], hb⟩
    · exact ⟨b, by simp [Line.exec, Line.play, hc], hb⟩
  | _ => exact ⟨b, by simp [Line.exec, Line.play], hb⟩

theorem performs_all :
    (∀ s : Stmt ι, s.isStructural = true → Performs e (exec l free s) (play l free (ofTerm e) s)) ∧
    (∀ ts : List (Stmt ι), isStructuralAll ts = true →
      Performs e (execAll l free ts) (playAll l free (ofTerm e) ts)) ∧
    ∀ es : List (Stmt ι), isStructuralAll es = true →
      PerformsChoice e (execElseIfs l free es) (playElseIfs l free (ofTerm e) es) := by
  -- what is bound reads as parts of the term, so every guard has the answer it has at the start
  have hguard : ∀ {b : Bindings}, Reads b e →
      ∀ g : Guard, g.holds l free b = g.holds l free (ofTerm e) :=
    fun hb g => Guard.holds_congr l free hb.nodeAt_eq g
  apply run_induct
  case line =>
    intro id x comment off h
    cases off with
    | true => exact fun fired b hb => ⟨b, by simp [exec, play], hb⟩
    | false =>
      simpa only [Performs, exec, play, Bool.false_eq_true, if_false] using performs_line e x h
  case branch =>
    intro id guard t e' es ht he hes h fired b hb
    simp only [isStructural, Bool.and_eq_true] at h
    simp only [exec, play, hguard hb guard]
    split_ifs with hg
    · exact ht h.1.1 fired b hb
    · have hchoice := hes h.2 fired b hb
      cases hp : playElseIfs l free (ofTerm e) es with
      | none =>
        rw [hp] at hchoice
        simp only [hchoice]
        exact he h.1.2 fired b hb
      | some r =>
        rw [hp] at hchoice
        obtain ⟨b', h1, h2⟩ := hchoice
        exact ⟨b', by simp only [h1], h2⟩
  case nil => exact fun _ fired b hb => ⟨b, by simp [execAll, playAll], hb⟩
  case cons =>
    intro s rest hs hrest h fired b hb
    simp only [isStructuralAll, Bool.and_eq_true] at h
    obtain ⟨b1, h1, hb1⟩ := hs h.1 fired b hb
    rw [execAll, h1, playAll]
    rcases play l free (ofTerm e) s with ⟨_ | value, fired'⟩
    · obtain ⟨b2, h2, hb2⟩ := hrest h.2 (fired ++ fired') b1 hb1
      exact ⟨b2, by simp [andThen, h2], hb2⟩
    · exact ⟨b1, rfl, hb1⟩
  case choiceNil => exact fun _ fired b hb => rfl
  case choiceLine =>
    intro id x comment off rest hrest h
    simp only [isStructuralAll, Bool.and_eq_true] at h
    simpa only [PerformsChoice, execElseIfs, playElseIfs] using hrest h.2
  case choiceBranch =>
    intro id guard t e' es rest ht hrest h fired b hb
    simp only [isStructuralAll, isStructural, Bool.and_eq_true] at h
    simp only [execElseIfs, playElseIfs, hguard hb guard]
    split_ifs with hg
    · obtain ⟨b', h1, h2⟩ := ht h.1.1.1 fired b hb
      exact ⟨b', by rw [h1], h2⟩
    · exact hrest h.2 fired b hb

/-- **What a run does** is what the tree plays on the term alone. -/
theorem execAll_eq_play {ts : List (Stmt ι)} (h : isStructuralAll ts = true) :
    (execAll l free ts ⟨[], ofTerm e⟩).1 = (playAll l free (ofTerm e) ts).1 ∧
      (execAll l free ts ⟨[], ofTerm e⟩).2.fired = (playAll l free (ofTerm e) ts).2 := by
  obtain ⟨b, hb, -⟩ := (performs_all l free e).2.1 ts h [] (ofTerm e) (reads_ofTerm e)
  rw [hb]
  exact ⟨rfl, rfl⟩

end Stmt

end Rulewright
