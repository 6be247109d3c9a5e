import Rulewright.Proofs.Tree.Surgery

/-!
# Chains

The matcher of a pattern is a chain: a sequence of statements that only bind temporaries, then a
branch whose body is the rest of the chain, and so on down to the innermost sequence. There a
placeholder marks where the next matcher goes. After a branch there may be further placeholders,
which are never filled.

* `Chain.fill`: the code of a chain with a sequence at its innermost point.
* `Chain.plug`: a chain at the innermost point of another one.
* `Chain.pass`: what a run has bound when it gets to the innermost point, if it gets there.
* `execAll_close`: a chain with an action runs the action if it is passed.
-/

namespace Rulewright

/-- Code that goes from one branch into the next. The labels after a sequence are those of
placeholders. -/
inductive Chain (ι : Type) where
  | hole (before : List (Stmt ι)) (mark : Option ι) (after : List ι)
  | under (before : List (Stmt ι)) (check : ι) (guard : Guard) (inner : Chain ι) (otherwise : ι)
      (after : List ι)

namespace Chain

open Stmt

variable {ι κ : Type}

/-- The code of a chain with a sequence in the place of its mark. -/
def fill (ts : List (Stmt ι)) : Chain ι → List (Stmt ι)
  | .hole before _ after => before ++ (ts ++ after.map placeholder)
  | .under before check guard inner otherwise after =>
    before ++ .branch check guard (inner.fill ts) [noop otherwise] [] :: after.map placeholder

/-- The placeholder at the innermost point. -/
def mark? : Chain ι → Option ι
  | .hole _ mark _ => mark
  | .under _ _ _ inner _ _ => inner.mark?

/-- The code of a chain. -/
def code (k : Chain ι) : List (Stmt ι) := k.fill (k.mark?.map placeholder).toList

/-- Statements before and placeholders after a chain. -/
def surround (xs : List (Stmt ι)) (ids : List ι) : Chain ι → Chain ι
  | .hole before mark after => .hole (xs ++ before) mark (after ++ ids)
  | .under before check guard inner otherwise after =>
    .under (xs ++ before) check guard inner otherwise (after ++ ids)

/-- A chain in the place of the mark of another one. -/
def plug : Chain ι → Chain ι → Chain ι
  | .hole before _ after, r => r.surround before after
  | .under before check guard inner otherwise after, r =>
    .under before check guard (inner.plug r) otherwise after

/-- A new placeholder at the end of the sequence `depth` branches down. -/
def leave (new : ι) : Nat → Chain ι → Chain ι
  | 0, .hole before none after => .hole before (some new) after
  | 0, .hole before (some mark) after => .hole before (some mark) (after ++ [new])
  | 0, .under before check guard inner otherwise after =>
    .under before check guard inner otherwise (after ++ [new])
  | _ + 1, .hole before mark after => .hole before mark after
  | depth + 1, .under before check guard inner otherwise after =>
    .under before check guard (inner.leave new depth) otherwise after

/-- Give the nodes other labels. -/
def map (f : ι → κ) : Chain ι → Chain κ
  | .hole before mark after => .hole (mapAll f before) (mark.map f) (after.map f)
  | .under before check guard inner otherwise after =>
    .under (mapAll f before) (f check) guard (inner.map f) (f otherwise) (after.map f)

/-- The chain without the numbers of its nodes. -/
def strip (k : Chain ι) : Chain Unit := k.map fun _ => ()

/-- The statements before the outermost branch. -/
def before : Chain ι → List (Stmt ι)
  | .hole before _ _ | .under before _ _ _ _ _ => before

/-! ### Shapes -/

@[simp] theorem mark?_surround (xs : List (Stmt ι)) (ids : List ι) (k : Chain ι) :
    (k.surround xs ids).mark? = k.mark? := by
  cases k <;> rfl

@[simp] theorem mark?_plug (k r : Chain ι) : (k.plug r).mark? = r.mark? := by
  induction k with
  | hole before mark after => exact mark?_surround before after r
  | under before check guard inner otherwise after ih => exact ih

theorem code_under (before : List (Stmt ι)) (check : ι) (guard : Guard) (inner : Chain ι)
    (otherwise : ι) (after : List ι) :
    (Chain.under before check guard inner otherwise after).code =
      before ++ .branch check guard inner.code [noop otherwise] [] :: after.map placeholder := rfl

theorem fill_surround (xs ts : List (Stmt ι)) (ids : List ι) (k : Chain ι) :
    (k.surround xs ids).fill ts = xs ++ (k.fill ts ++ ids.map placeholder) := by
  cases k <;> simp [surround, fill]

/-- The code of a plugged chain is that of the outer one with the inner one in its place. -/
theorem fill_plug (k r : Chain ι) (ts : List (Stmt ι)) :
    (k.plug r).fill ts = k.fill (r.fill ts) := by
  induction k with
  | hole before mark after => rw [plug, fill_surround, fill]
  | under before check guard inner otherwise after ih => rw [plug, fill, ih, fill]

theorem code_plug (k r : Chain ι) : (k.plug r).code = k.fill r.code := by
  rw [code, mark?_plug, fill_plug, code]

@[simp] theorem before_surround (xs : List (Stmt ι)) (ids : List ι) (k : Chain ι) :
    (k.surround xs ids).before = xs ++ k.before := by
  cases k <;> rfl

/-! ### Labels -/

theorem map_surround (f : ι → κ) (xs : List (Stmt ι)) (ids : List ι) (k : Chain ι) :
    (k.surround xs ids).map f = (k.map f).surround (mapAll f xs) (ids.map f) := by
  cases k <;> simp [surround, map, mapAll_eq_map]

@[simp] theorem strip_plug (k r : Chain ι) : (k.plug r).strip = k.strip.plug r.strip := by
  induction k with
  | hole before mark after => exact map_surround _ before after r
  | under before check guard inner otherwise after ih =>
    simp only [strip] at ih ⊢
    simp only [plug, map, ih]

@[simp] theorem strip_leave (new : ι) (depth : Nat) (k : Chain ι) :
    (k.leave new depth).strip = k.strip.leave () depth := by
  induction k generalizing depth with
  | hole before mark after => cases depth <;> cases mark <;> simp [strip, map, leave]
  | under before check guard inner otherwise after ih =>
    simp only [strip] at ih ⊢
    cases depth <;> simp [map, leave, ih]

theorem strip_fill (k : Chain ι) (ts : List (Stmt ι)) :
    Stmt.strip (k.fill ts) = k.strip.fill (Stmt.strip ts) := by
  have hmap : ∀ ids : List ι,
      Stmt.strip (ids.map placeholder) = (ids.map fun _ => ()).map placeholder := by
    intro ids; rw [Stmt.strip, mapAll_eq_map, List.map_map, List.map_map]; rfl
  induction k with
  | hole before mark after => simp only [fill, strip, map, strip_append, hmap]; rfl
  | under before check guard inner otherwise after ih =>
    simp only [strip] at ih ⊢
    simp only [fill, map, strip_append, strip_cons, map_branch_strip, ih, hmap]
    rfl

theorem mark?_strip (k : Chain ι) : k.strip.mark? = k.mark?.map fun _ => () := by
  induction k with
  | hole before mark after => rfl
  | under before check guard inner otherwise after ih => exact ih

end Chain

/-! ### Statements that only bind -/

/-- The line does not return and does not fire. -/
def Line.isQuiet : Line → Bool
  | .ret _ => false
  | .custom text => Code.isCommentLine text
  | _ => true

namespace Stmt

variable {ι : Type}

mutual

/-- No line below the statement returns or fires. -/
def isQuiet : Stmt ι → Bool
  | .line _ x _ off => off || x.isQuiet
  | .branch _ _ t e es => isQuietAll t && isQuietAll e && isQuietAll es

def isQuietAll : List (Stmt ι) → Bool
  | [] => true
  | s :: rest => s.isQuiet && isQuietAll rest

end

variable (l : Language) (free : String → Bool)

/-- The terms bound after a sequence that only binds. -/
def settle (ts : List (Stmt ι)) (b : Bindings) : Bindings :=
  (execAll l free ts { fired := [], bindings := b }).2.bindings

/-- The run goes on, fires nothing, and binds what does not depend on what was fired. -/
def Steady (run : Code.Progress → Option Bool × Code.Progress) : Prop :=
  ∀ b, ∃ b', ∀ fired, run ⟨fired, b⟩ = (none, ⟨fired, b'⟩)

/-- The same of a run that may be not taken at all. -/
def SteadyChoice (run : Code.Progress → Option (Option Bool × Code.Progress)) : Prop :=
  ∀ b, (∀ fired, run ⟨fired, b⟩ = none) ∨ ∃ b', ∀ fired, run ⟨fired, b⟩ = some (none, ⟨fired, b'⟩)

theorem steady_line (x : Line) (h : x.isQuiet = true) : Steady x.exec := by
  intro b
  cases x with
  | definition target binding declares => exact ⟨b.assign target binding, fun fired => rfl⟩
  | ret value => simp [Line.isQuiet] at h
  | custom text => exact ⟨b, fun fired => if_pos h⟩
  | _ => exact ⟨b, fun fired => rfl⟩

theorem steady_all :
    (∀ s : Stmt ι, s.isQuiet = true → Steady (exec l free s)) ∧
    (∀ ts : List (Stmt ι), isQuietAll ts = true → Steady (execAll l free ts)) ∧
    ∀ es : List (Stmt ι), isQuietAll es = true → SteadyChoice (execElseIfs l free es) := by
  apply run_induct
  case line =>
    intro id x comment off h b
    cases off with
    | true => exact ⟨b, fun fired => rfl⟩
    | false =>
      obtain ⟨b', hb⟩ := steady_line x (by simpa [isQuiet] using h) b
      exact ⟨b', fun fired => by simpa [exec] using hb fired⟩
  case branch =>
    intro id guard t e es ht he hes h b
    simp only [isQuiet, Bool.and_eq_true] at h
    cases hg : guard.holds l free b with
    | true =>
      obtain ⟨b', hb⟩ := ht h.1.1 b
      exact ⟨b', fun fired => by simp only [exec, hg, if_true, hb]⟩
    | false =>
      rcases hes h.2 b with hnone | ⟨b', hsome⟩
      · obtain ⟨b', hb⟩ := he h.1.2 b
        exact ⟨b', fun fired => by simp [exec, hg, hnone, hb]⟩
      · exact ⟨b', fun fired => by simp [exec, hg, hsome]⟩
  case nil => exact fun _ b => ⟨b, fun fired => rfl⟩
  case cons =>
    intro s rest hs hrest h b
    simp only [isQuietAll, Bool.and_eq_true] at h
    obtain ⟨b1, h1⟩ := hs h.1 b
    obtain ⟨b2, h2⟩ := hrest h.2 b1
    exact ⟨b2, fun fired => by simp only [execAll, h1, h2]⟩
  case choiceNil => exact fun _ b => Or.inl fun fired => rfl
  case choiceLine =>
    intro id x comment off rest hrest h b
    simp only [isQuietAll, Bool.and_eq_true] at h
    simpa only [execElseIfs] using hrest h.2 b
  case choiceBranch =>
    intro id guard t e es rest ht hrest h b
    simp only [isQuietAll, isQuiet, Bool.and_eq_true] at h
    cases hg : guard.holds l free b with
    | true =>
      obtain ⟨b', hb⟩ := ht h.1.1.1 b
      exact Or.inr ⟨b', fun fired => by simp only [execElseIfs, hg, if_true, hb]⟩
    | false => simpa [execElseIfs, hg] using hrest h.2 b

/-- A sequence that only binds goes on with what it has bound. -/
theorem execAll_quiet {ts : List (Stmt ι)} (h : isQuietAll ts = true) (p : Code.Progress) :
    execAll l free ts p = (none, { p with bindings := settle l free ts p.bindings }) := by
  obtain ⟨b', hb⟩ := (steady_all l free).2.1 ts h p.bindings
  rw [settle, hb [], hb p.fired]

end Stmt

namespace Chain

open Stmt

variable {ι : Type} (l : Language) (free : String → Bool)

/-- The terms bound at the innermost point, if all guards on the way hold. -/
def pass : Chain ι → Bindings → Option Bindings
  | .hole before _ _, b => some (settle l free before b)
  | .under before _ guard inner _ _, b =>
    if guard.holds l free (settle l free before b) then inner.pass (settle l free before b)
    else none

/-- The statements outside of the innermost sequence only bind. -/
def IsQuiet : Chain ι → Prop
  | .hole before _ _ => isQuietAll before = true
  | .under before _ _ inner _ _ => isQuietAll before = true ∧ inner.IsQuiet

theorem isQuietAll_placeholders (ids : List ι) : isQuietAll (ids.map placeholder) = true := by
  induction ids with
  | nil => rfl
  | cons id rest ih => rw [List.map_cons, isQuietAll, ih]; rfl

theorem settle_placeholders (ids : List ι) (b : Bindings) :
    settle l free (ids.map placeholder) b = b := by
  induction ids with
  | nil => rfl
  | cons id rest ih => exact ih

theorem execAll_placeholders (ids : List ι) (p : Code.Progress) :
    execAll l free (ids.map placeholder) p = (none, p) := by
  rw [execAll_quiet l free (isQuietAll_placeholders ids), settle_placeholders]

/-- A chain that is passed runs what is at its innermost point. -/
theorem execAll_fill_some {k : Chain ι} (hk : k.IsQuiet) {p : Code.Progress} {b : Bindings}
    (h : k.pass l free p.bindings = some b) (ts : List (Stmt ι)) :
    execAll l free (k.fill ts) p = execAll l free ts { p with bindings := b } := by
  induction k generalizing p with
  | hole before mark after =>
    simp only [pass, Option.some.injEq] at h
    subst h
    rw [fill, execAll_append, execAll_quiet l free hk]
    simp only [execAll_append, execAll_placeholders]
    rcases execAll l free ts _ with ⟨_ | value, q⟩ <;> rfl
  | under before check guard inner otherwise after ih =>
    rw [pass] at h
    split_ifs at h with hg
    rw [fill, execAll_append, execAll_quiet l free hk.1]
    have := ih hk.2 (p := { p with bindings := settle l free before p.bindings }) h
    simp only [execAll, exec, hg, if_true, this, execAll_placeholders]
    rcases execAll l free ts _ with ⟨_ | value, q⟩ <;> rfl

/-- A chain that is not passed goes on behind it. -/
theorem execAll_fill_none {k : Chain ι} (hk : k.IsQuiet) {p : Code.Progress}
    (h : k.pass l free p.bindings = none) (ts : List (Stmt ι)) :
    ∃ b, execAll l free (k.fill ts) p = (none, { p with bindings := b }) := by
  induction k generalizing p with
  | hole before mark after => simp [pass] at h
  | under before check guard inner otherwise after ih =>
    rw [fill, execAll_append, execAll_quiet l free hk.1]
    set q : Code.Progress := { p with bindings := settle l free before p.bindings } with hq
    rw [pass] at h
    split_ifs at h with hg
    · obtain ⟨b, hb⟩ := ih hk.2 (p := q) h
      refine ⟨b, ?_⟩
      simp only [execAll, exec, hq, hg, if_true] at hb ⊢
      rw [hb]
      exact execAll_placeholders l free _ _
    · refine ⟨settle l free before p.bindings, ?_⟩
      simp only [execAll, exec, hq, hg, execElseIfs]
      exact execAll_placeholders l free _ _

theorem settle_append {xs ys : List (Stmt ι)} (hx : isQuietAll xs = true) (b : Bindings) :
    settle l free (xs ++ ys) b = settle l free ys (settle l free xs b) := by
  rw [settle, execAll_append, execAll_quiet l free hx]; rfl

theorem pass_surround {xs : List (Stmt ι)} (hx : isQuietAll xs = true) (ids : List ι) (k : Chain ι)
    (b : Bindings) : (k.surround xs ids).pass l free b = k.pass l free (settle l free xs b) := by
  cases k <;> simp only [surround, pass, settle_append l free hx]

/-- A plugged chain is passed by passing its two parts. -/
theorem pass_plug {k : Chain ι} (hk : k.IsQuiet) (r : Chain ι) (b : Bindings) :
    (k.plug r).pass l free b = (k.pass l free b).bind (r.pass l free) := by
  induction k generalizing b with
  | hole before mark after => rw [plug, pass_surround l free hk, pass]; rfl
  | under before check guard inner otherwise after ih =>
    simp only [plug, pass, ih hk.2]
    split_ifs <;> rfl

@[simp] theorem pass_leave (new : ι) (depth : Nat) (k : Chain ι) (b : Bindings) :
    (k.leave new depth).pass l free b = k.pass l free b := by
  induction k generalizing depth b with
  | hole before mark after => cases depth <;> cases mark <;> rfl
  | under before check guard inner otherwise after ih => cases depth <;> simp only [leave, pass, ih]

theorem isQuietAll_append (xs ys : List (Stmt ι)) :
    isQuietAll (xs ++ ys) = (isQuietAll xs && isQuietAll ys) := by
  induction xs with
  | nil => rfl
  | cons s rest ih => rw [List.cons_append, isQuietAll, isQuietAll, ih, Bool.and_assoc]

/-! ### Tidy chains -/

/-- What stands before a branch of a chain: statements that only bind, without placeholders, the
first one that does something not being a branch. -/
structure TidyLine (ts : List (Stmt ι)) : Prop where
  ne_nil : ts ≠ []
  solid : SolidAll ts
  no_hole : holeAll? ts = none
  first : ∀ s, ts.find? isMeaningful = some s → s.isBranch = false
  quiet : isQuietAll ts = true

/-- All sequences of the chain are tidy up to their branch. -/
def Tidy : Chain ι → Prop
  | .hole before _ _ => TidyLine before
  | .under before _ _ inner _ _ => TidyLine before ∧ inner.Tidy

/-- The chain does something. -/
def Busy : Chain ι → Prop
  | .hole before _ _ => before.any isMeaningful = true
  | .under _ _ _ _ _ _ => True

theorem TidyLine.append {xs ys : List (Stmt ι)} (hx : TidyLine xs) (hy : TidyLine ys) :
    TidyLine (xs ++ ys) where
  ne_nil := by simp [hx.ne_nil]
  solid := (solidAll_append xs ys).2 ⟨hx.solid, hy.solid⟩
  no_hole := by rw [holeAll?_append, hx.no_hole, hy.no_hole]; rfl
  first := by
    intro s hs
    rw [List.find?_append] at hs
    cases hf : xs.find? isMeaningful with
    | none => rw [hf, Option.none_or] at hs; exact hy.first s hs
    | some s' =>
      rw [hf, Option.some_or, Option.some.injEq] at hs
      exact hs ▸ hx.first s' hf
  quiet := by rw [isQuietAll_append, hx.quiet, hy.quiet]; rfl

theorem tidyLine_noop (id : ι) : TidyLine [noop id] :=
  ⟨by simp, ⟨trivial, trivial⟩, rfl,
    by simp [noop, fresh, isMeaningful, Line.kind, NodeKind.isMeaningful], rfl⟩

variable {k r : Chain ι}

theorem Tidy.isQuiet (h : k.Tidy) : k.IsQuiet := by
  induction k with
  | hole before mark after => exact h.quiet
  | under before check guard inner otherwise after ih => exact ⟨h.1.quiet, ih h.2⟩

theorem Tidy.before (h : k.Tidy) : TidyLine k.before := by
  cases k with
  | hole before mark after => exact h
  | under before check guard inner otherwise after => exact h.1

theorem Tidy.surround {xs : List (Stmt ι)} (hx : TidyLine xs) (h : k.Tidy) (ids : List ι) :
    (k.surround xs ids).Tidy := by
  cases k with
  | hole before mark after => exact hx.append h
  | under before check guard inner otherwise after => exact ⟨hx.append h.1, h.2⟩

theorem Tidy.plug (hk : k.Tidy) (hr : r.Tidy) : (k.plug r).Tidy := by
  induction k with
  | hole before mark after => exact hr.surround hk after
  | under before check guard inner otherwise after ih => exact ⟨hk.1, ih hk.2⟩

theorem Tidy.leave (h : k.Tidy) (new : ι) (depth : Nat) : (k.leave new depth).Tidy := by
  induction k generalizing depth with
  | hole before mark after => cases depth <;> cases mark <;> exact h
  | under before check guard inner otherwise after ih =>
    cases depth with
    | zero => exact h
    | succ depth => exact ⟨h.1, ih h.2 depth⟩

theorem Busy.leave (h : k.Busy) (new : ι) (depth : Nat) : (k.leave new depth).Busy := by
  cases k with
  | hole before mark after => cases depth <;> cases mark <;> exact h
  | under before check guard inner otherwise after => cases depth <;> trivial

theorem Busy.plug (h : k.Busy) (r : Chain ι) : (k.plug r).Busy := by
  cases k with
  | hole before mark after =>
    have hb : before.any isMeaningful = true := h
    cases r with
    | hole before' mark' after' => simp [Chain.plug, Chain.surround, Busy, hb]
    | under before' check' guard' inner' otherwise' after' => trivial
  | under before check guard inner otherwise after => trivial

/-- The innermost sequence is `depth` branches down, and there is no placeholder yet. -/
def IsOpen : Nat → Chain ι → Prop
  | 0, .hole _ none [] => True
  | depth + 1, .under _ _ _ inner _ [] => inner.IsOpen depth
  | _, _ => False

/-- A chain without placeholders is a sequence, or a branch around such a chain with nothing after
it. -/
@[elab_as_elim]
theorem isOpen_induct {motive : ∀ (depth : Nat) (k : Chain ι), k.IsOpen depth → Prop}
    (hole : ∀ before, motive 0 (.hole before none []) trivial)
    (under : ∀ depth before check guard inner otherwise (h : inner.IsOpen depth),
      motive depth inner h → motive (depth + 1) (.under before check guard inner otherwise []) h) :
    ∀ {depth : Nat} {k : Chain ι} (h : k.IsOpen depth), motive depth k h
  | 0, .hole before none [], _ => hole before
  | depth + 1, .under before check guard inner otherwise [], h =>
    under depth before check guard inner otherwise h
      (isOpen_induct hole under (show inner.IsOpen depth from h))

theorem IsOpen.mark?_leave {depth : Nat} (h : k.IsOpen depth) (new : ι) :
    (k.leave new depth).mark? = some new := by
  induction h using isOpen_induct with
  | hole before => rfl
  | under depth before check guard inner otherwise h ih => exact ih

theorem mark?_leave_isSome (h : k.mark?.isSome) (new : ι) (depth : Nat) :
    (k.leave new depth).mark?.isSome := by
  induction k generalizing depth with
  | hole before mark after => cases depth <;> cases mark <;> first | exact h | rfl
  | under before check guard inner otherwise after ih =>
    cases depth with
    | zero => exact h
    | succ depth => exact ih h depth

end Chain

end Rulewright
