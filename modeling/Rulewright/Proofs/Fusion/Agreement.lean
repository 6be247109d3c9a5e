import Rulewright.Proofs.Fusion.Applied

/-!
# Fused rules and rules tried one after the other

Two rules that are fused should do what they do one after the other. They do not always, since the
second rule goes down one way in the tree of the first one, and is not reached on terms that leave
this way at an earlier check. Merged code does what the first rule does, unless what is left of the
second one returns at the end of its way. For rules without optional operands this tells when fused
rules agree with the rules themselves: where the first one applies or the second one does not, or a
branch of the second one is left and the term takes its way.

* `Straight`: the matcher of a rule without optional operands.
* `Sole.wins_left_iff`: what is left of a matcher at the end of its way wins if the matcher does.
* `Straight.decides`: which terms take a way down.
* `merged_agrees_iff`: when fused rules do what the rules do one after the other.
-/

namespace Rulewright

namespace Stmt

variable {ι : Type} {l : Language} {free : String → Bool} {b : Bindings}
  {mine other : List (Stmt ι)}

/-! ### What is left of a matcher -/

theorem isStructuralAll_left (l : Language) (mine : List (Stmt ι))
    (h : isStructuralAll other = true) : isStructuralAll (descend l mine other).left = true := by
  have hfork : ∀ {ts : List (Stmt ι)} {g : Fork ι}, lastFork? ts = some g →
      isStructuralAll ts = true →
      isStructuralAll g.thenBody = true ∧ isStructuralAll g.rest = true := by
    intro ts g hg h
    rw [(lastFork?_eq_some hg).1, Fork.code, isStructuralAll_append, Bool.and_eq_true] at h
    refine ⟨?_, h.2⟩
    simp only [Fork.rest, isStructuralAll, isStructural, Bool.and_eq_true] at h
    exact h.2.1.1.1
  induction mine, other using fuse_induct l with
  | none mine other ho => rwa [descend_of_none ho]
  | leaf mine other g hm ho => rwa [descend_of_leaf hm]
  | share mine other f g hm ho heq ih => rw [descend_share hm ho heq]; exact ih (hfork ho h).1
  | specific mine other f g hm ho heq hspec ih =>
    rw [descend_specific hm ho heq hspec]; exact ih (hfork ho h).2
  | otherwise mine other f g hm ho heq hspec ih =>
    rw [descend_otherwise hm ho heq hspec]; exact ih h

theorem Sole.wins_thenBody_iff {g : Fork ι} (h : Sole l free b other)
    (hg : lastFork? other = some g) (hguard : g.guard.holds l free b = true) (x : List String) :
    Wins l free b g.thenBody x ↔ Wins l free b other x := by
  refine ⟨h.wins_of_thenBody hg hguard, fun hx => ?_⟩
  obtain ⟨hbefore, hafter, -, -⟩ := h.of_fork hg
  rw [Wins, (lastFork?_eq_some hg).1, wins_code (fun _ => by rw [hbefore]) hafter, hbefore] at hx
  rcases hx with hx | ⟨-, hx⟩
  · cases hx
  · rwa [Fork.branch, play, if_pos hguard] at hx

theorem Sole.wins_rest_iff {g : Fork ι} (h : Sole l free b other) (hg : lastFork? other = some g)
    (x : List String) : Wins l free b g.rest x ↔ Wins l free b other x := by
  refine ⟨h.wins_of_rest hg, fun hx => ?_⟩
  rwa [Wins, (lastFork?_eq_some hg).1, Fork.code, playAll_append, (h.of_fork hg).1, andThen_none]
    at hx

/-- **What is left of a matcher** wins if the matcher does, where the guards hold whose `then`
bodies it has entered. -/
theorem Sole.wins_left_iff (h : Sole l free b other)
    (hpassed : ∀ guard ∈ (descend l mine other).passed, guard.holds l free b = true)
    (x : List String) : Wins l free b (descend l mine other).left x ↔ Wins l free b other x := by
  induction mine, other using fuse_induct l with
  | none mine other ho => rw [descend_of_none ho]
  | leaf mine other g hm ho => rw [descend_of_leaf hm]
  | share mine other f g hm ho heq ih =>
    rw [descend_share hm ho heq, Descent.passed_then] at hpassed
    obtain ⟨hguard, hrest⟩ := List.forall_mem_cons.1 hpassed
    rw [Guard.holds_eq_of_equals heq] at hguard
    rw [descend_share hm ho heq]
    exact (ih (h.of_fork ho).2.2.1 hrest).trans (h.wins_thenBody_iff ho hguard x)
  | specific mine other f g hm ho heq hspec ih =>
    rw [descend_specific hm ho heq hspec, Descent.passed_then] at hpassed
    rw [descend_specific hm ho heq hspec]
    exact (ih (h.rest ho) (List.forall_mem_cons.1 hpassed).2).trans (h.wins_rest_iff ho x)
  | otherwise mine other f g hm ho heq hspec ih =>
    rw [descend_otherwise hm ho heq hspec] at hpassed ⊢
    exact ih h hpassed

/-! ### Which terms take a way down -/

/-- The checks are made one inside the other, only operands are bound between them, and the
innermost sequence wins. -/
inductive Straight : List (Stmt ι) → Prop where
  | leaf {ts : List (Stmt ι)} (h : lastFork? ts = none)
      (wins : ∀ l free b, (playAll l free b ts).1 = some true) : Straight ts
  | fork {ts : List (Stmt ι)} {f : Fork ι} (h : lastFork? ts = some f)
      (before : PlainLines f.before) (elseBody : PlainLines f.elseBody) (elseIfs : f.elseIfs = [])
      (thenBody : Straight f.thenBody) : Straight ts

/-- All guards on the way are as the way wants them. -/
def Descent.IsTaken (l : Language) (free : String → Bool) (b : Bindings) (d : Descent ι) :
    Prop := ∀ q ∈ d.way, q.1.holds l free b = q.2

theorem Descent.isTaken_under {d : Descent ι} {guard : Guard} {body : Bool} :
    (d.under guard body).IsTaken l free b ↔ guard.holds l free b = body ∧ d.IsTaken l free b :=
  List.forall_mem_cons

theorem Descent.IsTaken.passed {d : Descent ι} (h : d.IsTaken l free b) :
    ∀ guard ∈ d.passed, guard.holds l free b = true := by
  intro guard hguard
  obtain ⟨q, hq, rfl⟩ := List.mem_map.1 hguard
  obtain ⟨hway, hbody⟩ := List.mem_filter.1 hq
  rw [h q hway, hbody]

open Bindings

/-- Lines between checks go on, and the terms are still those of the matched term. -/
theorem PlainLines.execAll_reads {e : Expr} {ts : List (Stmt ι)} (h : PlainLines ts) (l : Language)
    (free : String → Bool) {p : Code.Progress} (hp : Reads p.bindings e) :
    ∃ q, execAll l free ts p = (none, q) ∧ q.fired = p.fired ∧ Reads q.bindings e := by
  obtain ⟨b', hexec, hreads⟩ :=
    (performs_all l free e).2.1 ts h.isStructuralAll p.fired p.bindings hp
  rw [h.playAll] at hexec
  exact ⟨_, hexec, List.append_nil _, hreads⟩

/-- The guards on a way, asked of the matched term, decide whether a run takes it. -/
structure Descent.Decides (l : Language) (free : String → Bool) (e : Expr) (d : Descent ι)
    (ts : List (Stmt ι)) (p : Code.Progress) : Prop where
  taken : d.IsTaken l free (ofTerm e) →
      ∃ q, arrive l free d.way ts p = some q ∧ q.fired = p.fired ∧ Reads q.bindings e
  missed : ¬ d.IsTaken l free (ofTerm e) → arrive l free d.way ts p = none

section Way

variable {e : Expr} {d : Descent ι} {ts : List (Stmt ι)} {f : Fork ι} {p q : Code.Progress}

theorem Descent.Decides.under_then (hf : lastFork? ts = some f)
    (hexec : execAll l free f.before p = (none, q)) (hfired : q.fired = p.fired)
    (hq : Reads q.bindings e)
    (h : f.guard.holds l free (ofTerm e) = true → d.Decides l free e f.thenBody q) :
    (d.under f.guard true).Decides l free e ts p := by
  have hholds := Guard.holds_congr l free hq.nodeAt_eq f.guard
  have harrive : arrive l free (d.under f.guard true).way ts p =
      if f.guard.holds l free (ofTerm e) then arrive l free d.way f.thenBody q else none := by
    rw [← hholds]
    simp only [under, arrive, hf, Option.bind_some, hexec, Bool.true_or, if_true]
  refine ⟨fun htaken => ?_, fun hmissed => ?_⟩
  · obtain ⟨hguard, hrest⟩ := isTaken_under.1 htaken
    obtain ⟨q', hq', hfired', hreads⟩ := (h hguard).taken hrest
    refine ⟨q', ?_, hfired'.trans hfired, hreads⟩
    rw [harrive, if_pos hguard, hq']
  · rw [harrive]
    split_ifs with hguard
    · exact (h hguard).missed fun hrest => hmissed (isTaken_under.2 ⟨hguard, hrest⟩)
    · rfl

/-- A way that ends in the `else` body of a check. -/
theorem Descent.Decides.under_else (hf : lastFork? ts = some f)
    (hexec : execAll l free f.before p = (none, q)) (hfired : q.fired = p.fired)
    (hq : Reads q.bindings e) (helseIfs : f.elseIfs = []) (helse : PlainLines f.elseBody)
    (other : List (Stmt ι)) : (Descent.under ⟨[], other⟩ f.guard false).Decides l free e ts p := by
  have hholds := Guard.holds_congr l free hq.nodeAt_eq f.guard
  obtain ⟨q', hexec', hfired', hreads⟩ := helse.execAll_reads l free hq
  have harrive : arrive l free (Descent.under ⟨[], other⟩ f.guard false).way ts p =
      if f.guard.holds l free (ofTerm e) then none else some q' := by
    rw [← hholds]
    simp only [under, arrive, hf, Option.bind_some, hexec, helseIfs, execElseIfs, hexec',
      Bool.false_or, Option.isSome_none, Bool.false_eq_true, if_false]
  refine ⟨fun htaken => ?_, fun hmissed => ?_⟩
  · have hguard := (isTaken_under.1 htaken).1
    refine ⟨q', ?_, hfired'.trans hfired, hreads⟩
    rw [harrive, hguard]
    rfl
  · rw [harrive, if_pos]
    by_contra hguard
    rw [Bool.not_eq_true] at hguard
    exact hmissed (isTaken_under.2 ⟨hguard, List.forall_mem_nil _⟩)

end Way

/-- **The way of a matcher down a straight one** that does not win: the guards on it decide whether
a term takes it. -/
theorem Straight.decides {e : Expr} (hm : Straight mine) (hlost : Lost l free (ofTerm e) mine)
    (hleft : (lastFork? (descend l mine other).left).isSome) {p : Code.Progress}
    (hp : Reads p.bindings e) : (descend l mine other).Decides l free e mine p := by
  induction hm generalizing other p with
  | leaf h wins => exact absurd (wins l free (ofTerm e)) hlost
  | @fork ts f h before elseBody elseIfs thenBody ih =>
    cases hg : lastFork? other with
    | none =>
      rw [descend_of_none hg, hg] at hleft
      cases hleft
    | some g =>
      obtain ⟨q, hexec, hfired, hreads⟩ := before.execAll_reads l free hp
      -- if the `then` body won, so would the sequence
      have hbody : f.guard.holds l free (ofTerm e) = true → Lost l free (ofTerm e) f.thenBody := by
        intro hguard hwins
        refine hlost ?_
        rw [(lastFork?_eq_some h).1, playAll_code, before.playAll, andThen_none, Fork.branch, play,
          if_pos hguard]
        rcases hplay : playAll l free (ofTerm e) f.thenBody with ⟨_ | value, x⟩
        · rw [hplay] at hwins
          cases hwins
        · rw [hplay] at hwins
          exact hwins
      rw [descend_of_forks h hg] at hleft ⊢
      split_ifs at hleft ⊢ with heq hspec
      · exact .under_then h hexec hfired hreads fun hguard => ih (hbody hguard) hleft hreads
      · exact .under_then h hexec hfired hreads fun hguard => ih (hbody hguard) hleft hreads
      · have helse : lastFork? f.elseBody = none :=
          lastFork?_eq_none.2 fun s hs => (elseBody s hs).1
        rw [descend_of_leaf helse]
        exact .under_else h hexec hfired hreads elseIfs elseBody other

/-- **Where the tree does not win, the fused one wins** if the matcher does, a branch of it is left
and its way is taken. -/
theorem fuse_wins_iff {e : Expr} (hm : Straight mine) (hlate : Late l free (ofTerm e) mine)
    (ho : Sole l free (ofTerm e) other) (hms : isStructuralAll mine = true)
    (hos : isStructuralAll other = true) (hod : isDecisiveAll other = true)
    (hlost : Lost l free (ofTerm e) mine) (x : List String) :
    Wins l free (ofTerm e) (fuse l mine other) x ↔
    ((lastFork? (descend l mine other).left).isSome ∧
        (descend l mine other).IsTaken l free (ofTerm e)) ∧
      Wins l free (ofTerm e) other x := by
  have hplay := (execAll_eq_play l free e (isStructuralAll_fuse (l := l) hms hos)).1
  have hvalue : (execAll l free (fuse l mine other) ⟨[], ofTerm e⟩).1 =
      (((descend l mine other).returns l free mine ⟨[], ofTerm e⟩).getD
        (report l free mine ⟨[], ofTerm e⟩)).value :=
    congrArg Report.value (report_fuse l free mine hod ⟨[], ofTerm e⟩)
  have hdecides : (lastFork? (descend l mine other).left).isSome →
      (descend l mine other).Decides l free e mine ⟨[], ofTerm e⟩ :=
    fun hleft => hm.decides hlost hleft (reads_ofTerm e)
  constructor
  · intro hx
    refine ⟨?_, ((fuse_extends hlate ho).2 x hx).resolve_left fun hmine => hlost (by rw [hmine])⟩
    rw [hplay, show playAll l free (ofTerm e) (fuse l mine other) = _ from hx] at hvalue
    cases hreturns : (descend l mine other).returns l free mine ⟨[], ofTerm e⟩ with
    | none =>
      -- the tree would have won by itself
      rw [hreturns, Option.getD_none] at hvalue
      refine absurd ?_ hlost
      rw [← (execAll_eq_play l free e hms).1]
      exact hvalue.symm
    | some r =>
      obtain ⟨q, harrive, hkept⟩ := Option.bind_eq_some_iff.1 hreturns
      have hleft : (lastFork? (descend l mine other).left).isSome := by
        by_contra hnone
        rw [Descent.kept, if_neg hnone] at hkept
        cases hkept
      refine ⟨hleft, ?_⟩
      by_contra hmissed
      rw [(hdecides hleft).missed hmissed] at harrive
      cases harrive
  · rintro ⟨⟨hleft, htaken⟩, hx⟩
    obtain ⟨q, harrive, -, hq⟩ := (hdecides hleft).taken htaken
    have hwins : playAll l free (ofTerm e) (descend l mine other).left = (some true, x) :=
      (ho.wins_left_iff htaken.passed x).2 hx
    -- what is left wins where the run arrives
    have hkept : (execAll l free (descend l mine other).kept q).1 = some true := by
      obtain ⟨b', hexec, -⟩ :=
        (performs_all l free e).2.1 _ (isStructuralAll_left l mine hos) q.fired q.bindings hq
      rw [Descent.kept, if_pos hleft]
      exact (congrArg Prod.fst hexec).trans (by rw [hwins])
    have hreturns : (descend l mine other).returns l free mine ⟨[], ofTerm e⟩ =
        some (report l free (descend l mine other).kept q) := by
      rw [Descent.returns, harrive, Option.bind_some, if_pos (by rw [hkept]; rfl)]
    have hfuse : (playAll l free (ofTerm e) (fuse l mine other)).1 = some true := by
      rw [← hplay, hvalue, hreturns]
      exact hkept
    obtain ⟨x', hx'⟩ : ∃ x', Wins l free (ofTerm e) (fuse l mine other) x' :=
      ⟨_, Prod.ext hfuse rfl⟩
    have hother :=
      ((fuse_extends hlate ho).2 x' hx').resolve_left fun hmine => hlost (by rw [hmine])
    have hsame : x = x' := congrArg Prod.snd (hx.symm.trans hother)
    rw [hsame]
    exact hx'

end Stmt

/-! ### Rules without optional operands -/

open Stmt Bindings

namespace Matcher

/-- The statement introduces operands one by one. -/
def IsPlain (x : Stmt Unit) : Prop := ∃ t, PlainSetup t x

theorem PlainSetup.calm_eq {t : Trail} {x : Stmt Unit} (h : PlainSetup t x) : x.calm = x := by
  cases h <;> rfl

theorem plainLines_of_isPlain {xs : List (Stmt Unit)} (h : ∀ x ∈ xs, IsPlain x) : PlainLines xs :=
  fun x hx => (h x hx).elim fun _ hx => hx.plain

theorem built_of_plain {o : CompileOptions} {l : Language} {r : Rule}
    (hopt : r.pattern.hasOptional = false) {code : List (Stmt Unit)}
    (h : o.codeOf l r = some code) :
    ∃ parts, r.parts? o l = some parts ∧ Built IsPlain parts.replacing parts.checks code := by
  refine built_ruleCode ⟨Trail.root, .noop⟩ (fun hk x hx => ?_) h
  obtain ⟨t, ht⟩ := patternChain_plainSetup hopt hk x hx
  rw [ht.calm_eq]
  exact ⟨t, ht⟩

section Built

variable {s : Stmt Unit} {guards : List Guard} {ts : List (Stmt Unit)}

theorem playAll_actionBody (l : Language) (free : String → Bool) (b : Bindings) (r : Rule)
    (code : String) : (playAll l free b (actionBody r code)).1 = some true := by
  unfold actionBody replaceStmt
  split_ifs <;> rfl

theorem playAll_after (l : Language) (free : String → Bool) (b : Bindings) {ys : List (Stmt Unit)}
    (h : ∀ y ∈ ys, y = Stmt.noop () ∨ y = fresh () (.ret false)) :
    (playAll l free b ys).1 ≠ some true := by
  induction ys with
  | nil => exact Option.some_ne_none true |>.symm
  | cons y rest ih =>
    obtain ⟨hy, hrest⟩ := List.forall_mem_cons.1 h
    rcases hy with rfl | rfl
    · exact ih hrest
    · simp [playAll, play, fresh, Line.play, andThen]

/-- **A matcher without optional operands** returns `true` if and only if all its checks hold of the
matched term. -/
theorem Built.playAll_iff (h : Built IsPlain s guards ts) (l : Language) (free : String → Bool)
    (b : Bindings) :
    (playAll l free b ts).1 = some true ↔ ∀ guard ∈ guards, guard.holds l free b = true := by
  induction h with
  | action h => simp [playAll_actionBody]
  | @under guards t guard body ih =>
    have hplay : (playAll l free b [.branch () guard t [Stmt.noop ()] []]).1 =
        if guard.holds l free b then (playAll l free b t).1 else none := by
      rw [playAll, play]
      split_ifs
      · rcases playAll l free b t with ⟨_ | value, x⟩ <;> rfl
      · rfl
    rw [hplay, List.forall_mem_cons, ← ih]
    split_ifs with hguard
    · simp [hguard]
    · simp [hguard]
  | @surround guards xs ts ys inner before after ih =>
    have hbefore : PlainLines xs := plainLines_of_isPlain before
    rw [playAll_append, playAll_append, hbefore.playAll, andThen_none, ← ih]
    rcases playAll l free b ts with ⟨_ | value, x⟩
    · refine ⟨fun h => absurd h (playAll_after l free b after), fun h => ?_⟩
      cases h
    · rfl

theorem Built.straight (h : Built IsPlain s guards ts) : Straight ts := by
  induction h with
  | action h =>
    exact .leaf (lastFork?_actionBody _ _) fun l free b => playAll_actionBody l free b _ _
  | under guard body ih => exact .fork rfl plainLines_nil (plainLines_noop ()) rfl ih
  | @surround guards xs ts ys inner before after ih =>
    have hbefore : PlainLines xs := plainLines_of_isPlain before
    have hafter := lastFork?_eq_none.2 (isBranch_after after)
    cases ih with
    | leaf h wins =>
      have hlines : lastFork? (ts ++ ys) = none := by rw [lastFork?_append_lines ts hafter, h]; rfl
      have hxs : lastFork? xs = none := lastFork?_eq_none.2 fun x hx => (hbefore x hx).1
      refine .leaf (by rw [lastFork?_append_lines xs hlines, hxs]; rfl) fun l free b => ?_
      have hwins := wins l free b
      rw [playAll_append, playAll_append, hbefore.playAll, andThen_none]
      rcases hplay : playAll l free b ts with ⟨_ | value, x⟩
      · rw [hplay] at hwins
        cases hwins
      · rw [hplay] at hwins
        exact hwins
    | fork h before elseBody elseIfs thenBody =>
      have hwhole :=
        lastFork?_append_fork xs
          ((lastFork?_append_lines ts hafter).trans (congrArg (Option.map _) h))
      exact .fork hwhole (hbefore.append before) elseBody elseIfs thenBody

end Built

end Matcher

open Matcher

variable {o : CompileOptions} {l : Language}

/-- What is seen of an outcome when its bindings are not looked at. -/
def Outcome.shown (x : Outcome) : Bool × List String := (x.changed, x.fired)

/-- The same of a report. -/
def Stmt.Report.shown {ι : Type} (r : Report ι) : Bool × List String :=
  (r.value.getD false, r.fired)

/-- What two rules do one after the other: the second one is tried if the first one does not return
`true`. -/
def Outcome.orElse (x y : Outcome) : Bool × List String := if x.changed then x.shown else y.shown

theorem Outcome.shown_of_not_changed {code : List (Stmt Unit)} (hcode : isDecisiveAll code = true)
    (free : String → Bool) (e : Expr)
    (h : (Outcome.ofRun (execAll l free code ⟨[], ofTerm e⟩)).changed = false) :
    (Outcome.ofRun (execAll l free code ⟨[], ofTerm e⟩)).shown = (false, []) := by
  have hlost : (execAll l free code ⟨[], ofTerm e⟩).1 ≠ some true := by
    intro hwins
    rw [Outcome.changed_ofRun.2 hwins] at h
    cases h
  exact Prod.ext h (fired_of_decisive l free hcode ⟨[], ofTerm e⟩ hlost)

/-- A run of a tree that binds operands only shows what the tree plays. -/
theorem Outcome.shows_ofRun {code : List (Stmt Unit)} (hcode : isStructuralAll code = true)
    (free : String → Bool) (e : Expr) :
    (Outcome.ofRun (execAll l free code ⟨[], ofTerm e⟩)).Shows
      (playAll l free (ofTerm e) code) := by
  obtain ⟨hvalue, hfired⟩ := execAll_eq_play l free e hcode
  exact ⟨congrArg (Option.getD · false) hvalue, hfired⟩

/-- The trees of two rules without optional operands, fused and one after the other. -/
theorem shown_fuse_iff {r r' : Rule} (hopt : r.pattern.hasOptional = false)
    (hopt' : r'.pattern.hasOptional = false) {mine other : List (Stmt Unit)}
    (hmine : o.codeOf l r = some mine) (hother : o.codeOf l r' = some other) (free : String → Bool)
    (e : Expr) :
    (Outcome.ofRun (execAll l free (fuse l mine other) ⟨[], ofTerm e⟩)).shown =
      (Outcome.ofRun (execAll l free mine ⟨[], ofTerm e⟩)).orElse
        (Outcome.ofRun (execAll l free other ⟨[], ofTerm e⟩)) ↔
    (Outcome.ofRun (execAll l free mine ⟨[], ofTerm e⟩)).changed = true ∨
      (Outcome.ofRun (execAll l free other ⟨[], ofTerm e⟩)).changed = false ∨
      (lastFork? (descend l mine other).left).isSome ∧
        (descend l mine other).IsTaken l free (ofTerm e) := by
  obtain ⟨hsole, hms⟩ := @sole_ruleCode l free (ofTerm e) _ _ _ _ hopt hmine
  obtain ⟨hsole', hos⟩ := @sole_ruleCode l free (ofTerm e) _ _ _ _ hopt' hother
  obtain ⟨parts, -, hbuilt⟩ := built_of_plain hopt hmine
  have hmd := isDecisiveAll_ruleCode hmine
  have hod := isDecisiveAll_ruleCode hother
  have hx := Outcome.shows_ofRun (l := l) (isStructuralAll_fuse (l := l) hms hos) free e
  have hy := Outcome.shows_ofRun (l := l) hms free e
  have hz := Outcome.shows_ofRun (l := l) hos free e
  have hxlost := Outcome.shown_of_not_changed (l := l) (isDecisiveAll_fuse l hmd hod) free e
  have hzlost := Outcome.shown_of_not_changed (l := l) hod free e
  set x := Outcome.ofRun (execAll l free (fuse l mine other) ⟨[], ofTerm e⟩)
  set y := Outcome.ofRun (execAll l free mine ⟨[], ofTerm e⟩)
  set z := Outcome.ofRun (execAll l free other ⟨[], ofTerm e⟩)
  obtain ⟨hkeep, hsound⟩ := fuse_extends hsole.late hsole'
  by_cases hchanged : y.changed = true
  · -- the first rule applies, and fusing keeps this
    refine iff_of_true ?_ (Or.inl hchanged)
    have hwins := hkeep _ (hy.changed_iff.1 hchanged)
    rw [hwins] at hx
    rw [Outcome.orElse, if_pos hchanged]
    exact Prod.ext (hx.1.trans hchanged.symm) hx.2
  · have hlost : Lost l free (ofTerm e) mine := by
      intro hwins
      exact hchanged (by rw [hy.1, hwins]; rfl)
    have hfuse := fuse_wins_iff hbuilt.straight hsole.late hsole' hms hos hod hlost
    rw [Outcome.orElse, if_neg hchanged, or_iff_right hchanged]
    cases hzchanged : z.changed with
    | false =>
      refine iff_of_true ?_ (Or.inl rfl)
      have hxchanged : x.changed = false := by
        by_contra htrue
        rw [Bool.not_eq_false] at htrue
        have hwins := ((hfuse _).1 (hx.changed_iff.1 htrue)).2
        rw [show playAll l free (ofTerm e) other = _ from hwins] at hz
        rw [hz.1] at hzchanged
        cases hzchanged
      rw [hxlost hxchanged, hzlost hzchanged]
    | true =>
      have hwins := hz.changed_iff.1 hzchanged
      simp only [Bool.true_eq_false, false_or]
      constructor
      · intro hsame
        have hxchanged : x.changed = true := (congrArg Prod.fst hsame).trans hzchanged
        exact ((hfuse _).1 (hx.changed_iff.1 hxchanged)).1
      · intro hway
        have hall := (hfuse _).2 ⟨hway, hwins⟩
        rw [show playAll l free (ofTerm e) (fuse l mine other) = _ from hall] at hx
        exact Prod.ext (hx.1.trans hzchanged.symm) hx.2

/-- **When fused rules do what the rules do one after the other.** Merged code of two rules does
what the first one does alone, unless what is left of the second one returns at the end of its way.
If the rules have no optional operands, this is what they do one after the other if and only if the
first one returns `true`, or the second one does not, or a branch of the second one is left and the
term takes its way. -/
theorem merged_agrees_iff {first second : PlannedRule}
    (hr : ∀ p ∈ [first, second], p.rule.IsAccepted o l) :
    ∃ f mine other, FusedCode.ofRules o l [first, second] = .ok f ∧
      o.codeOf l first.rule = some mine ∧ o.codeOf l second.rule = some other ∧
      ∀ (free : String → Bool) (e : Expr), ∃ x y z, f.merged? l free e = some x ∧
        first.rule.outcome? o l free e = some y ∧ second.rule.outcome? o l free e = some z ∧
        x.shown =
          ((descend l mine other).returns l free mine ⟨[], ofTerm e⟩).elim y.shown Report.shown ∧
        ((∀ p ∈ [first, second], p.rule.pattern.hasOptional = false) →
          (x.shown = y.orElse z ↔
            y.changed = true ∨ z.changed = false ∨
              (lastFork? (descend l mine other).left).isSome ∧
                (descend l mine other).IsTaken l free (ofTerm e))) := by
  obtain ⟨hfirst, hrest⟩ := List.forall_mem_cons.1 hr
  have hsecond := List.forall_mem_singleton.1 hrest
  obtain ⟨f1, mine, hadd1, hmine, hkeeps1⟩ :=
    FusedCode.add_first (f := ⟨Code.empty, none, []⟩) rfl hfirst
  obtain ⟨f, other, hadd, hother, hkeeps⟩ := FusedCode.add_next hkeeps1 hsecond
  have hrules : FusedCode.ofRules o l [first, second] = .ok f := by
    rw [FusedCode.ofRules, List.foldlM_cons, hadd1]
    change ([second].foldlM (FusedCode.add o l) f1) = .ok f
    rw [List.foldlM_cons, hadd]
    rfl
  refine ⟨f, mine, other, hrules, hmine, hother, fun free e =>
    ⟨_, _, _, hkeeps.merged?_runs free e, Rule.outcome?_runs hfirst hmine free e,
      Rule.outcome?_runs hsecond hother free e, ?_, fun hopt => ?_⟩⟩
  · have hshown : (Outcome.ofRun (execAll l free (fuse l mine other) ⟨[], ofTerm e⟩)).shown =
        (report l free (fuse l mine other) ⟨[], ofTerm e⟩).shown := rfl
    rw [hshown, report_fuse l free mine (isDecisiveAll_ruleCode hother)]
    cases (descend l mine other).returns l free mine ⟨[], ofTerm e⟩ <;> rfl
  · obtain ⟨hoptFirst, hoptRest⟩ := List.forall_mem_cons.1 hopt
    exact shown_fuse_iff hoptFirst (hoptRest second (List.mem_singleton.2 rfl)) hmine hother free e

/-- **A rule without optional operands** returns `true` if and only if all its checks hold of the
term. -/
theorem Rule.changed_iff_checks {r : Rule} (hr : r.IsAccepted o l)
    (hopt : r.pattern.hasOptional = false) :
    ∃ parts, r.parts? o l = some parts ∧
      ∀ (free : String → Bool) (e : Expr), ∃ y, r.outcome? o l free e = some y ∧
        (y.changed = true ↔ ∀ check ∈ parts.checks, check.holds l free (ofTerm e) = true) := by
  obtain ⟨-, code, -, hcode, -⟩ :=
    FusedCode.add_first (f := ⟨Code.empty, none, []⟩) (p := ⟨⟨⟨"", r⟩, .operator "" none⟩, 0⟩) rfl
      hr
  obtain ⟨parts, hparts, hbuilt⟩ := built_of_plain hopt hcode
  refine ⟨parts, hparts, fun free e => ⟨_, Rule.outcome?_runs hr hcode free e, ?_⟩⟩
  have hstructural := (@sole_ruleCode l free (ofTerm e) _ _ _ _ hopt hcode).2
  rw [Outcome.changed_ofRun, (execAll_eq_play l free e hstructural).1]
  exact hbuilt.playAll_iff l free (ofTerm e)

/-- A term has one value. -/
theorem Guard.double_eq_of_holds {free : String → Bool} {b : Bindings} {t : Trail} {v w : Literal}
    (hv : (Guard.value t v).holds l free b = true) (hw : (Guard.value t w).holds l free b = true) :
    v.double = w.double := by
  simp only [Guard.holds] at hv hw
  cases hnode : (b.nodeAt t).bind (·.literal?) with
  | none => rw [hnode] at hv; cases hv
  | some u =>
    rw [hnode] at hv hw
    exact (beq_iff_eq.1 hv).symm.trans (beq_iff_eq.1 hw)

/-- The rule `(+ (sin $0) 0) ==> (sin $0)`. -/
def sinePlusZero : PlannedRule :=
  ⟨⟨⟨"(+ (sin $0) 0) ==> (sin $0)", .app 0 [.app 4 [.metavar 0], .literal (.int 0)],
        .app 4 [.metavar 0], [], .noCheck, 0, false⟩,
      .operator "+" none⟩,
    0⟩

/-- The rule `(+ $0 1) ==> $0`. -/
def plusOne : PlannedRule :=
  ⟨⟨⟨"(+ $0 1) ==> $0", .app 0 [.metavar 0, .literal (.int 1)], .metavar 0, [], .noCheck, 0, false⟩,
      .operator "+" none⟩,
    1⟩

/-- The term `(+ (sin x) 1)`. -/
def sinePlusOne : Expr := .app 0 [.app 4 [.var "x"], .literal (.int 1)]

theorem sineRules_accepted :
    ∀ p ∈ [sinePlusZero, plusOne], p.rule.IsAccepted ⟨false, false, true⟩ .arithmetic :=
  List.forall_mem_cons.2
    ⟨⟨0, by decide +kernel⟩, List.forall_mem_cons.2 ⟨⟨0, by decide +kernel⟩, List.forall_mem_nil _⟩⟩

theorem sineRules_plain : ∀ p ∈ [sinePlusZero, plusOne], p.rule.pattern.hasOptional = false := by
  decide +kernel

/-- No term is matched by both rules: the second operand is not both `0` and `1`. -/
theorem sineRules_disjoint (free : String → Bool) (e : Expr) :
    ∃ y z, sinePlusZero.rule.outcome? ⟨false, false, true⟩ .arithmetic free e = some y ∧
      plusOne.rule.outcome? ⟨false, false, true⟩ .arithmetic free e = some z ∧
      ¬ (y.changed = true ∧ z.changed = true) := by
  obtain ⟨hr, hr'⟩ := List.forall_mem_cons.1 sineRules_accepted
  obtain ⟨parts, hparts, h⟩ := Rule.changed_iff_checks hr (sineRules_plain _ (by simp))
  obtain ⟨parts', hparts', h'⟩ :=
    Rule.changed_iff_checks (hr' plusOne (by simp)) (sineRules_plain _ (by simp))
  obtain ⟨y, hy, hyiff⟩ := h free e
  obtain ⟨z, hz, hziff⟩ := h' free e
  have hzero : (sinePlusZero.rule.parts? ⟨false, false, true⟩ .arithmetic).all
      (·.checks.contains (.value (Trail.root.child 1) (.int 0))) = true := by decide +kernel
  have hone : (plusOne.rule.parts? ⟨false, false, true⟩ .arithmetic).all
      (·.checks.contains (.value (Trail.root.child 1) (.int 1))) = true := by decide +kernel
  rw [hparts, Option.all_some, List.contains_iff_mem] at hzero
  rw [hparts', Option.all_some, List.contains_iff_mem] at hone
  refine ⟨y, z, hy, hz, fun ⟨hychanged, hzchanged⟩ => ?_⟩
  have hvalues := Guard.double_eq_of_holds (hyiff.1 hychanged _ hzero) (hziff.1 hzchanged _ hone)
  exact absurd hvalues (by decide)

theorem sineRules_shown :
    ((FusedCode.ofRules ⟨false, false, true⟩ .arithmetic [sinePlusZero, plusOne]).toOption.bind
      fun f => (f.merged? .arithmetic (fun _ => true) sinePlusOne).map Outcome.shown) =
      some (false, []) ∧
    (sinePlusZero.rule.outcome? ⟨false, false, true⟩ .arithmetic (fun _ => true) sinePlusOne).map
      Outcome.shown = some (false, []) ∧
    (plusOne.rule.outcome? ⟨false, false, true⟩ .arithmetic (fun _ => true) sinePlusOne).map
      Outcome.shown = some (true, ["formula.replace(formula_0);"]) := by
  decide +kernel

/-- The rules match no common term, and the second one replaces `(+ (sin x) 1)` by `(sin x)` where
the first one does nothing, but the merged code does nothing either. -/
theorem disjoint_rules_disagree :
    (∀ free e, ∃ y z, sinePlusZero.rule.outcome? ⟨false, false, true⟩ .arithmetic free e = some y ∧
      plusOne.rule.outcome? ⟨false, false, true⟩ .arithmetic free e = some z ∧
      ¬ (y.changed = true ∧ z.changed = true)) ∧
    ∃ f x y z, FusedCode.ofRules ⟨false, false, true⟩ .arithmetic [sinePlusZero, plusOne] = .ok f ∧
      f.merged? .arithmetic (fun _ => true) sinePlusOne = some x ∧
      sinePlusZero.rule.outcome? ⟨false, false, true⟩ .arithmetic (fun _ => true) sinePlusOne =
        some y ∧
      plusOne.rule.outcome? ⟨false, false, true⟩ .arithmetic (fun _ => true) sinePlusOne = some z ∧
      x.shown = (false, []) ∧ y.orElse z = (true, ["formula.replace(formula_0);"]) := by
  obtain ⟨hmerged, hfirst, hsecond⟩ := sineRules_shown
  obtain ⟨f, hf, hmerged⟩ := Option.bind_eq_some_iff.1 hmerged
  obtain ⟨x, hx, hxshown⟩ := Option.map_eq_some_iff.1 hmerged
  obtain ⟨y, hy, hyshown⟩ := Option.map_eq_some_iff.1 hfirst
  obtain ⟨z, hz, hzshown⟩ := Option.map_eq_some_iff.1 hsecond
  refine ⟨sineRules_disjoint, f, x, y, z, FusedCode.ofRules_of_toOption hf, hx, hy, hz, hxshown, ?_⟩
  have hychanged : y.changed = false := congrArg Prod.fst hyshown
  rw [Outcome.orElse, hychanged]
  exact hzshown

/-- The term `(+ (sin x) 1)` does not take the way of the second rule. -/
theorem merged_agrees_sine :
    ∃ mine other,
      CompileOptions.codeOf ⟨false, false, true⟩ .arithmetic sinePlusZero.rule = some mine ∧
      CompileOptions.codeOf ⟨false, false, true⟩ .arithmetic plusOne.rule = some other ∧
      ¬ ((lastFork? (descend .arithmetic mine other).left).isSome ∧
        (descend .arithmetic mine other).IsTaken .arithmetic (fun _ => true)
          (ofTerm sinePlusOne)) := by
  obtain ⟨hmerged, hfirst, hsecond⟩ := sineRules_shown
  obtain ⟨f, mine, other, hf, hmine, hother, h⟩ := merged_agrees_iff sineRules_accepted
  obtain ⟨x, y, z, hx, hy, hz, -, hiff⟩ := h (fun _ => true) sinePlusOne
  refine ⟨mine, other, hmine, hother, fun hway => ?_⟩
  have hagrees := (hiff sineRules_plain).2 (Or.inr (Or.inr hway))
  rw [hf] at hmerged
  simp only [Except.toOption, Option.bind_some, hx, hy, hz, Option.map_some, Option.some.injEq]
    at hmerged hfirst hsecond
  have hychanged : y.changed = false := congrArg Prod.fst hfirst
  rw [Outcome.orElse, hychanged, hmerged] at hagrees
  have hshown : (false, []) = (true, ["formula.replace(formula_0);"]) := hagrees.trans hsecond
  cases hshown

end Rulewright
