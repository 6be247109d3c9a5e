import Rulewright.Proofs.Chain.Rule
import Rulewright.Proofs.Chain.Setup
import Rulewright.Proofs.Fusion.Descent

/-!
# The checks of a rule

The matcher of a rule makes the checks of its pattern and of its action one inside the other, and
replaces the matched term and returns `true` under all of them. Statements between the checks,
choices between ways to bind optional operands among them, do not return. This is all that fusing
relies on, and it holds of all rules.

* `Lasting`: a line that is left as long as a branch is left.
* `Leads`: a sequence that leads to a line through some checks.
* `Built`, `Rule.parts?`, `built_ruleCode`: how the matcher of a rule is put together around its
  checks.
* `leads_ruleCode`: it leads through the checks of the rule.
-/

namespace Rulewright

namespace Stmt

variable {ι κ : Type}

/-- The line returns `true`. -/
def isWin : Stmt ι → Bool
  | .line _ (.ret true) _ off => !off
  | _ => false

/-- The line is still there wherever the sequence is cut on the way down, as long as a branch is
left. -/
inductive Lasting (s : Stmt ι) : List (Stmt ι) → Prop where
  | leaf {ts : List (Stmt ι)} (h : lastFork? ts = none) : Lasting s ts
  | fork {ts : List (Stmt ι)} {f : Fork ι} (h : lastFork? ts = some f)
      (here : ∃ path, (path, s) ∈ pathsAll f.rest) (below : Lasting s f.thenBody) : Lasting s ts

theorem Lasting.of_fork {s : Stmt ι} {ts : List (Stmt ι)} {f : Fork ι} (h : Lasting s ts)
    (hf : lastFork? ts = some f) :
    (∃ path, (path, s) ∈ pathsAll f.rest) ∧ Lasting s f.thenBody := by
  cases h with
  | leaf h => rw [h] at hf; cases hf
  | fork h here below =>
    rw [h] at hf
    cases hf
    exact ⟨here, below⟩

/-- **A lasting line is left** if a branch is left. -/
theorem Lasting.left {l : Language} {s : Stmt ι} {mine other : List (Stmt ι)} (h : Lasting s other)
    (hleft : (lastFork? (descend l mine other).left).isSome) :
    ∃ path, (path, s) ∈ pathsAll (descend l mine other).left := by
  have whole : ∀ {other : List (Stmt ι)}, Lasting s other → (lastFork? other).isSome →
      ∃ path, (path, s) ∈ pathsAll other := by
    intro other h hsome
    obtain ⟨g, hg⟩ := Option.isSome_iff_exists.1 hsome
    obtain ⟨⟨path, hpath⟩, -⟩ := h.of_fork hg
    rw [(lastFork?_eq_some hg).1, Fork.pathsAll_code]
    exact ⟨path, List.mem_append_right _ hpath⟩
  induction mine, other using fuse_induct l with
  | none mine other ho => rw [descend_of_none ho] at hleft ⊢; exact whole h hleft
  | leaf mine other g hm ho => rw [descend_of_leaf hm] at hleft ⊢; exact whole h hleft
  | share mine other f g hm ho heq ih =>
    rw [descend_share hm ho heq] at hleft ⊢
    exact ih (h.of_fork ho).2 hleft
  | specific mine other f g hm ho heq hspec ih =>
    rw [descend_specific hm ho heq hspec] at hleft ⊢
    obtain ⟨here, below⟩ := h.of_fork ho
    exact ih (.fork (lastFork?_rest ho) here below) hleft
  | otherwise mine other f g hm ho heq hspec ih =>
    rw [descend_otherwise hm ho heq hspec] at hleft ⊢
    exact ih h hleft

/-! ### Sequences put together -/

theorem lastFork?_append_lines (xs : List (Stmt ι)) {ys : List (Stmt ι)}
    (hy : lastFork? ys = none) :
    lastFork? (xs ++ ys) = (lastFork? xs).map fun f => { f with after := f.after ++ ys } := by
  have hlines := lastFork?_eq_none.1 hy
  cases hx : lastFork? xs with
  | none =>
    exact lastFork?_eq_none.2 fun s hs =>
      (List.mem_append.1 hs).elim (lastFork?_eq_none.1 hx s) (hlines s)
  | some f =>
    obtain ⟨hcode, hafter⟩ := lastFork?_eq_some hx
    have hwhole : xs ++ ys = { f with after := f.after ++ ys }.code := by
      rw [hcode, Fork.code, Fork.code, Fork.rest, Fork.rest, List.append_assoc, List.cons_append]
    rw [hwhole]
    exact lastFork?_code fun s hs => (List.mem_append.1 hs).elim (hafter s) (hlines s)

theorem lastFork?_append_fork (xs : List (Stmt ι)) {ys : List (Stmt ι)} {g : Fork ι}
    (hy : lastFork? ys = some g) :
    lastFork? (xs ++ ys) = some { g with before := xs ++ g.before } := by
  obtain ⟨hcode, hafter⟩ := lastFork?_eq_some hy
  have hwhole : xs ++ ys = { g with before := xs ++ g.before }.code := by
    rw [hcode, Fork.code, Fork.code, List.append_assoc]
    rfl
  rw [hwhole]
  exact lastFork?_code hafter

/-- The statement does not return `true`, and if it is a branch, there is no branch in its `then`
body. -/
structure Idle (s : Stmt ι) : Prop where
  lost : ∀ p ∈ s.paths, p.2.isWin = false
  flat : ∀ id guard t e es, s = .branch id guard t e es → lastFork? t = none

theorem isWin_of_idle {xs : List (Stmt ι)} (h : ∀ s ∈ xs, s.Idle) :
    ∀ p ∈ pathsAll xs, p.2.isWin = false := by
  induction xs with
  | nil => exact List.forall_mem_nil _
  | cons s rest ih =>
    obtain ⟨hs, hrest⟩ := List.forall_mem_cons.1 h
    exact List.forall_mem_append.2 ⟨hs.lost, ih hrest⟩

theorem lasting_of_idle {xs : List (Stmt ι)} (h : ∀ s ∈ xs, s.Idle) {f : Fork ι}
    (hf : lastFork? xs = some f) (s : Stmt ι) : Lasting s f.thenBody := by
  have hmem : f.branch ∈ xs := by
    rw [(lastFork?_eq_some hf).1, Fork.code, Fork.rest]
    exact List.mem_append_right _ List.mem_cons_self
  exact .leaf ((h _ hmem).flat _ _ _ _ _ rfl)

/-- The sequence leads to a line under some guards, which are its first checks, and returns `true`
under them only. -/
structure Leads (guards : List Guard) (s : Stmt ι) (ts : List (Stmt ι)) : Prop where
  reached : (guards, s) ∈ pathsAll ts
  lasting : Lasting s ts
  checks : guards <+: checks ts
  returns : ∀ p ∈ pathsAll ts, p.2.isWin = true → p.1 = guards

/-- Idle statements before a sequence and idle lines after it. -/
theorem Leads.surround {guards : List Guard} {s : Stmt ι} {xs ts ys : List (Stmt ι)}
    (h : Leads guards s ts) (hx : ∀ s ∈ xs, s.Idle) (hy : ∀ s ∈ ys, s.Idle)
    (hlines : lastFork? ys = none) : Leads guards s (xs ++ (ts ++ ys)) := by
  have hreached : (guards, s) ∈ pathsAll (ts ++ ys) := by
    rw [pathsAll_append]
    exact List.mem_append_left _ h.reached
  refine ⟨?_, ?_, ?_, ?_⟩
  · rw [pathsAll_append]
    exact List.mem_append_right _ hreached
  · -- the last branch is in the sequence, or else before it
    cases hf : lastFork? ts with
    | some f =>
      obtain ⟨⟨path, hpath⟩, hbelow⟩ := h.lasting.of_fork hf
      have hwhole :=
        lastFork?_append_fork xs
          ((lastFork?_append_lines ts hlines).trans (congrArg (Option.map _) hf))
      refine .fork hwhole ⟨path, ?_⟩ hbelow
      rw [Fork.pathsAll_rest] at hpath ⊢
      rw [pathsAll_append, ← List.append_assoc]
      exact List.mem_append_left _ hpath
    | none =>
      have hends : lastFork? (ts ++ ys) = none := by rw [lastFork?_append_lines ts hlines, hf]; rfl
      have hwhole := lastFork?_append_lines xs hends
      cases hg : lastFork? xs with
      | none => exact .leaf (by rw [hwhole, hg]; rfl)
      | some g =>
        rw [hg] at hwhole
        refine .fork hwhole ⟨guards, ?_⟩ (lasting_of_idle hx hg s)
        rw [Fork.pathsAll_rest, pathsAll_append]
        exact List.mem_append_right _ (List.mem_append_right _ hreached)
  · cases hf : lastFork? ts with
    | some f =>
      have hwhole :=
        lastFork?_append_fork xs
          ((lastFork?_append_lines ts hlines).trans (congrArg (Option.map _) hf))
      have hchecks := h.checks
      rw [checks_of_fork hf] at hchecks
      rwa [checks_of_fork hwhole]
    | none =>
      have hnone := h.checks
      rw [checks_of_leaf hf, List.prefix_nil] at hnone
      rw [hnone]
      exact List.nil_prefix
  · rw [pathsAll_append, pathsAll_append]
    intro p hp hwin
    rcases List.mem_append.1 hp with hp | hp
    · rw [isWin_of_idle hx p hp] at hwin
      cases hwin
    · rcases List.mem_append.1 hp with hp | hp
      · exact h.returns p hp hwin
      · rw [isWin_of_idle hy p hp] at hwin
        cases hwin

/-- A branch around a sequence. -/
theorem Leads.branch {guards : List Guard} {s : Stmt ι} {t e : List (Stmt ι)} (h : Leads guards s t)
    (check : ι) (guard : Guard) (he : ∀ s ∈ e, s.Idle) :
    Leads (guard :: guards) s [.branch check guard t e []] := by
  have hfork : lastFork? [Stmt.branch check guard t e []] = some ⟨[], check, guard, t, e, [], []⟩ :=
    rfl
  have hpaths : pathsAll [Stmt.branch check guard t e []] =
      (pathsAll t).map (onWay [guard]) ++ pathsAll e := by
    simp only [pathsAll, paths, List.append_nil]
  have hreached : (guard :: guards, s) ∈ (pathsAll t).map (onWay [guard]) :=
    List.mem_map_of_mem h.reached
  refine ⟨?_, ?_, ?_, ?_⟩
  · rw [hpaths]
    exact List.mem_append_left _ hreached
  · refine .fork hfork ⟨guard :: guards, ?_⟩ h.lasting
    rw [Fork.pathsAll_rest]
    exact List.mem_append_left _ (List.mem_append_left _ hreached)
  · rw [checks_of_fork hfork]
    exact (List.cons_prefix_cons).2 ⟨rfl, h.checks⟩
  · rw [hpaths]
    intro p hp hwin
    rcases List.mem_append.1 hp with hp | hp
    · obtain ⟨q, hq, rfl⟩ := List.mem_map.1 hp
      exact congrArg (guard :: ·) (h.returns q hq hwin)
    · rw [isWin_of_idle he p hp] at hwin
      cases hwin

end Stmt

/-! ### Chains -/

namespace Matcher

open Stmt

theorem idle_line {ι : Type} {id : ι} {x : Line} {comment : Option String} {off : Bool}
    (h : x ≠ .ret true) : (Stmt.line id x comment off).Idle := by
  refine ⟨fun p hp => ?_, fun _ _ _ _ _ h => by cases h⟩
  rw [List.mem_singleton.1 hp]
  cases x with
  | ret value => cases value <;> first | rfl | exact absurd rfl h
  | _ => rfl

theorem idle_one {ι : Type} (id : ι) {x : Line} (h : x ≠ .ret true) :
    ∀ s ∈ [fresh id x], s.Idle := by
  intro s hs
  rw [List.mem_singleton.1 hs]
  exact idle_line h

theorem isWin_assignments {first second : Trail × Binding} :
    ∀ p ∈ pathsAll (calmAll (assignments first second)), p.2.isWin = false :=
  isWin_of_idle fun s hs => by
    simp only [assignments, calmAll, List.mem_cons, List.not_mem_nil, or_false] at hs
    rcases hs with rfl | rfl | rfl <;> exact idle_line (by simp [Line.calm])

/-- The statements that introduce operands are idle. -/
theorem Setup.idle {t : Trail} {s : Stmt Unit} (h : Setup t s) : s.calm.Idle := by
  have under : ∀ {ps : List (List Guard × Stmt Unit)} {guard : Guard},
      (∀ p ∈ ps, p.2.isWin = false) → ∀ p ∈ ps.map (onWay [guard]), p.2.isWin = false := by
    intro ps guard hps p hp
    obtain ⟨q, hq, rfl⟩ := List.mem_map.1 hp
    exact hps q hq
  cases h with
  | noop => exact idle_line (by simp [Line.calm])
  | implied guard => exact idle_line (by simp [Line.calm])
  | operand i => exact idle_line (by simp [Line.calm])
  | declaration i => exact idle_line (by simp [Line.calm])
  | choice guard _ i j i' j' β γ β' γ' =>
    refine ⟨?_, fun _ _ _ _ _ h => by cases h; rfl⟩
    rw [calm, paths]
    refine List.forall_mem_append.2
      ⟨under isWin_assignments, List.forall_mem_append.2 ⟨isWin_assignments, List.forall_mem_nil _⟩⟩
  | choiceOfThree guard short _ _ i j i' j' i'' j'' β γ β' γ' β'' γ'' =>
    have hnoop : ∀ p ∈ pathsAll (calmAll [Stmt.noop ()]), p.2.isWin = false :=
      isWin_of_idle (idle_one () (x := .noop) (by simp))
    refine ⟨?_, fun _ _ _ _ _ h => by cases h; rfl⟩
    rw [calm, paths]
    refine List.forall_mem_append.2
      ⟨under isWin_assignments, List.forall_mem_append.2 ⟨isWin_assignments, ?_⟩⟩
    rw [calmAll, calm, pathsAll, paths]
    exact List.forall_mem_append.2 ⟨List.forall_mem_append.2
        ⟨under isWin_assignments, List.forall_mem_append.2 ⟨hnoop, List.forall_mem_nil _⟩⟩,
      List.forall_mem_nil _⟩

theorem calmAll_eq_map {ι : Type} (ts : List (Stmt ι)) : calmAll ts = ts.map calm := by
  induction ts with
  | nil => rfl
  | cons s rest ih => rw [calmAll, ih, List.map_cons]

/-! ### How matchers are put together -/

/-- The matcher of a rule, put together around the line that replaces the matched term. The checks
are made one inside the other, and statements with a property stand before them. -/
inductive Built (P : Stmt Unit → Prop) (s : Stmt Unit) : List Guard → List (Stmt Unit) → Prop where
  | action {r : Rule} {code : String} (h : replaceStmt r code = s) :
      Built P s [] (actionBody r code)
  | under {guards : List Guard} {t : List (Stmt Unit)} (guard : Guard) (body : Built P s guards t) :
      Built P s (guard :: guards) [.branch () guard t [Stmt.noop ()] []]
  | surround {guards : List Guard} {xs ts ys : List (Stmt Unit)} (inner : Built P s guards ts)
      (before : ∀ x ∈ xs, P x) (after : ∀ y ∈ ys, y = Stmt.noop () ∨ y = fresh () (.ret false)) :
      Built P s guards (xs ++ (ts ++ ys))

section Built

variable {P : Stmt Unit → Prop} {s : Stmt Unit}

theorem isBranch_after {ys : List (Stmt Unit)}
    (h : ∀ y ∈ ys, y = Stmt.noop () ∨ y = fresh () (.ret false)) :
    ∀ y ∈ ys, y.isBranch = false := by
  intro y hy
  rcases h y hy with rfl | rfl <;> rfl

theorem placeholders_after (ids : List Unit) :
    ∀ y ∈ calmAll (ids.map placeholder), y = Stmt.noop () ∨ y = fresh () (.ret false) := by
  rw [calmAll_eq_map, List.map_map]
  intro y hy
  obtain ⟨id, -, rfl⟩ := List.mem_map.1 hy
  exact Or.inl rfl

theorem Built.after_one {guards : List Guard} {x : Stmt Unit} {ts : List (Stmt Unit)}
    (h : Built P s guards ts) (hx : P x) : Built P s guards (x :: ts) := by
  have hbefore : ∀ y ∈ [x], P y := List.forall_mem_singleton.2 hx
  have hbuilt := h.surround hbefore (List.forall_mem_nil _)
  rwa [List.append_nil] at hbuilt

/-- A chain around a matcher. -/
theorem built_fill {k : Chain Unit} (hk : ∀ x ∈ k.lines, P x.calm) {guards : List Guard}
    {ts : List (Stmt Unit)} (h : Built P s guards (calmAll ts)) :
    Built P s (k.guards ++ guards) (calmAll (k.fill ts)) := by
  have hcalm : ∀ {xs : List (Stmt Unit)}, (∀ x ∈ xs, P x.calm) → ∀ x ∈ calmAll xs, P x := by
    intro xs hxs
    rw [calmAll_eq_map]
    exact List.forall_mem_map.2 hxs
  induction k with
  | hole before mark after =>
    rw [Chain.fill, calmAll_append, calmAll_append]
    exact h.surround (hcalm hk) (placeholders_after after)
  | under before check guard inner otherwise after ih =>
    obtain ⟨hbefore, hinner⟩ := List.forall_mem_append.1 hk
    rw [Chain.fill, calmAll_append, calmAll, calm]
    exact ((ih hinner).under guard).surround (hcalm hbefore) (placeholders_after after)

theorem built_underIf (hnoop : P (Stmt.noop ())) {guards : List Guard} {body : List (Stmt Unit)}
    (h : Built P s guards (calmAll body)) (needed : Bool) (guard : Guard) :
    Built P s ((if needed then [guard] else []) ++ guards)
      (calmAll (underIf needed guard body)) := by
  cases needed with
  | false => exact h
  | true => exact (h.under guard).after_one hnoop

theorem calmAll_actionBody (r : Rule) (code : String) :
    calmAll (actionBody r code) = actionBody r code := by
  unfold actionBody replaceStmt
  split_ifs <;> rfl

end Built

/-- The checks of an action, the texts of its conditions being `texts`. -/
def actionGuards (r : Rule) (texts : List String) : List Guard :=
  (if !r.pattern.metaTrails.equalities.isEmpty then
      [.structurallyEqual r.pattern.metaTrails.equalities]
    else []) ++ if !texts.isEmpty then [.free (" && ".intercalate texts)] else []

theorem built_actionCode {P : Stmt Unit → Prop} (hnoop : P (Stmt.noop ())) {l : Language}
    {foldConstants : Bool} {r : Rule} {groups : Groups} {action : List (Stmt Unit)}
    (h : actionCode l foldConstants r groups = some action) :
    ∃ texts code, conditionCodes (ruleScope l false r groups) r = .ok texts ∧
      ((ruleScope l foldConstants r groups).code r.replacement []).1 = .ok code ∧
      Built P (replaceStmt r code) (actionGuards r texts) (calmAll action) := by
  obtain ⟨texts, code, htexts, hcode, rfl⟩ := exists_of_actionCode h
  refine ⟨texts, code, htexts, hcode, ?_⟩
  have hbody : Built P (replaceStmt r code) [] (calmAll (actionBody r code)) := by
    rw [calmAll_actionBody]
    exact .action rfl
  have hinner := built_underIf hnoop hbody (!texts.isEmpty) (.free (" && ".intercalate texts))
  rw [List.append_nil] at hinner
  exact built_underIf hnoop hinner _ _

end Matcher

open Matcher Stmt

/-- The checks that the matcher of a rule makes before it returns `true`, one inside the other, and
the line that replaces the matched term under them. -/
structure Rule.Parts where
  checks : List Guard
  replacing : Stmt Unit

/-- The parts of the matcher of a rule. -/
def Rule.parts? (o : CompileOptions) (l : Language) (r : Rule) : Option Rule.Parts :=
  (patternChain (matcherOptions o) l r.pattern Trail.root Table.empty).bind fun (k, groups) =>
    match conditionCodes (ruleScope l false r groups) r,
      ((ruleScope l o.foldConstants r groups).code r.replacement []).1 with
    | .ok texts, .ok code =>
      some ⟨k.elim [] Chain.guards ++ actionGuards r texts, replaceStmt r code⟩
    | _, _ => none

/-- **How the matcher of a rule is put together**, if the statements of the chain of its pattern
have the property. -/
theorem built_ruleCode {P : Stmt Unit → Prop} (hnoop : P (Stmt.noop ())) {o : CompileOptions}
    {l : Language} {r : Rule}
    (hlines : ∀ {k groups},
      patternChain (matcherOptions o) l r.pattern Trail.root Table.empty = some (some k, groups) →
      ∀ x ∈ k.lines, P x.calm)
    {code : List (Stmt Unit)} (h : ruleCode (matcherOptions o) l o.foldConstants r = some code) :
    ∃ parts, r.parts? o l = some parts ∧ Built P parts.replacing parts.checks code := by
  obtain ⟨k, groups, action, hk, ha, rfl⟩ := exists_of_ruleCode h
  obtain ⟨texts, replacement, htexts, hreplacement, haction⟩ := built_actionCode hnoop ha
  refine ⟨⟨k.elim [] Chain.guards ++ actionGuards r texts, replaceStmt r replacement⟩, ?_, ?_⟩
  · rw [Rule.parts?, hk, Option.bind_some]
    simp only [htexts, hreplacement]
  · have hwith : Built P (replaceStmt r replacement)
        (k.elim [] Chain.guards ++ actionGuards r texts) (calmAll (withAction action k)) := by
      cases k with
      | none => exact haction.after_one hnoop
      | some k => exact built_fill (hlines hk) haction
    have hend : ∀ y ∈ [fresh () (Line.ret false)], y = Stmt.noop () ∨ y = fresh () (.ret false) :=
      List.forall_mem_singleton.2 (Or.inr rfl)
    exact hwith.surround (List.forall_mem_nil _) hend

/-- The statement introduces operands, its placeholders taken out. -/
def IsSetup (x : Stmt Unit) : Prop := ∃ t y, Setup t y ∧ y.calm = x

theorem isSetup_noop : IsSetup (Stmt.noop ()) := ⟨Trail.root, Stmt.noop (), .noop, rfl⟩

theorem built_of_setup {o : CompileOptions} {l : Language} {r : Rule} {code : List (Stmt Unit)}
    (h : ruleCode (matcherOptions o) l o.foldConstants r = some code) :
    ∃ parts, r.parts? o l = some parts ∧ Built IsSetup parts.replacing parts.checks code := by
  refine built_ruleCode isSetup_noop (fun hk x hx => ?_) h
  obtain ⟨t, ht⟩ := patternChain_setup hk x hx
  exact ⟨t, x, ht, rfl⟩

theorem lastFork?_actionBody (r : Rule) (code : String) : lastFork? (actionBody r code) = none := by
  unfold actionBody replaceStmt
  split_ifs <;> rfl

theorem leads_actionBody (r : Rule) (code : String) :
    Leads [] (replaceStmt r code) (actionBody r code) := by
  have hreplace : pathsAll [replaceStmt r code] = [([], replaceStmt r code)] := by
    unfold replaceStmt
    split_ifs <;> rfl
  have hpaths : pathsAll (actionBody r code) =
      [([], Stmt.noop ()), ([], replaceStmt r code), ([], fresh () (.ret true))] := by
    have hparts : actionBody r code = [Stmt.noop ()] ++
        ([replaceStmt r code] ++ [fresh () (.ret true)]) := rfl
    rw [hparts, pathsAll_append, pathsAll_append, hreplace]
    rfl
  refine ⟨by rw [hpaths]; simp, .leaf (lastFork?_actionBody r code), List.nil_prefix,
    fun p hp _ => ?_⟩
  rw [hpaths] at hp
  simp only [List.mem_cons, List.not_mem_nil, or_false] at hp
  rcases hp with rfl | rfl | rfl <;> rfl

/-- A matcher that is put together with idle statements leads through its checks. -/
theorem Matcher.Built.leads {s : Stmt Unit} {guards : List Guard} {ts : List (Stmt Unit)}
    (h : Built IsSetup s guards ts) : Leads guards s ts := by
  induction h with
  | action h => rw [← h]; exact leads_actionBody _ _
  | under guard body ih =>
    exact ih.branch () guard (idle_one () (by simp))
  | surround inner before after ih =>
    refine ih.surround ?_ ?_ (lastFork?_eq_none.2 (isBranch_after after))
    · intro x hx
      obtain ⟨t, y, ht, rfl⟩ := before x hx
      exact ht.idle
    · intro y hy
      rcases after y hy with rfl | rfl <;> exact idle_line (by simp)

/-- **The matcher of a rule** leads through the checks of the rule. -/
theorem leads_ruleCode {o : CompileOptions} {l : Language} {r : Rule} {code : List (Stmt Unit)}
    (h : ruleCode (matcherOptions o) l o.foldConstants r = some code) :
    ∃ parts, r.parts? o l = some parts ∧ Leads parts.checks parts.replacing code := by
  obtain ⟨parts, hparts, hbuilt⟩ := built_of_setup h
  exact ⟨parts, hparts, hbuilt.leads⟩

end Rulewright
