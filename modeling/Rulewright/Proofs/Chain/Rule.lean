import Rulewright.Proofs.Chain.Build
import Rulewright.Proofs.Tree.Calm

/-!
# The code of a rule

The matcher of a rule is the chain of its pattern with the action of the rule at its innermost
point, and a return behind it.

* `ruleCode`: the code of a rule, said without a store of nodes.
* `compile_owns`: compiling a rule puts this code into the store and leaves the rest as it is.
* `execAll_ruleCode`: a run gets to the action if it passes the chain.
-/

namespace Rulewright.Matcher

open Stmt Chain

/-- A sequence of a single branch. -/
def underCode (guard : Guard) (body : List (Stmt Unit)) : List (Stmt Unit) :=
  [noop (), .branch () guard body [noop ()] []]

/-- The line that replaces the matched term, kept as a comment if a condition does the work. -/
def replaceStmt (r : Rule) (code : String) : Stmt Unit :=
  let x : Line := .custom (Trail.rootMark ++ ".replace(" ++ code ++ ");")
  if r.hasModifyingCondition then .line () x (some modifyingNote) true else fresh () x

/-- The code under a guard, if there is something to check. -/
def underIf (needed : Bool) (guard : Guard) (body : List (Stmt Unit)) : List (Stmt Unit) :=
  if needed then underCode guard body else body

/-- What is done under the checks of an action. -/
def actionBody (r : Rule) (code : String) : List (Stmt Unit) :=
  [noop (), replaceStmt r code, fresh () (.ret true)]

/-- What a rule may refer to. -/
def ruleScope (l : Language) (foldConstants : Bool) (r : Rule) (groups : Groups) : Scope :=
  { language := l, metas := r.pattern.metaTrails, groups, foldConstants }

/-- The checks of a rule that need the whole match, and the replacement. -/
def actionCode (l : Language) (foldConstants : Bool) (r : Rule) (groups : Groups) :
    Option (List (Stmt Unit)) :=
  match conditionCodes (ruleScope l false r groups) r,
    ((ruleScope l foldConstants r groups).code r.replacement []).1 with
  | .ok conditions, .ok code =>
    let pairs := r.pattern.metaTrails.equalities
    some (underIf (!pairs.isEmpty) (.structurallyEqual pairs)
      (underIf (!conditions.isEmpty) (.free (" && ".intercalate conditions)) (actionBody r code)))
  | _, _ => none

/-- The code of a pattern with an action at its innermost point. -/
def withAction (action : List (Stmt Unit)) : Option (Chain Unit) → List (Stmt Unit)
  | none => noop () :: action
  | some k => k.fill action

/-- The code of a rule. -/
def ruleCode (o : Options) (l : Language) (foldConstants : Bool) (r : Rule) :
    Option (List (Stmt Unit)) := do
  let (chain, groups) ← patternChain o l r.pattern Trail.root Table.empty
  let action ← actionCode l foldConstants r groups
  return calmAll (withAction action chain) ++ [fresh () (.ret false)]

theorem exists_of_actionCode {l : Language} {foldConstants : Bool} {r : Rule} {groups : Groups}
    {action : List (Stmt Unit)} (h : actionCode l foldConstants r groups = some action) :
    ∃ texts code, conditionCodes (ruleScope l false r groups) r = .ok texts ∧
      ((ruleScope l foldConstants r groups).code r.replacement []).1 = .ok code ∧
      action =
        underIf (!r.pattern.metaTrails.equalities.isEmpty)
          (.structurallyEqual r.pattern.metaTrails.equalities)
          (underIf (!texts.isEmpty) (.free (" && ".intercalate texts)) (actionBody r code)) := by
  unfold actionCode at h
  split at h
  · rename_i texts code htexts hcode
    cases h
    exact ⟨texts, code, htexts, hcode, rfl⟩
  · cases h

theorem exists_of_ruleCode {o : Options} {l : Language} {foldConstants : Bool} {r : Rule}
    {code : List (Stmt Unit)} (h : ruleCode o l foldConstants r = some code) :
    ∃ k groups action, patternChain o l r.pattern Trail.root Table.empty = some (k, groups) ∧
      actionCode l foldConstants r groups = some action ∧
      code = calmAll (withAction action k) ++ [fresh () (.ret false)] := by
  obtain ⟨⟨k, groups⟩, hk, h⟩ := Option.bind_eq_some_iff.1 h
  obtain ⟨action, ha, h⟩ := Option.bind_eq_some_iff.1 h
  exact ⟨k, groups, action, hk, ha, (Option.some.inj h).symm⟩

section Action

variable {l : Language} {foldConstants : Bool} {r : Rule} {p p' : Progress} {F : Multiset Cell}

/-- The store owns a sequence with the given code. -/
def OwnsCode (p p' : Progress) (F : Multiset Cell) (head : NodeId) (code : List (Stmt Unit)) :
    Prop :=
  ∃ ts : List (Stmt NodeId), Stmt.strip ts = code ∧ start ts = head ∧ ts ≠ [] ∧ SolidAll ts ∧
    p'.groups = p.groups ∧ p'.code.Owns (cells .root none ts + F)

theorem underGuard_own {p1 : Progress} {guard : Guard} {body head : NodeId}
    {code : List (Stmt Unit)} (h : OwnsCode p p1 F body code)
    (hu : underGuard guard body p1 = .ok head p') :
    OwnsCode p p' F head (underCode guard code) := by
  obtain ⟨ts, rfl, rfl, hne, hs, hg, ho⟩ := h
  obtain ⟨check, p2, hc, h2⟩ := Build.bind_ok hu
  obtain ⟨otherwise, hw2⟩ := createIf_own hne ho hc
  have hw3 := sequence_own (by simp) hw2.owns h2
  refine ⟨_, rfl, rfl, by simp, ?_, (hw2.trans hw3).groups.trans hg, hw3.owns⟩
  exact ⟨trivial, ⟨hne, by simp, hs, ⟨trivial, trivial⟩, trivial⟩, trivial⟩

theorem underIf_own {p1 : Progress} {needed : Bool} {guard : Guard} {body head : NodeId}
    {code : List (Stmt Unit)} (h : OwnsCode p p1 F body code)
    (hu : (if needed then pure body else underGuard guard body : Build NodeId) p1 = .ok head p') :
    OwnsCode p p' F head (underIf (!needed) guard code) := by
  cases needed with
  | true =>
    obtain ⟨rfl, rfl⟩ := Build.pure_ok hu
    exact h
  | false => exact underGuard_own h hu

/-- The line that replaces the matched term is put into the store, and the build goes on. -/
theorem replace_own {α : Type} {code : String} {replace : NodeId} {rest : Build α} {a : α}
    {p1 : Progress} (h : p.code.Owns F)
    (ha : alloc (.custom (Trail.rootMark ++ ".replace(" ++ code ++ ");")) p = .ok replace p1)
    (hm : (if r.hasModifyingCondition then
        edit (·.commentOut replace modifyingNote) >>= fun _ => rest
      else rest) p1 = .ok a p') :
    ∃ (s : Stmt NodeId) (p2 : Progress), s.map (fun _ => ()) = replaceStmt r code ∧ s.id = replace ∧
      s.Solid ∧ p2.groups = p.groups ∧ p2.code.Owns (cells .root none [s] + F) ∧
      rest p2 = .ok a p' := by
  have hw1 := alloc_own (x := .custom _) h ha
  unfold replaceStmt
  split_ifs at hm ⊢ with hmod
  · obtain ⟨_, p2, he, h2⟩ := Build.bind_ok hm
    obtain rfl := Build.edit_ok he
    exact ⟨.line replace _ (some modifyingNote) true,
      { p1 with code := p1.code.commentOut replace modifyingNote }, rfl, rfl, trivial, hw1.groups,
      hw1.owns.commentOut modifyingNote, h2⟩
  · exact ⟨fresh replace _, p1, rfl, rfl, trivial, hw1.groups, hw1.owns, hm⟩

theorem actionBody_own {code : String} {s : Stmt NodeId} {p1 : Progress} {yes head : NodeId}
    (hs : s.map (fun _ => ()) = replaceStmt r code) (hsolid : s.Solid)
    (h : p.code.Owns (cells .root none [s] + F)) (hy : alloc (.ret true) p = .ok yes p1)
    (hb : create (·.sequence [s.id, yes]) p1 = .ok head p') :
    OwnsCode p p' F head (actionBody r code) := by
  have hw1 := alloc_own (x := .ret true) h hy
  obtain ⟨c', hc', h4⟩ :=
    Code.Owns.sequence (m := F) (t := [[s], [fresh yes (.ret true)]]) (by simp) (hw1.owns.swap.of_eq
      (by simp only [List.map_cons, List.map_nil, List.sum_cons, List.sum_nil]; abel))
  obtain ⟨rfl, rfl⟩ := Build.create_ok hb
  have hseq : p1.code.sequence [s.id, yes] = (p1.code.size, c') := hc'
  rw [hseq]
  refine ⟨noop p1.code.size :: [[s], [fresh yes (.ret true)]].flatten, ?_, rfl, by simp,
    ⟨trivial, hsolid, trivial, trivial⟩, hw1.groups, h4⟩
  simp only [List.flatten_cons, List.flatten_nil, List.append_nil, strip_cons, strip_append, hs]
  rfl

/-- The action of a rule is put into the store. -/
theorem action_own {head : NodeId} (h : p.code.Owns F)
    (ha : action l foldConstants r p = .ok head p') :
    ∃ code, actionCode l foldConstants r p.groups = some code ∧ OwnsCode p p' F head code := by
  unfold action at ha
  obtain ⟨q, p1, hq, h1⟩ := Build.bind_ok ha
  obtain ⟨rfl, rfl⟩ := Build.get_ok hq
  obtain ⟨conditions, p2, hl2, h2⟩ := Build.bind_ok h1
  obtain ⟨hconditions, rfl⟩ := Build.lift_ok hl2
  obtain ⟨code, p3, hl3, h3⟩ := Build.bind_ok h2
  obtain ⟨hcode, rfl⟩ := Build.lift_ok hl3
  have hscope : conditionCodes (ruleScope l false r p3.groups) r = .ok conditions := hconditions
  have hscope' : ((ruleScope l foldConstants r p3.groups).code r.replacement []).1 = .ok code :=
    hcode
  simp only [actionCode, hscope, hscope']
  refine ⟨_, rfl, ?_⟩
  obtain ⟨replace, p4, ha4, h4⟩ := Build.bind_ok h3
  obtain ⟨s, p5, hs, rfl, hsolid, hg5, ho5, h5⟩ := replace_own h ha4 h4
  obtain ⟨yes, p6, hy, h6⟩ := Build.bind_ok h5
  obtain ⟨body, p7, hb, h7⟩ := Build.bind_ok h6
  obtain ⟨ts, h8⟩ := actionBody_own hs hsolid ho5 hy hb
  have hbody : OwnsCode p3 p7 F body (actionBody r code) :=
    ⟨ts, h8.1, h8.2.1, h8.2.2.1, h8.2.2.2.1, h8.2.2.2.2.1.trans hg5, h8.2.2.2.2.2⟩
  obtain ⟨body', p9, hc, h9⟩ := Build.ite_bind_ok h7
  exact underIf_own (underIf_own hbody hc) h9

end Action

section Rule

variable {o : Options} {l : Language} {foldConstants : Bool} {r : Rule} {p p' : Progress}
  {F : Multiset Cell}

/-- The matcher of a pattern with the action at its innermost point. -/
theorem withAction_own {head action : NodeId} {k : Option (Chain Unit)} {p1 : Progress}
    (hk : ∀ x, k = some x → IsFit x) (hb : Builds p F head k)
    (ha : Matcher.action l foldConstants r p = .ok action p1) :
    ∃ code, actionCode l foldConstants r p.groups = some code ∧ OwnsCode p
      { p1 with
        code :=
          match p1.code.findPlaceholder? head with
          | some placeholder => p1.code.replace placeholder action
          | none => p1.code.append head action } F head (withAction code k) := by
  cases k with
  | none =>
    obtain ⟨code, hcode, ts, rfl, rfl, hne, hs, hg, ho⟩ := action_own hb.2 ha
    have hfind :=
      ho.swap.findPlaceholder?_eq (show SolidAll [noop head] from ⟨trivial, trivial⟩) (by simp)
    rw [start_cons, id_noop, show holeAll? [noop head] = none from rfl] at hfind
    have hown := ho.swap.append (by simp) hne
    rw [start_cons, id_noop] at hown
    rw [hfind]
    exact ⟨_, hcode, noop head :: ts, rfl, rfl, by simp, ⟨trivial, hs⟩, hg, hown⟩
  | some k =>
    obtain ⟨-, k', rfl, rfl, ho'⟩ := hb
    obtain ⟨code, hcode, ts, rfl, rfl, hne, hs, hg, ho⟩ := action_own ho' ha
    have hfit := hk _ rfl
    have ht := tidy_of_strip hfit.1
    obtain ⟨mark, hmark⟩ : ∃ mark, k'.mark? = some mark := by
      have := hfit.2.2
      rw [mark?_strip, Option.isSome_map] at this
      exact Option.isSome_iff_exists.1 this
    rw [ho.swap.findPlaceholder?_mark ht hmark]
    refine ⟨_, hcode, k'.fill ts, strip_fill k' ts, ?_, fill_ne_nil ht ts, solidAll_fill ht hs, hg,
      ho.swap.replace_mark ht hmark hne⟩
    rw [start_fill ht.before.ne_nil, start_code ht.before.ne_nil]

/-- The end of the matcher of a rule. -/
theorem finish_own {ts : List (Stmt NodeId)} {head : NodeId} (hs : SolidAll ts) (hne : ts ≠ [])
    (h : p.code.Owns (cells .root none ts + F))
    (hf : (do
      edit (neutralizePlaceholders · (start ts))
      let no ← alloc (.ret false)
      append (start ts) no
      return start ts : Build NodeId) p = .ok head p') :
    ∃ no, head = start ts ∧
      p'.code.Owns (cells .root none (calmAll ts ++ [fresh no (.ret false)]) + F) := by
  obtain ⟨_, p1, he, h1⟩ := Build.bind_ok hf
  obtain rfl := Build.edit_ok he
  obtain ⟨no, p2, hal, h2⟩ := Build.bind_ok h1
  have hw := alloc_own (x := .ret false) (h.neutralizePlaceholders hs hne) hal
  obtain ⟨_, p3, happ, h3⟩ := Build.bind_ok h2
  obtain ⟨rfl, rfl⟩ := Build.pure_ok h3
  have hstart : start (calmAll ts) = start ts := by rw [start, start?_calmAll, start]
  rw [← hstart] at happ
  exact ⟨no, rfl, (append_own (calmAll_ne_nil hne) (by simp) hw.owns.swap happ).owns⟩

/-- **The matcher of a rule is the code of the rule.** -/
theorem matchRule_own {head : NodeId} (hd : p.deepest = true) (hg : p.groups = Table.empty)
    (h : p.code.Owns F) (hm : matchRule o l foldConstants r p = .ok head p') :
    ∃ ts, ruleCode o l foldConstants r = some (Stmt.strip ts) ∧ start ts = head ∧ ts ≠ [] ∧
      SolidAll ts ∧ p'.code.Owns (cells .root none ts + F) := by
  unfold matchRule at hm
  obtain ⟨head', p1, hp, h1⟩ := Build.bind_ok hm
  obtain ⟨k, hchain, hbuilds⟩ := matchPattern_ok hd h hp
  rw [hg] at hchain
  obtain ⟨action, p2, ha, h2⟩ := Build.bind_ok h1
  obtain ⟨q, p3, hq, h3⟩ := Build.bind_ok h2
  obtain ⟨rfl, rfl⟩ := Build.get_ok hq
  -- the two ways to put the action differ in the store only
  have hput : (do
      edit (neutralizePlaceholders · head')
      let no ← alloc (.ret false)
      append head' no
      return head' : Build NodeId)
      { p3 with
        code :=
          match p3.code.findPlaceholder? head' with
          | some placeholder => p3.code.replace placeholder action
          | none => p3.code.append head' action } = .ok head p' := by
    cases hf : p3.code.findPlaceholder? head' with
    | some placeholder =>
      rw [hf] at h3
      obtain ⟨_, p4, he, h4⟩ := Build.bind_ok h3
      rw [← Build.edit_ok he]; exact h4
    | none =>
      rw [hf] at h3
      obtain ⟨_, p4, he, h4⟩ := Build.bind_ok h3
      rw [← Build.append_ok he]; exact h4
  have hfit : ∀ x, k = some x → IsFit x := fun x hx => patternChain_fit (hx ▸ hchain)
  obtain ⟨code, hcode, ts, hts, rfl, hne, hs, -, ho⟩ := withAction_own hfit hbuilds ha
  obtain ⟨no, rfl, ho'⟩ := finish_own hs hne ho hput
  refine ⟨_, ?_, ?_, by simp, ?_, ho'⟩
  · have hcalm : Stmt.strip (calmAll ts) = calmAll (withAction code k) := by
      rw [← hts]; exact (map_calm_all _).2 ts
    simp only [ruleCode, hchain, hcode, Option.bind_eq_bind, Option.bind_some, strip_append, hcalm]
    rfl
  · rw [start_append (calmAll_ne_nil hne), start, start?_calmAll, start]
  · exact (solidAll_append _ _).2 ⟨solid_calm_all.2 ts hs, trivial, trivial⟩

/-- How the options of a compilation are seen by the matcher. -/
def matcherOptions (o : CompileOptions) : Options :=
  { skipRootGuard := o.skipRootGuard, joinComparisons := o.joinComparisons }

/-- **Compiling a rule** puts its code into the store, beside what the store owned. -/
theorem compile_owns {o : CompileOptions} {c c' : Code} {head : NodeId} (h : c.Owns F)
    (hc : r.compile o l c = (.ok head, c')) :
    ∃ ts, ruleCode (matcherOptions o) l o.foldConstants r = some (Stmt.strip ts) ∧ start ts = head ∧
      ts ≠ [] ∧ SolidAll ts ∧ c'.Owns (cells .root none ts + F) := by
  unfold Rule.compile at hc
  dsimp only at hc
  split at hc
  · rename_i head' p' hm
    cases hc
    exact matchRule_own (o := matcherOptions o) rfl rfl h hm
  · cases hc

end Rule

/-! ### What the code of a rule does -/

section Run

variable (l : Language) (free : String → Bool)

/-- The terms bound when the matcher of a pattern is passed. -/
def passed? (k : Option (Chain Unit)) (b : Bindings) : Option Bindings :=
  match k with
  | none => some b
  | some k => k.pass l free b

/-- The checks of the action of a rule hold, the texts of its conditions being `texts`. -/
def actionHolds (r : Rule) (texts : List String) (b : Bindings) : Bool :=
  Guard.holds l free b (.structurallyEqual r.pattern.metaTrails.equalities) &&
    (texts.isEmpty || Guard.holds l free b (.free (" && ".intercalate texts)))

/-- What the action of a rule fires, the code of its replacement being `code`. -/
def firing (r : Rule) (code : String) : List String :=
  if r.hasModifyingCondition then []
  else [withRoot (Trail.rootMark ++ ".replace(" ++ code ++ ");") "formula"]

theorem execAll_underIf (needed : Bool) (guard : Guard) (body : List (Stmt Unit))
    (p : Code.Progress) :
    execAll l free (underIf needed guard body) p =
      if !needed || guard.holds l free p.bindings then execAll l free body p else (none, p) := by
  cases needed with
  | false => rfl
  | true =>
    cases hg : guard.holds l free p.bindings with
    | true =>
      simp only [underIf, if_true, underCode, execAll, exec, noop, fresh, Line.exec, hg,
        Bool.false_eq_true, if_false]
      rcases execAll l free body p with ⟨_ | value, q⟩ <;> rfl
    | false => simp [underIf, underCode, execAll, exec, noop, fresh, Line.exec, execElseIfs, hg]

theorem isCommentLine_replace (code : String) :
    Code.isCommentLine (Trail.rootMark ++ ".replace(" ++ code ++ ");") = false := by
  rw [Code.isCommentLine, String.toList_append, String.toList_append, String.toList_append]; rfl

theorem execAll_actionBody (r : Rule) (code : String) (p : Code.Progress) :
    execAll l free (actionBody r code) p =
      (some true, { p with fired := p.fired ++ firing r code }) := by
  unfold actionBody replaceStmt firing
  split_ifs with hm
  · simp [execAll, exec, noop, fresh, Line.exec]
  · simp [execAll, exec, noop, fresh, Line.exec, isCommentLine_replace]

/-- What the action of a rule does. -/
theorem execAll_actionCode {foldConstants : Bool} {r : Rule} {groups : Groups}
    {action : List (Stmt Unit)} (h : actionCode l foldConstants r groups = some action) :
    ∃ texts code, conditionCodes (ruleScope l false r groups) r = .ok texts ∧
      ((ruleScope l foldConstants r groups).code r.replacement []).1 = .ok code ∧
      ∀ p : Code.Progress,
        execAll l free action p =
          if actionHolds l free r texts p.bindings then
            (some true, { p with fired := p.fired ++ firing r code })
          else (none, p) := by
  obtain ⟨texts, code, htexts, hcode, rfl⟩ := exists_of_actionCode h
  refine ⟨texts, code, htexts, hcode, fun p => ?_⟩
  rw [execAll_underIf, execAll_underIf, execAll_actionBody]
  simp only [actionHolds, Bool.not_not]
  cases hp : r.pattern.metaTrails.equalities.isEmpty with
  | true =>
    rw [List.isEmpty_iff] at hp
    simp [hp, Guard.holds]
  | false =>
    by_cases hg : Guard.holds l free p.bindings
      (.structurallyEqual r.pattern.metaTrails.equalities) = true <;> simp [hg]

/-- What is left after the action or the failed check: the line that returns `false`. -/
theorem execAll_afterAction (r : Rule) (texts : List String) (fired fired' : List String)
    (b : Bindings) :
    ∃ b', (match (if actionHolds l free r texts b then (some true, ⟨fired', b⟩)
        else (none, ⟨fired, b⟩) : Option Bool × Code.Progress) with
      | (some value, q) => (some value, q)
      | (none, q) => execAll l free [fresh () (.ret false)] q) =
      if actionHolds l free r texts b then (some true, ⟨fired', b'⟩)
      else (some false, ⟨fired, b'⟩) := by
  by_cases hh : actionHolds l free r texts b = true
  · exact ⟨b, by simp only [hh, if_true]⟩
  · exact ⟨b, by simp only [hh]; rfl⟩

/-- **What the code of a rule does**: it gets to the action if the chain of the pattern is passed,
and returns `true` if the checks of the action hold then. -/
theorem execAll_ruleCode {o : Options} {foldConstants : Bool} {r : Rule} {code : List (Stmt Unit)}
    (h : ruleCode o l foldConstants r = some code) :
    ∃ k groups texts replacement,
      patternChain o l r.pattern Trail.root Table.empty = some (k, groups) ∧
      conditionCodes (ruleScope l false r groups) r = .ok texts ∧
      ((ruleScope l foldConstants r groups).code r.replacement []).1 = .ok replacement ∧
      ∀ p : Code.Progress, ∃ b,
        execAll l free code p =
          if (passed? l free k p.bindings).any (actionHolds l free r texts) then
            (some true, ⟨p.fired ++ firing r replacement, b⟩)
          else (some false, ⟨p.fired, b⟩) := by
  obtain ⟨k, groups, action, hk, ha, rfl⟩ := exists_of_ruleCode h
  obtain ⟨texts, replacement, htexts, hrepl, hexec⟩ := execAll_actionCode l free ha
  refine ⟨k, groups, texts, replacement, hk, htexts, hrepl, fun p => ?_⟩
  rw [execAll_append, execAll_calm]
  cases k with
  | none =>
    have hnoop : execAll l free (withAction action none) p = execAll l free action p := rfl
    rw [hnoop, hexec]
    exact execAll_afterAction l free r texts _ _ p.bindings
  | some k =>
    have hq := (patternChain_fit hk).1.isQuiet
    obtain hp | ⟨b, hp⟩ := (k.pass l free p.bindings).eq_none_or_eq_some
    · obtain ⟨b, hb⟩ := Chain.execAll_fill_none l free hq hp action
      exact ⟨b, by simp only [withAction, hb, passed?, hp, Option.any_none]; rfl⟩
    · simp only [withAction, Chain.execAll_fill_some l free hq hp, hexec, passed?, hp,
        Option.any_some]
      exact execAll_afterAction l free r texts _ _ b

end Run

end Rulewright.Matcher
