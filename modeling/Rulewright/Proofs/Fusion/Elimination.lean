import Rulewright.Proofs.Chain.Conditions
import Rulewright.Proofs.Fusion.Agreement
import Rulewright.Proofs.Fusion.Repetition

/-!
# Eliminating redundancy from merged code

Definitions that repeat one before or around them are commented out. On a run that binds no trail to
two terms such a definition would bind its trail to the term that is bound there already, so the
code does the same without it. Rules without optional operands bind trails to the parts of the
matched term and have such runs only. Optional operands can bind a trail to a default, and then a
definition may be missed that would have bound it again.

* `boundAll`: the trails that a run binds, with the terms.
* `follows_all`: a run without the definitions that are commented out follows the run with them.
* `distinctAll_ruleCode`: texts tell the lines of a matcher from definitions.
* `eliminated_agrees`: when merged code does the same before and after redundancy is eliminated.
-/

namespace Rulewright

/-! ### What a run binds -/

namespace Stmt

section Bound

variable {ι κ : Type} (l : Language) (free : String → Bool)

mutual

/-- The trails that a run of a statement binds, in order, each with the term that is bound, if there
is one. -/
def bound : Stmt ι → Code.Progress → List (Trail × Option Expr)
  | .line _ (.definition target binding _) _ off, p =>
    if off then [] else [(target, p.bindings.bind binding)]
  | .line _ _ _ _, _ => []
  | .branch _ guard t e es, p =>
    if guard.holds l free p.bindings then boundAll t p
    else
      match boundElseIfs es p with
      | some result => result
      | none => boundAll e p

/-- The same of a sequence. -/
def boundAll : List (Stmt ι) → Code.Progress → List (Trail × Option Expr)
  | [], _ => []
  | s :: rest, p =>
    bound s p ++
      match exec l free s p with
      | (some _, _) => []
      | (none, p) => boundAll rest p

/-- The same of the first `else if` whose guard holds. -/
def boundElseIfs : List (Stmt ι) → Code.Progress → Option (List (Trail × Option Expr))
  | [], _ => none
  | .line _ _ _ _ :: rest, p => boundElseIfs rest p
  | .branch _ guard t _ _ :: rest, p =>
    if guard.holds l free p.bindings then some (boundAll t p) else boundElseIfs rest p

end

theorem bound_map_all (f : ι → κ) :
    (∀ (s : Stmt ι) p, bound l free (s.map f) p = bound l free s p) ∧
    (∀ (ts : List (Stmt ι)) p, boundAll l free (mapAll f ts) p = boundAll l free ts p) ∧
    ∀ (es : List (Stmt ι)) p, boundElseIfs l free (mapAll f es) p = boundElseIfs l free es p := by
  apply run_induct
  case line =>
    intro id x comment off p
    cases x <;> rfl
  case branch =>
    intro id guard t e es ht he hes p
    simp only [map, bound, ht, he, hes]
  case nil => exact fun _ => rfl
  case cons =>
    intro s rest hs hrest p
    simp only [mapAll, boundAll, hs, hrest, (exec_map_all l free f).1 s]
  case choiceNil => exact fun _ => rfl
  case choiceLine =>
    intro id x comment off rest hrest p
    simp only [mapAll, map, boundElseIfs, hrest]
  case choiceBranch =>
    intro id guard t e es rest ht hrest p
    simp only [mapAll, map, boundElseIfs, ht, hrest]

theorem boundAll_strip (ts : List (Stmt ι)) (p : Code.Progress) :
    boundAll l free (strip ts) p = boundAll l free ts p :=
  (bound_map_all l free fun _ => ()).2.1 ts p

end Bound

end Stmt

/-- No trail is bound to two terms. -/
def SingleValued (bound : List (Trail × Option Expr)) : Prop :=
  ∀ a ∈ bound, ∀ b ∈ bound, a.1 = b.1 → a.2 = b.2

instance (bound : List (Trail × Option Expr)) : Decidable (SingleValued bound) :=
  inferInstanceAs (Decidable (∀ a ∈ bound, ∀ b ∈ bound, a.1 = b.1 → a.2 = b.2))

theorem singleValued_of_forall {bound : List (Trail × Option Expr)} {term : Trail → Option Expr}
    (h : ∀ a ∈ bound, a.2 = term a.1) : SingleValued bound := by
  intro a ha b hb heq
  rw [h a ha, h b hb, heq]

/-- The terms that trails are bound to. -/
theorem SingleValued.exists_term {bound : List (Trail × Option Expr)} (h : SingleValued bound) :
    ∃ term : Trail → Option Expr, ∀ a ∈ bound, a.2 = term a.1 := by
  refine ⟨fun t => (bound.find? (·.1 = t)).bind (·.2), fun a ha => ?_⟩
  simp only
  cases hfind : bound.find? (·.1 = a.1) with
  | none => exact absurd (List.find?_eq_none.1 hfind a ha) (by simp)
  | some b =>
    have hsame : b.1 = a.1 := by simpa using List.find?_some hfind
    exact h a ha b (List.mem_of_find?_eq_some hfind) hsame.symm

/-! ### Runs without definitions that are commented out -/

namespace Bindings

variable {b b' : Bindings}

theorem get?_assign (b : Bindings) (target : Trail) (binding : Binding) (t : Trail) :
    (b.assign target binding).get? t = if target = t then b.bind binding else b.get? t := by
  rw [assign]
  cases b.bind binding with
  | none => rw [Table.get?_erase]
  | some e => rw [Table.get?_insert]

/-- What is read at trails is determined by what is bound there. -/
theorem nodeAt_congr (h : ∀ t, b'.get? t = b.get? t) (t : Trail) : b'.nodeAt t = b.nodeAt t := by
  rw [nodeAt, nodeAt]
  induction t.reverse with
  | nil => exact h _
  | cons index above ih => rw [nodeAtReverse, nodeAtReverse, h, ih]

theorem bind_congr (h : ∀ t, b'.get? t = b.get? t) (binding : Binding) :
    b'.bind binding = b.bind binding := by
  cases binding with
  | operand parent index => rw [bind, bind, nodeAt_congr h]
  | same trail => exact nodeAt_congr h trail
  | constructed code value => rfl

end Bindings

open Code Bindings

/-- Two runs have fired the same and bind the same terms, and known trails are bound to their terms.
-/
structure Alike (term : Trail → Option Expr) (known : List Trail) (p p' : Progress) : Prop where
  fired : p'.fired = p.fired
  terms : ∀ t, p'.bindings.get? t = p.bindings.get? t
  known : ∀ t ∈ known, p.bindings.get? t = term t

namespace Alike

variable {term : Trail → Option Expr} {known known' : List Trail} {p p' : Progress} {target : Trail}
  {binding : Binding}

theorem mono (h : Alike term known' p p') (hsub : known ⊆ known') : Alike term known p p' :=
  ⟨h.fired, h.terms, fun t ht => h.known t (hsub ht)⟩

/-- Known trails are bound to their terms still where one of them is bound again, and so is the new
one. -/
theorem known_assign (h : Alike term known p p') (hterm : p.bindings.bind binding = term target) :
    ∀ t ∈ [target] ++ known, (p.bindings.assign target binding).get? t = term t := by
  intro t ht
  rw [get?_assign]
  split_ifs with heq
  · rw [hterm, heq]
  · rcases List.mem_append.1 ht with ht | ht
    · exact absurd (List.mem_singleton.1 ht).symm heq
    · exact h.known t ht

/-- Both runs bind a trail. -/
theorem assign (h : Alike term known p p') (hterm : p.bindings.bind binding = term target) :
    Alike term ([target] ++ known) { p with bindings := p.bindings.assign target binding }
      { p' with bindings := p'.bindings.assign target binding } where
  fired := h.fired
  terms t := by rw [get?_assign, get?_assign, Bindings.bind_congr h.terms, h.terms]
  known := h.known_assign hterm

/-- The first run binds a known trail, and the second one does not. -/
theorem skip (h : Alike term known p p') (hterm : p.bindings.bind binding = term target)
    (hknown : target ∈ known) :
    Alike term ([target] ++ known) { p with bindings := p.bindings.assign target binding }
      p' where
  fired := h.fired
  terms t := by
    rw [get?_assign, h.terms]
    split_ifs with heq
    · rw [hterm, ← heq, h.known target hknown]
    · rfl
  known := h.known_assign hterm

theorem holds (h : Alike term known p p') (l : Language) (free : String → Bool) (guard : Guard) :
    guard.holds l free p'.bindings = guard.holds l free p.bindings :=
  Guard.holds_congr l free (nodeAt_congr h.terms) guard

end Alike

namespace Stmt

variable {l : Language} {free : String → Bool} {term : Trail → Option Expr} {known : List Trail}
  {c : Code}

/-- If the first run binds trails to their terms, then the second one returns and does the same. -/
def Follows (term : Trail → Option Expr) (known known' : List Trail)
    (run run' : Progress → Option Bool × Progress) (bound : Progress → List (Trail × Option Expr)) :
    Prop :=
  ∀ p p', Alike term known p p' → (∀ a ∈ bound p, a.2 = term a.1) →
    (run' p').1 = (run p).1 ∧ Alike term known' (run p).2 (run' p').2

/-- The same of runs that may be not taken at all. -/
def FollowsChoice (term : Trail → Option Expr) (known : List Trail)
    (run run' : Progress → Option (Option Bool × Progress))
    (bound : Progress → Option (List (Trail × Option Expr))) : Prop :=
  ∀ p p', Alike term known p p' →
    (run p = none ∧ run' p' = none ∧ bound p = none) ∨
      ∃ r r' xs, run p = some r ∧ run' p' = some r' ∧ bound p = some xs ∧
        ((∀ a ∈ xs, a.2 = term a.1) → r'.1 = r.1 ∧ Alike term known r.2 r'.2)

theorem follows_line {id : NodeId} {x : Line} {comment : Option String} {off : Bool}
    (h : Covers c.isCommentedOut known (.line id x comment off)) :
    Follows term known ((Stmt.line id x comment off).targets ++ known)
      (exec l free (.line id x comment off)) (exec l free ((Stmt.line id x comment off).refresh c))
      (bound l free (.line id x comment off)) := by
  intro p p' hp hbound
  cases x with
  | definition target binding declares =>
    obtain ⟨rfl, hknown⟩ := h
    have hterm : p.bindings.bind binding = term target := hbound (target, _) List.mem_cons_self
    -- a declaration may have been added or taken away, and a run does not depend on it
    obtain ⟨declares', hrevised⟩ : ∃ declares',
        (Line.definition target binding declares).revised (c.kind id) =
          .definition target binding declares' := by
      cases c.kind id <;> exact ⟨_, rfl⟩
    rw [refresh, hrevised, exec, exec]
    cases hgone : c.isCommentedOut id with
    | true => exact ⟨rfl, hp.skip hterm (hknown hgone)⟩
    | false => exact ⟨rfl, hp.assign hterm⟩
  | declaration target =>
    have hidle : ∀ (off : Bool) (q : Progress),
        (if off then (none, q) else (Line.declaration target).exec q) = (none, q) := by
      intro off q
      cases off <;> rfl
    simp only [refresh, Line.revised, exec, hidle]
    exact ⟨trivial, hp⟩
  | ret value | noop | placeholder =>
    have hsame : c.isCommentedOut id = off := h
    simp only [refresh, Line.revised, exec, hsame]
    cases off <;> exact ⟨rfl, hp⟩
  | custom text =>
    have hsame : c.isCommentedOut id = off := h
    simp only [refresh, Line.revised, exec, hsame, Line.exec]
    cases off with
    | true => exact ⟨rfl, hp⟩
    | false =>
      simp only [Bool.false_eq_true, if_false]
      split_ifs
      · exact ⟨rfl, hp⟩
      · exact ⟨rfl, by rw [hp.fired], hp.terms, hp.known⟩

/-- **A run without the definitions that are commented out** follows the run with them. -/
theorem follows_all (l : Language) (free : String → Bool) (term : Trail → Option Expr) (c : Code) :
    (∀ (s : Stmt NodeId) known, Covers c.isCommentedOut known s →
      Follows term known (s.targets ++ known) (exec l free s) (exec l free (s.refresh c))
        (bound l free s)) ∧
    (∀ (ts : List (Stmt NodeId)) known, CoversAll c.isCommentedOut known ts →
      Follows term known known (execAll l free ts) (execAll l free (refreshAll c ts))
        (boundAll l free ts)) ∧
    ∀ (es : List (Stmt NodeId)) known, CoversEach c.isCommentedOut known es →
      FollowsChoice term known (execElseIfs l free es) (execElseIfs l free (refreshAll c es))
        (boundElseIfs l free es) := by
  apply run_induct
  case line => exact fun id x comment off known h => follows_line h
  case branch =>
    intro id guard t e es ht he hes known h p p' hp hbound
    obtain ⟨hct, hce, hces⟩ := h
    -- both runs go the same way, since guards read trails that are bound alike
    simp only [bound] at hbound
    simp only [refresh, exec, hp.holds l free guard]
    split_ifs at hbound ⊢
    · exact ht known hct p p' hp hbound
    · rcases hes known hces p p' hp with
        ⟨hrun, hrun', hnone⟩ | ⟨r, r', xs, hrun, hrun', hsome, hfollows⟩
      · rw [hnone] at hbound
        rw [hrun, hrun']
        exact he known hce p p' hp hbound
      · rw [hsome] at hbound
        rw [hrun, hrun']
        exact hfollows hbound
  case nil => exact fun known _ p p' hp _ => ⟨rfl, hp⟩
  case cons =>
    intro s rest hs hrest known h p p' hp hbound
    rw [boundAll] at hbound
    obtain ⟨hfirst, hothers⟩ := List.forall_mem_append.1 hbound
    obtain ⟨hvalue, halike⟩ := hs known h.1 p p' hp hfirst
    -- what the statement binds is known to those after it, and forgotten at the end of the sequence
    have hsub : known ⊆ s.targets ++ known := List.subset_append_right _ _
    rw [refreshAll, execAll, execAll]
    rcases hrun : exec l free s p with ⟨_ | value, q⟩
    · rcases hrun' : exec l free (s.refresh c) p' with ⟨value', q'⟩
      rw [hrun, hrun'] at hvalue halike
      obtain rfl : value' = none := hvalue
      rw [hrun] at hothers
      obtain ⟨hrest1, hrest2⟩ := hrest (s.targets ++ known) h.2 q q' halike hothers
      exact ⟨hrest1, hrest2.mono hsub⟩
    · rcases hrun' : exec l free (s.refresh c) p' with ⟨value', q'⟩
      rw [hrun, hrun'] at hvalue halike
      obtain rfl : value' = some value := hvalue
      exact ⟨rfl, halike.mono hsub⟩
  case choiceNil => exact fun known _ p p' _ => Or.inl ⟨rfl, rfl, rfl⟩
  case choiceLine =>
    intro id x comment off rest hrest known h
    simpa only [FollowsChoice, refreshAll, refresh, execElseIfs, boundElseIfs] using hrest known h.2
  case choiceBranch =>
    intro id guard t e es rest ht hrest known h p p' hp
    simp only [refreshAll, refresh, execElseIfs, boundElseIfs, hp.holds l free guard]
    split_ifs
    · exact Or.inr ⟨_, _, _, rfl, rfl, rfl, ht known h.1.1 p p' hp⟩
    · exact hrest known h.2 p p' hp

/-! ### The texts of matchers -/

section Distinct

variable {ι κ : Type}

theorem distinctAll_map (f : ι → κ) {ts : List (Stmt ι)} :
    DistinctAll (mapAll f ts) ↔ DistinctAll ts := by
  have hline : ∀ s : Stmt ι, (s.map f).IsDistinct ↔ s.IsDistinct := by
    intro s
    cases s with
    | branch id guard t e es => exact Iff.rfl
    | line id x comment off => cases x <;> exact Iff.rfl
  have hlines : (∀ p ∈ pathsAll (mapAll f ts), p.2.IsDistinct) ↔
      ∀ p ∈ pathsAll ts, p.2.IsDistinct := by
    simp only [(paths_map_all f).2, List.forall_mem_map, hline]
  constructor
  · rintro ⟨h, h'⟩
    rw [(guards_map_all f).2] at h'
    exact ⟨hlines.1 h, h'⟩
  · rintro ⟨h, h'⟩
    refine ⟨hlines.2 h, ?_⟩
    rwa [(guards_map_all f).2]

theorem distinctAll_strip {ts : List (Stmt ι)} : DistinctAll (strip ts) ↔ DistinctAll ts :=
  distinctAll_map _

/-- Fusing adds no lines and no guards of its own. -/
theorem distinctAll_fuse {mine other : List (Stmt ι)} (hm : DistinctAll mine)
    (ho : DistinctAll other) : DistinctAll (fuse l mine other) := by
  refine ⟨fun p hp => ?_, fun guard hguard =>
    (mem_guardsAll_fuse l mine other hguard).elim (hm.guards guard) (ho.guards guard)⟩
  rw [(pathsAll_fuse l mine other).mem_iff, List.mem_append] at hp
  rcases hp with hp | hp
  · exact hm.lines p hp
  · obtain ⟨-, q, hq, rfl⟩ := Descent.mem_added.1 hp
    obtain ⟨lost, hother, -⟩ := pathsAll_left l mine other hq
    have hline := ho.lines _ hother
    exact hline

theorem distinctAll_foldl_fuse {others : List (List (Stmt ι))} {mine : List (Stmt ι)}
    (hm : DistinctAll mine) (ho : ∀ t ∈ others, DistinctAll t) :
    DistinctAll (others.foldl (fuse l) mine) := by
  induction others generalizing mine with
  | nil => exact hm
  | cons t rest ih =>
    obtain ⟨ht, hrest⟩ := List.forall_mem_cons.1 ho
    exact ih (distinctAll_fuse hm ht) hrest

end Distinct

end Stmt

namespace Matcher

open Stmt

theorem distinctAll_assignments (first second : Trail × Binding) :
    DistinctAll (calmAll (assignments first second)) :=
  distinctAll_cons.2 ⟨distinctAll_line.2 trivial,
    distinctAll_cons.2 ⟨distinctAll_line.2 rfl, distinctAll_line.2 rfl⟩⟩

/-- The statements that introduce operands can be told from definitions. -/
theorem Setup.distinct {t : Trail} {s : Stmt Unit} (h : Setup t s) : DistinctAll [s.calm] := by
  cases h with
  | noop => exact distinctAll_line.2 trivial
  | implied guard =>
    have hslash : IsForeign ("// implied by dispatch: " ++ guard.text) :=
      .of_head (c := '/') (by rw [String.toList_append]; rfl) (by decide) (by decide)
    exact distinctAll_line.2 hslash
  | operand i => exact distinctAll_line.2 rfl
  | declaration i => exact distinctAll_line.2 trivial
  | choice guard hguard =>
    exact distinctAll_branch.2 ⟨guard.isForeign hguard, distinctAll_assignments _ _,
      distinctAll_assignments _ _, distinctAll_nil⟩
  | choiceOfThree guard short hguard hshort =>
    have hnoop : DistinctAll (calmAll [Stmt.noop ()]) := distinctAll_line.2 trivial
    exact distinctAll_branch.2 ⟨guard.isForeign hguard, distinctAll_assignments _ _,
      distinctAll_assignments _ _,
      distinctAll_branch.2
        ⟨short.isForeign hshort, distinctAll_assignments _ _, hnoop, distinctAll_nil⟩⟩

theorem distinctAll_actionBody (r : Rule) (code : String) : DistinctAll (actionBody r code) := by
  have htext : IsForeign (Trail.rootMark ++ ".replace(" ++ code ++ ");") :=
    .of_temporary (t := Trail.root)
      (by simp only [Trail.toList_temporary, String.toList_append, List.append_assoc]; rfl)
  have hreplace : DistinctAll [replaceStmt r code] := by
    unfold replaceStmt
    split_ifs <;> exact distinctAll_line.2 htext
  exact distinctAll_cons.2
    ⟨distinctAll_line.2 trivial, distinctAll_cons.2 ⟨hreplace, distinctAll_line.2 trivial⟩⟩

theorem Built.distinct {s : Stmt Unit} {guards : List Guard} {ts : List (Stmt Unit)}
    (h : Built IsSetup s guards ts) (hguards : ∀ guard ∈ guards, IsForeign guard.text) :
    DistinctAll ts := by
  induction h with
  | action h => exact distinctAll_actionBody _ _
  | under guard body ih =>
    obtain ⟨hguard, hrest⟩ := List.forall_mem_cons.1 hguards
    exact distinctAll_branch.2 ⟨hguard, ih hrest, distinctAll_line.2 trivial, distinctAll_nil⟩
  | @surround guards xs ts ys inner before after ih =>
    have each : ∀ {zs : List (Stmt Unit)}, (∀ z ∈ zs, DistinctAll [z]) → DistinctAll zs := by
      intro zs
      induction zs with
      | nil => exact fun _ => distinctAll_nil
      | cons z rest ih =>
        intro hz
        obtain ⟨hfirst, hrest⟩ := List.forall_mem_cons.1 hz
        exact distinctAll_cons.2 ⟨hfirst, ih hrest⟩
    have hbefore : DistinctAll xs := each fun x hx => by
      obtain ⟨t, y, hy, rfl⟩ := before x hx
      exact hy.distinct
    have hafter : DistinctAll ys := each fun y hy => by
      rcases after y hy with rfl | rfl <;> exact distinctAll_line.2 trivial
    exact distinctAll_append.2 ⟨hbefore, distinctAll_append.2 ⟨ih hguards, hafter⟩⟩

theorem head_conditionCode {s : Scope} {k : Condition} {text : String}
    (h : conditionCode s k = .ok (some text)) : ∃ rest, text = "conditions::" ++ rest := by
  unfold conditionCode at h
  split_ifs at h
  · cases h
  · split at h
    · cases h
      exact ⟨_, by simp only [String.append_assoc]; rfl⟩
    · cases h

/-- The texts of conditions start alike. -/
theorem head_conditionCodes {s : Scope} {r : Rule} {texts : List String}
    (h : conditionCodes s r = .ok texts) :
    ∀ text ∈ texts, ∃ rest, text = "conditions::" ++ rest := by
  obtain ⟨codes, hcodes, rfl⟩ := exists_of_conditionCodes_ok h
  refine List.forall_mem_append.2 ⟨fun text hmem => ?_, ?_⟩
  · obtain ⟨code, hcode, rfl⟩ := List.mem_filterMap.1 hmem
    obtain ⟨k, hk⟩ := exists_of_mapM (mapM_eq_ok_iff.2 hcodes) _ hcode
    exact head_conditionCode hk
  · unfold globalCode
    split_ifs
    · exact List.forall_mem_nil _
    · exact List.forall_mem_singleton.2 ⟨_, by simp only [String.append_assoc]; rfl⟩

theorem isForeign_actionGuards {s : Scope} {r : Rule} {texts : List String}
    (h : conditionCodes s r = .ok texts) :
    ∀ guard ∈ actionGuards r texts, IsForeign guard.text := by
  refine List.forall_mem_append.2 ⟨?_, ?_⟩
  · split_ifs
    · exact List.forall_mem_singleton.2 (Guard.isForeign rfl)
    · exact List.forall_mem_nil _
  · cases texts with
    | nil => exact List.forall_mem_nil _
    | cons text rest =>
      refine List.forall_mem_singleton.2 ?_
      obtain ⟨more, rfl⟩ := head_conditionCodes h text List.mem_cons_self
      obtain ⟨others, hothers⟩ := exists_intercalate_cons " && " ("conditions::" ++ more) rest
      rw [Guard.text, hothers, String.append_assoc]
      exact .of_head (c := 'c') (by rw [String.toList_append]; rfl) (by decide) (by decide)

end Matcher

open Stmt Matcher

variable {o : CompileOptions} {l : Language}

/-- **Texts tell the lines of the matcher of a rule** from definitions. -/
theorem distinctAll_ruleCode {r : Rule} {code : List (Stmt Unit)} (h : o.codeOf l r = some code) :
    DistinctAll code := by
  obtain ⟨parts, hparts, hbuilt⟩ := built_of_setup h
  refine hbuilt.distinct ?_
  obtain ⟨⟨k, groups⟩, hk, hparts⟩ := Option.bind_eq_some_iff.1 hparts
  simp only at hparts
  split at hparts
  · rename_i texts code htexts hcode
    cases hparts
    refine List.forall_mem_append.2 ⟨?_, isForeign_actionGuards htexts⟩
    cases k with
    | none => exact List.forall_mem_nil _
    | some k => exact fun guard hguard => Guard.isForeign (patternChain_isFree hk guard hguard)
  · cases hparts

theorem distinctAll_fusedTree {codes : List (List (Stmt Unit))}
    (h : ∀ code ∈ codes, DistinctAll code) : DistinctAll (fusedTree l codes) := by
  cases codes with
  | nil => exact distinctAll_nil
  | cons first rest =>
    obtain ⟨hfirst, hrest⟩ := List.forall_mem_cons.1 h
    rw [← distinctAll_strip, strip_fusedTree]
    exact distinctAll_foldl_fuse hfirst hrest

theorem isStructuralAll_fusedTree {codes : List (List (Stmt Unit))}
    (h : ∀ code ∈ codes, isStructuralAll code = true) :
    isStructuralAll (fusedTree l codes) = true := by
  cases codes with
  | nil => rfl
  | cons first rest =>
    obtain ⟨hfirst, hrest⟩ := List.forall_mem_cons.1 h
    have hstrip := strip_fusedTree l first rest
    rw [strip] at hstrip
    rw [← (isStructural_map_all fun _ => ()).2, hstrip]
    exact isStructuralAll_foldl_fuse hfirst hrest

/-! ### What runs on parts of the matched term bind -/

/-- Trails are bound to the parts of the term that they lead to. -/
def BindsParts (e : Expr) (bound : List (Trail × Option Expr)) : Prop :=
  ∀ a ∈ bound, a.2 = (ofTerm e).nodeAt a.1

theorem bindsParts_all {ι : Type} (free : String → Bool) (e : Expr) :
    (∀ s : Stmt ι, s.isStructural = true →
      ∀ p, Reads p.bindings e → BindsParts e (bound l free s p)) ∧
    (∀ ts : List (Stmt ι), isStructuralAll ts = true →
      ∀ p, Reads p.bindings e → BindsParts e (boundAll l free ts p)) ∧
    ∀ es : List (Stmt ι), isStructuralAll es = true →
      ∀ p xs, Reads p.bindings e → boundElseIfs l free es p = some xs → BindsParts e xs := by
  apply run_induct
  case line =>
    intro id x comment off h p hp
    cases x with
    | definition target binding declares =>
      cases binding with
      | operand parent index =>
        obtain rfl : target = parent.child index := by
          simpa [isStructural, Line.isStructural] using h
        rw [bound]
        split_ifs
        · exact List.forall_mem_nil _
        · exact List.forall_mem_singleton.2 (hp.bind_operand parent index)
      | same trail => cases h
      | constructed code value => cases h
    | _ => exact List.forall_mem_nil _
  case branch =>
    intro id guard t e' es ht he hes h p hp
    simp only [isStructural, Bool.and_eq_true] at h
    rw [bound]
    split_ifs
    · exact ht h.1.1 p hp
    · cases hchoice : boundElseIfs l free es p with
      | none => exact he h.1.2 p hp
      | some xs => exact hes h.2 p xs hp hchoice
  case nil => exact fun _ _ _ => List.forall_mem_nil _
  case cons =>
    intro s rest hs hrest h p hp
    simp only [isStructuralAll, Bool.and_eq_true] at h
    -- the statement leaves parts of the term bound for the rest
    obtain ⟨b, hrun, hb⟩ := (performs_all l free e).1 s h.1 p.fired p.bindings hp
    refine List.forall_mem_append.2 ⟨hs h.1 p hp, ?_⟩
    rw [hrun]
    rcases play l free (ofTerm e) s with ⟨_ | value, fired⟩
    · exact hrest h.2 _ hb
    · exact List.forall_mem_nil _
  case choiceNil =>
    intro _ p xs _ hxs
    cases hxs
  case choiceLine =>
    intro id x comment off rest hrest h p xs hp hxs
    simp only [isStructuralAll, Bool.and_eq_true] at h
    exact hrest h.2 p xs hp hxs
  case choiceBranch =>
    intro id guard t e' es rest ht hrest h p xs hp hxs
    simp only [isStructuralAll, isStructural, Bool.and_eq_true] at h
    rw [boundElseIfs] at hxs
    split_ifs at hxs
    · cases hxs
      exact ht h.1.1.1 p hp
    · exact hrest h.2 p xs hp hxs

/-! ### Merged code -/

/-- A run on owned code does the same after redundancy is eliminated, if it binds no trail to two
terms. -/
theorem Code.Owns.eliminated_run {c : Code} {m : Multiset Cell} {ts : List (Stmt NodeId)}
    (hs : SolidAll ts) (hne : ts ≠ []) (h : c.Owns (cells .root none ts + m)) (hd : DistinctAll ts)
    {free : String → Bool} {e : Expr} (hsingle : SingleValued (boundAll l free ts ⟨[], ofTerm e⟩)) :
    ((c.eliminateRedundancy (start ts)).run l free (start ts) e).changed =
      (c.run l free (start ts) e).changed ∧
    ((c.eliminateRedundancy (start ts)).run l free (start ts) e).fired =
      (c.run l free (start ts) e).fired ∧
    ∀ t,
      ((c.eliminateRedundancy (start ts)).run l free (start ts) e).bindings.get? t =
        (c.run l free (start ts) e).bindings.get? t := by
  set c' := c.eliminateRedundancy (start ts)
  obtain ⟨term, hterm⟩ := hsingle.exists_term
  have hcovers :=
    ((covers_all (c.redacts_eliminateRedundancy (start ts))
      (c.revises_eliminateRedundancy (start ts))).2 ts).1 .root none [] h.left hd (knows_root c [])
  have hstart : Alike term [] ⟨[], ofTerm e⟩ ⟨[], ofTerm e⟩ :=
    ⟨rfl, fun _ => rfl, List.forall_mem_nil _⟩
  obtain ⟨hvalue, halike⟩ := (follows_all l free term c').2.1 ts [] hcovers _ _ hstart hterm
  -- both runs are runs of trees
  have hrun : c.run l free (start ts) e = .ofRun (execAll l free ts ⟨[], ofTerm e⟩) :=
    h.run_eq hs hne e
  have howns : c'.Owns (cells .root none (refreshAll c' ts) + 0) := by
    rw [add_zero]
    exact (h.refreshed (start ts)).2
  have hrun' : c'.run l free (start (refreshAll c' ts)) e =
      .ofRun (execAll l free (refreshAll c' ts) ⟨[], ofTerm e⟩) :=
    howns.run_eq ((solid_refresh_all c').2 ts hs) (refreshAll_ne_nil hne) e
  rw [start, start?_refreshAll] at hrun'
  rw [hrun, start, hrun']
  exact ⟨congrArg (·.getD false) hvalue, halike.fired, halike.terms⟩

/-- The trails that the merged code of rules binds on a term, in order, with the terms. -/
def mergedBindings (o : CompileOptions) (l : Language) (free : String → Bool)
    (rules : List PlannedRule) (e : Expr) : List (Trail × Option Expr) :=
  boundAll l free (fusedTree l (rules.filterMap fun p => o.codeOf l p.rule)) ⟨[], ofTerm e⟩

/-- **Merged code does the same after redundancy is eliminated**, on every term if no rule has an
optional operand, and otherwise on the terms on which it binds no trail to two terms. -/
theorem eliminated_agrees {rules : List PlannedRule} (hne : rules ≠ [])
    (hr : ∀ p ∈ rules, p.rule.IsAccepted o l) (free : String → Bool) (e : Expr)
    (h : (∀ p ∈ rules, p.rule.pattern.hasOptional = false) ∨
      SingleValued (mergedBindings o l free rules e)) :
    ∃ f x y, FusedCode.ofRules o l rules = .ok f ∧ f.merged? l free e = some x ∧
      f.outcome? l free e = some y ∧ y.changed = x.changed ∧ y.fired = x.fired ∧
      ∀ t, y.bindings.get? t = x.bindings.get? t := by
  obtain ⟨f, codes, hf, hcodes, ts, m, hhead, hne', hs, ho, hstrip⟩ :=
    FusedCode.keeps_ofRules hne hr
  have hrule : ∀ code ∈ codes, ∃ p ∈ rules, o.codeOf l p.rule = some code := by
    intro code hcode
    have hmem : some code ∈ rules.map fun p => o.codeOf l p.rule := by
      rw [hcodes]
      exact List.mem_map_of_mem hcode
    exact List.mem_map.1 hmem
  have hfilter : rules.filterMap (fun p => o.codeOf l p.rule) = codes := by
    have hall := congrArg (List.filterMap fun code => code) hcodes
    simpa [List.filterMap_map, Function.comp_def] using hall
  have hdistinct : DistinctAll ts := by
    have htree :=
      distinctAll_fusedTree (l := l) fun code hcode =>
        (hrule code hcode).elim fun p hp => distinctAll_ruleCode hp.2
    rwa [← distinctAll_strip, ← hstrip, distinctAll_strip] at htree
  have hbound : boundAll l free ts ⟨[], ofTerm e⟩ =
      boundAll l free (fusedTree l codes) ⟨[], ofTerm e⟩ := by
    rw [← boundAll_strip, hstrip, boundAll_strip]
  have hsingle : SingleValued (boundAll l free ts ⟨[], ofTerm e⟩) := by
    rcases h with hopt | hsingle
    · -- all trails are bound to parts of the term
      have hstructural : isStructuralAll (fusedTree l codes) = true := by
        refine isStructuralAll_fusedTree fun code hcode => ?_
        obtain ⟨p, hp, hcodeOf⟩ := hrule code hcode
        exact (@sole_ruleCode l free (ofTerm e) _ _ _ _ (hopt p hp) hcodeOf).2
      rw [hbound]
      exact singleValued_of_forall ((bindsParts_all free e).2.1 _ hstructural _ (reads_ofTerm e))
    · rwa [mergedBindings, hfilter, ← hbound] at hsingle
  refine ⟨f, f.code.run l free (start ts) e,
    (f.code.eliminateRedundancy (start ts)).run l free (start ts) e, hf, ?_, ?_,
    ho.eliminated_run hs hne' hdistinct hsingle⟩
  · rw [FusedCode.merged?, hhead]
    rfl
  · rw [FusedCode.outcome?, hhead]
    rfl

/-- The rule `(- (? $0 default) operand) ==> replacement`. -/
def differenceRule (place : Nat) (text : String) (default : Int) (operand replacement : Expr) :
    PlannedRule :=
  ⟨⟨⟨text, .app 1 [.optional (.metavar 0) (.literal (.int default)), operand], replacement, [],
        .noCheck, 0, false⟩,
      .operator "-" none⟩,
    place⟩

/-- Two rules with one default. -/
def oneDefault : List PlannedRule :=
  [differenceRule 0 "(- (? $0 0) 8) ==> $0" 0 (.literal (.int 8)) (.metavar 0),
    differenceRule 1 "(- (? $0 0) 9) ==> $0" 0 (.literal (.int 9)) (.metavar 0)]

/-- The second rule is applied to `(- 9)`, and its definitions repeat those of the first one. -/
theorem eliminated_agrees_nine :
    SingleValued (mergedBindings ⟨false, false, true⟩ .arithmetic (fun _ => true) oneDefault
      (.app 1 [.literal (.int 9)])) ∧
    ∃ f x y, FusedCode.ofRules ⟨false, false, true⟩ .arithmetic oneDefault = .ok f ∧
      f.merged? .arithmetic (fun _ => true) (.app 1 [.literal (.int 9)]) = some x ∧
      f.outcome? .arithmetic (fun _ => true) (.app 1 [.literal (.int 9)]) = some y ∧
      y.changed = x.changed ∧ y.fired = x.fired ∧ ∀ t, y.bindings.get? t = x.bindings.get? t := by
  have haccepted : ∀ p ∈ oneDefault, p.rule.IsAccepted ⟨false, false, true⟩ .arithmetic :=
    List.forall_mem_cons.2 ⟨⟨0, by decide +kernel⟩,
      List.forall_mem_cons.2 ⟨⟨0, by decide +kernel⟩, List.forall_mem_nil _⟩⟩
  have hsingle : SingleValued (mergedBindings ⟨false, false, true⟩ .arithmetic (fun _ => true)
      oneDefault (.app 1 [.literal (.int 9)])) := by
    decide +kernel
  exact ⟨hsingle, eliminated_agrees (List.cons_ne_nil _ _) haccepted _ _ (Or.inr hsingle)⟩

/-- Three rules, the second one with a default of its own. -/
def twoDefaults : List PlannedRule :=
  [differenceRule 0 "(- (? $0 0) $1) ==> $1" 0 (.metavar 1) (.metavar 1),
    differenceRule 1 "(- (? $0 5) 8) ==> $0" 5 (.literal (.int 8)) (.metavar 0),
    differenceRule 2 "(- (? $0 0) $0) ==> $0" 0 (.metavar 0) (.metavar 0)]

theorem twoDefaults_shown :
    ((FusedCode.ofRules ⟨false, false, true⟩ .arithmetic twoDefaults).toOption.bind fun f =>
      (f.merged? .arithmetic (fun _ => true) (.app 1 [.literal (.int 0)])).bind fun x =>
        (f.outcome? .arithmetic (fun _ => true) (.app 1 [.literal (.int 0)])).map fun y =>
          (x.shown, y.shown)) =
      some ((true, ["formula.replace(formula_0);"]), (true, ["formula.replace(formula_1);"])) := by
  decide +kernel

/-- The merged code applies the last rule to `(- 0)`, and after redundancy is eliminated it applies
the first one. The default `0` of the first rule is bound, then the default `5` of the second one in
its place, and the definition that would bind `0` again is commented out. -/
theorem default_not_restored :
    ∃ f x y, FusedCode.ofRules ⟨false, false, true⟩ .arithmetic twoDefaults = .ok f ∧
      f.merged? .arithmetic (fun _ => true) (.app 1 [.literal (.int 0)]) = some x ∧
      f.outcome? .arithmetic (fun _ => true) (.app 1 [.literal (.int 0)]) = some y ∧
      x.shown = (true, ["formula.replace(formula_0);"]) ∧
      y.shown = (true, ["formula.replace(formula_1);"]) ∧
      ¬ SingleValued (mergedBindings ⟨false, false, true⟩ .arithmetic (fun _ => true) twoDefaults
        (.app 1 [.literal (.int 0)])) := by
  obtain ⟨f, hf, hmerged⟩ := Option.bind_eq_some_iff.1 twoDefaults_shown
  obtain ⟨x, hx, houtcome⟩ := Option.bind_eq_some_iff.1 hmerged
  obtain ⟨y, hy, hshown⟩ := Option.map_eq_some_iff.1 houtcome
  obtain ⟨hxshown, hyshown⟩ := Prod.mk.inj hshown
  exact ⟨f, x, y, FusedCode.ofRules_of_toOption hf, hx, hy, hxshown, hyshown, by decide +kernel⟩

end Rulewright
