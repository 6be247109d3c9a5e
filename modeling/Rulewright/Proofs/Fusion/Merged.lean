import Rulewright.Proofs.Fusion.Checks
import Rulewright.Proofs.Fusion.Origins

/-!
# What merged code does

Rules are fused before redundant definitions are taken out. This is the merged code, and what it
does on a term is what its tree does, whatever the rules bind. The tree of a rule fires right before
it returns `true` and nowhere else, and so does a merged tree. So a run that does not return `true`
has fired nothing.

* `Rule.outcome?_runs`, `FusedCode.Keeps.merged?_runs`: runs of a rule and of merged code are runs
  of trees.
* `isDecisiveAll`: the sequence fires right before it returns `true` only.
* `fired_of_decisive`, `isDecisiveAll_fuse`, `isDecisiveAll_ruleCode`: what it means, and which
  sequences are such.
-/

namespace Rulewright

open Stmt Matcher Bindings

/-! ### Runs -/

/-- The outcome of a run of a tree. -/
def Outcome.ofRun (r : Option Bool × Code.Progress) : Outcome :=
  ⟨r.1.getD false, r.2.fired, r.2.bindings⟩

theorem Outcome.changed_ofRun {r : Option Bool × Code.Progress} :
    (Outcome.ofRun r).changed = true ↔ r.1 = some true := by
  obtain ⟨_ | _ | _, p⟩ := r <;> simp [ofRun]

/-- What the fused rules do on a term, redundant definitions included. -/
def FusedCode.merged? (l : Language) (free : String → Bool) (f : FusedCode) (e : Expr) :
    Option Outcome :=
  f.head.map fun head => f.code.run l free head e

variable {o : CompileOptions} {l : Language}

theorem FusedCode.ofRules_of_toOption {rules : List PlannedRule} {f : FusedCode}
    (h : (FusedCode.ofRules o l rules).toOption = some f) :
    FusedCode.ofRules o l rules = .ok f := by
  cases hrules : FusedCode.ofRules o l rules with
  | error e => rw [hrules] at h; cases h
  | ok g => rw [hrules] at h; exact congrArg Except.ok (Option.some.inj h)

/-- **What a rule does alone** is what its tree does. -/
theorem Rule.outcome?_runs {r : Rule} (hr : r.IsAccepted o l) {code : List (Stmt Unit)}
    (hcode : o.codeOf l r = some code) (free : String → Bool) (e : Expr) :
    r.outcome? o l free e = some (.ofRun (execAll l free code ⟨[], ofTerm e⟩)) := by
  obtain ⟨head, c, hc⟩ := hr.compile Code.empty
  obtain ⟨ts, hts, rfl, hne, hs, ho⟩ := compile_owns (Code.Owns.zero Code.empty) hc
  obtain rfl : strip ts = code := Option.some.inj (hts.symm.trans hcode)
  rw [Rule.outcome?, hc, execAll_strip]
  exact congrArg some (ho.run_eq hs hne e)

/-- **What merged code does** is what its tree does. -/
theorem FusedCode.Keeps.merged?_runs {f : FusedCode} {code : List (Stmt Unit)} (h : f.Keeps code)
    (free : String → Bool) (e : Expr) :
    f.merged? l free e = some (.ofRun (execAll l free code ⟨[], ofTerm e⟩)) := by
  obtain ⟨ts, m, hhead, hne, hs, ho, rfl⟩ := h
  rw [FusedCode.merged?, hhead, execAll_strip]
  exact congrArg some (ho.run_eq hs hne e)

/-! ### Decisive code -/

namespace Stmt

variable {ι κ : Type}

mutual

/-- A line that fires is followed by the return of `true`, as the flag tells, and so it is in the
bodies. -/
def isDecisive : Stmt ι → Bool → Bool
  | .line _ x _ off, wins => wins || off || x.play.2.isEmpty
  | .branch _ _ t e es, _ => isDecisiveAll t && isDecisiveAll e && isDecisiveAll es

/-- The sequence fires right before it returns `true` only. -/
def isDecisiveAll : List (Stmt ι) → Bool
  | [] => true
  | s :: rest => s.isDecisive (rest.head?.any isWin) && isDecisiveAll rest

end

theorem isDecisive_of_false {s : Stmt ι} (h : s.isDecisive false = true) (wins : Bool) :
    s.isDecisive wins = true := by
  cases s with
  | line id x comment off =>
    simp only [isDecisive, Bool.false_or] at h
    simp only [isDecisive, Bool.or_assoc, h, Bool.or_true]
  | branch id guard t e es => exact h

theorem isDecisiveAll_of_forall {ts : List (Stmt ι)} (h : ∀ s ∈ ts, s.isDecisive false = true) :
    isDecisiveAll ts = true := by
  induction ts with
  | nil => rfl
  | cons s rest ih =>
    obtain ⟨hs, hrest⟩ := List.forall_mem_cons.1 h
    rw [isDecisiveAll, isDecisive_of_false hs, ih hrest]
    rfl

theorem isDecisiveAll_append {xs ys : List (Stmt ι)} (hx : isDecisiveAll xs = true)
    (hy : isDecisiveAll ys = true) : isDecisiveAll (xs ++ ys) = true := by
  induction xs with
  | nil => exact hy
  | cons s rest ih =>
    rw [isDecisiveAll, Bool.and_eq_true] at hx
    rw [List.cons_append, isDecisiveAll, ih hx.2, Bool.and_true]
    cases rest with
    | nil => exact isDecisive_of_false hx.1 _
    | cons s' rest => exact hx.1

/-- A branch does not return by itself, so a line before it that fires is not decisive. -/
theorem isDecisiveAll_append_branch (xs : List (Stmt ι)) (id : ι) (guard : Guard)
    (t e es ys : List (Stmt ι)) :
    isDecisiveAll (xs ++ .branch id guard t e es :: ys) = true ↔
    isDecisiveAll xs = true ∧
      (isDecisiveAll t = true ∧ isDecisiveAll e = true ∧ isDecisiveAll es = true) ∧
      isDecisiveAll ys = true := by
  have hhead : ∀ rest : List (Stmt ι),
      (rest ++ .branch id guard t e es :: ys).head?.any isWin = rest.head?.any isWin := by
    intro rest
    cases rest <;> rfl
  induction xs with
  | nil =>
    simp only [List.nil_append, isDecisiveAll, isDecisive, Bool.and_eq_true, and_assoc, true_and]
  | cons s rest ih =>
    simp only [List.cons_append, isDecisiveAll, hhead, Bool.and_eq_true, ih, and_assoc]

theorem isWin_map (f : ι → κ) (s : Stmt ι) : (s.map f).isWin = s.isWin := by
  cases s with
  | branch id guard t e es => rfl
  | line id x comment off =>
    cases x with
    | ret value => cases value <;> rfl
    | _ => rfl

theorem isDecisive_map_all (f : ι → κ) :
    (∀ s : Stmt ι, ∀ wins, (s.map f).isDecisive wins = s.isDecisive wins) ∧
      ∀ ts : List (Stmt ι), isDecisiveAll (mapAll f ts) = isDecisiveAll ts := by
  apply Stmt.induct
  case line => exact fun _ _ _ _ _ => rfl
  case branch =>
    intro id guard t e es ht he hes wins
    simp only [map, isDecisive, ht, he, hes]
  case nil => rfl
  case cons =>
    intro s rest hs hrest
    have hhead : (mapAll f rest).head?.any isWin = rest.head?.any isWin := by
      cases rest with
      | nil => rfl
      | cons s' rest => exact isWin_map f s'
    rw [mapAll, isDecisiveAll, isDecisiveAll, hs, hhead, hrest]

section Runs

variable (l : Language) (free : String → Bool)

/-- A run that does not return `true` has fired nothing. -/
def KeepsFired (p : Code.Progress) (r : Option Bool × Code.Progress) : Prop :=
  r.1 ≠ some true → r.2.fired = p.fired

theorem keepsFired_line {id : ι} {x : Line} {comment : Option String} {off : Bool}
    (h : (line id x comment off).isDecisive false = true) (p : Code.Progress) :
    KeepsFired p (exec l free (.line id x comment off) p) := by
  intro _
  rw [exec]
  split_ifs with hoff
  · rfl
  · simp only [isDecisive, hoff, Bool.false_or] at h
    cases x with
    | custom text =>
      rw [Line.exec]
      split_ifs with hcomment
      · rfl
      · simp [Line.play, hcomment] at h
    | _ => rfl

theorem execAll_of_win {ts : List (Stmt ι)} (h : ts.head?.any isWin = true) (p : Code.Progress) :
    (execAll l free ts p).1 = some true := by
  cases ts with
  | nil => cases h
  | cons s rest =>
    cases s with
    | branch id guard t e es => cases h
    | line id x comment off =>
      cases x with
      | ret value =>
        cases value with
        | false => cases h
        | true =>
          cases off with
          | true => cases h
          | false => rfl
      | _ => cases h

/-- A line that returns fires nothing. -/
theorem play_of_returns {id : ι} {x : Line} {comment : Option String} {off value : Bool}
    {p q : Code.Progress} (h : exec l free (.line id x comment off) p = (some value, q)) :
    x.play.2 = [] := by
  cases x with
  | ret value => rfl
  | custom text =>
    rw [exec] at h
    split_ifs at h
    · cases h
    · rw [Line.exec] at h
      split_ifs at h <;> cases h
  | _ => rfl

theorem keepsFired_all :
    (∀ s : Stmt ι, s.isDecisive false = true → ∀ p, KeepsFired p (exec l free s p)) ∧
    (∀ ts : List (Stmt ι), isDecisiveAll ts = true → ∀ p, KeepsFired p (execAll l free ts p)) ∧
    ∀ es : List (Stmt ι), isDecisiveAll es = true →
      ∀ p r, execElseIfs l free es p = some r → KeepsFired p r := by
  apply run_induct
  case line => exact fun id x comment off h => keepsFired_line l free h
  case branch =>
    intro id guard t e es ht he hes h p
    simp only [isDecisive, Bool.and_eq_true] at h
    rw [exec]
    split_ifs
    · exact ht h.1.1 p
    · cases hchoice : execElseIfs l free es p with
      | some r => exact hes h.2 p r hchoice
      | none => exact he h.1.2 p
  case nil => exact fun _ p _ => rfl
  case cons =>
    intro s rest hs hrest h p
    rw [isDecisiveAll, Bool.and_eq_true] at h
    by_cases hdecisive : s.isDecisive false = true
    · have hfirst := hs hdecisive p
      rw [execAll]
      rcases hexec : exec l free s p with ⟨_ | value, q⟩
      · rw [hexec] at hfirst
        intro hlost
        exact (hrest h.2 q hlost).trans (hfirst (by simp))
      · rw [hexec] at hfirst
        exact hfirst
    · -- a line that fires: what comes next returns `true`
      cases s with
      | branch id guard t e es => exact absurd h.1 hdecisive
      | line id x comment off =>
        have hwins : rest.head?.any isWin = true := by
          by_contra hno
          rw [Bool.not_eq_true] at hno
          rw [hno] at h
          exact hdecisive h.1
        intro hlost
        rw [execAll] at hlost ⊢
        rcases hexec : exec l free (.line id x comment off) p with ⟨_ | value, q⟩
        · rw [hexec] at hlost
          exact absurd (execAll_of_win l free hwins q) hlost
        · simp [isDecisive, play_of_returns l free hexec] at hdecisive
  case choiceNil =>
    intro _ p r hr
    cases hr
  case choiceLine =>
    intro id x comment off rest hrest h p r hr
    rw [isDecisiveAll, Bool.and_eq_true] at h
    rw [execElseIfs] at hr
    exact hrest h.2 p r hr
  case choiceBranch =>
    intro id guard t e es rest ht hrest h p r hr
    simp only [isDecisiveAll, isDecisive, Bool.and_eq_true] at h
    rw [execElseIfs] at hr
    split_ifs at hr
    · cases hr
      exact ht h.1.1.1 p
    · exact hrest h.2 p r hr

/-- **A run of decisive code** that does not return `true` has fired nothing. -/
theorem fired_of_decisive {ts : List (Stmt ι)} (h : isDecisiveAll ts = true) (p : Code.Progress)
    (hlost : (execAll l free ts p).1 ≠ some true) : (execAll l free ts p).2.fired = p.fired :=
  (keepsFired_all l free).2.1 ts h p hlost

end Runs

/-! ### Fusing decisive code -/

theorem Fork.isDecisiveAll_code (f : Fork ι) :
    isDecisiveAll f.code = true ↔
    isDecisiveAll f.before = true ∧
      (isDecisiveAll f.thenBody = true ∧ isDecisiveAll f.elseBody = true ∧
        isDecisiveAll f.elseIfs = true) ∧
      isDecisiveAll f.after = true :=
  isDecisiveAll_append_branch _ _ _ _ _ _ _

theorem Fork.isDecisiveAll_rest {f : Fork ι} (h : isDecisiveAll f.code = true) :
    isDecisiveAll f.rest = true :=
  (isDecisiveAll_append_branch [] _ _ _ _ _ _).2 ⟨rfl, ((isDecisiveAll_code f).1 h).2⟩

/-- **Fusing keeps code decisive.** -/
theorem isDecisiveAll_fuse (l : Language) {mine other : List (Stmt ι)}
    (hm : isDecisiveAll mine = true) (ho : isDecisiveAll other = true) :
    isDecisiveAll (fuse l mine other) = true := by
  induction mine, other using fuse_induct l with
  | none mine other hnone => rwa [fuse_of_none hnone]
  | leaf mine other g hf hg => rw [fuse_of_leaf hf hg]; exact isDecisiveAll_append hm ho
  | share mine other f g hf hg heq ih =>
    rw [(lastFork?_eq_some hf).1, Fork.isDecisiveAll_code] at hm
    rw [(lastFork?_eq_some hg).1, Fork.isDecisiveAll_code] at ho
    rw [fuse_share hf hg heq, Fork.isDecisiveAll_code]
    exact ⟨hm.1, ⟨ih hm.2.1.1 ho.2.1.1, hm.2.1.2⟩, hm.2.2⟩
  | specific mine other f g hf hg heq hspec ih =>
    rw [(lastFork?_eq_some hf).1, Fork.isDecisiveAll_code] at hm
    rw [(lastFork?_eq_some hg).1] at ho
    rw [fuse_specific hf hg heq hspec, Fork.isDecisiveAll_code]
    exact ⟨hm.1, ⟨ih hm.2.1.1 (Fork.isDecisiveAll_rest ho), hm.2.1.2⟩, hm.2.2⟩
  | otherwise mine other f g hf hg heq hspec ih =>
    rw [(lastFork?_eq_some hf).1, Fork.isDecisiveAll_code] at hm
    rw [fuse_otherwise hf hg heq hspec, Fork.isDecisiveAll_code]
    exact ⟨hm.1, ⟨hm.2.1.1, ih hm.2.1.2.1 ho, hm.2.1.2.2⟩, hm.2.2⟩

end Stmt

/-! ### Decisive rules -/

/-- The statements that introduce operands fire nothing. -/
theorem Matcher.Setup.isDecisive {t : Trail} {s : Stmt Unit} (h : Setup t s) :
    s.calm.isDecisive false = true := by
  cases h with
  | implied guard =>
    have hcomment := isCommentLine_implied guard
    simp only [impliedStmt, fresh, calm, Line.calm, Stmt.isDecisive, Line.play, hcomment, if_true]
    rfl
  | _ => rfl

/-- **The matcher of a rule** fires right before it returns `true` only. -/
theorem Matcher.Built.isDecisiveAll {s : Stmt Unit} {guards : List Guard} {ts : List (Stmt Unit)}
    (h : Built IsSetup s guards ts) : Stmt.isDecisiveAll ts = true := by
  induction h with
  | action h =>
    -- the replacement is followed by the return of `true`
    unfold actionBody replaceStmt
    split_ifs <;> rfl
  | @under guards t guard body ih =>
    exact (isDecisiveAll_append_branch [] () guard t [Stmt.noop ()] [] []).2
      ⟨rfl, ⟨ih, rfl, rfl⟩, rfl⟩
  | surround inner before after ih =>
    refine isDecisiveAll_append (isDecisiveAll_of_forall ?_)
      (isDecisiveAll_append ih (isDecisiveAll_of_forall ?_))
    · intro x hx
      obtain ⟨t, y, ht, rfl⟩ := before x hx
      exact ht.isDecisive
    · intro y hy
      rcases after y hy with rfl | rfl <;> rfl

theorem isDecisiveAll_ruleCode {r : Rule} {code : List (Stmt Unit)} (h : o.codeOf l r = some code) :
    isDecisiveAll code = true := by
  obtain ⟨parts, -, hbuilt⟩ := built_of_setup h
  exact hbuilt.isDecisiveAll

end Rulewright
