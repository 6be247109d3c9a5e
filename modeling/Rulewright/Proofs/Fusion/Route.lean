import Rulewright.Proofs.Fusion.Merged

/-!
# What fused code does

A run that returns does so at some line, under guards that have been asked one after the other, each
of the terms that were bound at its moment. A tree that a matcher has been fused into does what it
did before, unless the run takes the way down that the matcher has gone, and what is left of the
matcher returns there.

* `routeAll`, `route_tells_all`: the line at which a run returns, and the moments of the guards
  above it.
* `arrive`: where a run is at the end of a way down.
* `report_fuse`: what a run of fused code returns, where it returns, and what it fires.
-/

namespace Rulewright.Stmt

variable {ι κ : Type} (l : Language) (free : String → Bool)

/-- What the line returns when it is run. -/
def ret? : Stmt ι → Option Bool
  | .line _ (.ret value) _ off => if off then none else some value
  | _ => none

theorem isWin_of_ret? {s : Stmt ι} (h : s.ret? = some true) : s.isWin = true := by
  unfold ret? at h
  split at h
  · split_ifs at h with hoff
    cases h
    simp [isWin, hoff]
  · cases h

/-- The line at which a run returns, and what was bound when the guards were asked whose bodies it
is in then. -/
structure Route (ι : Type) where
  moments : List Bindings
  line : Stmt ι

/-- The same under one more guard. -/
def Route.under (b : Bindings) (r : Route ι) : Route ι := ⟨b :: r.moments, r.line⟩

mutual

/-- How a statement returns. -/
def route : Stmt ι → Code.Progress → Option (Route ι)
  | .line id x comment off, _ =>
    if (ret? (.line id x comment off)).isSome then some ⟨[], .line id x comment off⟩ else none
  | .branch _ guard t e es, p =>
    if guard.holds l free p.bindings then (routeAll t p).map (Route.under p.bindings)
    else
      match execElseIfs l free es p with
      | some _ => routeElseIfs es p
      | none => routeAll e p

/-- How a sequence returns. -/
def routeAll : List (Stmt ι) → Code.Progress → Option (Route ι)
  | [], _ => none
  | s :: rest, p =>
    match exec l free s p with
    | (some _, _) => route s p
    | (none, q) => routeAll rest q

def routeElseIfs : List (Stmt ι) → Code.Progress → Option (Route ι)
  | [], _ => none
  | .line _ _ _ _ :: rest, p => routeElseIfs rest p
  | .branch _ guard t _ _ :: rest, p =>
    if guard.holds l free p.bindings then (routeAll t p).map (Route.under p.bindings)
    else routeElseIfs rest p

end

/-- The route tells why the value is returned: it ends at a line that returns it, and the guards
that the line is under held at the moments of the route. -/
inductive Tells (paths : List (List Guard × Stmt ι)) : Option Bool → Option (Route ι) → Prop where
  | goesOn : Tells paths none none
  | returns {value : Bool} {path : List Guard} {r : Route ι} (mem : (path, r.line) ∈ paths)
      (ret : r.line.ret? = some value)
      (held : List.Forall₂ (fun guard b => guard.holds l free b = true) path r.moments) :
      Tells paths (some value) (some r)

variable {l free} {ts : List (Stmt ι)} {p : Code.Progress}

theorem Tells.mono {paths paths' : List (List Guard × Stmt ι)} {value : Option Bool}
    {r : Option (Route ι)} (h : Tells l free paths value r) (hsub : ∀ q ∈ paths, q ∈ paths') :
    Tells l free paths' value r := by
  cases h with
  | goesOn => exact .goesOn
  | returns mem ret held => exact .returns (hsub _ mem) ret held

theorem Tells.under {paths : List (List Guard × Stmt ι)} {value : Option Bool}
    {r : Option (Route ι)} (h : Tells l free paths value r) {guard : Guard} {b : Bindings}
    (hguard : guard.holds l free b = true) :
    Tells l free (paths.map (onWay [guard])) value (r.map (Route.under b)) := by
  cases h with
  | goesOn => exact .goesOn
  | @returns value path r mem ret held =>
    have hmem : (guard :: path, r.line) ∈ paths.map (onWay [guard]) := List.mem_map_of_mem mem
    exact .returns hmem ret (.cons hguard held)

theorem tells_line (id : ι) (x : Line) (comment : Option String) (off : Bool) (p : Code.Progress) :
    Tells l free (paths (.line id x comment off)) (exec l free (.line id x comment off) p).1
      (route l free (.line id x comment off) p) := by
  have hexec : (exec l free (.line id x comment off) p).1 = ret? (.line id x comment off) := by
    cases off with
    | true => cases x <;> rfl
    | false =>
      cases x with
      | custom text =>
        simp only [exec, Line.exec, Bool.false_eq_true, if_false]
        split_ifs <;> rfl
      | _ => rfl
  rw [hexec, route]
  cases hret : ret? (.line id x comment off) with
  | none => exact .goesOn
  | some value =>
    have hmem : ([], .line id x comment off) ∈ paths (.line id x comment off) := List.mem_cons_self
    exact .returns hmem hret .nil

/-- **Routes tell** why a run returns what it returns. -/
theorem route_tells_all (l : Language) (free : String → Bool) :
    (∀ (s : Stmt ι) p, Tells l free s.paths (exec l free s p).1 (route l free s p)) ∧
    (∀ (ts : List (Stmt ι)) p,
      Tells l free (pathsAll ts) (execAll l free ts p).1 (routeAll l free ts p)) ∧
    ∀ (es : List (Stmt ι)) p r, execElseIfs l free es p = some r →
      Tells l free (pathsAll es) r.1 (routeElseIfs l free es p) := by
  apply run_induct
  case line => exact tells_line
  case branch =>
    intro id guard t e es ht he hes p
    rw [exec, route, paths]
    split_ifs with hguard
    · exact ((ht p).under hguard).mono fun q hq => List.mem_append_left _ hq
    · cases hchoice : execElseIfs l free es p with
      | some r =>
        exact (hes p r hchoice).mono fun q hq =>
          List.mem_append_right _ (List.mem_append_right _ hq)
      | none => exact (he p).mono fun q hq => List.mem_append_right _ (List.mem_append_left _ hq)
  case nil => exact fun p => .goesOn
  case cons =>
    intro s rest hs hrest p
    have hfirst := hs p
    rw [execAll, routeAll, pathsAll]
    rcases hexec : exec l free s p with ⟨_ | value, q⟩
    · exact (hrest q).mono fun q hq => List.mem_append_right _ hq
    · rw [hexec] at hfirst
      exact hfirst.mono fun q hq => List.mem_append_left _ hq
  case choiceNil =>
    intro p r hr
    cases hr
  case choiceLine =>
    intro id x comment off rest hrest p r hr
    rw [execElseIfs] at hr
    rw [routeElseIfs]
    exact (hrest p r hr).mono fun q hq => List.mem_append_right _ hq
  case choiceBranch =>
    intro id guard t e es rest ht hrest p r hr
    rw [execElseIfs] at hr
    rw [routeElseIfs]
    split_ifs at hr ⊢ with hguard
    · cases hr
      exact ((ht p).under hguard).mono fun q hq =>
        List.mem_append_left _ (List.mem_append_left _ hq)
    · exact (hrest p r hr).mono fun q hq => List.mem_append_right _ hq

theorem exists_route {value : Bool} (h : (execAll l free ts p).1 = some value) :
    ∃ r path, routeAll l free ts p = some r ∧ (path, r.line) ∈ pathsAll ts ∧
      r.line.ret? = some value ∧
      List.Forall₂ (fun guard b => guard.holds l free b = true) path r.moments := by
  have htells := (route_tells_all l free).2.1 ts p
  rw [h] at htells
  generalize routeAll l free ts p = route at htells
  cases htells with
  | returns mem ret held => exact ⟨_, _, rfl, mem, ret, held⟩

theorem routeAll_of_none (h : (execAll l free ts p).1 = none) : routeAll l free ts p = none := by
  have htells := (route_tells_all l free).2.1 ts p
  rw [h] at htells
  generalize routeAll l free ts p = route at htells
  cases htells
  rfl

theorem routeAll_append (xs ys : List (Stmt ι)) (p : Code.Progress) :
    routeAll l free (xs ++ ys) p =
      match execAll l free xs p with
      | (some _, _) => routeAll l free xs p
      | (none, q) => routeAll l free ys q := by
  induction xs generalizing p with
  | nil => rfl
  | cons s rest ih =>
    simp only [List.cons_append, execAll, routeAll]
    rcases exec l free s p with ⟨_ | value, q⟩
    · exact ih q
    · rfl

/-! ### Reports -/

/-- What can be told of a run: what it returns and at which line, and what has been fired. -/
structure Report (ι : Type) where
  value : Option Bool
  line : Option (Stmt ι)
  fired : List String

variable (l free)

/-- The report of a run of a statement. -/
def reportOne (s : Stmt ι) (p : Code.Progress) : Report ι :=
  ⟨(exec l free s p).1, (route l free s p).map (·.line), (exec l free s p).2.fired⟩

/-- The report of a run of a sequence. -/
def report (ts : List (Stmt ι)) (p : Code.Progress) : Report ι :=
  ⟨(execAll l free ts p).1, (routeAll l free ts p).map (·.line), (execAll l free ts p).2.fired⟩

variable {l free}

theorem report_cons (s : Stmt ι) (rest : List (Stmt ι)) (p : Code.Progress) :
    report l free (s :: rest) p =
      match exec l free s p with
      | (some _, _) => reportOne l free s p
      | (none, q) => report l free rest q := by
  simp only [report, reportOne, execAll, routeAll]
  rcases exec l free s p with ⟨_ | value, q⟩ <;> rfl

theorem report_append (xs ys : List (Stmt ι)) (p : Code.Progress) :
    report l free (xs ++ ys) p =
      match execAll l free xs p with
      | (some _, _) => report l free xs p
      | (none, q) => report l free ys q := by
  simp only [report, execAll_append, routeAll_append]
  rcases execAll l free xs p with ⟨_ | value, q⟩ <;> rfl

/-- The line of a report is a line of the sequence. -/
theorem mem_pathsAll_of_report {s : Stmt ι} (h : (report l free ts p).line = some s) :
    ∃ path, (path, s) ∈ pathsAll ts := by
  obtain ⟨r, hr, rfl⟩ := Option.map_eq_some_iff.1 h
  have htells := (route_tells_all l free).2.1 ts p
  rw [hr] at htells
  generalize (execAll l free ts p).1 = value at htells
  cases htells with
  | returns mem ret held => exact ⟨_, mem⟩

/-- What lines return and fire does not depend on what is bound. -/
theorem report_lines (h : ∀ s ∈ ts, s.isBranch = false) {p' : Code.Progress}
    (hfired : p.fired = p'.fired) : report l free ts p = report l free ts p' := by
  induction ts generalizing p p' with
  | nil => exact congrArg (Report.mk none none) hfired
  | cons s rest ih =>
    obtain ⟨hline, hrest⟩ := List.forall_mem_cons.1 h
    cases s with
    | branch id guard t e es => cases hline
    | line id x comment off =>
      -- the line does the same to both, apart from what it binds
      have hexec : (exec l free (.line id x comment off) p).1 =
            (exec l free (.line id x comment off) p').1 ∧
          (exec l free (.line id x comment off) p).2.fired =
            (exec l free (.line id x comment off) p').2.fired := by
        simp only [exec]
        split_ifs
        · exact ⟨rfl, hfired⟩
        · cases x with
          | custom text =>
            simp only [Line.exec]
            split_ifs
            · exact ⟨rfl, hfired⟩
            · exact ⟨rfl, by rw [hfired]⟩
          | _ => exact ⟨rfl, hfired⟩
      have hone : reportOne l free (.line id x comment off) p =
          reportOne l free (.line id x comment off) p' := by
        rw [reportOne, reportOne, hexec.1, hexec.2]
        rfl
      rw [report_cons, report_cons]
      rcases hp : exec l free (.line id x comment off) p with ⟨_ | value, q⟩ <;>
        rcases hp' : exec l free (.line id x comment off) p' with ⟨_ | value', q'⟩ <;>
          rw [hp, hp'] at hexec
      · exact ih hrest hexec.2
      · cases hexec.1
      · cases hexec.1
      · exact hone

/-! ### Forks -/

section Fork

variable {f : Fork ι} {p : Code.Progress}

theorem report_code (f : Fork ι) (p : Code.Progress) :
    report l free f.code p =
      match execAll l free f.before p with
      | (some _, _) => report l free f.before p
      | (none, q) =>
        match exec l free f.branch q with
        | (some _, _) => reportOne l free f.branch q
        | (none, q) => report l free f.after q := by
  have hrest : ∀ q, report l free f.rest q = report l free (f.branch :: f.after) q := fun _ => rfl
  rw [Fork.code, report_append]
  simp only [hrest, report_cons]

theorem reportOne_then (hguard : f.guard.holds l free p.bindings = true) :
    reportOne l free f.branch p = report l free f.thenBody p := by
  simp only [reportOne, report, Fork.branch, exec, route, if_pos hguard, Option.map_map]
  rfl

theorem reportOne_else (hguard : ¬ f.guard.holds l free p.bindings = true)
    (hchoice : execElseIfs l free f.elseIfs p = none) :
    reportOne l free f.branch p = report l free f.elseBody p := by
  simp only [reportOne, report, Fork.branch, exec, route, if_neg hguard, hchoice]

/-- Where the branch of a sequence is changed so that it returns another way, or else does the same.
-/
theorem report_changed {f' : Fork ι} {change : Code.Progress → Option (Report ι)}
    (h : ∀ q, reportOne l free f'.branch q = (change q).getD (reportOne l free f.branch q))
    (hreturns : ∀ q x, change q = some x → x.value.isSome) (hbefore : f'.before = f.before)
    (hafter : f'.after = f.after) (hlines : ∀ s ∈ f.after, s.isBranch = false) (p : Code.Progress) :
    report l free f'.code p =
      (match execAll l free f.before p with
        | (some _, _) => none
        | (none, q) => change q).getD (report l free f.code p) := by
  rw [report_code, report_code, hbefore, hafter]
  -- the branch is met only where the lines before it go on
  rcases execAll l free f.before p with ⟨_ | value, q⟩
  · have hq := h q
    have hvalue : (exec l free f'.branch q).1 =
        ((change q).getD (reportOne l free f.branch q)).value := congrArg Report.value hq
    dsimp only
    cases hchange : change q with
    | some x =>
      rw [hchange, Option.getD_some] at hq hvalue
      obtain ⟨value, hx⟩ := Option.isSome_iff_exists.1 (hreturns q x hchange)
      rcases hexec : exec l free f'.branch q with ⟨_ | value', q'⟩
      · rw [hexec, hx] at hvalue
        cases hvalue
      · exact hq
    | none =>
      rw [hchange, Option.getD_none] at hq
      have hsame : (exec l free f'.branch q).1 = (exec l free f.branch q).1 :=
        congrArg Report.value hq
      have hfired : (exec l free f'.branch q).2.fired = (exec l free f.branch q).2.fired :=
        congrArg Report.fired hq
      rcases hexec' : exec l free f'.branch q with ⟨_ | value', q'⟩ <;>
        rcases hexec : exec l free f.branch q with ⟨_ | value, q1⟩ <;>
        rw [hexec, hexec'] at hsame hfired
      -- both go on, and the lines after the branch are the same
      · exact report_lines hlines hfired
      · cases hsame
      · cases hsame
      · exact hq
  · rfl

end Fork

/-! ### Fusing -/

variable (l free)

/-- The state of a run at the end of a way down a tree, if it takes it. -/
def arrive : List (Guard × Bool) → List (Stmt ι) → Code.Progress → Option Code.Progress
  | [], ts, p =>
    match execAll l free ts p with
    | (some _, _) => none
    | (none, q) => some q
  | (guard, body) :: way, ts, p =>
    (lastFork? ts).bind fun f =>
      match execAll l free f.before p with
      | (some _, _) => none
      | (none, q) =>
        if guard.holds l free q.bindings then if body then arrive way f.thenBody q else none
        else if body || (execElseIfs l free f.elseIfs q).isSome then none
        else arrive way f.elseBody q

/-- What is left of a matcher returns at the end of its way. -/
def Descent.returns (d : Descent ι) (ts : List (Stmt ι)) (p : Code.Progress) : Option (Report ι) :=
  (arrive l free d.way ts p).bind fun q =>
    if (execAll l free d.kept q).1.isSome then some (report l free d.kept q) else none

variable {l free}

theorem Descent.isSome_value {d : Descent ι} {x : Report ι} (h : d.returns l free ts p = some x) :
    x.value.isSome := by
  obtain ⟨q, -, h⟩ := Option.bind_eq_some_iff.1 h
  split_ifs at h with hsome
  cases h
  exact hsome

theorem Descent.returns_then (d : Descent ι) {f : Fork ι} (hf : lastFork? ts = some f)
    (p : Code.Progress) :
    (d.under f.guard true).returns l free ts p =
      match execAll l free f.before p with
      | (some _, _) => none
      | (none, q) =>
        if f.guard.holds l free q.bindings then d.returns l free f.thenBody q else none := by
  simp only [returns, under, arrive, hf, Option.bind_some]
  rcases execAll l free f.before p with ⟨_ | value, q⟩
  · dsimp only
    cases f.guard.holds l free q.bindings <;> rfl
  · rfl

theorem Descent.returns_else (d : Descent ι) {f : Fork ι} (hf : lastFork? ts = some f)
    (p : Code.Progress) :
    (d.under f.guard false).returns l free ts p =
      match execAll l free f.before p with
      | (some _, _) => none
      | (none, q) =>
        if f.guard.holds l free q.bindings || (execElseIfs l free f.elseIfs q).isSome then none
        else d.returns l free f.elseBody q := by
  simp only [returns, under, arrive, hf, Option.bind_some]
  rcases execAll l free f.before p with ⟨_ | value, q⟩
  · dsimp only
    cases f.guard.holds l free q.bindings <;> cases execElseIfs l free f.elseIfs q <;> rfl
  · rfl

/-- A changed `then` body. -/
theorem report_thenBody {f : Fork ι} (hf : lastFork? ts = some f) {t : List (Stmt ι)}
    {d : Descent ι}
    (h : ∀ q, report l free t q = (d.returns l free f.thenBody q).getD (report l free f.thenBody q))
    (p : Code.Progress) :
    report l free { f with thenBody := t }.code p =
      ((d.under f.guard true).returns l free ts p).getD (report l free ts p) := by
  obtain ⟨hts, hlines⟩ := lastFork?_eq_some hf
  have hreport : report l free ts p = report l free f.code p := by rw [← hts]
  rw [d.returns_then hf, hreport]
  have hbranch : ∀ q,
      reportOne l free { f with thenBody := t }.branch q =
        (if f.guard.holds l free q.bindings then d.returns l free f.thenBody q else none).getD
          (reportOne l free f.branch q) := by
    intro q
    split_ifs with hguard
    · rw [reportOne_then (f := f) hguard]
      exact (reportOne_then (f := { f with thenBody := t }) hguard).trans (h q)
    · rw [Option.getD_none]
      simp only [reportOne, Fork.branch, exec, route, if_neg hguard]
  refine report_changed hbranch (fun q x hx => ?_) rfl rfl hlines p
  split_ifs at hx
  exact Descent.isSome_value hx

/-- A changed `else` body. -/
theorem report_elseBody {f : Fork ι} (hf : lastFork? ts = some f) {e : List (Stmt ι)}
    {d : Descent ι}
    (h : ∀ q, report l free e q = (d.returns l free f.elseBody q).getD (report l free f.elseBody q))
    (p : Code.Progress) :
    report l free { f with elseBody := e }.code p =
      ((d.under f.guard false).returns l free ts p).getD (report l free ts p) := by
  obtain ⟨hts, hlines⟩ := lastFork?_eq_some hf
  have hreport : report l free ts p = report l free f.code p := by rw [← hts]
  rw [d.returns_else hf, hreport]
  have hbranch : ∀ q, reportOne l free { f with elseBody := e }.branch q =
      (if f.guard.holds l free q.bindings || (execElseIfs l free f.elseIfs q).isSome then none
        else d.returns l free f.elseBody q).getD (reportOne l free f.branch q) := by
    intro q
    by_cases hguard : f.guard.holds l free q.bindings = true
    · rw [hguard, Bool.true_or, if_pos rfl, Option.getD_none, reportOne_then (f := f) hguard]
      exact reportOne_then (f := { f with elseBody := e }) hguard
    · cases hchoice : execElseIfs l free f.elseIfs q with
      | none =>
        have hboth : ¬ (f.guard.holds l free q.bindings ||
            (none : Option (Option Bool × Code.Progress)).isSome) = true := by
          simpa using hguard
        rw [if_neg hboth, reportOne_else (f := f) hguard hchoice]
        exact (reportOne_else (f := { f with elseBody := e }) hguard hchoice).trans (h q)
      | some r =>
        rw [Option.isSome_some, Bool.or_true, if_pos rfl, Option.getD_none]
        simp only [reportOne, Fork.branch, exec, route, if_neg hguard, hchoice]
  refine report_changed hbranch (fun q x hx => ?_) rfl rfl hlines p
  split_ifs at hx
  exact Descent.isSome_value hx

/-- **What fused code does**: what it did before, unless what is left of the matcher returns at the
end of its way. -/
theorem report_fuse (l : Language) (free : String → Bool) (mine : List (Stmt ι))
    {other : List (Stmt ι)} (ho : isDecisiveAll other = true) (p : Code.Progress) :
    report l free (fuse l mine other) p =
      ((descend l mine other).returns l free mine p).getD (report l free mine p) := by
  induction mine, other using fuse_induct l generalizing p with
  | none mine other hnone =>
    have hkept : (⟨[], other⟩ : Descent ι).kept = [] := by rw [Descent.kept, hnone]; rfl
    have hreturns : (⟨[], other⟩ : Descent ι).returns l free mine p = none := by
      rw [Descent.returns, hkept, Option.bind_eq_none_iff]
      exact fun q _ => rfl
    rw [fuse_of_none hnone, descend_of_none hnone, hreturns, Option.getD_none]
  | leaf mine other g hf hg =>
    have hkept : (⟨[], other⟩ : Descent ι).kept = other := by rw [Descent.kept, hg]; rfl
    rw [fuse_of_leaf hf hg, descend_of_leaf hf, Descent.returns, hkept, report_append, arrive]
    rcases hmine : execAll l free mine p with ⟨_ | value, q⟩
    · rw [Option.bind_some]
      cases hvalue : (execAll l free other q).1 with
      | some value => rfl
      | none =>
        -- what goes on behind the tree has fired nothing
        have hfired := fired_of_decisive l free ho q (by rw [hvalue]; simp)
        have hgone : routeAll l free mine p = none := routeAll_of_none (by rw [hmine])
        simp only [report, hvalue, routeAll_of_none hvalue, hfired, hgone, hmine]
        rfl
    · rfl
  | share mine other f g hf hg heq ih =>
    rw [(lastFork?_eq_some hg).1, Fork.isDecisiveAll_code] at ho
    rw [fuse_share hf hg heq, descend_share hf hg heq]
    exact report_thenBody hf (ih ho.2.1.1) p
  | specific mine other f g hf hg heq hspec ih =>
    rw [(lastFork?_eq_some hg).1] at ho
    rw [fuse_specific hf hg heq hspec, descend_specific hf hg heq hspec]
    exact report_thenBody hf (ih (Fork.isDecisiveAll_rest ho)) p
  | otherwise mine other f g hf hg heq hspec ih =>
    rw [fuse_otherwise hf hg heq hspec, descend_otherwise hf hg heq hspec]
    exact report_elseBody hf (ih ho) p

end Rulewright.Stmt
