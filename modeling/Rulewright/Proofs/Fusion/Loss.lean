import Rulewright.Proofs.Fusion.Checks
import Rulewright.Proofs.Fusion.Origins

/-!
# Rules that are lost

A rule that is fused with others may leave no trace: a matcher of which no branch is left when it
has gone down the tree of the earlier rules is dropped. This happens if and only if each of its
checks has met an equal guard of an earlier rule on the way, which does not mean that an earlier
rule makes no further checks.

* `Lasting.map`, `mem_fusedTree_iff`: the line that replaces the matched term is in the fused tree
  if a branch of its rule is left.
* `Keeps.reached`: what is in the fused tree can be reached in the store.
* `fused_lost_iff`: when rules are lost.
-/

namespace Rulewright

theorem sublistForall₂_of_append {α β : Type} {R : α → β → Prop} {xs ys : List α} {zs : List β}
    (h : List.SublistForall₂ R (xs ++ ys) zs) : List.SublistForall₂ R xs zs := by
  induction zs generalizing xs with
  | nil =>
    cases xs with
    | nil => exact .nil
    | cons x xs => cases h
  | cons z zs ih =>
    cases xs with
    | nil => exact .nil
    | cons x xs =>
      cases h with
      | cons hx h => exact .cons hx (ih h)
      | cons_right h => exact .cons_right (ih h)

namespace Stmt

variable {ι κ : Type} {l : Language}

theorem Lasting.map {s : Stmt ι} {ts : List (Stmt ι)} (h : Lasting s ts) (f : ι → κ) :
    Lasting (s.map f) (mapAll f ts) := by
  induction h with
  | leaf h => exact .leaf (by rw [lastFork?_map, h]; rfl)
  | @fork ts g h here below ih =>
    have hfork : lastFork? (mapAll f ts) = some (g.map f) := by rw [lastFork?_map, h]; rfl
    obtain ⟨path, hpath⟩ := here
    refine .fork hfork ⟨path, ?_⟩ ih
    have hrest : (g.map f).rest = mapAll f g.rest := rfl
    rw [hrest, (paths_map_all f).2]
    exact List.mem_map.2 ⟨(path, s), hpath, rfl⟩

/-- A branch of the tree is left when it has gone down the trees before it. -/
def IsKept (l : Language) (codes : List (List (Stmt Unit))) (i : Nat) (code : List (Stmt Unit)) :
    Prop :=
  i = 0 ∨ (lastFork? (remains l (codes.take i) code).left).isSome

/-- **A lasting line is in the fused tree** if and only if a branch of its tree is left. -/
theorem mem_fusedTree_iff {codes : List (List (Stmt Unit))} {i : Nat} {code : List (Stmt Unit)}
    (hi : codes[i]? = some code) {s : Stmt Unit} (hlasting : Lasting s code) {guards : List Guard}
    (hreached : (guards, s) ∈ pathsAll code) :
    (∃ path, (path, s.map fun _ => i) ∈ pathsAll (fusedTree l codes)) ↔ IsKept l codes i code := by
  have hlen : (codes.take i).length = i :=
    List.length_take_of_le (Nat.le_of_lt (List.getElem?_eq_some_iff.1 hi).1)
  simp only [mem_pathsAll_fusedTree, id_map]
  constructor
  · rintro ⟨path, j, code', hj, rfl, h⟩
    obtain rfl : code = code' := Option.some.inj (hi.symm.trans hj)
    split_ifs at h with hzero
    · exact Or.inl hzero
    · exact Or.inr (Descent.mem_added.1 h).1
  · intro hkept
    by_cases hzero : i = 0
    · refine ⟨guards, i, code, hi, rfl, ?_⟩
      rw [if_pos hzero, labelled, (paths_map_all _).2]
      exact List.mem_map.2 ⟨(guards, s), hreached, rfl⟩
    · have hleft := hkept.resolve_left hzero
      have hlabel : Lasting (s.map fun _ => i) (labelled (codes.take i).length code) := by
        rw [hlen]
        exact hlasting.map _
      obtain ⟨path, hpath⟩ := hlabel.left hleft
      refine ⟨(remains l (codes.take i) code).passed ++ path, i, code, hi, rfl, ?_⟩
      rw [if_neg hzero, Descent.mem_added]
      exact ⟨hleft, _, hpath, rfl⟩

/-- A tree of which no branch is left has met a guard equal to each of its checks, in their order,
and they are guards of earlier trees. -/
theorem absorbed_fusedTree {codes : List (List (Stmt Unit))} {i : Nat} {code : List (Stmt Unit)}
    (h : ¬ IsKept l codes i code) :
    List.SublistForall₂ (fun check guard => guard.equals check = true) (checks code)
      (remains l (codes.take i) code).passed ∧
    ∀ guard ∈ (remains l (codes.take i) code).passed, ∃ earlier ∈ codes.take i,
      guard ∈ guardsAll earlier := by
  have hleft : lastFork? (remains l (codes.take i) code).left = none := by
    rw [← Option.not_isSome_iff_eq_none]
    exact fun hsome => h (Or.inr hsome)
  have hchecks : checks (labelled (codes.take i).length code) = checks code := checks_map _ code
  refine ⟨?_, fun guard hguard => mem_guardsAll_fusedTree (mem_guardsAll_of_passed l _ _ hguard)⟩
  rw [← hchecks]
  exact absorbed l _ _ hleft

/-! ### Stores -/

/-- The content of a line. -/
def line? : Stmt ι → Option Line
  | .line _ x _ _ => some x
  | .branch _ _ _ _ _ => none

theorem line?_map (f : ι → κ) (s : Stmt ι) : (s.map f).line? = s.line? := by cases s <;> rfl

theorem kind_node {s : Stmt NodeId} {x : Line} (h : s.line? = some x) (link : Link)
    (next : Option NodeId) : (s.node link next).kind = x.kind := by
  cases s with
  | line id x' comment off =>
    cases h
    rfl
  | branch id guard t e es => cases h

/-- The lines of a tree have their cells. -/
theorem mem_cells_of_paths_all :
    (∀ s : Stmt NodeId, ∀ p ∈ s.paths, (p.2 = s ∧ s.bodyCells = 0) ∨
      ∃ link next, (p.2.id, p.2.node link next) ∈ s.bodyCells) ∧
    ∀ ts : List (Stmt NodeId), ∀ p ∈ pathsAll ts,
      (∀ link next, ∃ link' next', (p.2.id, p.2.node link' next') ∈ cells link next ts) ∧
      ∀ parent index, ∃ link' next',
        (p.2.id, p.2.node link' next') ∈ elseIfCells parent index ts := by
  apply Stmt.induct
  case line =>
    intro id x comment off p hp
    rw [List.mem_singleton.1 hp]
    exact Or.inl ⟨rfl, by rw [bodyCells]⟩
  case branch =>
    intro id guard t e es ht he hes p hp
    refine Or.inr ?_
    rw [bodyCells_branch]
    rcases List.mem_append.1 hp with hp | hp
    · obtain ⟨q, hq, rfl⟩ := List.mem_map.1 hp
      obtain ⟨link, next, h⟩ := (ht q hq).1 (.childOf id .thenBody) none
      exact ⟨link, next, Multiset.mem_add.2 (Or.inl (Multiset.mem_add.2 (Or.inl h)))⟩
    · rcases List.mem_append.1 hp with hp | hp
      · obtain ⟨link, next, h⟩ := (he p hp).1 (.childOf id .elseBody) none
        exact ⟨link, next, Multiset.mem_add.2 (Or.inl (Multiset.mem_add.2 (Or.inr h)))⟩
      · obtain ⟨link, next, h⟩ := (hes p hp).2 id 0
        exact ⟨link, next, Multiset.mem_add.2 (Or.inr h)⟩
  case nil => exact List.forall_mem_nil _
  case cons =>
    intro s rest hs hrest p hp
    -- a line of the statement is in its own cell or in those of its bodies
    have hhead : p ∈ s.paths →
        ∀ link next, ∃ link' next',
          (p.2.id, p.2.node link' next') ∈ {(s.id, s.node link next)} + s.bodyCells := by
      intro hp link next
      rcases hs p hp with ⟨rfl, -⟩ | ⟨link', next', h⟩
      · exact ⟨link, next, Multiset.mem_add.2 (Or.inl (Multiset.mem_singleton_self _))⟩
      · exact ⟨link', next', Multiset.mem_add.2 (Or.inr h)⟩
    refine ⟨fun link next => ?_, fun parent index => ?_⟩
    · rw [cells_cons]
      rcases List.mem_append.1 hp with hp | hp
      · obtain ⟨link', next', h⟩ := hhead hp link ((start? rest).or next)
        exact ⟨link', next', Multiset.mem_add.2 (Or.inl h)⟩
      · obtain ⟨link', next', h⟩ := (hrest p hp).1 (.after s.id) next
        exact ⟨link', next', Multiset.mem_add.2 (Or.inr h)⟩
    · rw [elseIfCells]
      rcases List.mem_append.1 hp with hp | hp
      · obtain ⟨link', next', h⟩ := hhead hp (.childOf parent (.elseIf index)) none
        exact ⟨link', next', Multiset.mem_add.2 (Or.inl h)⟩
      · obtain ⟨link', next', h⟩ := (hrest p hp).2 parent (index + 1)
        exact ⟨link', next', Multiset.mem_add.2 (Or.inr h)⟩

end Stmt

open Stmt

/-- A node with the content can be reached from the head. -/
def FusedCode.Reaches (f : FusedCode) (x : Line) : Prop :=
  ∃ head, f.head = some head ∧ ∃ id ∈ f.code.descendants head, f.code.kind id = x.kind

/-- What is in the tree that a store keeps can be reached in the store. -/
theorem FusedCode.Keeps.reaches {ι : Type} {f : FusedCode} {tree : List (Stmt ι)}
    (h : f.Keeps (strip tree)) {p : List Guard × Stmt ι} (hp : p ∈ pathsAll tree) {x : Line}
    (hx : p.2.line? = some x) : f.Reaches x := by
  obtain ⟨ts, m, hhead, hne, hs, ho, hstrip⟩ := h
  have hpaths : (pathsAll ts).map (fun q => (q.1, q.2.map fun _ => ())) =
      (pathsAll tree).map fun q => (q.1, q.2.map fun _ => ()) := by
    rw [← (paths_map_all _).2, ← (paths_map_all _).2]
    exact congrArg pathsAll hstrip
  obtain ⟨q, hq, heq⟩ := List.mem_map.1 (hpaths ▸ List.mem_map_of_mem hp)
  have hline : q.2.map (fun _ => ()) = p.2.map fun _ => () := congrArg Prod.snd heq
  obtain ⟨link, next, hcell⟩ := (mem_cells_of_paths_all.2 ts q hq).1 .root none
  refine ⟨start ts, hhead, q.2.id, ?_, ?_⟩
  · rw [ho.descendants_eq hs hne]
    exact (mem_walkAll .root none).2 ⟨_, hcell, rfl⟩
  · rw [Code.Owns.kind_of (ho.left.node _ hcell)]
    refine kind_node ?_ link next
    rw [← hx, ← line?_map fun _ => (), ← line?_map (fun _ => ()) p.2, hline]

variable {o : CompileOptions} {l : Language}

theorem Rule.line?_replacing {r : Rule} {parts : Rule.Parts} (h : r.parts? o l = some parts) :
    ∃ x, parts.replacing.line? = some x := by
  obtain ⟨⟨k, groups⟩, -, h⟩ := Option.bind_eq_some_iff.1 h
  dsimp only at h
  split at h
  · cases h
    unfold Matcher.replaceStmt
    split_ifs <;> exact ⟨_, rfl⟩
  · cases h

/-- **When fused rules are lost.** The line that replaces the term that a rule matches is in the
fused tree, and can be reached, if the rule is the first one or a branch of its matcher is left; it
is not there otherwise. Then each check of the rule, in their order, has met an equal guard on its
way, and it is a guard of an earlier rule. -/
theorem fused_lost_iff {rules : List PlannedRule} (hne : rules ≠ [])
    (hr : ∀ p ∈ rules, p.rule.IsAccepted o l) :
    ∃ f codes, FusedCode.ofRules o l rules = .ok f ∧
      rules.map (fun p => o.codeOf l p.rule) = codes.map some ∧
      f.Keeps (strip (fusedTree l codes)) ∧
      ∀ i p code, rules[i]? = some p → codes[i]? = some code →
        ∃ parts, p.rule.parts? o l = some parts ∧
          ((∃ path, (path, parts.replacing.map fun _ => i) ∈ pathsAll (fusedTree l codes)) ↔
            IsKept l codes i code) ∧
          (IsKept l codes i code → ∃ x, parts.replacing.line? = some x ∧ f.Reaches x) ∧
          (¬ IsKept l codes i code →
            List.SublistForall₂ (fun check guard => guard.equals check = true) parts.checks
                (remains l (codes.take i) code).passed ∧
              ∀ guard ∈ (remains l (codes.take i) code).passed, ∃ earlier ∈ codes.take i,
                guard ∈ guardsAll earlier) := by
  obtain ⟨f, codes, hf, hcodes, hkeeps⟩ := FusedCode.keeps_ofRules hne hr
  refine ⟨f, codes, hf, hcodes, hkeeps, fun i p code hp hcode => ?_⟩
  obtain ⟨p', hp', hcodeOf⟩ := exists_of_codes hcodes hcode
  obtain rfl : p = p' := Option.some.inj (hp.symm.trans hp')
  obtain ⟨parts, hparts, hleads⟩ := leads_ruleCode hcodeOf
  have hiff := mem_fusedTree_iff (l := l) hcode hleads.lasting hleads.reached
  refine ⟨parts, hparts, hiff, fun hkept => ?_, fun hlost => ?_⟩
  · obtain ⟨path, hpath⟩ := hiff.2 hkept
    obtain ⟨x, hx⟩ := Rule.line?_replacing hparts
    refine ⟨x, hx, hkeeps.reaches hpath ?_⟩
    rw [line?_map]
    exact hx
  · obtain ⟨habsorbed, hearlier⟩ := absorbed_fusedTree hlost
    obtain ⟨further, hfurther⟩ := hleads.checks
    rw [← hfurther] at habsorbed
    exact ⟨sublistForall₂_of_append habsorbed, hearlier⟩

/-- The rules `(+ $0 0) ==> $0` and `(+ $0 $1) ==> (+ $1 $0)`. -/
def swaps : List PlannedRule :=
  let rule (pattern replacement : Expr) : Rule := ⟨pattern, replacement, [], .noCheck, 0, false⟩
  [⟨⟨⟨"(+ $0 0) ==> $0", rule (.app 0 [.metavar 0, .literal (.int 0)]) (.metavar 0)⟩,
        .operator "+" none⟩,
      0⟩,
    ⟨⟨⟨"(+ $0 $1) ==> (+ $1 $0)",
          rule (.app 0 [.metavar 0, .metavar 1]) (.app 0 [.metavar 1, .metavar 0])⟩,
        .operator "+" none⟩,
      1⟩]

theorem swaps_not_reached {f : FusedCode}
    (hf : FusedCode.ofRules ⟨false, false, true⟩ .arithmetic swaps = .ok f) :
    ¬ f.Reaches (.custom "@formula.replace(_add(@formula_1, @formula_0));") := by
  have hall : ((FusedCode.ofRules ⟨false, false, true⟩ .arithmetic swaps).toOption.all fun f =>
      f.head.all fun head =>
        (f.code.descendants head).all fun id =>
          f.code.kind id != .custom "@formula.replace(_add(@formula_1, @formula_0));") = true := by
    decide +kernel
  rintro ⟨head, hhead, id, hid, hkind⟩
  rw [hf] at hall
  simp only [Except.toOption, Option.all_some, hhead, List.all_eq_true] at hall
  have hne := hall id hid
  rw [hkind] at hne
  simp [Line.kind] at hne

/-- The second rule is lost, since it has one check and the first one makes it too. -/
theorem fused_lost_swap :
    ∃ codes code parts, codes[1]? = some code ∧ ¬ IsKept .arithmetic codes 1 code ∧
      (swaps[1]?.bind fun p => p.rule.parts? ⟨false, false, true⟩ .arithmetic) = some parts ∧
      parts.checks = [.operatorIs Trail.root "+"] ∧
      List.SublistForall₂ (fun check guard => guard.equals check = true) parts.checks
        (remains .arithmetic (codes.take 1) code).passed := by
  have hr : ∀ p ∈ swaps, p.rule.IsAccepted ⟨false, false, true⟩ .arithmetic :=
    List.forall_mem_cons.2 ⟨⟨0, by decide +kernel⟩,
      List.forall_mem_cons.2 ⟨⟨0, by decide +kernel⟩, List.forall_mem_nil _⟩⟩
  obtain ⟨f, codes, hf, hcodes, -, h⟩ := fused_lost_iff (List.cons_ne_nil _ _) hr
  obtain ⟨code, hcode⟩ : ∃ code, codes[1]? = some code := by
    have hlen : codes.length = 2 := by
      have := congrArg List.length hcodes
      simpa [swaps] using this.symm
    exact ⟨_, List.getElem?_eq_getElem (by omega)⟩
  obtain ⟨parts, hparts, -, hkept, hlost⟩ := h 1 _ code rfl hcode
  have hline : ((swaps[1]?.bind fun p => p.rule.parts? ⟨false, false, true⟩ .arithmetic).map
      fun parts => (parts.replacing.line?, parts.checks)) =
      some (some (.custom "@formula.replace(_add(@formula_1, @formula_0));"),
        [.operatorIs Trail.root "+"]) := by
    decide +kernel
  have hpartsAt : (swaps[1]?.bind fun p => p.rule.parts? ⟨false, false, true⟩ .arithmetic) =
      some parts := hparts
  rw [hpartsAt] at hline
  obtain ⟨hline, hchecks⟩ := Prod.mk.inj (Option.some.inj hline)
  have hnot : ¬ IsKept .arithmetic codes 1 code := by
    intro hk
    obtain ⟨x, hx, hreaches⟩ := hkept hk
    obtain rfl := Option.some.inj (hx.symm.trans hline)
    exact swaps_not_reached hf hreaches
  exact ⟨codes, code, parts, hcode, hnot, hpartsAt, hchecks, (hlost hnot).1⟩

/-- On `(+ x y)` the second rule returns `true` alone and the first one does not, but nothing in the
fused code replaces a sum by the swapped one. -/
theorem swap_lost :
    ∃ f, FusedCode.ofRules ⟨false, false, true⟩ .arithmetic swaps = .ok f ∧
      (swaps.map fun p =>
        (p.rule.outcome? ⟨false, false, true⟩ .arithmetic (fun _ => false)
          (.app 0 [.var "x", .var "y"])).map (·.changed)) = [some false, some true] ∧
      ¬ f.Reaches (.custom "@formula.replace(_add(@formula_1, @formula_0));") := by
  have hok : (FusedCode.ofRules ⟨false, false, true⟩ .arithmetic swaps).isOk = true := by
    decide +kernel
  cases hf : FusedCode.ofRules ⟨false, false, true⟩ .arithmetic swaps with
  | error e =>
    rw [hf] at hok
    cases hok
  | ok f => exact ⟨f, rfl, by decide +kernel, swaps_not_reached hf⟩

end Rulewright
