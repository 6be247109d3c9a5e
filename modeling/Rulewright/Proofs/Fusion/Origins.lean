import Rulewright.Proofs.Fusion.Descent
import Rulewright.Proofs.Fusion.Rules

/-!
# Where the parts of a fused tree come from

Fusing does not look at labels. So the trees of rules can be labelled with the places of the rules
before they are fused, and every statement of the fused tree then tells which rule it comes from.

* `fusedTree`: trees fused one after the other, labelled.
* `FusedCode.keeps_ofRules`: without labels, this is what fusing rules in a store gives.
* `mem_pathsAll_fusedTree`: the lines of one label are what is left of the tree with this label.
* `mem_guardsAll_fusedTree`: all guards of the fused tree are guards of the trees.
-/

namespace Rulewright

namespace Stmt

variable {ι κ : Type} {l : Language}

/-! ### Labels -/

/-- A tree with one label for all its statements. -/
def labelled (i : Nat) (code : List (Stmt Unit)) : List (Stmt Nat) := mapAll (fun _ => i) code

theorem strip_labelled_all (i : Nat) :
    (∀ s : Stmt Unit, (s.map fun _ => i).map (fun _ => ()) = s) ∧
    ∀ ts : List (Stmt Unit), strip (labelled i ts) = ts := by
  apply Stmt.induct
  case line => exact fun _ _ _ _ => rfl
  case branch =>
    intro id guard t e es ht he hes
    simp only [strip, labelled] at ht he hes
    simp only [map, ht, he, hes]
  case nil => rfl
  case cons =>
    intro s rest hs hrest
    simp only [strip, labelled] at hrest
    simp only [strip, labelled, mapAll, hs, hrest]

theorem paths_map_all (f : ι → κ) :
    (∀ s : Stmt ι, (s.map f).paths = s.paths.map fun p => (p.1, p.2.map f)) ∧
    ∀ ts : List (Stmt ι), pathsAll (mapAll f ts) = (pathsAll ts).map fun p => (p.1, p.2.map f) := by
  apply Stmt.induct
  case line => exact fun _ _ _ _ => rfl
  case branch =>
    intro id guard t e es ht he hes
    simp only [map, paths, ht, he, hes, List.map_append, List.map_map]
    rfl
  case nil => rfl
  case cons =>
    intro s rest hs hrest
    simp only [mapAll, pathsAll, hs, hrest, List.map_append]

theorem id_map (f : ι → κ) (s : Stmt ι) : (s.map f).id = f s.id := by cases s <;> rfl

theorem id_of_mem_labelled {i : Nat} {code : List (Stmt Unit)} {p : List Guard × Stmt Nat}
    (h : p ∈ pathsAll (labelled i code)) : p.2.id = i := by
  rw [labelled, (paths_map_all _).2] at h
  obtain ⟨q, -, rfl⟩ := List.mem_map.1 h
  exact id_map _ _

/-- What is left of a labelled tree has its label. -/
theorem id_of_mem_left {mine : List (Stmt Nat)} {i : Nat} {code : List (Stmt Unit)}
    {p : List Guard × Stmt Nat} (h : p ∈ pathsAll (descend l mine (labelled i code)).left) :
    p.2.id = i := by
  obtain ⟨lost, hmem, -⟩ := pathsAll_left l _ _ h
  have hid : (onWay lost p).2.id = i := id_of_mem_labelled hmem
  exact hid

/-! ### Guards -/

mutual

/-- All guards of a statement and of its bodies. -/
def guards : Stmt ι → List Guard
  | .line _ _ _ _ => []
  | .branch _ guard t e es => guard :: (guardsAll t ++ (guardsAll e ++ guardsAll es))

def guardsAll : List (Stmt ι) → List Guard
  | [] => []
  | s :: rest => s.guards ++ guardsAll rest

end

theorem guardsAll_append (xs ys : List (Stmt ι)) :
    guardsAll (xs ++ ys) = guardsAll xs ++ guardsAll ys := by
  induction xs with
  | nil => rfl
  | cons s rest ih => rw [List.cons_append, guardsAll, guardsAll, ih, List.append_assoc]

theorem guards_map_all (f : ι → κ) :
    (∀ s : Stmt ι, (s.map f).guards = s.guards) ∧
    ∀ ts : List (Stmt ι), guardsAll (mapAll f ts) = guardsAll ts := by
  apply Stmt.induct
  case line => exact fun _ _ _ _ => rfl
  case branch =>
    intro id guard t e es ht he hes
    simp only [map, guards, ht, he, hes]
  case nil => rfl
  case cons =>
    intro s rest hs hrest
    simp only [mapAll, guardsAll, hs, hrest]

namespace Fork

variable {f : Fork ι} {guard : Guard}

theorem guardsAll_code (f : Fork ι) :
    guardsAll f.code = guardsAll f.before ++
      (f.guard :: (guardsAll f.thenBody ++ (guardsAll f.elseBody ++ guardsAll f.elseIfs)) ++
        guardsAll f.after) := by
  rw [code, rest, guardsAll_append, guardsAll, guards]

theorem mem_guardsAll_of_guard (f : Fork ι) : f.guard ∈ guardsAll f.code := by
  rw [guardsAll_code]
  exact List.mem_append_right _ List.mem_cons_self

theorem mem_guardsAll_of_thenBody (h : guard ∈ guardsAll f.thenBody) :
    guard ∈ guardsAll f.code := by
  rw [guardsAll_code]
  simp [h]

theorem mem_guardsAll_of_elseBody (h : guard ∈ guardsAll f.elseBody) :
    guard ∈ guardsAll f.code := by
  rw [guardsAll_code]
  simp [h]

/-- What is new in a body is new in the fork. -/
theorem mem_guardsAll_thenBody {t : List (Stmt ι)}
    (h : guard ∈ guardsAll { f with thenBody := t }.code) :
    guard ∈ guardsAll f.code ∨ guard ∈ guardsAll t := by
  rw [guardsAll_code] at h ⊢
  simp only [List.mem_append, List.mem_cons] at h ⊢
  rcases h with h | (h | h | h | h) | h <;> simp [h]

theorem mem_guardsAll_elseBody {e : List (Stmt ι)}
    (h : guard ∈ guardsAll { f with elseBody := e }.code) :
    guard ∈ guardsAll f.code ∨ guard ∈ guardsAll e := by
  rw [guardsAll_code] at h ⊢
  simp only [List.mem_append, List.mem_cons] at h ⊢
  rcases h with h | (h | h | h | h) | h <;> simp [h]

end Fork

/-- Fusing makes no new guards. -/
theorem mem_guardsAll_fuse (l : Language) (mine other : List (Stmt ι)) {guard : Guard}
    (h : guard ∈ guardsAll (fuse l mine other)) :
    guard ∈ guardsAll mine ∨ guard ∈ guardsAll other := by
  induction mine, other using fuse_induct l with
  | none mine other ho =>
    rw [fuse_of_none ho] at h
    exact Or.inl h
  | leaf mine other g hm ho =>
    rw [fuse_of_leaf hm ho, guardsAll_append] at h
    exact List.mem_append.1 h
  | share mine other f g hm ho heq ih =>
    have hmine := (lastFork?_eq_some hm).1
    have hother := (lastFork?_eq_some ho).1
    rw [fuse_share hm ho heq] at h
    rw [hmine, hother]
    rcases Fork.mem_guardsAll_thenBody h with h | h
    · exact Or.inl h
    · exact (ih h).imp Fork.mem_guardsAll_of_thenBody Fork.mem_guardsAll_of_thenBody
  | specific mine other f g hm ho heq hspec ih =>
    have hmine := (lastFork?_eq_some hm).1
    have hother := (lastFork?_eq_some ho).1
    rw [fuse_specific hm ho heq hspec] at h
    rw [hmine, hother]
    rcases Fork.mem_guardsAll_thenBody h with h | h
    · exact Or.inl h
    · refine (ih h).imp Fork.mem_guardsAll_of_thenBody fun h => ?_
      rw [Fork.code, guardsAll_append]
      exact List.mem_append_right _ h
  | otherwise mine other f g hm ho heq hspec ih =>
    have hmine := (lastFork?_eq_some hm).1
    rw [fuse_otherwise hm ho heq hspec] at h
    rw [hmine]
    rcases Fork.mem_guardsAll_elseBody h with h | h
    · exact Or.inl h
    · exact (ih h).imp_left Fork.mem_guardsAll_of_elseBody

/-- The guards on a way down are guards of the tree. -/
theorem mem_guardsAll_of_passed (l : Language) (mine other : List (Stmt ι)) {guard : Guard}
    (h : guard ∈ (descend l mine other).passed) : guard ∈ guardsAll mine := by
  induction mine, other using fuse_induct l with
  | none mine other ho => rw [descend_of_none ho] at h; cases h
  | leaf mine other g hm ho => rw [descend_of_leaf hm] at h; cases h
  | share mine other f g hm ho heq ih =>
    rw [descend_share hm ho heq, Descent.passed_then] at h
    rw [(lastFork?_eq_some hm).1]
    rcases List.mem_cons.1 h with rfl | h
    · exact f.mem_guardsAll_of_guard
    · exact Fork.mem_guardsAll_of_thenBody (ih h)
  | specific mine other f g hm ho heq hspec ih =>
    rw [descend_specific hm ho heq hspec, Descent.passed_then] at h
    rw [(lastFork?_eq_some hm).1]
    rcases List.mem_cons.1 h with rfl | h
    · exact f.mem_guardsAll_of_guard
    · exact Fork.mem_guardsAll_of_thenBody (ih h)
  | otherwise mine other f g hm ho heq hspec ih =>
    rw [descend_otherwise hm ho heq hspec, Descent.passed_else] at h
    rw [(lastFork?_eq_some hm).1]
    exact Fork.mem_guardsAll_of_elseBody (ih h)

/-! ### Many trees -/

/-- Trees fused one after the other; the label of a statement is the place of the tree that it comes
from. -/
def fusedTree (l : Language) (codes : List (List (Stmt Unit))) : List (Stmt Nat) :=
  match codes.mapIdx labelled with
  | [] => []
  | first :: rest => rest.foldl (fuse l) first

theorem fusedTree_concat {codes : List (List (Stmt Unit))} (hne : codes ≠ [])
    (code : List (Stmt Unit)) :
    fusedTree l (codes ++ [code]) = fuse l (fusedTree l codes) (labelled codes.length code) := by
  rw [fusedTree, fusedTree, List.mapIdx_concat]
  cases codes with
  | nil => exact absurd rfl hne
  | cons first rest =>
    rw [List.mapIdx_cons, List.cons_append]
    exact List.foldl_concat _ _ _ _

theorem strip_fusedTree (l : Language) (first : List (Stmt Unit)) (rest : List (List (Stmt Unit))) :
    strip (fusedTree l (first :: rest)) = rest.foldl (fuse l) first := by
  induction rest using List.reverseRecOn with
  | nil => exact (strip_labelled_all 0).2 first
  | append_singleton rest code ih =>
    have hstep := fusedTree_concat (l := l) (List.cons_ne_nil first rest) code
    rw [List.cons_append] at hstep
    have hfuse :=
      (fuse_map l (fun _ => ()) (fusedTree l (first :: rest))
        (labelled (first :: rest).length code)).1
    change fuse l (strip _) (strip _) = strip _ at hfuse
    rw [hstep, ← hfuse, ih, (strip_labelled_all _).2, List.foldl_concat]

/-- What a tree adds when it is fused with those before it. -/
def remains (l : Language) (earlier : List (List (Stmt Unit))) (code : List (Stmt Unit)) :
    Descent Nat :=
  descend l (fusedTree l earlier) (labelled earlier.length code)

/-- **The lines of a fused tree**: those of the first tree, and what is left of each later one,
under the guards on its way. -/
theorem mem_pathsAll_fusedTree {codes : List (List (Stmt Unit))} {p : List Guard × Stmt Nat} :
    p ∈ pathsAll (fusedTree l codes) ↔
    ∃ i code, codes[i]? = some code ∧ p.2.id = i ∧
      if i = 0 then p ∈ pathsAll (labelled i code)
      else p ∈ (remains l (codes.take i) code).added := by
  -- the last tree is fused into what the ones before it make up
  induction codes using List.reverseRecOn with
  | nil => simp [fusedTree, pathsAll]
  | append_singleton codes code ih =>
    by_cases hne : codes = []
    · subst hne
      have hone : fusedTree l ([] ++ [code]) = labelled 0 code := rfl
      rw [hone]
      refine ⟨fun h => ⟨0, code, rfl, id_of_mem_labelled h, h⟩, ?_⟩
      rintro ⟨i, code', hi, -, h⟩
      cases i with
      | zero => cases hi; exact h
      | succ i => cases hi
    · have hlater : ∀ {i : Nat} {code' : List (Stmt Unit)}, codes[i]? = some code' →
          i < codes.length := fun h => (List.getElem?_eq_some_iff.1 h).1
      rw [fusedTree_concat hne, (pathsAll_fuse l _ _).mem_iff, List.mem_append, ih]
      constructor
      · rintro (⟨i, code', hi, hid, h⟩ | h)
        -- the trees before an earlier one stay the same
        · refine ⟨i, code', by rw [List.getElem?_append_left (hlater hi), hi], hid, ?_⟩
          rwa [List.take_append_of_le_length (Nat.le_of_lt (hlater hi))]
        · refine ⟨codes.length, code, by simp, ?_, ?_⟩
          · obtain ⟨-, q, hq, rfl⟩ := Descent.mem_added.1 h
            have hid := id_of_mem_left hq
            exact hid
          · rw [if_neg (by simpa using hne), List.take_append_of_le_length (Nat.le_refl _),
              List.take_length]
            exact h
      · rintro ⟨i, code', hi, hid, h⟩
        by_cases hlt : i < codes.length
        · rw [List.getElem?_append_left hlt] at hi
          rw [List.take_append_of_le_length (Nat.le_of_lt hlt)] at h
          exact Or.inl ⟨i, code', hi, hid, h⟩
        · have hlen : i = codes.length := by
            have := (List.getElem?_eq_some_iff.1 hi).1
            simp only [List.length_append, List.length_singleton] at this
            omega
          subst hlen
          rw [if_neg (by simpa using hne), List.take_append_of_le_length (Nat.le_refl _),
            List.take_length] at h
          have hcode : code' = code := by simpa using hi.symm
          rw [hcode] at h
          exact Or.inr h

/-- The guards of a fused tree are those of the trees. -/
theorem mem_guardsAll_fusedTree {codes : List (List (Stmt Unit))} {guard : Guard}
    (h : guard ∈ guardsAll (fusedTree l codes)) : ∃ code ∈ codes, guard ∈ guardsAll code := by
  induction codes using List.reverseRecOn with
  | nil => simp [fusedTree, guardsAll] at h
  | append_singleton codes code ih =>
    by_cases hne : codes = []
    · subst hne
      have hone : fusedTree l ([] ++ [code]) = labelled 0 code := rfl
      rw [hone, labelled, (guards_map_all _).2] at h
      exact ⟨code, by simp, h⟩
    · rw [fusedTree_concat hne] at h
      rcases mem_guardsAll_fuse l _ _ h with h | h
      · obtain ⟨code', hmem, hguard⟩ := ih h
        exact ⟨code', List.mem_append_left _ hmem, hguard⟩
      · rw [labelled, (guards_map_all _).2] at h
        exact ⟨code, by simp, h⟩

end Stmt

open Stmt

variable {o : CompileOptions} {l : Language}

/-- Each tree is that of the rule at its place. -/
theorem exists_of_codes {rules : List PlannedRule} {codes : List (List (Stmt Unit))}
    (h : rules.map (fun p => o.codeOf l p.rule) = codes.map some) {i : Nat}
    {code : List (Stmt Unit)} (hcode : codes[i]? = some code) :
    ∃ p, rules[i]? = some p ∧ o.codeOf l p.rule = some code := by
  have hat := congrArg (·[i]?) h
  simp only [List.getElem?_map, hcode, Option.map_some] at hat
  exact Option.map_eq_some_iff.1 hat

/-- **Rules fused in a store** make up the fused tree of their codes. -/
theorem FusedCode.keeps_ofRules {rules : List PlannedRule} (hne : rules ≠ [])
    (hr : ∀ p ∈ rules, p.rule.IsAccepted o l) :
    ∃ f codes, FusedCode.ofRules o l rules = .ok f ∧
      rules.map (fun p => o.codeOf l p.rule) = codes.map some ∧
      f.Keeps (strip (fusedTree l codes)) := by
  cases rules with
  | nil => exact absurd rfl hne
  | cons first rest =>
    obtain ⟨hfirst, hrest⟩ := List.forall_mem_cons.1 hr
    obtain ⟨f1, mine, hadd, hmine, hkeeps1⟩ :=
      FusedCode.add_first (f := ⟨Code.empty, none, []⟩) rfl hfirst
    obtain ⟨f, hfold, hkeeps⟩ := FusedCode.foldlM_add hrest hkeeps1
    refine ⟨f, mine :: rest.filterMap fun p => o.codeOf l p.rule, ?_, ?_, ?_⟩
    · rw [FusedCode.ofRules, List.foldlM_cons, hadd]
      exact hfold
    · have hcodes : ∀ rules : List PlannedRule, (∀ p ∈ rules, p.rule.IsAccepted o l) →
          rules.map (fun p => o.codeOf l p.rule) =
            (rules.filterMap fun p => o.codeOf l p.rule).map some := by
        intro rules
        induction rules with
        | nil => exact fun _ => rfl
        | cons p rules ih =>
          intro h
          obtain ⟨hp, hrules⟩ := List.forall_mem_cons.1 h
          obtain ⟨-, code, -, hcode, -⟩ := FusedCode.add_first (f := ⟨Code.empty, none, []⟩) rfl hp
          simp only [List.map_cons, List.filterMap_cons, hcode, ih hrules]
      rw [List.map_cons, hmine, hcodes rest hrest]
      rfl
    · rw [strip_fusedTree]
      exact hkeeps

end Rulewright
