import Rulewright.Proofs.Fusion.Merged
import Rulewright.Proofs.Fusion.Rules
import Rulewright.Proofs.Matching.Correct
import Rulewright.Proofs.Scope.Elimination
import Rulewright.Proofs.Scope.Opening

/-!
# The temporaries of fused rules

A rule that is fused into a tree loses the statements before the checks that it shares with the
tree, among them definitions. What is left of it uses the definitions of the tree instead. If no
operand is optional, guards with one text are followed by definitions of the same temporaries, so
nothing is missing. An optional operand is introduced between two guards without a guard of its own,
and an operator may be given operands that it does not take. What is left of such a rule may use a
temporary that is nowhere introduced.

* `Discipline.introduced`: temporaries are introduced before they are used.
* `Discipline.alongAll_fuse`: a fused tree meets a discipline that both trees meet, if what is known
  in one covers what is known in the other.
* `Code.Owns.isScoped`: what the discipline says of the nodes of a store.
* `fused_in_scope`: the temporaries of fused rules without optional operands are in scope, and
  eliminating redundancy never takes a temporary out of scope.
* `shared_guard_out_of_scope`: fused rules that use a temporary out of scope.
-/

namespace Rulewright

open Stmt Matcher

namespace Discipline

/-- Temporaries are introduced before they are used. -/
def introduced (l : Language) (checks : List (List CheckName)) : Discipline (List Trail) where
  step known s := s.introduced ++ known
  line known content off := off = false → content.kind.Within l checks (· ∈ known) (· ∈ known)
  guard known g := g.Within l checks (· ∈ known)

variable {l : Language} {checks : List (List CheckName)} {ts : List (Stmt Unit)}

theorem mem_after {known : List Trail} {t : Trail} :
    t ∈ (introduced l checks).after known ts ↔ t ∈ introducedAll ts ∨ t ∈ known := by
  induction ts generalizing known with
  | nil => simp [after, introducedAll]
  | cons s rest ih =>
    change t ∈ (introduced l checks).after (s.introduced ++ known) rest ↔
      t ∈ s.introduced ++ introducedAll rest ∨ t ∈ known
    rw [ih, List.mem_append, List.mem_append, or_assoc, or_left_comm]

/-- Nothing is used that is not known, also where more is known. -/
theorem AlongAll.mono {known known' : List Trail} (hsub : known ⊆ known')
    (h : (introduced l checks).AlongAll known ts) : (introduced l checks).AlongAll known' ts := by
  refine ((along_imp (D := introduced l checks) (E := introduced l checks) (R := fun x y => x ⊆ y)
    ?_ ?_ ?_).2 ts).1 _ _ hsub h
  · exact fun s hxy =>
      List.append_subset.2 ⟨List.subset_append_left _ _, List.subset_append_of_subset_right _ hxy⟩
  · exact fun hxy hline hon => (hline hon).mono (fun _ ht => hxy ht) (fun _ ht => hxy ht)
  · exact fun hxy hguard => Guard.Within.mono (fun _ ht => hxy ht) hguard

/-- Temporaries that are bound or declared are introduced. -/
theorem AlongAll.introduced {own : List CheckName} (hown : own ∈ checks)
    (h : (bound l [own]).AlongAll Temporaries.start ts) :
    (introduced l checks).AlongAll [Trail.root] ts := by
  have hchecks : [own] ⊆ checks := List.cons_subset.2 ⟨hown, List.nil_subset _⟩
  refine ((along_imp (D := bound l [own]) (E := Discipline.introduced l checks)
    (R := fun x y => x.ready ⊆ y ∧ x.declared ⊆ y) ?_ ?_ ?_).2 ts).1 _ _
    ⟨List.Subset.refl _, List.nil_subset _⟩ h
  · rintro x y s ⟨hready, hdeclared⟩
    have hready' : x.ready ⊆ s.introduced ++ y := List.subset_append_of_subset_right _ hready
    have hdeclared' : x.declared ⊆ s.introduced ++ y :=
      List.subset_append_of_subset_right _ hdeclared
    change (x.step s).ready ⊆ s.introduced ++ y ∧ (x.step s).declared ⊆ s.introduced ++ y
    unfold Temporaries.step
    split
    · exact ⟨List.cons_subset.2 ⟨List.mem_cons_self, hready'⟩, hdeclared'⟩
    · exact ⟨hready', List.cons_subset.2 ⟨List.mem_cons_self, hdeclared'⟩⟩
    · exact ⟨List.append_subset.2 ⟨fun t ht => hdeclared' (List.mem_of_mem_filter ht), hready'⟩,
        hdeclared'⟩
    · exact ⟨hready', hdeclared'⟩
  · exact fun hxy hline _ =>
      (hline.2.of_subset hchecks).mono (fun _ ht => hxy.1 ht) (fun _ ht => hxy.2 ht)
  · exact fun hxy hguard =>
      Guard.Within.mono (fun _ ht => hxy.1 ht) (Guard.Within.of_subset hchecks hguard)

theorem AlongAll.legible {own : List (List CheckName)} {x : Temporaries}
    (h : (bound l own).AlongAll x ts) : legible.AlongAll () ts := by
  refine ((along_imp (D := bound l own) (E := Discipline.legible) (R := fun _ _ => True) ?_ ?_ ?_).2
    ts).1 _ _ trivial h
  · exact fun _ _ => trivial
  · exact fun _ hline =>
      ⟨fun hbinding => hline.1 (Line.kind_isBinding _ ▸ hbinding), hline.2.legible_tells⟩
  · rintro x y g - hguard b rfl
    exact NodeKind.legible_tells_branch hguard

/-! ### Fusing -/

section Fuse

variable {C : Type} {D : Discipline C} {J : C → List (Stmt Unit) → C → List (Stmt Unit) → Prop}

/-- **A fused tree meets a discipline** that both trees meet, if what is known covers what was
known, wherever the second tree goes down the first one. -/
theorem alongAll_fuse (hbranch : ∀ x check guard t e es, D.step x (.branch check guard t e es) = x)
    (leaf : ∀ {x y mine other}, lastFork? mine = none → J x mine y other → D.AlongAll y other →
      D.AlongAll (D.after x mine) other)
    (share : ∀ {x y mine other f g}, lastFork? mine = some f → lastFork? other = some g →
      f.guard.equals g.guard = true → J x mine y other →
      J (D.after x f.before) f.thenBody (D.after y g.before) g.thenBody)
    (specific : ∀ {x y mine other f g}, lastFork? mine = some f → lastFork? other = some g →
      J x mine y other → J (D.after x f.before) f.thenBody (D.after y g.before) g.rest)
    (otherwise : ∀ {x y mine other f}, lastFork? mine = some f → J x mine y other →
      J (D.after x f.before) f.elseBody y other)
    (mine other : List (Stmt Unit)) :
    ∀ {x y}, J x mine y other → D.AlongAll x mine → D.AlongAll y other →
      D.AlongAll x (fuse l mine other) := by
  induction mine, other using fuse_induct l with
  | none mine other ho =>
    intro x y _ hm _
    rwa [fuse_of_none ho]
  | leaf mine other g hm ho =>
    intro x y hJ hmine hother
    rw [fuse_of_leaf hm ho]
    exact alongAll_append.2 ⟨hmine, leaf hm hJ hother⟩
  | share mine other f g hm ho heq ih =>
    intro x y hJ hmine hother
    rw [(lastFork?_eq_some hm).1, alongAll_code] at hmine
    rw [(lastFork?_eq_some ho).1, alongAll_code] at hother
    rw [fuse_share hm ho heq, alongAll_code]
    obtain ⟨hbefore, ⟨hguard, hthen, helse⟩, hafter⟩ := hmine
    -- what follows the branch starts with what is known before it
    rw [hbranch] at hafter ⊢
    exact ⟨hbefore, ⟨hguard, ih (share hm ho heq hJ) hthen hother.2.1.2.1, helse⟩, hafter⟩
  | specific mine other f g hm ho heq hspec ih =>
    intro x y hJ hmine hother
    rw [(lastFork?_eq_some hm).1, alongAll_code] at hmine
    rw [(lastFork?_eq_some ho).1] at hother
    rw [fuse_specific hm ho heq hspec, alongAll_code]
    obtain ⟨hbefore, ⟨hguard, hthen, helse⟩, hafter⟩ := hmine
    rw [hbranch] at hafter ⊢
    exact ⟨hbefore, ⟨hguard, ih (specific hm ho hJ) hthen (alongAll_append.1 hother).2, helse⟩,
      hafter⟩
  | otherwise mine other f g hm ho heq hspec ih =>
    intro x y hJ hmine hother
    rw [(lastFork?_eq_some hm).1, alongAll_code] at hmine
    rw [fuse_otherwise hm ho heq hspec, alongAll_code]
    obtain ⟨hbefore, ⟨hguard, hthen, helse, hes⟩, hafter⟩ := hmine
    rw [hbranch] at hafter ⊢
    exact ⟨hbefore, ⟨hguard, hthen, ih (otherwise hm hJ) helse hother, hes⟩, hafter⟩

end Fuse

theorem legible_fuse {mine other : List (Stmt Unit)} (hm : legible.AlongAll () mine)
    (ho : legible.AlongAll () other) : legible.AlongAll () (fuse l mine other) :=
  alongAll_fuse (D := legible) (J := fun _ _ _ _ => True) (fun _ _ _ _ _ _ => rfl) (fun _ _ h => h)
    (fun _ _ _ _ => trivial) (fun _ _ _ => trivial) (fun _ _ => trivial) mine other (x := ())
    (y := ()) trivial hm ho

end Discipline

/-! ### What is known down a tree -/

section Cover

variable {l : Language} {count : String → Nat} {mine other : List (Stmt Unit)}

theorem opening_fuse (l : Language) (mine other : List (Stmt Unit)) :
    opening mine ⊆ opening (fuse l mine other) := by
  cases ho : lastFork? other with
  | none =>
    rw [fuse_of_none ho]
    exact List.Subset.refl _
  | some g =>
    cases hm : lastFork? mine with
    | none =>
      have hfork := lastFork?_around other (lastFork?_eq_none.1 hm) (List.forall_mem_nil _)
      rw [List.append_nil, ho] at hfork
      rw [fuse_of_leaf hm ho, opening_of_leaf hm, opening_of_fork hfork]
      exact (introducedAll_append mine g.before) ▸ List.subset_append_left _ _
    | some f =>
      obtain ⟨f', hfuse, hbefore, hafter⟩ : ∃ f' : Fork Unit, fuse l mine other = f'.code ∧
          f'.before = f.before ∧ f'.after = f.after := by
        rw [fuse_of_forks hm ho]
        split_ifs <;> exact ⟨_, rfl, rfl, rfl⟩
      rw [hfuse, opening_of_fork hm,
        opening_of_fork (lastFork?_code (hafter ▸ (lastFork?_eq_some hm).2)), hbefore]
      exact List.Subset.refl _

/-- The temporaries behind each guard include those that it opens. -/
abbrev Generous (l : Language) (count : String → Nat) : List (Stmt Unit) → Prop :=
  OpensAs (fun introduced opens => opens ⊆ introduced) l count

/-- The temporaries behind each guard are some of those that it opens. -/
abbrev Tight (l : Language) (count : String → Nat) : List (Stmt Unit) → Prop :=
  OpensAs (fun introduced opens => introduced ⊆ opens) l count

theorem opensAs_rest {R : List Trail → List Trail → Prop} (h : OpensAs R l count other)
    {g : Fork Unit} (hg : lastFork? other = some g) : OpensAs R l count g.rest := by
  obtain ⟨hopens, hthen, helse⟩ := h.of_fork hg
  exact .fork (f := { g with before := [] })
    (lastFork?_code (f := { g with before := [] }) (lastFork?_eq_some hg).2) hopens hthen helse

/-- The guards of a fused tree are those of the two trees, and what is behind them is there still.
-/
theorem generous_fuse (hm : Generous l count mine) (ho : Generous l count other) :
    Generous l count (fuse l mine other) := by
  induction mine, other using fuse_induct l with
  | none mine other hother => rwa [fuse_of_none hother]
  | leaf mine other g hmine hother =>
    rw [fuse_of_leaf hmine hother]
    have haround := ho.around (lastFork?_eq_none.1 hmine) (List.forall_mem_nil _)
    rwa [List.append_nil] at haround
  | share mine other f g hmine hother heq ih =>
    rw [fuse_share hmine hother heq]
    obtain ⟨hopens, hthen, helse⟩ := hm.of_fork hmine
    have hfork :=
      lastFork?_code (f := { f with thenBody := fuse l f.thenBody g.thenBody })
        (lastFork?_eq_some hmine).2
    exact .fork hfork (List.Subset.trans hopens (opening_fuse l _ _))
      (ih hthen (ho.of_fork hother).2.1) helse
  | specific mine other f g hmine hother heq hspec ih =>
    rw [fuse_specific hmine hother heq hspec]
    obtain ⟨hopens, hthen, helse⟩ := hm.of_fork hmine
    have hfork :=
      lastFork?_code (f := { f with thenBody := fuse l f.thenBody g.rest })
        (lastFork?_eq_some hmine).2
    exact .fork hfork (List.Subset.trans hopens (opening_fuse l _ _))
      (ih hthen (opensAs_rest ho hother)) helse
  | otherwise mine other f g hmine hother heq hspec ih =>
    rw [fuse_otherwise hmine hother heq hspec]
    obtain ⟨hopens, hthen, helse⟩ := hm.of_fork hmine
    have hfork :=
      lastFork?_code (f := { f with elseBody := fuse l f.elseBody other })
        (lastFork?_eq_some hmine).2
    exact .fork hfork hopens hthen (ih helse ho)

/-- What is known before the next check of the second tree is known before that of the first one. -/
structure Covers (l : Language) (count : String → Nat) (x : List Trail) (mine : List (Stmt Unit))
    (y : List Trail) (other : List (Stmt Unit)) : Prop where
  known : ∀ t, t ∈ opening other ∨ t ∈ y → t ∈ opening mine ∨ t ∈ x
  generous : Generous l count mine
  tight : Tight l count other

open Discipline in
/-- **Fusing keeps temporaries in scope**, if guards with one text are followed by definitions of
the same temporaries. -/
theorem introduced_fuse {checks : List (List CheckName)} {x y : List Trail}
    (h : Covers l count x mine y other) (hm : (introduced l checks).AlongAll x mine)
    (ho : (introduced l checks).AlongAll y other) :
    (introduced l checks).AlongAll x (fuse l mine other) := by
  refine alongAll_fuse (D := introduced l checks) (J := Covers l count) (fun _ _ _ _ _ _ => rfl) ?_
    ?_ ?_ ?_ mine other h hm ho
  · intro x y mine other hmine hJ hother
    refine hother.mono fun t ht => mem_after.2 ?_
    rw [← opening_of_leaf hmine]
    exact hJ.known t (Or.inr ht)
  · intro x y mine other f g hmine hother heq hJ
    obtain ⟨hopens, hthen, -⟩ := hJ.generous.of_fork hmine
    obtain ⟨htight, hthen', -⟩ := hJ.tight.of_fork hother
    refine ⟨fun t ht => ?_, hthen, hthen'⟩
    rw [mem_after, ← opening_of_fork hother] at ht
    rw [mem_after, ← opening_of_fork hmine]
    -- what the shared guard opens is behind both of its occurrences
    rcases ht with ht | ht
    · refine Or.inl (hopens ?_)
      rw [Guard.opens_eq_of_equals heq]
      exact htight ht
    · exact Or.inr (hJ.known t ht)
  · intro x y mine other f g hmine hother hJ
    refine ⟨fun t ht => ?_, (hJ.generous.of_fork hmine).2.1, opensAs_rest hJ.tight hother⟩
    have hnone : opening g.rest = [] :=
      opening_of_fork (lastFork?_code (f := { g with before := [] }) (lastFork?_eq_some hother).2)
    rw [hnone, mem_after, ← opening_of_fork hother] at ht
    rw [mem_after, ← opening_of_fork hmine]
    exact Or.inr (hJ.known t (ht.resolve_left List.not_mem_nil))
  · intro x y mine other f hmine hJ
    refine ⟨fun t ht => ?_, (hJ.generous.of_fork hmine).2.2, hJ.tight⟩
    rw [mem_after, ← opening_of_fork hmine]
    exact Or.inr (hJ.known t ht)

end Cover

/-! ### Stores -/

namespace Code

variable {c : Code} {l : Language} {checks : List (List CheckName)}

theorem Owns.introduces {s : Stmt NodeId} {link : Link} {next : Option NodeId} {m : Multiset Cell}
    (h : c.Owns ({(s.id, s.node link next)} + m)) {t : Trail}
    (ht : t ∈ (s.map fun _ => ()).introduced) : c.Introduces s.id t := by
  have hkind := Owns.kind_of h.find
  have hoff := Owns.isCommentedOut_of h.find
  cases s with
  | branch id guard t e es => cases ht
  | line id content comment off =>
    change t ∈ (Stmt.line () content comment off).introduced at ht
    cases content with
    | declaration target =>
      cases off with
      | true => cases ht
      | false =>
        obtain rfl : t = target := List.mem_singleton.1 ht
        exact Or.inl ⟨hoff, hkind⟩
    | definition target β declares =>
      cases declares with
      | false => cases ht
      | true =>
        cases off with
        | true => cases ht
        | false =>
          obtain rfl : t = target := List.mem_singleton.1 ht
          exact Or.inr ⟨hoff, β, hkind⟩
    | _ => cases ht

theorem tracks_scoped (c : Code) (nodes : List NodeId) (l : Language)
    (checks : List (List CheckName)) :
    Tracks c nodes (Discipline.introduced l checks)
      (fun _ above known => ∀ t ∈ known, t = Trail.root ∨ ∃ a ∈ above, c.Introduces a t) fun id =>
      c.isCommentedOut id = false →
      (c.kind id).Within l checks (c.InScope id) (c.InScope id) where
  here {s link next above x} howns _ hanc _ hknown halong := by
    subst hanc
    rw [Owns.kind_of howns.find, Owns.isCommentedOut_of howns.find]
    cases s with
    | branch id guard t e es => exact fun _ => Guard.Within.mono hknown halong.1
    | line id content comment off => exact fun hon => (halong hon).mono hknown hknown
  after howns _ _ known t ht := by
    rcases List.mem_append.1 ht with ht | ht
    · exact Or.inr ⟨_, List.mem_cons_self, howns.introduces ht⟩
    · exact (known t ht).imp_right fun ⟨a, ha, hintro⟩ => ⟨a, List.mem_cons_of_mem _ ha, hintro⟩
  inside _ _ known t ht :=
    (known t ht).imp_right fun ⟨a, ha, hintro⟩ => ⟨a, List.mem_cons_of_mem _ ha, hintro⟩

theorem Owns.isScoped {m : Multiset Cell} {ts : List (Stmt NodeId)}
    (h : c.Owns (cells .root none ts + m)) (hs : SolidAll ts) (hne : ts ≠ [])
    (halong : (Discipline.introduced l checks).AlongAll [Trail.root] (strip ts)) :
    c.IsScoped l checks (start ts) :=
  (tracks_scoped c (walkAll ts) l checks).descendants hs hne h
    (List.forall_mem_singleton.2 (Or.inl rfl)) halong

end Code

/-! ### Rules -/

variable {o : CompileOptions} {l : Language} {count : String → Nat}

theorem opensAs_codeOf {R : List Trail → List Trail → Prop} (hR : ∀ xs, R xs xs)
    (ho : o.skipRootGuard = false) {r : Rule} {code : List (Stmt Unit)}
    (hr : Regular l count r.pattern) (h : o.codeOf l r = some code) :
    OpensAs R l count code ∧ opening code = [] :=
  opensAs_ruleCode (o := matcherOptions o) hR ho hr h

section Lists

variable {rules : List PlannedRule} {mine : List (Stmt Unit)}

theorem legible_foldl_fuse (hmine : Discipline.legible.AlongAll () mine) :
    Discipline.legible.AlongAll ()
      ((rules.filterMap fun p => o.codeOf l p.rule).foldl (fuse l) mine) := by
  induction rules generalizing mine with
  | nil => exact hmine
  | cons p rest ih =>
    rw [List.filterMap_cons]
    cases hcode : o.codeOf l p.rule with
    | none => exact ih hmine
    | some code => exact ih (Discipline.legible_fuse hmine (ruleCode_along hcode).legible)

theorem introduced_foldl_fuse {checks : List (List CheckName)} (ho : o.skipRootGuard = false)
    (hregular : ∀ p ∈ rules, Regular l count p.rule.pattern)
    (hchecks : ∀ p ∈ rules, p.rule.checks ∈ checks) (hgenerous : Generous l count mine)
    (hmine : (Discipline.introduced l checks).AlongAll [Trail.root] mine) :
    (Discipline.introduced l checks).AlongAll [Trail.root]
      ((rules.filterMap fun p => o.codeOf l p.rule).foldl (fuse l) mine) := by
  induction rules generalizing mine with
  | nil => exact hmine
  | cons p rest ih =>
    obtain ⟨hfirst, hothers⟩ := List.forall_mem_cons.1 hregular
    obtain ⟨hown, hchecks⟩ := List.forall_mem_cons.1 hchecks
    rw [List.filterMap_cons]
    cases hcode : o.codeOf l p.rule with
    | none => exact ih hothers hchecks hgenerous hmine
    | some code =>
      obtain ⟨hopen, hquiet⟩ :=
        opensAs_codeOf (R := fun i o => o ⊆ i) (fun _ => List.Subset.refl _) ho hfirst hcode
      obtain ⟨htight, -⟩ :=
        opensAs_codeOf (R := fun i o => i ⊆ o) (fun _ => List.Subset.refl _) ho hfirst hcode
      -- before the root guard nothing is known but the root
      have hcovers : Covers l count [Trail.root] mine [Trail.root] code :=
        ⟨fun t ht => Or.inr (ht.resolve_left (hquiet ▸ List.not_mem_nil)), hgenerous, htight⟩
      exact ih hothers hchecks (generous_fuse hgenerous hopen)
        (introduced_fuse hcovers hmine ((ruleCode_along hcode).introduced hown))

end Lists

/-- **The temporaries of fused rules.** Eliminating redundancy takes no temporary out of scope. All
temporaries that fused rules use are in scope then, if there is one rule only, or if no operand is
optional and operators are used with the counts they take. -/
theorem fused_in_scope {first : PlannedRule} {rest : List PlannedRule}
    (hr : ∀ p ∈ first :: rest, p.rule.IsAccepted o l) (ho : o.skipRootGuard = false) :
    ∃ f head, FusedCode.ofRules o l (first :: rest) = .ok f ∧ f.head = some head ∧
      let checks := (first :: rest).map (·.rule.checks)
      (f.code.IsScoped l checks head → (f.code.eliminateRedundancy head).IsScoped l checks head) ∧
      ((rest = [] ∨ ∃ count, ∀ p ∈ first :: rest, Regular l count p.rule.pattern) →
        (f.code.eliminateRedundancy head).IsScoped l checks head) := by
  obtain ⟨hfirst, hrest⟩ := List.forall_mem_cons.1 hr
  obtain ⟨f1, mine, hadd, hmine, hkeeps1⟩ :=
    FusedCode.add_first (f := ⟨Code.empty, none, []⟩) rfl hfirst
  obtain ⟨f, hfold, ts, m, hhead, hne, hs, howns, hstrip⟩ := FusedCode.foldlM_add hrest hkeeps1
  refine ⟨f, start ts, by rw [FusedCode.ofRules, List.foldlM_cons, hadd]; exact hfold, hhead, ?_⟩
  intro checks
  have hlegible : Discipline.legible.AlongAll () (strip ts) :=
    hstrip ▸ legible_foldl_fuse (ruleCode_along hmine).legible
  have hown : first.rule.checks ∈ checks := List.mem_cons_self
  have halong : (Discipline.introduced l checks).AlongAll [Trail.root] mine :=
    (ruleCode_along hmine).introduced hown
  have hkeep : f.code.IsScoped l checks (start ts) →
      (f.code.eliminateRedundancy (start ts)).IsScoped l checks (start ts) :=
    howns.isScoped_eliminateRedundancy hs hne hlegible
  refine ⟨hkeep, fun hregular => hkeep (howns.isScoped hs hne ?_)⟩
  rw [hstrip]
  rcases hregular with rfl | ⟨count, hregular⟩
  · exact halong
  · obtain ⟨hregularFirst, hregularRest⟩ := List.forall_mem_cons.1 hregular
    have hchecks : ∀ p ∈ rest, p.rule.checks ∈ checks :=
      fun p hp => List.mem_map_of_mem (List.mem_cons_of_mem _ hp)
    have hgenerous : Generous l count mine :=
      (opensAs_codeOf (R := fun i o => o ⊆ i) (fun _ => List.Subset.refl _) ho hregularFirst
        hmine).1
    exact introduced_foldl_fuse ho hregularRest hchecks hgenerous halong

/-- The rule `(+ $0 (sin 0)) ==> $0`. -/
def zeroSine : PlannedRule :=
  ⟨⟨⟨"(+ $0 (sin 0)) ==> $0", .app 0 [.metavar 0, .app 4 [.literal (.int 0)]], .metavar 0, [],
        .noCheck, 0, false⟩,
      .operator "+" none⟩,
    0⟩

/-- The rule `(+ (- minuend $1) (sin $0)) ==> $1`. -/
def differenceSine (minuend : Expr) : PlannedRule :=
  ⟨⟨⟨"(+ (- minuend $1) (sin $0)) ==> $1",
        .app 0 [.app 1 [minuend, .metavar 1], .app 4 [.metavar 0]], .metavar 1, [], .noCheck, 0,
        false⟩,
      .operator "+" none⟩,
    1⟩

/-- The comparison that is left of the second rule uses a temporary which it defines itself. -/
theorem fused_in_scope_difference :
    ∃ f head,
      FusedCode.ofRules ⟨false, false, true⟩ .arithmetic [zeroSine, differenceSine (.metavar 0)] =
        .ok f ∧
      f.head = some head ∧ 65 ∈ (f.code.eliminateRedundancy head).descendants head ∧
      ((f.code.eliminateRedundancy head).kind 65).content =
        "@formula_0_0.structurally_equal(&@formula_1_0)" ∧
      (f.code.eliminateRedundancy head).IsScoped .arithmetic [[], []] head := by
  have hr : ∀ p ∈ [zeroSine, differenceSine (.metavar 0)],
      p.rule.IsAccepted ⟨false, false, true⟩ .arithmetic :=
    List.forall_mem_cons.2
      ⟨⟨0, by decide +kernel⟩, List.forall_mem_singleton.2 ⟨0, by decide +kernel⟩⟩
  have hadd : Expr.takes .arithmetic (fun _ => 0) (Language.arithmetic.name 0) 2 :=
    takes_of_mem (show _ = some [2] by decide +kernel) (by decide)
  have hsub : Expr.takes .arithmetic (fun _ => 0) (Language.arithmetic.name 1) 2 :=
    takes_of_mem (show _ = some [1, 2] by decide +kernel) (by decide)
  have hsin : Expr.takes .arithmetic (fun _ => 0) (Language.arithmetic.name 4) 1 :=
    takes_of_mem (show _ = some [1] by decide +kernel) (by decide)
  have hzero : Regular .arithmetic (fun _ => 0) zeroSine.rule.pattern :=
    ⟨by decide,
      Language.isRead_parse (show Language.arithmetic.parse "(+ $0 (sin 0))" =
        .ok zeroSine.rule.pattern by decide +kernel),
      Or.inr hadd, trivial, ⟨Or.inr hsin, trivial, trivial⟩, trivial⟩
  have hdifference : Regular .arithmetic (fun _ => 0) (differenceSine (.metavar 0)).rule.pattern :=
    ⟨by decide,
      Language.isRead_parse (show Language.arithmetic.parse "(+ (- $0 $1) (sin $0))" =
        .ok (differenceSine (.metavar 0)).rule.pattern by decide +kernel),
      Or.inr hadd, ⟨Or.inr hsub, trivial, trivial, trivial⟩, ⟨Or.inr hsin, trivial, trivial⟩,
      trivial⟩
  have hshown :
      ((FusedCode.ofRules ⟨false, false, true⟩ .arithmetic
        [zeroSine, differenceSine (.metavar 0)]).toOption.bind fun f =>
          f.head.map fun head =>
            let c := f.code.eliminateRedundancy head
            (decide (65 ∈ c.descendants head), (c.kind 65).content)) =
      some (true, "@formula_0_0.structurally_equal(&@formula_1_0)") := by
    decide +kernel
  obtain ⟨f, head, hf, hhead, -, hscoped⟩ := fused_in_scope hr rfl
  rw [hf, Except.toOption, Option.bind_some, hhead, Option.map_some] at hshown
  obtain ⟨hmem, hcontent⟩ := Prod.mk.inj (Option.some.inj hshown)
  exact ⟨f, head, hf, hhead, of_decide_eq_true hmem, hcontent,
    hscoped (Or.inr ⟨_, List.forall_mem_cons.2 ⟨hzero, List.forall_mem_singleton.2 hdifference⟩⟩)⟩

/-! ### Temporaries out of scope -/

/-- The temporary that a node introduces. -/
def NodeKind.introduced? : NodeKind → Option Trail
  | .declaration t | .definition t _ true => some t
  | _ => none

namespace Code

theorem Introduces.eq_some {c : Code} {id : NodeId} {t : Trail} (h : c.Introduces id t) :
    (c.kind id).introduced? = some t := by
  rcases h with ⟨-, hkind⟩ | ⟨-, β, hkind⟩ <;> rw [hkind] <;> rfl

/-- The guards under a node with the temporaries that they use where nothing introduces them. -/
def strays (c : Code) (head : NodeId) : List (NodeId × Trail) :=
  (c.descendants head).flatMap fun id =>
    match (c.kind id).branch? with
    | some b =>
      if c.isCommentedOut id || b.guard.isFree then []
      else (b.guard.trails.filter fun t =>
        t ≠ Trail.root ∧ ∀ a ∈ c.ancestors id, (c.kind a).introduced? ≠ some t).map (id, ·)
    | none => []

theorem IsScoped.strays_eq_nil {c : Code} {l : Language} {checks : List (List CheckName)}
    {head : NodeId} (h : c.IsScoped l checks head) : c.strays head = [] := by
  refine List.flatMap_eq_nil_iff.2 fun id hid => ?_
  cases hkind : c.kind id with
  | branch b =>
    dsimp only [NodeKind.branch?]
    split_ifs with hskip
    · rfl
    · obtain ⟨hon, hfree⟩ := Bool.or_eq_false_iff.1 (Bool.not_eq_true _ ▸ hskip)
      have hwithin := h id hid hon
      rw [hkind] at hwithin
      refine List.map_eq_nil_iff.2 (List.filter_eq_nil_iff.2 fun t ht hstray => ?_)
      obtain ⟨hroot, hnone⟩ := of_decide_eq_true hstray
      obtain rfl | ⟨a, ha, hintro⟩ := (Guard.within_iff hfree).1 hwithin t ht
      · exact hroot rfl
      · exact hnone a ha hintro.eq_some
  | _ => rfl

end Code

/-- The rule `(sin (cos 0)) ==> 0`. -/
def zeroCosine : PlannedRule :=
  ⟨⟨⟨"(sin (cos 0)) ==> 0", .app 4 [.app 5 [.literal (.int 0)]], .literal (.int 0), [], .noCheck, 0,
        false⟩,
      .operator "sin" none⟩,
    0⟩

/-- The rule `(sin (cos $0) $0) ==> $0`, which gives the sine two operands. -/
def phasedSine : PlannedRule :=
  ⟨⟨⟨"(sin (cos $0) $0) ==> $0", .app 4 [.app 5 [.metavar 0], .metavar 0], .metavar 0, [], .noCheck,
        0, false⟩,
      .operator "sin" none⟩,
    1⟩

theorem not_isScoped_of_strays {rules : List PlannedRule} {checks : List (List CheckName)}
    (stray : NodeId × Trail) (others : List (NodeId × Trail))
    (h : ((FusedCode.ofRules o l rules).toOption.bind fun f =>
      f.head.map fun head => (f.code.eliminateRedundancy head).strays head) =
      some (stray :: others)) :
    ∃ f head, FusedCode.ofRules o l rules = .ok f ∧ f.head = some head ∧
      ¬ (f.code.eliminateRedundancy head).IsScoped l checks head := by
  obtain ⟨f, hf, hstrays⟩ := Option.bind_eq_some_iff.1 h
  obtain ⟨head, hhead, hstrays⟩ := Option.map_eq_some_iff.1 hstrays
  refine ⟨f, head, FusedCode.ofRules_of_toOption hf, hhead, fun hscoped => ?_⟩
  rw [hscoped.strays_eq_nil] at hstrays
  cases hstrays

/-- **A shared guard takes temporaries out of scope**, those of an optional operand and those of
operands that the operator does not take. -/
theorem shared_guard_out_of_scope :
    (∃ f head,
      FusedCode.ofRules ⟨false, false, true⟩ .arithmetic
        [zeroSine, differenceSine (.optional (.metavar 0) (.literal (.int 0)))] = .ok f ∧
      f.head = some head ∧ ¬ (f.code.eliminateRedundancy head).IsScoped .arithmetic [[], []] head) ∧
    ∃ f head, FusedCode.ofRules ⟨false, false, true⟩ .arithmetic [zeroCosine, phasedSine] = .ok f ∧
      f.head = some head ∧
      ¬ (f.code.eliminateRedundancy head).IsScoped .arithmetic [[], []] head :=
  ⟨not_isScoped_of_strays (65, [0, 0]) [] (by decide +kernel),
    not_isScoped_of_strays (48, [1]) [] (by decide +kernel)⟩

end Rulewright
