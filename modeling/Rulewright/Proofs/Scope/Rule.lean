import Rulewright.Proofs.Matching.Correct
import Rulewright.Proofs.Scope.Pattern

/-!
# The temporaries of a rule are bound

The action of a rule stands at the innermost point of the chain of its pattern, where the
temporaries of all metavariables and groups are bound. It compares and uses nothing else. So the
code of a rule meets the discipline, and what the discipline says is read off the nodes of the
store.

* `ruleCode_along`: the code of a rule binds temporaries before it uses them.
* `tracks_bound`: how bound temporaries show in the nodes before and around a place.
* `compile_binds_temporaries`: a compiled rule uses temporaries that are bound, and assigns those
  that are declared.
-/

namespace Rulewright

open Stmt Discipline

namespace Matcher

variable {l : Language} {r : Rule} {x : Temporaries} {groups : Groups} {foldConstants : Bool}

/-! ### Actions -/

theorem Holds.lies (h : Holds (r.pattern.metaOccurrences Trail.root) groups x)
    (foldConstants : Bool) : (ruleScope l foldConstants r groups).Lies (· ∈ x.ready) where
  metas id t ht := by
    obtain hempty | ⟨m, hm, rfl⟩ := Table.firstTrail?_foldl ht
    · cases hempty
    · exact h.metas m hm
  groups group t ht := (h.groups group t ht).1

/-- Trails that are compared are trails of metavariables. -/
theorem equalities_within (h : Holds (r.pattern.metaOccurrences Trail.root) groups x)
    {checks : List (List CheckName)} :
    (Guard.structurallyEqual r.pattern.metaTrails.equalities).Within l checks (· ∈ x.ready) := by
  intro t ht
  obtain ⟨pair, hpair, ht⟩ := List.mem_flatMap.1 ht
  obtain ⟨⟨id, trails⟩, hmem, hpair⟩ := List.mem_flatMap.1 hpair
  have hin : ∀ u ∈ trails, u ∈ x.ready := fun u hu =>
    h.metas _ ((Table.mem_foldl_pushTrail hmem hu).resolve_right (by simp [Table.empty]))
  cases trails with
  | nil => cases hpair
  | cons first later =>
    obtain ⟨u, hu, rfl⟩ := List.mem_map.1 hpair
    rcases List.mem_cons.1 ht with rfl | ht
    · exact hin _ List.mem_cons_self
    · rw [List.mem_singleton.1 ht]
      exact hin u (List.mem_cons_of_mem _ hu)

theorem underIf_along {checks : List (List CheckName)} {needed : Bool} {guard : Guard}
    {body : List (Stmt Unit)} (hguard : needed = true → guard.Within l checks (· ∈ x.ready))
    (hbody : (bound l checks).AlongAll x body) :
    (bound l checks).AlongAll x (underIf needed guard body) := by
  unfold underIf
  split_ifs with hneeded
  · exact ⟨along_noop x, ⟨hguard hneeded, hbody, ⟨along_noop x, trivial⟩, trivial⟩, trivial⟩
  · exact hbody

/-- **The action of a rule** uses the temporaries of the metavariables and groups of its pattern. -/
theorem actionCode_along (hroot : Trail.root ∈ x.ready)
    (h : Holds (r.pattern.metaOccurrences Trail.root) groups x) {action : List (Stmt Unit)}
    (ha : actionCode l foldConstants r groups = some action) :
    (bound l [r.checks]).AlongAll x action := by
  obtain ⟨conditions, code, hconditions, hcode, rfl⟩ := exists_of_actionCode ha
  obtain ⟨calls, hchecks, rfl, hcalls⟩ := exists_calls (h.lies false) hroot hconditions
  obtain ⟨k, used, hk, rfl⟩ := Scope.exists_of_code hcode
  have hreplace : (bound l [r.checks]).Along x (replaceStmt r k.text) := by
    have hkind :
        (NodeKind.custom k.replaceLine).Within l [r.checks] (· ∈ x.ready) (· ∈ x.declared) :=
      Or.inr ⟨k, rfl, Scope.write_within (h.lies foldConstants) hk⟩
    unfold replaceStmt
    split_ifs <;> exact ⟨Bool.noConfusion, hkind⟩
  have hbody : (bound l [r.checks]).AlongAll x (actionBody r k.text) := by
    exact ⟨along_noop x, hreplace, ⟨Bool.noConfusion, trivial⟩, trivial⟩
  have hfree : (Guard.free (" && ".intercalate (calls.map CheckCall.text))).Within l [r.checks]
      (· ∈ x.ready) := ⟨calls, List.mem_singleton.2 hchecks, rfl, hcalls⟩
  exact underIf_along (fun _ => equalities_within h) (underIf_along (fun _ => hfree) hbody)

/-! ### Rules -/

/-- **The code of a rule** binds temporaries before it uses them and declares them before it assigns
them. -/
theorem ruleCode_along {o : Options} {code : List (Stmt Unit)}
    (h : ruleCode o l foldConstants r = some code) :
    (bound l [r.checks]).AlongAll Temporaries.start code := by
  obtain ⟨k, groups, action, hk, haction, rfl⟩ := exists_of_ruleCode h
  have hroot : Trail.root ∈ Temporaries.start.ready := List.mem_singleton_self _
  obtain ⟨hmeets, hholds⟩ :=
    (patternChain_meets_all o l [r.checks]).1 _ _ Temporaries.start _ _ _ hroot hroot
      (fun group first hfirst => by cases hfirst) hk
  have hcalm := (Discipline.alongAll_calm (D := bound l [r.checks])
    (fun x content off h => by cases content <;> exact h) Temporaries.step_calm).2
    (withAction action k)
  refine alongAll_append.2 ⟨hcalm.1 _ ?_, ⟨Bool.noConfusion, trivial⟩, trivial⟩
  cases k with
  | none => exact ⟨along_noop _, actionCode_along hroot hholds haction⟩
  | some k =>
    exact (hmeets k rfl).fill (isIdle_bound l _)
      (actionCode_along (ready_reach _ k hroot) hholds haction)

end Matcher

/-! ### Stores -/

namespace Code

variable {c : Code}

/-- A sequence that assigns a temporary does so in the store that owns it. -/
theorem Owns.assigns {link : Link} {m : Multiset Cell} {ts : List (Stmt NodeId)}
    (h : c.Owns (cells link none ts + m)) (hne : ts ≠ []) {t : Trail}
    (ht : (strip ts).any (Stmt.assigns t) = true) : c.Assigns (start ts) t := by
  rw [strip, mapAll_eq_map, List.any_map, List.any_eq_true] at ht
  obtain ⟨s, hs, hassigns⟩ := ht
  obtain ⟨link', next, hnode⟩ := h.kind_mem hs
  refine ⟨s.id, ?_, ?_⟩
  · rw [h.chain_eq hne]
    exact List.mem_map_of_mem hs
  · rw [Owns.isCommentedOut_of hnode, Owns.kind_of hnode]
    cases s with
    | branch id guard b e es => cases hassigns
    | line id content comment off =>
      simp only [Function.comp_apply, Stmt.map] at hassigns
      unfold Stmt.assigns at hassigns
      split at hassigns
      · rename_i target β _ heq
        cases heq
        rw [decide_eq_true_eq] at hassigns
        subst hassigns
        exact ⟨rfl, β, rfl⟩
      · cases hassigns

/-- A choice that assigns a temporary in all its bodies does so in the store that owns it. -/
theorem Owns.assignsAlways {link : Link} {next : Option NodeId} {s : Stmt NodeId}
    (h : c.Owns ({(s.id, s.node link next)} + s.bodyCells)) (hsolid : s.Solid) {t : Trail}
    (ht : (s.map fun _ => ()).assignsAlways t = true) : c.AssignsAlways s.id t := by
  cases s with
  | line id content comment off => cases ht
  | branch id guard b e es =>
    obtain ⟨hb, he, hsb, hse, hses⟩ := hsolid
    rw [Stmt.map, Stmt.assignsAlways, Bool.and_eq_true, Bool.and_eq_true] at ht
    obtain ⟨⟨htb, hte⟩, htes⟩ := ht
    have hbodies := h
    rw [bodyCells_branch] at hbodies
    have hcells := hbodies.right
    refine ⟨_, Owns.branch?_of h.find, ?_, ?_, fun alternative hmem => ?_⟩
    · exact Owns.assigns (hcells.left.left.of_eq (add_zero _).symm) hb htb
    · exact Owns.assigns (hcells.left.right.of_eq (add_zero _).symm) he hte
    · obtain ⟨s, hs, rfl⟩ := List.mem_map.1 hmem
      obtain ⟨link', howns⟩ := Owns.elseIf_mem (hcells.right.of_eq (add_zero _).symm) hs
      have hthen : (s.map fun _ => ()).thenAssigns t = true := by
        rw [mapAll_eq_map, List.all_map, List.all_eq_true] at htes
        exact htes s hs
      cases s with
      | line id' content comment off => cases hthen
      | branch id' guard' b' e' es' =>
        have hsolid' := (solidAll_iff es).1 hses _ hs
        exact ⟨_, Owns.branch?_of howns.head, Owns.assigns howns.bodies.1 hsolid'.1 hthen⟩

/-- A temporary is bound at a place with the given nodes before and around it. -/
def ReadyAt (c : Code) (link : Link) (above : List NodeId) (t : Trail) : Prop :=
  t = Trail.root ∨ (∃ a ∈ above, c.Defines a t) ∨
  ∃ a ∈ above, c.Declares a t ∧
    ∃ choice ∈ above, a ∈ c.ancestors choice ∧ c.AssignsAlways choice t ∧
      (link = .after choice ∨ ∃ k ∈ above, c.link k = .after choice)

/-- What is bound at a node is bound at the places after it and in it. -/
theorem ReadyAt.cons {id : NodeId} {link' : Link} {above : List NodeId} {t : Trail}
    (h : c.ReadyAt (c.link id) above t) : c.ReadyAt link' (id :: above) t := by
  rcases h with rfl | ⟨a, ha, hdef⟩ | ⟨a, ha, hdecl, choice, hchoice, hbefore, hassigns, hlink⟩
  · exact Or.inl rfl
  · exact Or.inr (Or.inl ⟨a, List.mem_cons_of_mem _ ha, hdef⟩)
  · refine Or.inr (Or.inr ⟨a, List.mem_cons_of_mem _ ha, hdecl, choice,
      List.mem_cons_of_mem _ hchoice, hbefore, hassigns, Or.inr ?_⟩)
    rcases hlink with hlink | ⟨k, hk, hlink⟩
    · exact ⟨id, List.mem_cons_self, hlink⟩
    · exact ⟨k, List.mem_cons_of_mem _ hk, hlink⟩

theorem ReadyAt.ready {id : NodeId} {t : Trail} (h : c.ReadyAt (c.link id) (c.ancestors id) t) :
    c.Ready id t := by
  refine h.imp_right (Or.imp_right ?_)
  rintro ⟨a, ha, hdecl, choice, hchoice, hbefore, hassigns, hlink⟩
  refine ⟨a, ha, hdecl, choice, hchoice, hbefore, hassigns, ?_⟩
  rcases hlink with hlink | ⟨k, hk, hlink⟩
  · exact ⟨id, List.mem_cons_self, hlink⟩
  · exact ⟨k, List.mem_cons_of_mem _ hk, hlink⟩

/-- Bound and declared temporaries show in the nodes before and around a place. -/
structure Shows (c : Code) (link : Link) (above : List NodeId) (x : Temporaries) : Prop where
  ready : ∀ t ∈ x.ready, c.ReadyAt link above t
  declared : ∀ t ∈ x.declared, ∃ a ∈ above, c.Declares a t

theorem Shows.cons {id : NodeId} {link' : Link} {above : List NodeId} {x : Temporaries}
    (h : c.Shows (c.link id) above x) : c.Shows link' (id :: above) x where
  ready t ht := (h.ready t ht).cons
  declared t ht := by
    obtain ⟨a, ha, hdecl⟩ := h.declared t ht
    exact ⟨a, List.mem_cons_of_mem _ ha, hdecl⟩

/-- What a statement binds and declares shows after it. -/
theorem Shows.step {s : Stmt NodeId} {link : Link} {next : Option NodeId} {above : List NodeId}
    {x : Temporaries} (howns : c.Owns ({(s.id, s.node link next)} + s.bodyCells)) (hsolid : s.Solid)
    (hanc : c.ancestors s.id = above) (h : c.Shows link above x) :
    c.Shows (.after s.id) (s.id :: above) (x.step (s.map fun _ => ())) := by
  have hlink : c.link s.id = link := link_of_owns howns
  have hcons : c.Shows (.after s.id) (s.id :: above) x := Shows.cons (hlink ▸ h)
  have hkind := Owns.kind_of howns.find
  have hoff := Owns.isCommentedOut_of howns.find
  cases s with
  | branch id guard b e es =>
    refine ⟨fun t ht => ?_, hcons.declared⟩
    rcases List.mem_append.1 ht with ht | ht
    -- declared before the branch, and assigned whichever way is taken
    · obtain ⟨hdeclared, hassigns⟩ := List.mem_filter.1 ht
      obtain ⟨a, ha, hdecl⟩ := h.declared t hdeclared
      exact Or.inr (Or.inr ⟨a, List.mem_cons_of_mem _ ha, hdecl, id, List.mem_cons_self, hanc ▸ ha,
        howns.assignsAlways hsolid hassigns, Or.inl rfl⟩)
    · exact hcons.ready t ht
  | line id content comment off =>
    rw [Stmt.map]
    unfold Temporaries.step
    split
    · rename_i target β _ heq
      cases heq
      refine ⟨List.forall_mem_cons.2
          ⟨Or.inr (Or.inl ⟨id, List.mem_cons_self, hoff, β, hkind⟩), hcons.ready⟩,
        hcons.declared⟩
    · rename_i target _ heq
      cases heq
      exact ⟨hcons.ready,
        List.forall_mem_cons.2 ⟨⟨id, List.mem_cons_self, hoff, hkind⟩, hcons.declared⟩⟩
    · rename_i heq
      cases heq
    · exact hcons

/-- **How the discipline shows in a store**: a node uses temporaries that are bound there and
assigns declared ones. -/
theorem tracks_bound (c : Code) (nodes : List NodeId) (l : Language)
    (checks : List (List CheckName)) :
    Tracks c nodes (bound l checks) c.Shows fun id =>
      (c.kind id).Within l checks (c.Ready id) (c.IsDeclared id) where
  here {s link next above x} howns hpath hanc hreached hknown halong := by
    obtain rfl := link_of_owns howns
    subst hanc
    have hready : ∀ t, t ∈ x.ready → c.Ready s.id t := fun t ht => (hknown.ready t ht).ready
    rw [Owns.kind_of howns.find]
    cases s with
    | branch id guard b e es => exact Guard.Within.mono hready halong.1
    | line id content comment off => exact NodeKind.Within.mono hready hknown.declared halong.2
  after howns hsolid hanc hknown := hknown.step howns hsolid hanc
  inside slot place known := Shows.cons (place ▸ known)

end Code

/-- **The temporaries of a compiled rule are bound.** Every node of the code of a rule uses
temporaries that are bound on every way to the node, and assigns temporaries that are declared, be
it a comment or not. -/
theorem compile_binds_temporaries {o : CompileOptions} {l : Language} {r : Rule} {c c' : Code}
    {head : NodeId} (h : r.compile o l c = (.ok head, c')) :
    ∀ id ∈ c'.descendants head,
      (c'.kind id).Within l [r.checks] (c'.Ready id) (c'.IsDeclared id) := by
  obtain ⟨ts, hcode, rfl, hne, hsolid, howns⟩ := Matcher.compile_owns (Code.Owns.zero c) h
  have hstart : c'.Shows .root [] Temporaries.start :=
    ⟨List.forall_mem_singleton.2 (Or.inl rfl), List.forall_mem_nil _⟩
  exact (Code.tracks_bound c' _ l [r.checks]).descendants hsolid hne howns hstart
    (Matcher.ruleCode_along hcode)

/-- The rule `(+ (~ 1 $0 $1) (~ 1 $0 (- (? $2 0) $1))) ==> (~ 1 $2 $0)`, with a check of `$0`. -/
def bordering : Rule :=
  { cancelling with
    replacement := .anyway 1 [.metavar 2, .metavar 0]
    conditions := [⟨.metavar 0, ⟨"is_constant"⟩⟩] }

/-- The replacement uses the temporary of a node that a choice between three forms assigns. -/
theorem bordering_binds_temporaries :
    ∃ c, bordering.compile ⟨false, false, true⟩ .arithmetic Code.empty = (.ok 0, c) ∧
      42 ∈ c.descendants 0 ∧
      c.kind 42 =
        .custom
          "@formula.replace(p.term_factory(@formula_0.op(), vec![@formula_1_1_0, @formula_0_0]));" ∧
      ∀ id ∈ c.descendants 0,
        (c.kind id).Within .arithmetic [bordering.checks] (c.Ready id) (c.IsDeclared id) := by
  have hhead : (bordering.compile ⟨false, false, true⟩ .arithmetic Code.empty).1 = .ok 0 := by
    decide +kernel
  have hmem : 42 ∈
      (bordering.compile ⟨false, false, true⟩ .arithmetic Code.empty).2.descendants 0 := by
    decide +kernel
  have hkind : (bordering.compile ⟨false, false, true⟩ .arithmetic Code.empty).2.kind 42 =
      .custom
        "@formula.replace(p.term_factory(@formula_0.op(), vec![@formula_1_1_0, @formula_0_0]));" := by
    decide +kernel
  generalize hc : bordering.compile ⟨false, false, true⟩ .arithmetic Code.empty =
      result at hhead hmem hkind
  obtain ⟨head, c⟩ := result
  cases hhead
  exact ⟨c, rfl, hmem, hkind, compile_binds_temporaries hc⟩

end Rulewright
