import Rulewright.Proofs.Matching.Range
import Rulewright.Proofs.Scope.Pattern

/-!
# What a run binds

The temporaries that are bound at a place of a tree are told by the statements before it. A run that
gets there has bound them, unless a definition on its way has found nothing. A definition reads a
temporary that is bound, builds a term, or reads an operand, and only an operand can be missing.

* `Assignment.IsInRange`: the operand that a definition reads is there.
* `Discipline.binds_all`: a run without missing operands binds what the discipline says is bound.
* `bound_of_inRange`: so it binds the metavariables and groups of the pattern of a rule.
-/

namespace Rulewright

open Stmt

/-- The operand that the definition reads is there. -/
def Assignment.IsInRange (d : Assignment) : Prop :=
  ∀ parent index, d.binding = .operand parent index →
    ∃ whole, d.bindings.nodeAt parent = some whole ∧ index < whole.operands.length

/-- A definition that reads no missing operand and no unbound temporary finds a value. -/
theorem Assignment.IsInRange.found {d : Assignment} (h : d.IsInRange) {l : Language}
    (hreads : d.binding.Within l d.bindings.IsBound) : ∃ e, d.bindings.bind d.binding = some e := by
  obtain ⟨target, binding, b⟩ := d
  cases binding with
  | operand parent index =>
    obtain ⟨whole, hwhole, hlt⟩ := h parent index rfl
    refine ⟨whole.operands[index], ?_⟩
    rw [Bindings.bind, hwhole, Option.bind_some, List.getElem?_eq_getElem hlt]
  | same t =>
    obtain ⟨e, he⟩ := hreads
    exact ⟨e, Bindings.nodeAt_of_get? he⟩
  | constructed code value => exact ⟨value, rfl⟩

namespace Discipline

variable {l : Language} {checks : List (List CheckName)} {free : String → Bool}

/-- A line without a missing operand keeps what is bound, and binds what it defines. -/
theorem binds_line {x : Temporaries} {id : Unit} {content : Line} {comment : Option String}
    {off : Bool} {p : Code.Progress} (halong : (bound l checks).line x content off)
    (hready : ∀ t ∈ x.ready, p.bindings.IsBound t)
    (hrange : ∀ d ∈ recorded Assignment.recorder l free (.line id content comment off) p,
      d.IsInRange)
    {t : Trail}
    (ht : p.bindings.IsBound t ∨ t ∈ (x.step (.line id content comment off)).ready ∨
      (Stmt.line id content comment off).assigns t = true) :
    (exec l free (.line id content comment off) p).2.bindings.IsBound t := by
  cases content with
  | definition target binding declares =>
    obtain rfl := halong.1 rfl
    obtain ⟨e, he⟩ := (hrange _ List.mem_cons_self).found (halong.2.1.mono hready)
    change (p.bindings.assign target binding).IsBound t
    by_cases heq : target = t
    · subst heq
      exact ⟨e, Bindings.get?_assign_self he⟩
    · rw [Bindings.IsBound, Bindings.get?_assign_of_ne binding heq]
      rcases ht with ht | ht | ht
      · exact ht
      · cases declares with
        | false => exact hready t ht
        | true => exact hready t ((List.mem_cons.1 ht).resolve_left fun h => heq h.symm)
      · cases declares with
        | false => exact absurd (of_decide_eq_true ht) heq
        | true => cases ht
  | custom text =>
    have hsame : (exec l free (.line id (.custom text) comment off) p).2.bindings = p.bindings := by
      simp only [exec, Line.exec]
      split_ifs <;> rfl
    rw [hsame]
    exact ht.elim (fun h => h) fun h => h.elim (hready t) fun h => by cases h
  | _ =>
    cases off <;> exact ht.elim (fun h => h) fun h => h.elim (hready t) fun h => by cases h

/-- The temporaries are bound after the run, if it goes on: those that were bound before, those that
the discipline says are bound then, and those that are assigned. -/
theorem binds_all :
    (∀ (s : Stmt Unit) (x : Temporaries) (p : Code.Progress), (bound l checks).Along x s →
      (∀ t ∈ x.ready, p.bindings.IsBound t) →
      (∀ d ∈ recorded Assignment.recorder l free s p, d.IsInRange) → (exec l free s p).1 = none →
      ∀ t, p.bindings.IsBound t ∨ t ∈ (x.step s).ready ∨ s.assigns t = true →
        (exec l free s p).2.bindings.IsBound t) ∧
    (∀ (ts : List (Stmt Unit)) (x : Temporaries) (p : Code.Progress),
      (bound l checks).AlongAll x ts → (∀ t ∈ x.ready, p.bindings.IsBound t) →
      (∀ d ∈ recordedAll Assignment.recorder l free ts p, d.IsInRange) →
      (execAll l free ts p).1 = none →
      ∀ t,
        p.bindings.IsBound t ∨ t ∈ ((bound l checks).after x ts).ready ∨ ts.any (assigns t) = true →
        (execAll l free ts p).2.bindings.IsBound t) ∧
    ∀ (es : List (Stmt Unit)) (x : Temporaries) (p : Code.Progress),
      (bound l checks).AlongEach x es → (∀ t ∈ x.ready, p.bindings.IsBound t) →
      (∀ d ∈ recordedElseIfs Assignment.recorder l free es p, d.IsInRange) →
      ∀ q, execElseIfs l free es p = some (none, q) →
        ∀ t, p.bindings.IsBound t ∨ es.all (thenAssigns t) = true → q.bindings.IsBound t := by
  apply run_induct
  case line =>
    exact fun id content comment off x p h hready hrange _ t => binds_line h hready hrange
  case branch =>
    intro id guard body e es hbody he hes x p halong hready hrange hnone t ht
    -- bound before, or assigned by every body
    have hbound : p.bindings.IsBound t ∨
        (Stmt.branch id guard body e es).assignsAlways t = true := by
      rcases ht with ht | ht | ht
      · exact Or.inl ht
      · rcases List.mem_append.1 ht with ht | ht
        · exact Or.inr (List.mem_filter.1 ht).2
        · exact Or.inl (hready t ht)
      · cases ht
    simp only [assignsAlways, thenAssigns, Bool.and_eq_true] at hbound
    -- nothing is noted down of the guard
    rw [recorded, List.forall_mem_append] at hrange
    replace hrange := hrange.2
    rw [exec] at hnone ⊢
    split_ifs at hrange hnone ⊢ with hg hsome
    · exact hbody x p halong.2.1 hready hrange hnone t
        (hbound.imp_right fun h => Or.inr h.1.1)
    · obtain ⟨⟨value, q⟩, hq⟩ := Option.isSome_iff_exists.1 hsome
      rw [hq] at hnone ⊢
      obtain rfl : value = none := hnone
      rw [List.append_nil] at hrange
      exact hes x p halong.2.2.2 hready hrange q hq t (hbound.imp_right And.right)
    · rw [Option.not_isSome_iff_eq_none.1 hsome] at hnone ⊢
      exact he x p halong.2.2.1 hready (fun d hd => hrange d (List.mem_append_right _ hd)) hnone t
        (hbound.imp_right fun h => Or.inr h.1.2)
  case nil =>
    intro x p _ hready _ _ t ht
    exact ht.elim (fun h => h) fun h => h.elim (hready t) fun h => by cases h
  case cons =>
    intro s rest hs hrest x p halong hready hrange hnone t ht
    rw [recordedAll] at hrange
    rw [execAll] at hnone ⊢
    have hfirst := hs x p halong.1 hready fun d hd => hrange d (List.mem_append_left _ hd)
    rcases hexec : exec l free s p with ⟨_ | value, q⟩
    · rw [hexec] at hrange hnone hfirst
      refine hrest _ q halong.2 (fun t ht => hfirst rfl t (Or.inr (Or.inl ht)))
        (fun d hd => hrange d (List.mem_append_right _ hd)) hnone t ?_
      rcases ht with ht | ht | ht
      · exact Or.inl (hfirst rfl t (Or.inl ht))
      · exact Or.inr (Or.inl ht)
      · rcases (Bool.or_eq_true _ _).mp ht with ht | ht
        · exact Or.inl (hfirst rfl t (Or.inr (Or.inr ht)))
        · exact Or.inr (Or.inr ht)
    · rw [hexec] at hnone
      cases hnone
  case choiceNil =>
    intro x p _ _ _ q hq
    cases hq
  case choiceLine =>
    intro id content comment off rest hrest x p halong hready hrange q hq t ht
    refine hrest x p halong.2 hready hrange q hq t (ht.imp_right fun h => ?_)
    exact (Bool.and_eq_true_iff.1 h).2
  case choiceBranch =>
    intro id guard body e es rest hbody hrest x p halong hready hrange q hq t ht
    rw [List.all_cons, Bool.and_eq_true] at ht
    rw [recordedElseIfs] at hrange
    rw [execElseIfs] at hq
    split_ifs at hrange hq with hg
    · have hexec := Option.some.inj hq
      have hafter := hbody x p halong.1.2.1 hready hrange (congrArg Prod.fst hexec) t
        (ht.imp_right fun h => Or.inr h.1)
      rwa [hexec] at hafter
    · exact hrest x p halong.2 hready hrange q hq t (ht.imp_right And.right)

end Discipline

/-- A run that passes a chain without missing operands binds what the discipline says is bound at
the innermost point. -/
theorem Chain.binds_pass {l : Language} {checks : List (List CheckName)} {free : String → Bool}
    {k : Chain Unit} (hquiet : k.IsQuiet) {x : Temporaries}
    (hmeets : k.Meets (Discipline.bound l checks) x) {p : Code.Progress}
    (hready : ∀ t ∈ x.ready, p.bindings.IsBound t)
    (hrange : ∀ d ∈ k.recorded Assignment.recorder l free p, d.IsInRange) {b : Bindings}
    (hpass : k.pass l free p.bindings = some b) :
    ∀ t ∈ (k.reach (Discipline.bound l checks) x).ready, b.IsBound t := by
  -- the statements before a guard go on and bind what is ready after them
  have before : ∀ {ts : List (Stmt Unit)} {x : Temporaries} {p : Code.Progress},
      isQuietAll ts = true → (Discipline.bound l checks).AlongAll x ts →
      (∀ t ∈ x.ready, p.bindings.IsBound t) →
      (∀ d ∈ recordedAll Assignment.recorder l free ts p, d.IsInRange) →
      ∀ t ∈ ((Discipline.bound l checks).after x ts).ready,
        (settle l free ts p.bindings).IsBound t := by
    intro ts x p hts halong hready hrange t ht
    have hexec := execAll_quiet l free hts p
    have hbinds := Discipline.binds_all.2.1 ts x p halong hready hrange (by rw [hexec]) t
      (Or.inr (Or.inl ht))
    rwa [hexec] at hbinds
  induction k generalizing x p with
  | hole ts mark after =>
    cases hpass
    exact before hquiet hmeets hready hrange
  | under ts check guard inner otherwise after ih =>
    rw [pass] at hpass
    rw [recorded] at hrange
    split_ifs at hpass hrange with hg
    have hinner := before hquiet.1 hmeets.1 hready fun d hd =>
      hrange d (List.mem_append_left _ hd)
    exact ih (p := { p with bindings := settle l free ts p.bindings }) hquiet.2 hmeets.2.2 hinner
      (fun d hd => hrange d (List.mem_append_right _ hd)) hpass

namespace Matcher

/-- A run that passes the chain of a pattern without missing operands binds the metavariables of the
pattern, and the groups. -/
theorem bound_of_inRange {o : Options} {l : Language} {free : String → Bool} {pattern e : Expr}
    {k : Option (Chain Unit)} {groups : Groups}
    (hk : patternChain o l pattern Trail.root Table.empty = some (k, groups))
    (hrange : ∀ k', k = some k' →
      ∀ d ∈ k'.recorded Assignment.recorder l free ⟨[], Bindings.ofTerm e⟩, d.IsInRange)
    {b : Bindings} (hb : passed? l free k (Bindings.ofTerm e) = some b) :
    (∀ id t, pattern.metaTrails.firstTrail? id = some t → b.IsBound t) ∧
      ∀ group t, groups.firstTrail? group = some t → b.IsBound t := by
  have hroot : Trail.root ∈ Temporaries.start.ready := List.mem_singleton_self _
  obtain ⟨hmeets, hholds⟩ :=
    (patternChain_meets_all o l []).1 _ _ Temporaries.start _ _ _ hroot hroot
      (fun group first hfirst => by cases hfirst) hk
  have hstart : ∀ t ∈ Temporaries.start.ready, (Bindings.ofTerm e).IsBound t :=
    List.forall_mem_singleton.2 ⟨e, by rw [Bindings.ofTerm, Table.get?_insert, if_pos rfl]⟩
  have hbinds : ∀ t ∈ ((k.map (Chain.reach (Discipline.bound l []) Temporaries.start)).getD
      Temporaries.start).ready, b.IsBound t := by
    cases k with
    | none =>
      cases hb
      exact hstart
    | some k =>
      exact Chain.binds_pass (p := ⟨[], Bindings.ofTerm e⟩) (patternChain_fit hk).1.isQuiet
        (hmeets k rfl) hstart (hrange k rfl) hb
  refine ⟨fun id t ht => ?_, fun group t ht => hbinds t (hholds.groups group t ht).1⟩
  obtain hempty | ⟨m, hm, rfl⟩ := Table.firstTrail?_foldl ht
  · cases hempty
  · exact hbinds m.2 (hholds.metas m hm)

end Matcher

end Rulewright
