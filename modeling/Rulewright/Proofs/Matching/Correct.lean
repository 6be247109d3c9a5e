import Rulewright.Proofs.Chain.Conditions
import Rulewright.Proofs.Matching.Capture

/-!
# Compiled rules match what they should

The code of a rule returns `true` on a ground term exactly when the rule applies to the term.

* `Form.isRead`: terms that were read have the names of the language.
* `holds_equalities`: the check for equal nodes holds exactly when what was captured is consistent.
* `changed_iff_accepts`: the main statement.
-/

namespace Rulewright

/-! ### Terms that were read -/

theorem Language.name_of_id? {l : Language} {name : String} {symbol : SymbolId}
    (h : l.id? name = some symbol) : l.name symbol = name := by
  obtain ⟨hlt, hget, -⟩ := List.idxOf?_eq_some_iff.1 h
  simp [Language.name, name?, hlt, hget]

namespace Form

variable {l : Language}

theorem isRead_app {name : String} {symbol : SymbolId} (h : l.id? name = some symbol)
    {operands : List Expr} (ho : Expr.AllRead l operands) :
    (Expr.app symbol operands).IsRead l :=
  ⟨by rw [Language.name_of_id? h, h], ho⟩

theorem isRead_readList {head : String} {items : List Expr} (hitems : Expr.AllRead l items)
    {e : Expr} (h : readList l head items = .ok e) : e.IsRead l := by
  unfold readList at h
  split_ifs at h
  · split at h
    · cases h
      exact hitems.1
    · cases h
  · split at h
    · cases h
      exact ⟨hitems.1, hitems.2.1⟩
    · cases h
  · split at h
    · split at h
      · cases h
        exact hitems.2
      · cases h
    · cases h
  · split at h
    · rename_i hid
      cases h
      exact isRead_app hid hitems
    · cases h

theorem isRead_readAtom {a : Atom} {e : Expr} (h : readAtom l a = .ok e) : e.IsRead l := by
  cases a with
  | metavar digits =>
    rw [readAtom] at h
    split at h <;> cases h
    trivial
  | literal text =>
    rw [readAtom] at h
    split at h <;> cases h
    trivial
  | name text =>
    rw [readAtom] at h
    split at h
    · rename_i hid
      cases h
      exact isRead_app hid trivial
    · rename_i hid
      cases h
      exact hid

mutual

theorem isRead (f : Form) {e : Expr} (h : f.read l = .ok e) : e.IsRead l := by
  match f, h with
  | .atom a, h => exact isRead_readAtom h
  | .list head items, h =>
    rw [read] at h
    split at h
    · rename_i es hes
      exact isRead_readList (allRead items hes) h
    · cases h

theorem allRead (fs : List Form) {es : List Expr} (h : readAll l fs = .ok es) :
    Expr.AllRead l es := by
  match fs, h with
  | [], h =>
    cases h
    trivial
  | f :: rest, h =>
    rw [readAll] at h
    split at h
    · rename_i e he
      split at h
      · rename_i es hes
        cases h
        exact ⟨isRead f he, allRead rest hes⟩
      · cases h
    · cases h

end

end Form

theorem Language.isRead_parse {l : Language} {text : String} {e : Expr} (h : l.parse text = .ok e) :
    e.IsRead l := by
  unfold Language.parse at h
  split at h
  · rename_i form hform
    exact form.isRead h
  · cases h

theorem RuleDefinition.parse_pattern {l : Language} {d : RuleDefinition} {r : Rule}
    (h : d.toRule l = .ok r) : l.parse d.pattern = .ok r.pattern := by
  obtain ⟨pattern, hpattern, h⟩ := bind_eq_ok_iff.1 h
  obtain ⟨replacement, -, h⟩ := bind_eq_ok_iff.1 h
  obtain ⟨conditions, -, h⟩ := bind_eq_ok_iff.1 h
  cases h
  exact hpattern

/-! ### Equal nodes -/

namespace Table

variable {α : Type}

theorem mem_insertEntry {k : Nat} {a : α} {es : List (Nat × α)} {x : Nat × α}
    (h : x ∈ insertEntry k a es) : x = (k, a) ∨ x ∈ es := by
  induction es with
  | nil => exact Or.inl (List.mem_singleton.1 h)
  | cons e rest ih =>
    rw [insertEntry] at h
    split_ifs at h
    · rcases List.mem_cons.1 h with rfl | h
      · exact Or.inl rfl
      · exact Or.inr (List.mem_cons_of_mem _ h)
    · rcases List.mem_cons.1 h with rfl | h
      · exact Or.inl rfl
      · exact Or.inr h
    · rcases List.mem_cons.1 h with rfl | h
      · exact Or.inr List.mem_cons_self
      · exact (ih h).imp_right (List.mem_cons_of_mem _)

theorem mem_of_get? {t : Table Nat α} {k : Nat} {a : α} (h : t.get? k = some a) :
    (k, a) ∈ t.entries := by
  obtain ⟨es⟩ := t
  induction es with
  | nil => cases h
  | cons e rest ih =>
    simp only [get?, findEntry] at h
    split_ifs at h with hk
    · cases h
      exact hk ▸ List.mem_cons_self
    · exact List.mem_cons_of_mem _ (ih h)

/-- A table of trails holds what was put into it. -/
theorem mem_foldl_pushTrail {os : List (Nat × Trail)} {t : Table Nat (List Trail)} {k : Nat}
    {trails : List Trail} (h : (k, trails) ∈ (os.foldl (fun t o => t.pushTrail o.1 o.2) t).entries)
    {x : Trail} (hx : x ∈ trails) :
    (k, x) ∈ os ∨ ∃ trails', (k, trails') ∈ t.entries ∧ x ∈ trails' := by
  induction os generalizing t with
  | nil => exact Or.inr ⟨trails, h, hx⟩
  | cons o rest ih =>
    rcases ih h with h1 | ⟨trails', hmem, hx'⟩
    · exact Or.inl (List.mem_cons_of_mem _ h1)
    · rcases mem_insertEntry hmem with heq | hmem
      · cases heq
        rcases List.mem_append.1 hx' with hx' | hx'
        · cases hget : t.get? o.1 with
          | none => rw [hget] at hx'; cases hx'
          | some trails1 =>
            rw [hget] at hx'
            exact Or.inr ⟨trails1, mem_of_get? hget, hx'⟩
        · rw [List.mem_singleton.1 hx']
          exact Or.inl List.mem_cons_self
      · exact Or.inr ⟨trails', hmem, hx'⟩

/-- All trails that were put under one key are found there. -/
theorem mem_get?_foldl_pushTrail {os : List (Nat × Trail)} {t : Table Nat (List Trail)} {k : Nat}
    {x : Trail} (h : (k, x) ∈ os ∨ x ∈ (t.get? k).getD []) :
    x ∈ ((os.foldl (fun t o => t.pushTrail o.1 o.2) t).get? k).getD [] := by
  induction os generalizing t with
  | nil => exact h.resolve_left (by simp)
  | cons o rest ih =>
    refine ih ?_
    change (k, x) ∈ rest ∨ x ∈ ((t.insert o.1 ((t.get? o.1).getD [] ++ [o.2])).get? k).getD []
    rw [get?_insert]
    rcases h with h | h
    · rcases List.mem_cons.1 h with rfl | h
      · exact Or.inr (by simp)
      · exact Or.inl h
    · right
      split_ifs with hk
      · subst hk
        exact List.mem_append_left _ h
      · exact h

end Table

namespace Matcher

variable {l : Language} {free : String → Bool} {b : Bindings}

theorem equalAt_iff {first second : Trail} {x y : Expr} (hx : b.get? first = some x)
    (hy : b.get? second = some y) : b.equalAt first second = true ↔ x = y := by
  rw [Bindings.equalAt, Bindings.nodeAt_of_get? hx, Bindings.nodeAt_of_get? hy]
  exact beq_iff_eq

/-- What was captured and what is bound where metavariables occur. -/
theorem mem_metas {c : Captures} {os : List (MetaId × Trail)} (h : terms c = readAt b os)
    {id : MetaId} {x : Expr} : (id, x) ∈ c.metas ↔ ∃ t, (id, t) ∈ os ∧ b.get? t = some x := by
  have h1 : (id, x) ∈ c.metas ↔ (id, some x) ∈ terms c := by simp [terms]
  rw [h1, h, readAt]
  simp

theorem exists_of_occurrence {c : Captures} {os : List (MetaId × Trail)} (h : terms c = readAt b os)
    {id : MetaId} {t : Trail} (ht : (id, t) ∈ os) : ∃ x, b.get? t = some x := by
  have hmem : (id, b.get? t) ∈ terms c := by
    rw [h]
    exact List.mem_map_of_mem ht
  obtain ⟨p, -, hp⟩ := List.mem_map.1 hmem
  exact ⟨p.2, (Prod.mk.inj hp).2.symm⟩

/-- **The check for equal nodes** holds exactly when what was captured is consistent. -/
theorem holds_equalities {c : Captures} {p : Expr}
    (h : terms c = readAt b (p.metaOccurrences Trail.root)) :
    Guard.holds l free b (.structurallyEqual p.metaTrails.equalities) = c.consistent := by
  set os := p.metaOccurrences Trail.root with hos
  rw [Bool.eq_iff_iff, Guard.holds, Captures.consistent]
  simp only [List.all_eq_true, Bool.or_eq_true, bne_iff_ne, beq_iff_eq]
  refine ⟨fun heq => ?_, fun hcons => ?_⟩
  · rintro ⟨id, x⟩ hx ⟨id', y⟩ hy
    by_cases hid : id = id'
    · subst hid
      obtain ⟨s, hs, hbs⟩ := (mem_metas h).1 hx
      obtain ⟨t, ht, hbt⟩ := (mem_metas h).1 hy
      -- both trails stand in the list of the metavariable, so both terms are that at its first
      -- trail
      have hs' := Table.mem_get?_foldl_pushTrail (t := Table.empty) (Or.inl hs)
      have ht' := Table.mem_get?_foldl_pushTrail (t := Table.empty) (Or.inl ht)
      cases hget :
          Table.get? (List.foldl (fun t o => Table.pushTrail t o.1 o.2) Table.empty os) id with
      | none => rw [hget] at hs'; cases hs'
      | some trails =>
        rw [hget] at hs' ht'
        cases trails with
        | nil => cases hs'
        | cons first later =>
          have hfirst : ∀ u z, u ∈ first :: later → b.get? u = some z → b.get? first = some z := by
            intro u z hu hz
            rcases List.mem_cons.1 hu with rfl | hu
            · exact hz
            · have hmem := Table.mem_of_get? hget
              obtain ⟨w, hw⟩ :=
                exists_of_occurrence h ((Table.mem_foldl_pushTrail hmem
                  List.mem_cons_self).resolve_right (by simp [Table.empty]))
              have hpair := heq (first, u) (List.mem_flatMap.2 ⟨_, hmem, List.mem_map_of_mem hu⟩)
              rw [hw, (equalAt_iff hw hz).1 hpair]
          have := (hfirst s x hs' hbs).symm.trans (hfirst t y ht' hbt)
          exact Or.inr (Option.some.inj this)
    · exact Or.inl hid
  · intro pair hpair
    obtain ⟨⟨id, trails⟩, hmem, hpair⟩ := List.mem_flatMap.1 hpair
    cases trails with
    | nil => cases hpair
    | cons first later =>
      obtain ⟨u, hu, rfl⟩ := List.mem_map.1 hpair
      have hin : ∀ u ∈ first :: later, (id, u) ∈ os := fun u hu =>
        (Table.mem_foldl_pushTrail hmem hu).resolve_right (by simp [Table.empty])
      obtain ⟨x, hx⟩ := exists_of_occurrence h (hin first List.mem_cons_self)
      obtain ⟨y, hy⟩ := exists_of_occurrence h (hin u (List.mem_cons_of_mem _ hu))
      refine (equalAt_iff hx hy).2 ?_
      exact (hcons _ ((mem_metas h).2 ⟨first, hin first List.mem_cons_self, hx⟩) _
        ((mem_metas h).2 ⟨u, hin u (List.mem_cons_of_mem _ hu), hy⟩)).resolve_left (by simp)

/-! ### Rules -/

theorem heads_empty (b : Bindings) : Heads l b Table.empty Captures.empty :=
  ⟨fun _ => rfl, fun _ _ h => by cases h⟩

/-- What a run starts with: the term at the root and nothing below it. -/
theorem get?_below_root (e : Expr) {t : Trail} (h : Trail.root.Below t) :
    (Table.empty.insert Trail.root e : Bindings).get? t = none := by
  have hne : Trail.root ≠ t := by
    rintro rfl
    exact Trail.not_below_self _ h
  rw [Table.get?_insert, if_neg hne]
  rfl

/-- The chain of a pattern is passed and the action allowed exactly when the rule applies. -/
theorem passed_any_eq_accepts {o : Options} (ho : o.skipRootGuard = false) {count : String → Nat}
    {r : Rule} {e : Expr} (hread : r.pattern.IsRead l) (hcounts : r.pattern.UsesCounts l count)
    (he : e.IsTerm l count) {k : Option (Chain Unit)} {groups : Groups} {texts : List String}
    (hk : patternChain o l r.pattern Trail.root Table.empty = some (k, groups))
    (htexts : conditionCodes (ruleScope l false r groups) r = .ok texts) :
    (passed? l free k (Table.empty.insert Trail.root e)).any (actionHolds l free r texts) =
      r.accepts l free e := by
  have hb : (Table.empty.insert Trail.root e : Bindings).get? Trail.root = some e := by
    rw [Table.get?_insert, if_pos rfl]
  have hpattern : PatternAgrees o l free count r.pattern := (agrees_patternChain ho).1 r.pattern
  have hagree :=
    hpattern _ _ _ _ _ _ _ hk hread hcounts hb (fun t ht => get?_below_root e ht) he (heads_empty _)
      fun g t h => by cases h
  have hgrants : r.grants l free =
      (texts.isEmpty || free (withRoot (" && ".intercalate texts) "formula")) := by
    have hgroups : groups = r.pattern.groupTrails := groups_patternChain.1 _ _ _ _ _ hk
    rw [Rule.grants]
    rw [ruleScope, hgroups] at htexts
    simp only [htexts]
  rw [Rule.accepts]
  cases hc : r.pattern.capture? l true e Captures.empty with
  | none =>
    have hnone : passed? l free k (Table.empty.insert Trail.root e) = none := by
      rw [show List.isEmpty Trail.root = true from rfl, hc] at hagree
      exact hagree
    rw [hnone]
    rfl
  | some c =>
    rw [show List.isEmpty Trail.root = true from rfl, hc] at hagree
    obtain ⟨b, hrun, -, -, hterms⟩ := hagree
    rw [hrun, Option.any_some, Option.any_some, hgrants, actionHolds, holds_equalities hterms]
    rfl

end Matcher

/-- **Compiled rules match what they should.** The code of a rule that was read and compiled returns
`true` on a ground term exactly when the rule applies to the term, provided that operators are used
with the operand counts they take. -/
theorem changed_iff_accepts {l : Language} {d : RuleDefinition} {r : Rule} (hr : d.toRule l = .ok r)
    {text : String} {e : Expr} (he : l.parse text = .ok e) (hground : e.isGround = true)
    {count : String → Nat} (hp : r.pattern.UsesCounts l count) (hc : e.UsesCounts l count)
    {o : CompileOptions} (ho : o.skipRootGuard = false) {code : Code} {head : NodeId}
    (hhead : (r.compile o l code).1 = .ok head) (free : String → Bool) :
    ((r.compile o l code).2.run l free head e).changed = true ↔ r.accepts l free e = true := by
  obtain ⟨ts, hcode, rfl, hne, hsolid, howns⟩ :=
    Matcher.compile_owns (Code.Owns.zero code) (Prod.ext hhead rfl)
  obtain ⟨k, groups, texts, replacement, hk, htexts, -, hexec⟩ :=
    Matcher.execAll_ruleCode l free hcode
  have hterm : e.IsTerm l count := ⟨hground, Language.isRead_parse he, hc⟩
  have hread : r.pattern.IsRead l := Language.isRead_parse (RuleDefinition.parse_pattern hr)
  obtain ⟨b, hb⟩ := hexec ⟨[], Table.empty.insert Trail.root e⟩
  rw [Stmt.execAll_strip] at hb
  rw [howns.run_eq hsolid hne e]
  dsimp only
  rw [hb, Matcher.passed_any_eq_accepts ho hread hp hterm hk htexts]
  cases r.accepts l free e <;> simp

/-- The rule `(+ (~ 1 $0 $1) (~ 1 $0 (- (? $2 0) $1))) ==> $2`. -/
def cancelling : Rule where
  pattern := .app 0 [.anyway 1 [.metavar 0, .metavar 1],
    .anyway 1 [.metavar 0, .app 1 [.optional (.metavar 2) (.literal (.int 0)), .metavar 1]]]
  replacement := .metavar 2
  conditions := []
  global := .noCheck
  phase := 0
  abandoned := false

/-- The term `(+ (* x y) (* x (- y)))`. -/
def opposites : Expr := .app 0 [.app 2 [.var "x", .var "y"], .app 2 [.var "x", .app 1 [.var "y"]]]

theorem takes_of_mem {l : Language} {count : String → Nat} {name : String} {counts : List Nat}
    (h : l.arities? name = some counts) {n : Nat} (hn : n ∈ counts) :
    Expr.takes l count name n := by
  rw [Expr.takes, h]
  exact hn

/-- The missing operand is taken to be zero, the open operators are the same, and both metavariables
that occur twice stand for equal terms. -/
theorem changed_cancelling :
    ((cancelling.compile ⟨false, false, true⟩ .arithmetic Code.empty).2.run .arithmetic
      (fun _ => false) 0 opposites).changed = true := by
  have hr : (RuleDefinition.mk "(+ (~ 1 $0 $1) (~ 1 $0 (- (? $2 0) $1)))" "$2" [] .noCheck 0
      false).toRule .arithmetic = .ok cancelling := by decide +kernel
  have he : Language.arithmetic.parse "(+ (* x y) (* x (- y)))" = .ok opposites := by decide +kernel
  have hadd : Expr.takes .arithmetic (fun _ => 0) (Language.arithmetic.name 0) 2 :=
    takes_of_mem (show _ = some [2] by decide +kernel) (by decide)
  have hmul : Expr.takes .arithmetic (fun _ => 0) (Language.arithmetic.name 2) 2 :=
    takes_of_mem (show _ = some [2] by decide +kernel) (by decide)
  have hneg : Expr.takes .arithmetic (fun _ => 0) (Language.arithmetic.name 1) 1 :=
    takes_of_mem (show _ = some [1, 2] by decide +kernel) (by decide)
  have hp : cancelling.pattern.UsesCounts .arithmetic (fun _ => 0) :=
    ⟨Or.inr hadd, ⟨trivial, trivial, trivial⟩,
      ⟨trivial, ⟨Or.inl ⟨_, List.mem_cons_self, rfl⟩, trivial, trivial, trivial⟩, trivial⟩, trivial⟩
  have hc : opposites.UsesCounts .arithmetic (fun _ => 0) :=
    ⟨Or.inr hadd, ⟨Or.inr hmul, trivial, trivial, trivial⟩,
      ⟨Or.inr hmul, trivial, ⟨Or.inr hneg, trivial, trivial⟩, trivial⟩, trivial⟩
  have hground : opposites.isGround = true := by decide +kernel
  have hhead : (cancelling.compile ⟨false, false, true⟩ .arithmetic Code.empty).1 = .ok 0 := by
    decide +kernel
  have haccepts : cancelling.accepts .arithmetic (fun _ => false) opposites = true := by
    decide +kernel
  exact (changed_iff_accepts hr he hground hp hc rfl hhead _).2 haccepts

end Rulewright
