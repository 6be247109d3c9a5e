import Mathlib.Data.List.Induction
import Rulewright.Proofs.Chain.Conditions
import Rulewright.Proofs.Notation.Spelling
import Rulewright.RuleSet

/-!
# Storing rule sets

A rule set that was loaded is stored and loaded again. Its language comes back as it was. A rule
comes back if and only if each of its terms is storable, since the rest of it is stored as it is.

* `Language.ofEntries_entries`: a language that was built from entries is built from its own
  entries.
* `RuleDefinition.toRule_ofRule_iff`: when a rule that was read comes back.
* `RuleSetFile.toRuleSet_ofRuleSet_iff`: when a rule set that was loaded comes back.
-/

namespace Rulewright

/-! ### Languages -/

/-- The entry as it is stored, with its counts sorted. -/
def SymbolEntry.stored (e : SymbolEntry) : SymbolEntry := { e with arities := sortedSet e.arities }

namespace Language

/-- Nothing is declared beyond the symbols. -/
def IsTight (l : Language) : Prop :=
  ∀ id, l.names.length ≤ id → l.arities.get? id = none ∧ l.constructors.get? id = none

variable {l : Language} (name : String) (counts : List Nat) (constructor : Option String)

theorem arities_addOperator (id : SymbolId) :
    (l.addOperator name counts constructor).arities.get? id =
      if counts ≠ [] ∧ l.names.length = id then some (sortedSet counts) else l.arities.get? id := by
  cases counts with
  | nil => rfl
  | cons n counts =>
    have hset := Table.get?_insert l.arities.counts l.names.length id (sortedSet (n :: counts))
    simpa [addOperator, Arities.set, Arities.get?] using hset

theorem constructors_addOperator (id : SymbolId) :
    (l.addOperator name counts constructor).constructors.get? id =
      if l.names.length = id then constructor <|> l.constructors.get? id
      else l.constructors.get? id := by
  cases constructor with
  | none => simp [addOperator]
  | some c =>
    simp only [addOperator, Table.get?_insert]
    rfl

theorem IsTight.addOperator (h : l.IsTight) : (l.addOperator name counts constructor).IsTight := by
  intro id hid
  have hlength : (l.addOperator name counts constructor).names.length = l.names.length + 1 :=
    List.length_append
  have hlt : l.names.length < id := by
    rw [hlength] at hid
    exact hid
  obtain ⟨harities, hconstructors⟩ := h id (Nat.le_of_lt hlt)
  rw [arities_addOperator, constructors_addOperator, if_neg fun hc => Nat.ne_of_lt hlt hc.2,
    if_neg (Nat.ne_of_lt hlt)]
  exact ⟨harities, hconstructors⟩

/-- A symbol that is added has the last entry. -/
theorem IsTight.entries_addOperator (h : l.IsTight) :
    (l.addOperator name counts constructor).entries =
      l.entries ++ [SymbolEntry.stored ⟨name, counts, constructor⟩] := by
  obtain ⟨harities, hconstructors⟩ := h l.names.length (Nat.le_refl _)
  have hnames : (l.addOperator name counts constructor).names = l.names ++ [name] := rfl
  simp only [entries, hnames, List.mapIdx_append, arities_addOperator, constructors_addOperator]
  congr 1
  · refine List.mapIdx_eq_mapIdx_iff.2 fun id hid => ?_
    rw [if_neg fun hc => Nat.ne_of_gt hid hc.2, if_neg (Nat.ne_of_gt hid)]
  · cases counts with
    | nil => simp [SymbolEntry.stored, sortedSet, harities, hconstructors]
    | cons n counts => simp [SymbolEntry.stored, hconstructors]

theorem addOperator_sortedSet :
    l.addOperator name (sortedSet counts) constructor = l.addOperator name counts constructor := by
  have hempty : (sortedSet counts).isEmpty = counts.isEmpty := by
    rw [Bool.eq_iff_iff, List.isEmpty_iff, List.isEmpty_iff, List.eq_nil_iff_forall_not_mem,
      List.eq_nil_iff_forall_not_mem]
    simp only [mem_sortedSet]
  simp only [addOperator, hempty, Arities.set, sortedSet_sortedSet]

theorem ofEntries_concat (es : List SymbolEntry) (e : SymbolEntry) :
    ofEntries (es ++ [e]) = (ofEntries es).addOperator e.name e.arities e.constructor := by
  rw [ofEntries, List.foldl_append]
  rfl

theorem isTight_ofEntries (es : List SymbolEntry) : (ofEntries es).IsTight := by
  induction es using List.reverseRecOn with
  | nil => exact fun _ _ => ⟨rfl, rfl⟩
  | append_singleton es e ih =>
    rw [ofEntries_concat]
    exact ih.addOperator e.name e.arities e.constructor

theorem entries_ofEntries (es : List SymbolEntry) :
    (ofEntries es).entries = es.map SymbolEntry.stored := by
  induction es using List.reverseRecOn with
  | nil => rfl
  | append_singleton es e ih =>
    rw [ofEntries_concat, (isTight_ofEntries es).entries_addOperator, ih, List.map_append]
    rfl

/-- **Languages come back** from their entries. -/
theorem ofEntries_entries (es : List SymbolEntry) :
    ofEntries (ofEntries es).entries = ofEntries es := by
  rw [entries_ofEntries, ofEntries, List.foldl_map]
  simp only [SymbolEntry.stored, addOperator_sortedSet]
  rfl

end Language

/-! ### Rules -/

/-- The terms of a rule. -/
def Rule.terms (r : Rule) : List Expr :=
  r.pattern :: r.replacement :: r.conditions.map Condition.subject

variable {l : Language}

theorem ConditionDefinition.toCondition_eq_ok_iff {d : ConditionDefinition} {k : Condition} :
    d.toCondition l = .ok k ↔ l.parse d.subject = .ok k.subject ∧ d.check = k.check := by
  rw [toCondition, bind_eq_ok_iff]
  constructor
  · rintro ⟨subject, hsubject, h⟩
    cases h
    exact ⟨hsubject, rfl⟩
  · rintro ⟨hsubject, hcheck⟩
    exact ⟨k.subject, hsubject, by rw [hcheck]; rfl⟩

namespace RuleDefinition

theorem toRule_eq_ok_iff {d : RuleDefinition} {r : Rule} :
    d.toRule l = .ok r ↔
      (l.parse d.pattern = .ok r.pattern ∧ l.parse d.replacement = .ok r.replacement ∧
        d.conditions.mapM (·.toCondition l) = .ok r.conditions) ∧
      d.global = r.global ∧ d.phase = r.phase ∧ d.abandoned = r.abandoned := by
  simp only [toRule, bind_eq_ok_iff]
  constructor
  · rintro ⟨pattern, hp, replacement, hr, conditions, hc, h⟩
    cases h
    exact ⟨⟨hp, hr, hc⟩, rfl, rfl, rfl⟩
  · rintro ⟨⟨hp, hr, hc⟩, hglobal, hphase, habandoned⟩
    refine ⟨_, hp, _, hr, _, hc, ?_⟩
    rw [hglobal, hphase, habandoned]
    rfl

/-- The terms of a rule that was read were read. -/
theorem exists_parse_of_toRule {d : RuleDefinition} {r : Rule} (h : d.toRule l = .ok r) :
    ∀ e ∈ r.terms, ∃ text, l.parse text = .ok e := by
  obtain ⟨⟨hp, hr, hc⟩, -⟩ := toRule_eq_ok_iff.1 h
  intro e he
  rcases List.mem_cons.1 he with rfl | he
  · exact ⟨_, hp⟩
  rcases List.mem_cons.1 he with rfl | he
  · exact ⟨_, hr⟩
  · obtain ⟨k, hk, rfl⟩ := List.mem_map.1 he
    obtain ⟨condition, hcondition⟩ := exists_of_mapM hc k hk
    exact ⟨_, (ConditionDefinition.toCondition_eq_ok_iff.1 hcondition).1⟩

theorem toRule_ofRule_eq_ok_iff {r : Rule} :
    (ofRule l r).toRule l = .ok r ↔ ∀ e ∈ r.terms, l.parse (e.render l) = .ok e := by
  rw [toRule_eq_ok_iff]
  simp only [ofRule, mapM_map_eq_ok_iff, ConditionDefinition.toCondition_eq_ok_iff,
    ConditionDefinition.ofCondition, and_true]
  simp [Rule.terms]

/-- A rule that was read comes back if and only if its terms are storable. -/
theorem toRule_ofRule_iff {d : RuleDefinition} {r : Rule} (h : d.toRule l = .ok r) :
    (ofRule l r).toRule l = .ok r ↔ ∀ e ∈ r.terms, e.IsStorable l := by
  rw [toRule_ofRule_eq_ok_iff]
  refine forall₂_congr fun e he => ?_
  obtain ⟨text, htext⟩ := exists_parse_of_toRule h e he
  exact Expr.reparse_iff htext

end RuleDefinition

/-! ### Rule sets -/

namespace RuleSetFile

theorem toRuleSet_eq_ok_iff {f : RuleSetFile} {s : RuleSet} :
    f.toRuleSet = .ok s ↔
    Language.ofEntries f.symbols = s.language ∧
      f.rules.mapM (·.toRule s.language) = .ok s.rules := by
  simp only [toRuleSet, bind_eq_ok_iff]
  constructor
  · rintro ⟨rules, hrules, h⟩
    cases h
    exact ⟨rfl, hrules⟩
  · rintro ⟨hlanguage, hrules⟩
    refine ⟨s.rules, by rw [hlanguage]; exact hrules, ?_⟩
    rw [hlanguage]
    rfl

/-- **Rule sets come back.** The language of a rule set that was loaded is stored as it is. Its
rules are too, if and only if no variable in them is written like a number, and no symbol without
operands like a special head. -/
theorem toRuleSet_ofRuleSet_iff {f : RuleSetFile} {s : RuleSet} (h : f.toRuleSet = .ok s) :
    Language.ofEntries (ofRuleSet s).symbols = s.language ∧
    ((ofRuleSet s).toRuleSet = .ok s ↔ ∀ r ∈ s.rules, ∀ e ∈ r.terms, e.IsStorable s.language) := by
  obtain ⟨hlanguage, hrules⟩ := toRuleSet_eq_ok_iff.1 h
  have hback : Language.ofEntries s.language.entries = s.language := by
    rw [← hlanguage]
    exact Language.ofEntries_entries f.symbols
  refine ⟨hback, ?_⟩
  simp only [toRuleSet_eq_ok_iff, ofRuleSet, hback, mapM_map_eq_ok_iff, true_and]
  refine forall₂_congr fun r hr => ?_
  obtain ⟨d, hd⟩ := exists_of_mapM hrules r hr
  exact RuleDefinition.toRule_ofRule_iff hd

/-- Words that touch, symbols that stand alone, and counts out of order. -/
def crowded : RuleSetFile :=
  { symbols := [⟨"f", [2, 1, 2], some "_f"⟩, ⟨"g", [], none⟩]
    rules := [⟨"(f(g x$0)-1)", " (f g)", [⟨"(g $0)", .noCheck⟩], .noCheck, 2, true⟩] }

/-- The rule `(f (g x $0) -1) ==> (f (g))` of it. -/
def crowdedRules : RuleSet :=
  { language := ⟨["f", "g"], ⟨⟨[(0, [1, 2])]⟩⟩, ⟨[(0, "_f")]⟩⟩
    rules := [⟨.app 0 [.app 1 [.var "x", .metavar 0], .literal (.int (-1))], .app 0 [.app 1 []],
      [⟨.app 1 [.metavar 0], .noCheck⟩], .noCheck, 2, true⟩] }

theorem toRuleSet_ofRuleSet_crowded :
    crowded.toRuleSet = .ok crowdedRules ∧
    (ofRuleSet crowdedRules).toRuleSet = .ok crowdedRules := by
  have hload : crowded.toRuleSet = .ok crowdedRules := by decide +kernel
  have hstorable : ∀ r ∈ crowdedRules.rules, ∀ e ∈ r.terms, e.IsStorable crowdedRules.language := by
    decide +kernel
  exact ⟨hload, (toRuleSet_ofRuleSet_iff hload).2.2 hstorable⟩

/-- A file with one symbol besides `f`, and one rule. -/
def single (symbol pattern replacement : String) : RuleSetFile :=
  { symbols := [⟨"f", [1], none⟩, ⟨symbol, [], none⟩]
    rules := [⟨pattern, replacement, [], .noCheck, 0, false⟩] }

/-- A rule set of these symbols with one rule. -/
def singleRules (symbol : String) (pattern replacement : Expr) : RuleSet :=
  { language := ⟨["f", symbol], ⟨⟨[(0, [1])]⟩⟩, ⟨[]⟩⟩
    rules := [⟨pattern, replacement, [], .noCheck, 0, false⟩] }

/-- The variable `3` comes back as the number, and the symbol `#` does not come back at all. -/
theorem toRuleSet_ofRuleSet_accidents :
    ((single "g" "(f 3$0)" "$0").toRuleSet =
        .ok (singleRules "g" (.app 0 [.var "3", .metavar 0]) (.metavar 0)) ∧
      (ofRuleSet (singleRules "g" (.app 0 [.var "3", .metavar 0]) (.metavar 0))).toRuleSet =
        .ok (singleRules "g" (.app 0 [.literal (.int 3), .metavar 0]) (.metavar 0))) ∧
    (single "#" "(f #)" "#").toRuleSet = .ok (singleRules "#" (.app 0 [.app 1 []]) (.app 1 [])) ∧
    (ofRuleSet (singleRules "#" (.app 0 [.app 1 []]) (.app 1 []))).toRuleSet =
      .error (.malformed .compoundOperands) := by
  decide +kernel

end RuleSetFile

end Rulewright
