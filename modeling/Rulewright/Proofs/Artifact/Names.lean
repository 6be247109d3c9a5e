import Rulewright.Proofs.Artifact.Accounting

/-!
# The names of functions

A name of a function is read by the segments between its underscores. That of a rule ends in the
number of the rule, those of the functions of a phase in the phase, so two functions can have one
name only where the operator of a rule is called as the other family is, `rules_phase` or
`fused_phase`.

* `sanitize_eq_iff`: a character that is no part of a name leaves its word as a segment.
* `functionName_eq_phaseName_iff`: the rules whose functions are named like those of phases.
* `Artifact.moduleItems_define`: the functions that the items of the module define.
* `Artifact.nodup_functionNames_iff`: when all names are different.
-/

namespace Rulewright

/-! ### Segments -/

/-- The parts of a name between its underscores. -/
def segments (name : String) : List (List Char) := name.toList.splitOn '_'

theorem segments_append (x y : String) : segments (x ++ "_" ++ y) = segments x ++ segments y := by
  rw [segments, String.toList_append, String.toList_append, List.append_assoc]
  exact List.splitOnP_append_cons _ _ (by rfl)

/-- A text without underscores is one segment. -/
theorem segments_of_notMem {name : String} (h : '_' ∉ name.toList) :
    segments name = [name.toList] :=
  List.splitOnP_eq_singleton fun _ hc => beq_eq_false_iff_ne.2 fun heq => h (heq ▸ hc)

theorem segments_injective : Function.Injective segments := by
  intro x y h
  have hlist := congrArg (['_'].intercalate) h
  rw [segments, segments, List.intercalate_splitOn, List.intercalate_splitOn] at hlist
  exact String.toList_injective hlist

theorem segments_intercalate {parts : List String} (h : parts ≠ []) :
    segments ("_".intercalate parts) = parts.flatMap segments := by
  induction parts with
  | nil => exact absurd rfl h
  | cons part rest ih =>
    cases rest with
    | nil => rw [String.intercalate_singleton, List.flatMap_singleton]
    | cons next rest =>
      rw [String.intercalate_cons_cons, segments_append, ih (List.cons_ne_nil _ _)]; rfl

/-! ### Operators in names -/

/-- Characters that are part of a name stay as they are. -/
theorem nameParts_of_all {run cs : List Char} (h : cs.all isNameCharacter = true) :
    nameParts run cs =
      if (cs.reverse ++ run).isEmpty then [] else [String.ofList (cs.reverse ++ run).reverse] := by
  induction cs generalizing run with
  | nil => rfl
  | cons c rest ih =>
    rw [List.all_cons, Bool.and_eq_true] at h
    rw [nameParts, if_pos h.1, ih h.2, List.reverse_cons, List.append_assoc, List.singleton_append]

/-- Any other character leaves its word. -/
theorem characterName_mem_nameParts {c : Char} (hc : isNameCharacter c = false) (run : List Char)
    {cs : List Char} (h : c ∈ cs) : characterName c ∈ nameParts run cs := by
  induction cs generalizing run with
  | nil => cases h
  | cons d rest ih =>
    rw [nameParts]
    rcases List.mem_cons.1 h with rfl | h
    · rw [hc]
      exact List.mem_append_right _ List.mem_cons_self
    · by_cases hd : isNameCharacter d = true
      · rw [if_pos hd]
        exact ih _ h
      · rw [if_neg hd]
        exact List.mem_append_right _ (List.mem_cons_of_mem _ (ih _ h))

/-- A text that has no word of a character as a segment. -/
def isWordless (name : String) : Bool :=
  isNameText name &&
    (segments name).all fun segment =>
      segment.head? != some 'x' && !characterWords.contains (String.ofList segment)

theorem sanitize_of_isNameText {name : String} (h : isNameText name = true) :
    sanitize name = name := by
  rw [sanitize, nameParts_of_all h, List.append_nil, List.reverse_reverse]
  split_ifs with hempty
  · rw [List.isEmpty_reverse, List.isEmpty_iff] at hempty
    exact String.toList_injective hempty.symm
  · rw [String.intercalate_singleton, String.ofList_toList]

/-- No other operator is spelled like such a text. -/
theorem sanitize_eq_iff {operator name : String} (hname : isWordless name = true) :
    sanitize operator = name ↔ operator = name := by
  rw [isWordless, Bool.and_eq_true, List.all_eq_true] at hname
  obtain ⟨htext, hwords⟩ := hname
  refine ⟨fun h => ?_, fun h => by rw [h, sanitize_of_isNameText htext]⟩
  cases hall : isNameText operator with
  | true => rw [← sanitize_of_isNameText hall, h]
  | false =>
    -- the word of a character would be a segment
    rw [isNameText, List.all_eq_false] at hall
    obtain ⟨c, hc, hother⟩ := hall
    have hmem := characterName_mem_nameParts (Bool.eq_false_iff.2 hother) [] hc
    have hone : '_' ∉ (characterName c).toList :=
      fun h => absurd (isAlphanum_characterName h) (by decide)
    have hsegment : (characterName c).toList ∈ segments name := by
      rw [← h, sanitize, segments_intercalate (List.ne_nil_of_mem hmem)]
      refine List.mem_flatMap.2 ⟨_, hmem, ?_⟩
      rw [segments_of_notMem hone]
      exact List.mem_singleton_self _
    have hnot := hwords _ hsegment
    rw [String.ofList_toList, Bool.and_eq_true, bne_iff_ne, Bool.not_eq_true', ← Bool.not_eq_true,
      List.contains_iff_mem] at hnot
    rcases characterName_cases c with hword | hcode
    · exact absurd hword hnot.2
    · exact absurd (by rw [hcode]; rfl) hnot.1

/-! ### Clashes -/

theorem toList_phaseSuffix_ofNat (n : Nat) : (phaseSuffix n).toList = Nat.toDigits 10 n :=
  Decimal.toList_toString n

theorem toList_phaseSuffix_negSucc (n : Nat) :
    (phaseSuffix (.negSucc n)).toList = "neg".toList ++ Nat.toDigits 10 (n + 1) := by
  rw [phaseSuffix, if_pos (Int.negSucc_lt_zero n), String.toList_append, Int.natAbs_negSucc,
    Decimal.toList_toString]

/-- The end of the name of a phase is a number only for phases that are not negative. -/
theorem phaseSuffix_eq_toString_iff {phase : Int} {n : Nat} :
    phaseSuffix phase = toString n ↔ phase = n := by
  refine ⟨fun h => ?_, fun h => h ▸ rfl⟩
  have hlist := congrArg String.toList h
  rw [Decimal.toList_toString] at hlist
  cases phase with
  | ofNat m =>
    rw [Int.ofNat_eq_natCast, toList_phaseSuffix_ofNat] at hlist
    rw [Int.ofNat_eq_natCast, Decimal.toDigits_inj (by decide) (by decide) hlist]
  | negSucc m =>
    rw [toList_phaseSuffix_negSucc] at hlist
    have hmem : 'n' ∈ Nat.toDigits 10 n := by rw [← hlist]; exact List.mem_cons_self
    exact absurd hmem (Decimal.notMem_toDigits (by decide) n)

theorem phaseSuffix_injective : Function.Injective phaseSuffix := by
  intro p q h
  cases q with
  | ofNat n => exact phaseSuffix_eq_toString_iff.1 h
  | negSucc n =>
    cases p with
    | ofNat m => exact (phaseSuffix_eq_toString_iff.1 h.symm).symm
    | negSucc m =>
      have hlist := congrArg String.toList h
      rw [toList_phaseSuffix_negSucc, toList_phaseSuffix_negSucc, List.append_right_inj] at hlist
      rw [Nat.succ_injective (Decimal.toDigits_inj (by decide) (by decide) hlist)]

theorem isNameText_phaseSuffix (phase : Int) : isNameText (phaseSuffix phase) = true := by
  rw [phaseSuffix]
  split_ifs with hneg
  · rw [isNameText_append, isNameText_toString]
    rfl
  · obtain ⟨n, rfl⟩ := Int.eq_ofNat_of_zero_le (Int.not_lt.1 hneg)
    exact isNameText_toString n

/-- A name is read by its last underscore. -/
theorem append_underscore_inj {x y s t : String} (hs : '_' ∉ s.toList) (ht : '_' ∉ t.toList) :
    x ++ "_" ++ s = y ++ "_" ++ t ↔ x = y ∧ s = t := by
  refine ⟨fun h => ?_, fun ⟨hx, hs⟩ => by rw [hx, hs]⟩
  have hsegments := congrArg segments h
  rw [segments_append, segments_append, segments_of_notMem hs, segments_of_notMem ht] at hsegments
  obtain ⟨hx, hlast⟩ := List.append_inj' hsegments rfl
  exact ⟨segments_injective hx, String.toList_injective (List.singleton_injective hlast)⟩

theorem underscore_notMem_toString (n : Nat) : '_' ∉ (toString n).toList := by
  rw [Decimal.toList_toString]
  exact Decimal.notMem_toDigits (by decide) n

theorem underscore_notMem_phaseSuffix (phase : Int) : '_' ∉ (phaseSuffix phase).toList := by
  cases phase with
  | ofNat n => exact underscore_notMem_toString n
  | negSucc n =>
    rw [toList_phaseSuffix_negSucc]
    exact List.not_mem_append (by decide) (Decimal.notMem_toDigits (by decide) _)

/-- The name of the function of a phase in a family of functions. -/
def phaseName (family : String) (phase : Int) : String :=
  "apply_" ++ family ++ "_" ++ phaseSuffix phase

theorem dispatchName_eq (phase : Int) : dispatchName phase = phaseName "rules_phase" phase := rfl

theorem fusedName_eq (phase : Int) : fusedName phase = phaseName "fused_phase" phase := rfl

/-- The families of functions of phases: dispatch functions and fused functions. -/
def phaseFamilies : List String := ["rules_phase", "fused_phase"]

theorem isWordless_phaseFamilies : ∀ family ∈ phaseFamilies, isWordless family = true := by decide

theorem isNameText_phaseFamilies : ∀ family ∈ phaseFamilies, isNameText family = true := by decide

theorem phaseName_inj {family other : String} {p q : Int} :
    phaseName family p = phaseName other q ↔ family = other ∧ p = q := by
  rw [phaseName, phaseName,
    append_underscore_inj (underscore_notMem_phaseSuffix p) (underscore_notMem_phaseSuffix q),
    phaseSuffix_injective.eq_iff]
  exact and_congr_left fun _ => String.append_right_inj _

/-- The names of the functions of phases. -/
def phaseNames (phases : List Int) : List String :=
  phaseFamilies.flatMap fun family => phases.map (phaseName family)

theorem mem_phaseNames {phases : List Int} {name : String} :
    name ∈ phaseNames phases ↔
    ∃ family ∈ phaseFamilies, ∃ phase ∈ phases, phaseName family phase = name := by
  simp only [phaseNames, List.mem_flatMap, List.mem_map]

theorem nodup_phaseNames {phases : List Int} (h : phases.Nodup) : (phaseNames phases).Nodup := by
  have hfamilies : phaseFamilies.Nodup := by decide
  refine List.nodup_flatMap.2
    ⟨fun family _ => h.map fun p q heq => (phaseName_inj.1 heq).2, hfamilies.imp fun hne => ?_⟩
  intro name hname hname'
  obtain ⟨p, -, rfl⟩ := List.mem_map.1 hname
  obtain ⟨q, -, heq⟩ := List.mem_map.1 hname'
  exact hne (phaseName_inj.1 heq).1.symm

/-- **Where names clash.** The function of a rule is named like that of a phase if and only if its
operator is called like the family and its number is the phase. -/
theorem functionName_eq_phaseName_iff {family : String} (hfamily : family ∈ phaseFamilies)
    (p : PlannedRule) (phase : Int) :
    p.functionName = phaseName family phase ↔
    p.bucket.operator? = some family ∧ phase = p.index := by
  have hstem : p.bucket.functionStem = "apply_" ++ family ↔ p.bucket.operator? = some family := by
    cases p.bucket with
    | operator name arity =>
      rw [Bucket.functionStem, String.append_right_inj,
        sanitize_eq_iff (isWordless_phaseFamilies family hfamily), Bucket.operator?,
        Option.some_inj]
    | anyway count =>
      refine ⟨fun h => ?_, fun h => by cases h⟩
      have hanyway : "anyway" = family := (String.append_right_inj "apply_").1 h
      rw [← hanyway] at hfamily
      exact absurd hfamily (by decide)
  rw [PlannedRule.functionName, phaseName,
    append_underscore_inj (underscore_notMem_toString _) (underscore_notMem_phaseSuffix _), hstem,
    eq_comm (a := toString _), phaseSuffix_eq_toString_iff]

/-! ### The functions of the module -/

/-- The last character of a name is a digit. -/
def endsInDigit (name : String) : Bool := name.toList.getLast?.any Char.isDigit

theorem endsInDigit_append_toString (x : String) (n : Nat) :
    endsInDigit (x ++ toString n) = true := by
  have hne : Nat.toDigits 10 n ≠ [] := Nat.toDigits_ne_nil
  rw [endsInDigit, String.toList_append, Decimal.toList_toString,
    List.getLast?_append_of_ne_nil _ hne, List.getLast?_eq_some_getLast hne]
  exact Decimal.isDigit_toDigits (List.getLast_mem hne)

theorem endsInDigit_phaseName (family : String) (phase : Int) :
    endsInDigit (phaseName family phase) = true := by
  cases phase with
  | ofNat n => exact endsInDigit_append_toString _ n
  | negSucc n =>
    rw [phaseName, phaseSuffix, if_pos (Int.negSucc_lt_zero n), ← String.append_assoc]
    exact endsInDigit_append_toString _ _

theorem isIdentifier_phaseName {family : String} (hfamily : isNameText family = true)
    (phase : Int) : isIdentifier (phaseName family phase) = true :=
  isIdentifier_append (isIdentifier_append (isIdentifier_append (by decide) hfamily) (by decide))
    (isNameText_phaseSuffix phase)

/-- The definition of a function: its name, and what stands before it. -/
structure Definition where
  before : String
  name : String

/-- What an item of the module is: the definition of a function, or a comment. -/
def ItemDefines (item : String) : Option Definition → Prop
  | some d => Defines d.before d.name item
  | none => ∃ rest, item = "// " ++ rest

/-- What an item defines: the function of a rule stands behind a comment with the rule. -/
def RuleItem.definition? : RuleItem → Option Definition
  | .function name rule _ => some ⟨"// Generated from rule:\n// " ++ rule ++ "\n", name⟩
  | _ => none

theorem RuleItem.itemDefines (item : RuleItem) : ItemDefines item.text item.definition? := by
  have hcomment : ∀ {start rest : String} (more : String), start = "// " ++ more →
      ItemDefines (start ++ rest) none :=
    fun {start rest} more h => ⟨more ++ rest, by rw [h, String.append_assoc]⟩
  cases item with
  | abandoned operator rule =>
    dsimp only [text, definition?]
    simp only [String.append_assoc]
    exact hcomment "Abandoned rule for '" rfl
  | skipped rule reason =>
    dsimp only [text, definition?]
    simp only [String.append_assoc]
    exact hcomment "Rule '" rfl
  | function name rule body =>
    have hopening : "(formula: &TermPtr, p: &Registry) -> bool \x7b\n" =
        "(" ++ "formula: &TermPtr, p: &Registry) -> bool \x7b\n" := rfl
    have hline : "\npub fn " = "\n" ++ "pub fn " := rfl
    have hstart := (Defines.opening name hopening).after
      ("// Generated from rule:\n// " ++ rule ++ "\n")
    rw [String.append_empty, ← String.append_assoc, ← String.append_assoc,
      @String.append_assoc _ "\n", ← hline] at hstart
    exact (hstart.append _).append _

namespace Artifact

/-- What the items of the module define, in order. A rule without function leaves a comment. -/
def definitions (a : Artifact) : List (Option Definition) :=
  [some ⟨operatorsBefore a.language a.used, "check_operator_drift"⟩] ++
    a.items.map (·.definition?) ++ a.phases.map (fun p => some ⟨"", dispatchName p.phase⟩) ++
    [some ⟨"", "simplify_fast"⟩] ++ a.phases.map (fun p => some ⟨"", fusedName p.phase⟩) ++
    [some ⟨"", "simplify_very_fast"⟩,
      some ⟨loopBefore a.foldConstants, "apply_to_full_formula"⟩]

/-- The functions of the module, in order. -/
def functionNames (a : Artifact) : List String := a.definitions.reduceOption.map (·.name)

/-- **The functions of the module** are those that its items define. -/
theorem moduleItems_define (a : Artifact) :
    List.Forall₂ ItemDefines a.moduleItems a.definitions := by
  have hphase : "(m: &TermPtr, p: &Registry) -> bool \x7b\n" =
      "(" ++ "m: &TermPtr, p: &Registry) -> bool \x7b\n" := rfl
  have hrules : List.Forall₂ (fun d item => ItemDefines item d) (a.items.map (·.definition?))
      (a.items.map (·.text)) := by
    rw [List.forall₂_map_left_iff, List.forall₂_map_right_iff, List.forall₂_same]
    exact fun item _ => item.itemDefines
  have hdispatch : ∀ q ∈ a.phases, ItemDefines (Section.dispatch q.phase q.buckets)
      (some ⟨"", dispatchName q.phase⟩) :=
    fun q _ => ((Defines.opening _ hphase).append _).append _
  have hfused : ∀ q ∈ a.phases, ItemDefines (Section.fusedFunction q.phase q.fusedBody)
      (some ⟨"", fusedName q.phase⟩) :=
    fun q _ => ((Defines.opening _ hphase).append _).append _
  have hdefined : ∀ {before name item : String}, Defines before name item →
      ItemDefines item (some ⟨before, name⟩) := id
  exact (forall₂_moduleItems (R := fun d item => ItemDefines item d)
    (hdefined (defines_snapshot _ _)) hrules hdispatch (hdefined (defines_simplify _ _ _)) hfused
    (hdefined (defines_simplify _ _ _)) (hdefined (defines_formulaLoop _))).flip

/-- The functions that do not belong to a rule or a phase. -/
def fixedNames : List String :=
  ["check_operator_drift", "simplify_fast", "simplify_very_fast", "apply_to_full_formula"]

theorem functionNames_eq (a : Artifact) : a.functionNames =
    ["check_operator_drift"] ++ a.items.filterMap (·.functionName?) ++
      a.summary.phases.map (phaseName "rules_phase") ++ ["simplify_fast"] ++
      a.summary.phases.map (phaseName "fused_phase") ++
      ["simplify_very_fast", "apply_to_full_formula"] := by
  have hitems : ((a.items.map (·.definition?)).filterMap id).map (·.name) =
      a.items.filterMap (·.functionName?) := by
    rw [List.filterMap_map, List.map_filterMap]
    exact List.filterMap_congr fun item _ => by cases item <;> rfl
  change (a.definitions.filterMap id).map (·.name) = _
  simp only [definitions, List.filterMap_append, List.map_append, hitems]
  simp [summary, Function.comp_def, dispatchName_eq, fusedName_eq]

/-- The functions of the module by their families. -/
theorem functionNames_perm (a : Artifact) :
    a.functionNames.Perm
      (fixedNames ++ (a.items.filterMap (·.functionName?) ++ phaseNames a.summary.phases)) := by
  have hfixed : fixedNames = ["check_operator_drift"] ++ ["simplify_fast"] ++
      ["simplify_very_fast", "apply_to_full_formula"] := rfl
  rw [functionNames_eq, hfixed, phaseNames, phaseFamilies, List.flatMap_cons,
    List.flatMap_singleton, List.perm_iff_count]
  intro name
  simp only [List.count_append]
  omega

theorem endsInDigit_fixedNames : ∀ name ∈ fixedNames, endsInDigit name = false := by decide

theorem isIdentifier_fixedNames : ∀ name ∈ fixedNames, isIdentifier name = true := by decide

variable {a : Artifact} {built : List PlannedRule}

theorem isIdentifier_functionNames
    (hnames : a.items.filterMap (·.functionName?) = built.map (·.functionName)) :
    ∀ name ∈ a.functionNames, isIdentifier name = true := by
  intro name hname
  rw [a.functionNames_perm.mem_iff, hnames, List.mem_append, List.mem_append] at hname
  rcases hname with hname | hname | hname
  · exact isIdentifier_fixedNames name hname
  · obtain ⟨p, -, rfl⟩ := List.mem_map.1 hname
    exact isIdentifier_functionName p
  · obtain ⟨family, hfamily, phase, -, rfl⟩ := mem_phaseNames.1 hname
    exact isIdentifier_phaseName (isNameText_phaseFamilies family hfamily) phase

/-- **When all names are different.** -/
theorem nodup_functionNames_iff
    (hnames : a.items.filterMap (·.functionName?) = built.map (·.functionName))
    (hbuilt : (built.map (·.functionName)).Nodup) (hphases : a.summary.phases.Nodup) :
    a.functionNames.Nodup ↔
    ∀ p ∈ built, ∀ family ∈ phaseFamilies, p.bucket.operator? = some family →
      (p.index : Int) ∉ a.summary.phases := by
  -- the other functions have names that do not end in a digit
  have hfixed :
      fixedNames.Disjoint (built.map (·.functionName) ++ phaseNames a.summary.phases) := by
    have hend : ∀ name ∈ built.map (·.functionName) ++ phaseNames a.summary.phases,
        endsInDigit name = true := by
      refine List.forall_mem_append.2
        ⟨List.forall_mem_map.2 fun p _ => endsInDigit_append_toString _ _, fun name hname => ?_⟩
      obtain ⟨family, -, phase, -, rfl⟩ := mem_phaseNames.1 hname
      exact endsInDigit_phaseName family phase
    intro name hmem hmem'
    cases (endsInDigit_fixedNames name hmem).symm.trans (hend name hmem')
  have hclash : (built.map (·.functionName)).Disjoint (phaseNames a.summary.phases) ↔
      ∀ p ∈ built, ∀ family ∈ phaseFamilies, p.bucket.operator? = some family →
        (p.index : Int) ∉ a.summary.phases := by
    constructor
    · intro h p hp family hfamily hoperator hphase
      have hname := (functionName_eq_phaseName_iff hfamily p p.index).2 ⟨hoperator, rfl⟩
      exact h (List.mem_map_of_mem hp)
        (mem_phaseNames.2 ⟨family, hfamily, p.index, hphase, hname.symm⟩)
    · rintro h name hrule hphase
      obtain ⟨p, hp, rfl⟩ := List.mem_map.1 hrule
      obtain ⟨family, hfamily, phase, hmem, hname⟩ := mem_phaseNames.1 hphase
      obtain ⟨hoperator, rfl⟩ := (functionName_eq_phaseName_iff hfamily p phase).1 hname.symm
      exact h p hp family hfamily hoperator hmem
  have hnodup : fixedNames.Nodup := by decide
  rw [a.functionNames_perm.nodup_iff, hnames, List.nodup_append', List.nodup_append', hclash]
  simp only [hnodup, hbuilt, nodup_phaseNames hphases, hfixed, and_true, true_and]

end Artifact

/-! ### Generated modules -/

section Generated

variable {l : Language} {config : Config} {rules additional abandon : List Rule} {plan : Plan}
  {a : Artifact}

/-- The names that depend on the rules. -/
theorem generateFrom_names
    (hplan : plan = Plan.ofRules l (markAbandoned abandon (rules ++ additional)))
    (h : generateFrom l config rules additional abandon = .ok a) :
    a.items.filterMap (·.functionName?) =
      (plan.planned.filter (·.rule.compiles config.options l)).map (·.functionName) ∧
    a.summary.phases = plan.phases := by
  obtain ⟨a', phases, ha, hp, hitems, haphases, -⟩ := generateFrom_stages config hplan
  obtain rfl : a' = a := Except.ok.inj (ha.symm.trans h)
  refine ⟨?_, ?_⟩
  · rw [filterMap_functionName?, hitems, List.filterMap_append, (views_items _ l _).2.2, hplan,
      Plan.items_ofRules, (views_comments l _).2.2, List.nil_append, List.map_map]
    rfl
  · rw [Artifact.summary, haphases, hp.phases]

theorem generateFrom_nodup_iff
    (hplan : plan = Plan.ofRules l (markAbandoned abandon (rules ++ additional)))
    (h : generateFrom l config rules additional abandon = .ok a) :
    a.functionNames.Nodup ↔
    ∀ p ∈ plan.planned, p.rule.compiles config.options l = true →
      ∀ family ∈ phaseFamilies, p.bucket.operator? = some family →
        (p.index : Int) ∉ plan.phases := by
  obtain ⟨hnames, hphases⟩ := generateFrom_names hplan h
  have hindex : plan.planned.Pairwise fun p q => p.index < q.index := by
    rw [hplan]
    exact Plan.pairwise_index l _
  have hnodup : plan.phases.Nodup := nodup_sortedSet _
  rw [Artifact.nodup_functionNames_iff hnames (nodup_functionName (hindex.filter _))
      (by rw [hphases]; exact hnodup),
    hphases]
  simp only [List.mem_filter, and_imp]

end Generated

theorem RuleSet.exists_generate (s : RuleSet) (config : Config) {additional abandon : List Rule}
    (hadditional : config.additionalRules s.language = .ok additional)
    (habandon : config.abandonedRules s.language = .ok abandon) :
    ∃ a, s.generate config = .ok a ∧
      generateFrom s.language config s.rules additional abandon = .ok a := by
  obtain ⟨a, -, ha, -⟩ := generateFrom_accounts s.language config s.rules additional abandon
  refine ⟨a, ?_, ha⟩
  rw [RuleSet.generate, hadditional, habandon]
  exact ha

/-- **The names of generated functions.** Each item of the module is a comment or defines a
function, all names are identifiers whatever the operators are called, and two functions have one
name if and only if a compiled rule for an operator with the name `rules_phase` or `fused_phase` has
a phase as its number. -/
theorem generated_names {s : RuleSet} {config : Config} {a : Artifact}
    (h : s.generate config = .ok a) :
    List.Forall₂ ItemDefines a.moduleItems a.definitions ∧
    (∀ name ∈ a.functionNames, isIdentifier name = true) ∧
    ∃ additional abandon plan, config.additionalRules s.language = .ok additional ∧
      config.abandonedRules s.language = .ok abandon ∧
      plan = Plan.ofRules s.language (markAbandoned abandon (s.rules ++ additional)) ∧
      (a.functionNames.Nodup ↔
        ∀ p ∈ plan.planned, p.rule.compiles config.options s.language = true →
          ∀ family ∈ phaseFamilies, p.bucket.operator? = some family →
            (p.index : Int) ∉ plan.phases) := by
  obtain ⟨additional, abandon, hadditional, habandon, hgenerate⟩ := RuleSet.exists_of_generate h
  refine ⟨a.moduleItems_define, ?_, additional, abandon, _, hadditional, habandon, rfl,
    generateFrom_nodup_iff rfl hgenerate⟩
  exact Artifact.isIdentifier_functionNames (generateFrom_names rfl hgenerate).1

/-- The rule `(rules_phase $0) ==> $0` of a phase. -/
def RuleSet.onRulesPhase (phase : Int) : RuleSet :=
  ⟨Language.empty.addOperator "rules_phase" [1] (some "_r"),
    [⟨.app 0 [.metavar 0], .metavar 0, [], .noCheck, phase, false⟩]⟩

/-- In phase 1 the function of the rule, whose number is 0, has a name of its own. -/
theorem generated_names_apart :
    ∃ a, (RuleSet.onRulesPhase 1).generate .default = .ok a ∧ a.functionNames.Nodup ∧
      a.functionNames =
        ["check_operator_drift", "apply_rules_phase_0", "apply_rules_phase_1", "simplify_fast",
          "apply_fused_phase_1", "simplify_very_fast", "apply_to_full_formula"] := by
  obtain ⟨a, h, ha⟩ := (RuleSet.onRulesPhase 1).exists_generate .default rfl rfl
  obtain ⟨-, -, additional, abandon, plan, hadditional, habandon, rfl, hnodup⟩ := generated_names h
  obtain rfl : [] = additional := Except.ok.inj hadditional
  obtain rfl : [] = abandon := Except.ok.inj habandon
  obtain ⟨hnames, hphases⟩ := generateFrom_names rfl ha
  refine ⟨a, h, hnodup.2 (by decide +kernel), ?_⟩
  rw [Artifact.functionNames_eq, hnames, hphases]
  decide +kernel

/-- In phase 0 it has the name of the dispatch function. -/
theorem generated_names_clash :
    ∃ a, (RuleSet.onRulesPhase 0).generate .default = .ok a ∧ ¬ a.functionNames.Nodup ∧
      a.functionNames =
        ["check_operator_drift", "apply_rules_phase_0", "apply_rules_phase_0", "simplify_fast",
          "apply_fused_phase_0", "simplify_very_fast", "apply_to_full_formula"] := by
  obtain ⟨a, h, ha⟩ := (RuleSet.onRulesPhase 0).exists_generate .default rfl rfl
  obtain ⟨hnames, hphases⟩ := generateFrom_names rfl ha
  have heq : a.functionNames =
      ["check_operator_drift", "apply_rules_phase_0", "apply_rules_phase_0", "simplify_fast",
        "apply_fused_phase_0", "simplify_very_fast", "apply_to_full_formula"] := by
    rw [Artifact.functionNames_eq, hnames, hphases]
    decide +kernel
  exact ⟨a, h, by rw [heq]; decide, heq⟩

end Rulewright
