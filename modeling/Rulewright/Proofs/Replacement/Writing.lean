import Rulewright.Proofs.Chain.Conditions
import Rulewright.Proofs.Chain.Pattern

/-!
# What is written for a term

Writing a term goes through it from left to right and keeps the metavariables that it has used. What
comes out is described once, as an induction over everything that writing can give, and what is
known of constructions follows from it. A construction uses the temporaries of the first nodes of
metavariables and of groups and no others, and calls constructors that the language declares.

* `Scope.write_induct`: what holds of the parts of a construction as they are written holds of the
  whole.
* `Construction.Within`: the temporaries that a construction uses are among the given ones.
* `Scope.write_within`: those of a written construction are first nodes of metavariables and groups.
* `exists_calls`: the conditions of a rule are calls of its checks on constructions.
-/

namespace Rulewright

namespace Scope

section Induct

variable {s : Scope} {P : Expr → List MetaId → Construction → List MetaId → Prop}
  {Q : List Expr → List MetaId → List Construction → List MetaId → Prop}

theorem Writer.bind_ok {α β : Type} {x : Writer α} {f : α → Writer β} {b : β}
    {used used' : List MetaId} (h : (x >>= f) used = .ok b used') :
    ∃ a used1, x used = .ok a used1 ∧ f a used1 = .ok b used' := by
  change EStateM.bind x f used = _ at h
  unfold EStateM.bind at h
  split at h
  · exact ⟨_, _, by assumption, h⟩
  · cases h

/-- **Induction over what is written.** A metavariable that is not used yet is used as it is, and
copied otherwise. -/
theorem write_induct
    (first : ∀ id t used, s.metas.firstTrail? id = some t → id ∉ used →
      P (.metavar id) used (.matched t false) (id :: used))
    (again : ∀ id t used, s.metas.firstTrail? id = some t → id ∈ used →
      P (.metavar id) used (.matched t true) used)
    (var : ∀ name used, P (.var name) used (.newVariable name) used)
    (literal : ∀ value used, P (.literal value) used (.newValue value.double) used)
    (compound : ∀ inner used k used', P inner used k used' → P (.compound inner) used k used')
    (folded : ∀ symbol operands n used, s.folded? (.app symbol operands) = some n →
      P (.app symbol operands) used (.newValue (Literal.int n).double) used)
    (app : ∀ symbol operands constructor used ks used', s.folded? (.app symbol operands) = none →
      s.language.constructor? (s.language.name symbol) = some constructor →
      Q operands used ks used' → P (.app symbol operands) used (.call constructor ks) used')
    (anyway : ∀ group operands t used ks used', s.groups.firstTrail? group = some t →
      Q operands used ks used' → P (.anyway group operands) used (.sameOperator t ks) used')
    (nil : ∀ used, Q [] used [] used)
    (cons : ∀ e rest used k used1 ks used', P e used k used1 → Q rest used1 ks used' →
      Q (e :: rest) used (k :: ks) used') :
    (∀ e used k used', s.write e used = .ok k used' → P e used k used') ∧
    ∀ es used ks used', s.writeAll es used = .ok ks used' → Q es used ks used' := by
  apply Expr.induct
  case metavar =>
    intro id used k used' h
    rw [write, useMeta] at h
    cases ht : s.metas.firstTrail? id with
    | none => rw [ht] at h; cases h
    | some t =>
      rw [ht] at h
      change (if id ∈ used then pure _ else set _ >>= fun _ => pure _ : Writer Construction) used =
        _ at h
      -- used before: the matched term is copied
      split_ifs at h with hused
      · cases h
        exact again id t used ht hused
      · cases h
        exact first id t used ht hused
  case var =>
    intro name used k used' h
    cases h
    exact var name used
  case literal =>
    intro value used k used' h
    cases h
    exact literal value used
  case app =>
    intro symbol operands ih used k used' h
    rw [write] at h
    cases hn : s.folded? (.app symbol operands) with
    -- a constant is written as its value
    | some n =>
      rw [hn] at h
      cases h
      exact folded symbol operands n used hn
    | none =>
      rw [hn] at h
      dsimp only at h
      cases hc : s.language.constructor? (s.language.name symbol) with
      | none => rw [hc] at h; cases h
      | some constructor =>
        rw [hc] at h
        obtain ⟨ks, used1, hks, h⟩ := Writer.bind_ok h
        cases h
        exact app symbol operands constructor used ks used' hn hc (ih used ks used' hks)
  case compound =>
    intro inner ih used k used' h
    exact compound inner used k used' (ih used k used' h)
  case optional =>
    intro pattern default _ _ used k used' h
    cases h
  case anyway =>
    intro group operands ih used k used' h
    rw [write] at h
    cases ht : s.groups.firstTrail? group with
    | none => rw [ht] at h; cases h
    | some t =>
      rw [ht] at h
      obtain ⟨ks, used1, hks, h⟩ := Writer.bind_ok h
      cases h
      exact anyway group operands t used ks used' ht (ih used ks used' hks)
  case nil =>
    intro used ks used' h
    cases h
    exact nil used
  case cons =>
    intro e rest he hrest used ks used' h
    rw [writeAll] at h
    obtain ⟨k, used1, hk, h⟩ := Writer.bind_ok h
    obtain ⟨others, used2, hothers, h⟩ := Writer.bind_ok h
    cases h
    exact cons e rest used k used1 others used' (he used k used1 hk)
      (hrest used1 others used' hothers)

end Induct

/-- The code of a term is the text of what is written for it. -/
theorem exists_of_code {s : Scope} {e : Expr} {text : String} {used : List MetaId}
    (h : (s.code e used).1 = .ok text) :
    ∃ k used', s.write e used = .ok k used' ∧ text = k.text := by
  unfold code at h
  split at h
  · rename_i k used' hk
    cases h
    exact ⟨k, used', hk, rfl⟩
  · cases h

end Scope

/-! ### The temporaries of constructions -/

namespace Construction

mutual

/-- The temporaries that the construction uses are those of trails with the property, and the
constructors that it calls are declared. -/
def Within (l : Language) (S : Trail → Prop) : Construction → Prop
  | .matched trail _ => S trail
  | .newVariable _ | .newValue _ => True
  | .call constructor operands =>
    (∃ name, l.constructor? name = some constructor) ∧ AllWithin l S operands
  | .sameOperator trail operands => S trail ∧ AllWithin l S operands

def AllWithin (l : Language) (S : Trail → Prop) : List Construction → Prop
  | [] => True
  | k :: rest => k.Within l S ∧ AllWithin l S rest

end

mutual

theorem Within.mono {l : Language} {S S' : Trail → Prop} (hS : ∀ t, S t → S' t) :
    ∀ k : Construction, k.Within l S → k.Within l S'
  | .matched trail _, h => hS trail h
  | .newVariable _, _ | .newValue _, _ => trivial
  | .call _ operands, h => ⟨h.1, AllWithin.mono hS operands h.2⟩
  | .sameOperator trail operands, h => ⟨hS trail h.1, AllWithin.mono hS operands h.2⟩

theorem AllWithin.mono {l : Language} {S S' : Trail → Prop} (hS : ∀ t, S t → S' t) :
    ∀ ks : List Construction, AllWithin l S ks → AllWithin l S' ks
  | [], _ => trivial
  | k :: rest, h => ⟨Within.mono hS k h.1, AllWithin.mono hS rest h.2⟩

end

end Construction

/-- The trails that a scope gives to metavariables and to groups have the property. -/
structure Scope.Lies (s : Scope) (S : Trail → Prop) : Prop where
  metas : ∀ id t, s.metas.firstTrail? id = some t → S t
  groups : ∀ group t, s.groups.firstTrail? group = some t → S t

/-- **A written construction** uses the temporaries of its scope only. -/
theorem Scope.write_within {s : Scope} {S : Trail → Prop} (hs : s.Lies S) {e : Expr}
    {used used' : List MetaId} {k : Construction} (h : s.write e used = .ok k used') :
    k.Within s.language S := by
  refine (write_induct (s := s) (P := fun _ _ k _ => k.Within s.language S)
    (Q := fun _ _ ks _ => Construction.AllWithin s.language S ks)
    (fun id t _ ht _ => hs.metas id t ht) (fun id t _ ht _ => hs.metas id t ht) ?var ?literal
    (fun _ _ _ _ h => h) ?folded ?app ?anyway ?nil ?cons).1 e used k used' h
  case var => exact fun _ _ => trivial
  case literal => exact fun _ _ => trivial
  case folded => exact fun _ _ _ _ _ => trivial
  case app => exact fun symbol _ constructor _ _ _ _ hc hks => ⟨⟨s.language.name symbol, hc⟩, hks⟩
  case anyway => exact fun group _ t _ _ _ ht hks => ⟨hs.groups group t ht, hks⟩
  case nil => exact fun _ => trivial
  case cons => exact fun _ _ _ _ _ _ _ hk hks => ⟨hk, hks⟩

/-- A term without metavariables is built without temporaries. -/
theorem exists_of_groundCode {l : Language} {e : Expr} {text : String}
    (h : e.groundCode l = .ok text) :
    ∃ k : Construction, text = k.text ∧ k.Within l fun _ => False := by
  obtain ⟨k, used, hk, htext⟩ := Scope.exists_of_code h
  have hlies : (Scope.ground l).Lies fun _ => False :=
    ⟨fun id t ht => (by cases ht), fun group t ht => (by cases ht)⟩
  exact ⟨k, htext, Scope.write_within hlies hk⟩

/-! ### Conditions -/

/-- A check of the term that a construction builds. -/
structure CheckCall where
  check : CheckName
  subject : Construction

def CheckCall.text (c : CheckCall) : String :=
  "conditions::" ++ c.check.text ++ "(&" ++ c.subject.text ++ ")"

/-- The checks that a rule calls, in order, the global one last. -/
def Rule.checks (r : Rule) : List CheckName :=
  (r.conditions.map (·.check) ++ [r.global]).filter (!·.isNoCheck)

namespace Matcher

theorem exists_call {s : Scope} {S : Trail → Prop} (hs : s.Lies S) {k : Condition}
    {text : Option String} (h : conditionCode s k = .ok text) :
    ∃ calls : List CheckCall, calls.map (·.check) = [k.check].filter (!·.isNoCheck) ∧
      text.toList = calls.map CheckCall.text ∧ ∀ c ∈ calls, c.subject.Within s.language S := by
  unfold conditionCode at h
  split_ifs at h with hcheck
  · cases h
    exact ⟨[], by simp [hcheck], rfl, List.forall_mem_nil _⟩
  · split at h
    · rename_i code hcode
      cases h
      obtain ⟨x, used, hx, rfl⟩ := Scope.exists_of_code hcode
      exact ⟨[⟨k.check, x⟩], by simp [hcheck], rfl,
        List.forall_mem_singleton.2 (Scope.write_within hs hx)⟩
    · cases h

theorem exists_calls_of_forall₂ {s : Scope} {S : Trail → Prop} (hs : s.Lies S) {ks : List Condition}
    {texts : List (Option String)}
    (h : List.Forall₂ (fun k text => conditionCode s k = .ok text) ks texts) :
    ∃ calls : List CheckCall, calls.map (·.check) = (ks.map (·.check)).filter (!·.isNoCheck) ∧
      texts.filterMap id = calls.map CheckCall.text ∧
      ∀ c ∈ calls, c.subject.Within s.language S := by
  induction h with
  | nil => exact ⟨[], rfl, rfl, List.forall_mem_nil _⟩
  | @cons k text ks texts hk _ ih =>
    obtain ⟨calls, hchecks, htexts, hwithin⟩ := exists_call hs hk
    obtain ⟨calls', hchecks', htexts', hwithin'⟩ := ih
    refine ⟨calls ++ calls', ?_, ?_, List.forall_mem_append.2 ⟨hwithin, hwithin'⟩⟩
    · rw [List.map_append, hchecks, hchecks', ← List.filter_append]
      rfl
    · have hhead : (text :: texts).filterMap id = text.toList ++ texts.filterMap id := by
        cases text <;> rfl
      rw [hhead, htexts, htexts', List.map_append]

/-- **The conditions of a rule** are calls of its checks, on constructions in its scope. The global
one is on the matched term. -/
theorem exists_calls {s : Scope} {S : Trail → Prop} (hs : s.Lies S) (hroot : S Trail.root)
    {r : Rule} {texts : List String} (h : conditionCodes s r = .ok texts) :
    ∃ calls : List CheckCall, calls.map (·.check) = r.checks ∧ texts = calls.map CheckCall.text ∧
      ∀ c ∈ calls, c.subject.Within s.language S := by
  obtain ⟨codes, hcodes, rfl⟩ := exists_of_conditionCodes_ok h
  obtain ⟨calls, hchecks, htexts, hwithin⟩ := exists_calls_of_forall₂ hs hcodes
  unfold Rule.checks globalCode
  rw [List.filter_append, ← hchecks, htexts]
  split_ifs with hglobal
  · exact ⟨calls, by simp [hglobal], by simp, hwithin⟩
  · have hsubject : (Construction.matched Trail.root false).Within s.language S := hroot
    refine ⟨calls ++ [⟨r.global, .matched Trail.root false⟩], by simp [hglobal], ?_,
      List.forall_mem_append.2 ⟨hwithin, List.forall_mem_singleton.2 hsubject⟩⟩
    rw [List.map_append]
    rfl

end Matcher

end Rulewright
