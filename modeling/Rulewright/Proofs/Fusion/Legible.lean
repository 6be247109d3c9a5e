import Rulewright.Proofs.Fusion.Redundancy
import Rulewright.Proofs.Guard.Text

/-!
# Texts of definitions

Eliminating redundancy compares nodes by their texts. The text of a definition tells the trail that
it binds, as a new temporary or by an assignment. It differs from the texts of guards that are not
free, of declarations and of returns.

* `IsForeign`: a text that no definition has.
* `StartsApart`, `Guard.startsApart`: texts of guards are told from those of definitions by how they
  start.
* `NodeKind.Legible`, `Legible.binds`: nodes with the text of a definition bind its trail.
-/

namespace Rulewright

open Decimal

namespace NodeKind

theorem toList_declares (target : Trail) (binding : Binding) :
    ∃ rest,
      (definition target binding true).content.toList =
        "let ".toList ++ (target.temporary.toList ++ ':' :: rest) :=
  ⟨" TermPtr = ".toList ++ (binding.text.toList ++ ";".toList), by
    simp only [content, String.toList_append, List.append_assoc]
    rfl⟩

theorem toList_assigns (target : Trail) (binding : Binding) :
    ∃ rest,
      (definition target binding false).content.toList =
        target.temporary.toList ++ ' ' :: rest :=
  ⟨"= ".toList ++ (binding.text.toList ++ ";".toList), by
    simp only [content, String.toList_append, List.append_assoc]
    rfl⟩

end NodeKind

/-- No definition has the text. -/
def IsForeign (text : String) : Prop :=
  ∀ target binding declares, text ≠ (NodeKind.definition target binding declares).content

namespace IsForeign

open NodeKind

variable {text : String}

theorem of_head {c : Char} {rest : List Char} (h : text.toList = c :: rest) (hlet : c ≠ 'l')
    (hmark : c ≠ '@') : IsForeign text := by
  intro target binding declares heq
  rw [heq] at h
  cases declares with
  | true =>
    obtain ⟨rest', hrest⟩ := toList_declares target binding
    rw [hrest] at h
    exact hlet (List.cons.inj h).1.symm
  | false =>
    obtain ⟨rest', hrest⟩ := toList_assigns target binding
    rw [hrest, Trail.toList_temporary] at h
    exact hmark (List.cons.inj h).1.symm

/-- A temporary that something is asked of is not assigned. -/
theorem of_temporary {t : Trail} {rest : List Char}
    (h : text.toList = t.temporary.toList ++ '.' :: rest) : IsForeign text := by
  intro target binding declares heq
  rw [heq] at h
  cases declares with
  | true =>
    obtain ⟨rest', hrest⟩ := toList_declares target binding
    rw [hrest, Trail.toList_temporary t] at h
    cases (List.cons.inj h).1
  | false =>
    obtain ⟨rest', hrest⟩ := toList_assigns target binding
    rw [hrest] at h
    have hafter :=
      (Trail.temporary_append_inj (stops_cons (by decide) _) (stops_cons (by decide) _) h).2
    cases (List.cons.inj hafter).1

theorem empty : IsForeign "" := by
  intro target binding declares heq
  have hlist := congrArg String.toList heq
  cases declares with
  | true =>
    obtain ⟨rest', hrest⟩ := toList_declares target binding
    rw [hrest] at hlist
    cases hlist
  | false =>
    obtain ⟨rest', hrest⟩ := toList_assigns target binding
    rw [hrest, Trail.toList_temporary] at hlist
    cases hlist

end IsForeign

/-- The text asks something of a temporary, starts otherwise than definitions and declarations do,
or is empty. -/
inductive StartsApart (text : String) : Prop where
  | temporary {t : Trail} {rest : List Char} (h : text.toList = t.temporary.toList ++ '.' :: rest)
  | other {c : Char} {rest : List Char} (h : text.toList = c :: rest) (hlet : c ≠ 'l')
      (hmark : c ≠ '@')
  | nothing (h : text = "")

namespace StartsApart

variable {text : String}

theorem isForeign (h : StartsApart text) : IsForeign text := by
  cases h with
  | temporary h => exact .of_temporary h
  | other h hlet hmark => exact .of_head h hlet hmark
  | nothing h => exact h ▸ .empty

theorem head_ne (h : StartsApart text) : text.toList.head? ≠ some 'l' := by
  cases h with
  | temporary h => simp [h, Trail.toList_temporary]
  | other h hlet hmark => simpa [h] using hlet
  | nothing h => simp [h]

end StartsApart

theorem Side.startsApart (s : Side) (rest : String) : StartsApart (s.text ++ rest) := by
  cases s with
  | number n =>
    obtain ⟨c, digits, h⟩ := List.exists_cons_of_ne_nil (Nat.toDigits_ne_nil (b := 10) (n := n))
    have hdigit : c.isDigit = true := isDigit_toDigits (by rw [h]; exact List.mem_cons_self)
    have hne : ∀ d : Char, d.isDigit = false → c ≠ d :=
      fun d hd heq => by rw [heq, hd] at hdigit; cases hdigit
    have hlist : ((number n).text ++ rest).toList = c :: (digits ++ rest.toList) := by
      rw [text, String.toList_append, Nat.toString_eq_ofList_toDigits, String.toList_ofList, h,
        List.cons_append]
    exact .other hlist (hne _ (by decide)) (hne _ (by decide))
  | operatorName name =>
    exact .other (c := '\"')
      (by rw [text, Text.quoted, String.toList_append, String.toList_ofList]; rfl) (by decide)
      (by decide)
  | irregular =>
    exact .other (c := '(') (by rw [text, String.toList_append]; rfl) (by decide) (by decide)
  | operatorOf t | operandCountOf t | isValueOf t | valueOf t =>
    exact .temporary (t := t) (by simp only [text, String.toList_append, List.append_assoc]; rfl)

/-- The first of joined texts starts them, whether or not others follow. -/
theorem exists_intercalate_cons (separator text : String) (rest : List String) :
    ∃ more, separator.intercalate (text :: rest) = text ++ more := by
  cases rest with
  | nil => exact ⟨"", by simp⟩
  | cons next rest => exact ⟨_, by rw [String.intercalate_cons_cons, String.append_assoc]⟩

theorem Guard.startsApart {g : Guard} (h : g.isFree = false) : StartsApart g.text := by
  cases g with
  | equality left right =>
    rw [text, String.append_assoc]
    exact left.startsApart _
  | value t literal | overloaded t operator count =>
    exact .temporary (t := t) (by simp only [text, String.toList_append, List.append_assoc]; rfl)
  | anyway comparison =>
    exact .temporary (t := comparison.countAt)
      (by simp only [text, AnywayComparison.text, String.toList_append, List.append_assoc]; rfl)
  | structurallyEqual pairs =>
    cases pairs with
    | nil => exact .nothing rfl
    | cons p rest =>
      obtain ⟨more, hmore⟩ := exists_intercalate_cons " && " (pairText p) (rest.map pairText)
      rw [text, List.map_cons, hmore]
      exact .temporary (t := p.1)
        (by simp only [pairText, String.toList_append, List.append_assoc]; rfl)
  | free text => cases h
  | irregular => exact .other (c := 'f') rfl (by decide) (by decide)

/-- **The text of a guard** that is not free is not that of a definition. -/
theorem Guard.isForeign {g : Guard} (h : g.isFree = false) : IsForeign g.text :=
  (g.startsApart h).isForeign

namespace NodeKind

/-- A node with the text of a definition is a definition of the same trail. -/
def Legible (k : NodeKind) : Prop :=
  ∀ target binding declares, k.content = (definition target binding declares).content →
    ∃ binding' declares', k = .definition target binding' declares'

theorem legible_of_isForeign {k : NodeKind} (h : IsForeign k.content) : k.Legible :=
  fun target binding declares heq => absurd heq (h target binding declares)

theorem legible_definition (target : Trail) (binding : Binding) (declares : Bool) :
    (definition target binding declares).Legible := by
  intro target' binding' declares' heq
  have hlist := congrArg String.toList heq
  obtain ⟨x, hx⟩ := toList_declares target binding
  obtain ⟨y, hy⟩ := toList_declares target' binding'
  obtain ⟨u, hu⟩ := toList_assigns target binding
  obtain ⟨w, hw⟩ := toList_assigns target' binding'
  have hsame : target = target' := by
    cases declares <;> cases declares'
    · rw [hu, hw] at hlist
      exact (Trail.temporary_append_inj (stops_cons (by decide) _) (stops_cons (by decide) _)
        hlist).1
    · rw [hu, hy, Trail.toList_temporary target] at hlist
      cases (List.cons.inj hlist).1
    · rw [hx, hw, Trail.toList_temporary target'] at hlist
      cases (List.cons.inj hlist).1
    · rw [hx, hy] at hlist
      exact (Trail.temporary_append_inj (stops_cons (by decide) _) (stops_cons (by decide) _)
        (List.append_cancel_left hlist)).1
  exact ⟨binding, declares, by rw [hsame]⟩

theorem legible_declaration (target : Trail) : (declaration target).Legible := by
  refine legible_of_isForeign fun target' binding declares heq => ?_
  have hlist := congrArg String.toList heq
  have hmut : (declaration target).content.toList =
      "let ".toList ++ ('m' :: ("ut ".toList ++ (target.temporary ++ ": TermPtr;").toList)) := by
    simp only [content, String.toList_append, List.append_assoc]
    rfl
  cases declares with
  | true =>
    obtain ⟨rest, hrest⟩ := toList_declares target' binding
    rw [hmut, hrest, Trail.toList_temporary] at hlist
    cases (List.cons.inj (List.append_cancel_left hlist)).1
  | false =>
    obtain ⟨rest, hrest⟩ := toList_assigns target' binding
    rw [hmut, hrest, Trail.toList_temporary] at hlist
    cases (List.cons.inj hlist).1

theorem legible_ret (value : Bool) : (ret value).Legible := by
  cases value <;> exact legible_of_isForeign (.of_head (c := 'r') rfl (by decide) (by decide))

theorem assigned_eq_definition {k : NodeKind} {target : Trail} {binding : Binding} {declares : Bool}
    (h : k.assigned = (definition target binding declares).assigned) :
    ∃ declares', k = .definition target binding declares' := by
  cases k with
  | definition target' binding' declares' =>
    cases h
    exact ⟨declares', rfl⟩
  | _ => cases h

/-- **Texts tell the trails that are bound**, whether definitions have become assignments or not. -/
theorem Legible.binds {k a b : NodeKind} (h : k.Legible) (ha : a.assigned = k.assigned)
    {target : Trail} {binding : Binding} {declares : Bool}
    (hb : b.assigned = (definition target binding declares).assigned)
    (heq : a.content = b.content) :
    ∃ binding' declares', k = .definition target binding' declares' := by
  obtain ⟨d, rfl⟩ := assigned_eq_definition hb
  cases k with
  | definition target' binding' declares' =>
    obtain ⟨d', rfl⟩ := assigned_eq_definition ha
    obtain ⟨binding'', d'', hsame⟩ := legible_definition target' binding' d' target binding d heq
    cases hsame
    exact ⟨binding', declares', rfl⟩
  | _ =>
    cases a <;> cases ha
    exact h target binding d heq

end NodeKind

end Rulewright
