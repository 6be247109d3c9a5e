import Rulewright.Proofs.Text.Readable

/-!
# Replacing in texts

What replacing does to a text is told part by part. No occurrence starts in a part without its first
character, and none goes over a character that it does not have. A part without occurrences stays as
it is, and one with occurrences gets shorter if what is put for them is shorter.

* `replaceFrom_append_cons`: parts with such a character between them are replaced one by one.
* `infix_escape_iff`: a plain word occurs in an escaped text where it does in the text.
-/

namespace Rulewright.Text

variable {old new : List Char}

theorem replaceFrom_of_isPrefixOf {c : Char} {cs : List Char} (h : old <+: c :: cs) :
    replaceFrom old new 0 (c :: cs) = new ++ replaceFrom old new (old.length - 1) cs :=
  if_pos (List.isPrefixOf_iff_prefix.2 h)

theorem replaceFrom_of_not_isPrefixOf {c : Char} {cs : List Char} (h : ¬ old <+: c :: cs) :
    replaceFrom old new 0 (c :: cs) = c :: replaceFrom old new 0 cs :=
  if_neg fun hprefix => h (List.isPrefixOf_iff_prefix.1 hprefix)

theorem replaceFrom_skip (xs ys : List Char) :
    replaceFrom old new xs.length (xs ++ ys) = replaceFrom old new 0 ys := by
  induction xs with
  | nil => rfl
  | cons c xs ih => exact ih

/-- An occurrence that stands first is replaced. -/
theorem replaceFrom_append_self (h : old ≠ []) (ys : List Char) :
    replaceFrom old new 0 (old ++ ys) = new ++ replaceFrom old new 0 ys := by
  obtain ⟨c, rest, rfl⟩ := List.exists_cons_of_ne_nil h
  refine (replaceFrom_of_isPrefixOf (List.prefix_append (c :: rest) ys)).trans ?_
  exact congrArg (new ++ ·) (replaceFrom_skip rest ys)

/-- No occurrence starts in a text without its first character. -/
theorem replaceFrom_append_of_notMem {c : Char} {rest xs : List Char} (h : c ∉ xs)
    (ys : List Char) :
    replaceFrom (c :: rest) new 0 (xs ++ ys) = xs ++ replaceFrom (c :: rest) new 0 ys := by
  induction xs with
  | nil => rfl
  | cons x xs ih =>
    obtain ⟨hx, hxs⟩ := not_or.1 fun hmem => h (List.mem_cons.2 hmem)
    rw [List.cons_append, replaceFrom_of_not_isPrefixOf fun h => hx (List.cons_prefix_cons.1 h).1,
      ih hxs, List.cons_append]

/-- No occurrence goes over a character that it does not have. -/
theorem replaceFrom_append_cons (hne : old ≠ []) {c : Char} (hc : c ∉ old) (xs ys : List Char) :
    replaceFrom old new 0 (xs ++ c :: ys) =
      replaceFrom old new 0 xs ++ c :: replaceFrom old new 0 ys := by
  have hlength : 0 < old.length := List.length_pos_of_ne_nil hne
  -- an occurrence at the start of the whole text is one of the first part
  have hwithin : ∀ zs : List Char, old <+: zs ++ c :: ys → old <+: zs := by
    intro zs hprefix
    refine List.prefix_of_prefix_length_le hprefix (List.prefix_append zs _) ?_
    by_contra hlong
    have hget := hprefix.getElem (i := zs.length) (by omega)
    rw [List.getElem_append_right (le_refl _)] at hget
    simp only [Nat.sub_self, List.getElem_cons_zero] at hget
    exact hc (hget ▸ List.getElem_mem _)
  have hskip : ∀ (zs : List Char) (n : Nat), n ≤ zs.length → replaceFrom old new n (zs ++ c :: ys) =
      replaceFrom old new n zs ++ c :: replaceFrom old new 0 ys := by
    intro zs
    induction zs with
    | nil =>
      intro n hn
      obtain rfl := Nat.le_zero.1 hn
      exact replaceFrom_of_not_isPrefixOf fun h => hne (List.prefix_nil.1 (hwithin [] h))
    | cons z zs ih =>
      intro n hn
      cases n with
      | succ n => exact ih n (Nat.le_of_succ_le_succ hn)
      | zero =>
        rw [List.cons_append]
        by_cases hprefix : old <+: z :: zs
        · have hwhole : old <+: z :: (zs ++ c :: ys) :=
            hprefix.trans (List.prefix_append (z :: zs) (c :: ys))
          have hshort : old.length - 1 ≤ zs.length := by
            have := hprefix.length_le
            rw [List.length_cons] at this
            omega
          rw [replaceFrom_of_isPrefixOf hwhole, replaceFrom_of_isPrefixOf hprefix, ih _ hshort,
            List.append_assoc]
        · have hwhole : ¬ old <+: z :: (zs ++ c :: ys) := fun h => hprefix (hwithin (z :: zs) h)
          rw [replaceFrom_of_not_isPrefixOf hwhole, replaceFrom_of_not_isPrefixOf hprefix,
            ih 0 (Nat.zero_le _), List.cons_append]
  exact hskip xs 0 (Nat.zero_le _)

/-- A text without an occurrence stays as it is. -/
theorem replaceFrom_of_not_infix {xs : List Char} (h : ¬ old <:+: xs) :
    replaceFrom old new 0 xs = xs := by
  induction xs with
  | nil => rfl
  | cons x xs ih =>
    rw [replaceFrom_of_not_isPrefixOf fun hprefix => h hprefix.isInfix,
      ih fun hinfix => h (List.infix_cons hinfix)]

theorem length_replaceFrom_le (hlt : new.length < old.length) (xs : List Char) (n : Nat)
    (hn : n ≤ xs.length) : (replaceFrom old new n xs).length + n ≤ xs.length := by
  induction xs generalizing n with
  | nil =>
    obtain rfl := Nat.le_zero.1 hn
    exact le_refl _
  | cons x xs ih =>
    rw [List.length_cons] at hn ⊢
    cases n with
    | succ n => exact Nat.succ_le_succ (ih n (Nat.le_of_succ_le_succ hn))
    | zero =>
      by_cases hprefix : old <+: x :: xs
      · have hshort := hprefix.length_le
        rw [List.length_cons] at hshort
        have hrest := ih (old.length - 1) (by omega)
        rw [replaceFrom_of_isPrefixOf hprefix, List.length_append]
        omega
      · rw [replaceFrom_of_not_isPrefixOf hprefix]
        exact Nat.succ_le_succ (ih 0 (Nat.zero_le _))

/-- A text with an occurrence gets shorter, if what is put for it is shorter. -/
theorem length_replaceFrom_lt (hlt : new.length < old.length) {xs : List Char} (h : old <:+: xs) :
    (replaceFrom old new 0 xs).length < xs.length := by
  induction xs with
  | nil =>
    rw [List.infix_nil.1 h] at hlt
    cases hlt
  | cons x xs ih =>
    by_cases hprefix : old <+: x :: xs
    · have hshort := hprefix.length_le
      rw [List.length_cons] at hshort
      have hrest := length_replaceFrom_le hlt xs (old.length - 1) (by omega)
      rw [replaceFrom_of_isPrefixOf hprefix, List.length_append, List.length_cons]
      omega
    · rw [replaceFrom_of_not_isPrefixOf hprefix]
      exact Nat.succ_lt_succ (ih ((List.infix_cons_iff.1 h).resolve_left hprefix))

/-! ### Escaped texts -/

theorem infix_of_append_of_notMem {c : Char} {rest xs ys : List Char} (hc : c ∉ xs)
    (h : c :: rest <:+: xs ++ ys) : c :: rest <:+: ys := by
  induction xs with
  | nil => exact h
  | cons x xs ih =>
    obtain ⟨hx, hxs⟩ := not_or.1 fun hmem => hc (List.mem_cons.2 hmem)
    exact ih hxs ((List.infix_cons_iff.1 h).resolve_left fun h => hx (List.cons_prefix_cons.1 h).1)

/-- A word at the start of an escaped text is at the start of the text. -/
theorem prefix_of_prefix_escape {word cs : List Char} (hword : '\\' ∉ word)
    (h : word <+: cs.flatMap escapeChar) : word <+: cs := by
  induction word generalizing cs with
  | nil => exact List.nil_prefix
  | cons w ws ih =>
    obtain ⟨hw, hws⟩ := not_or.1 fun hmem => hword (List.mem_cons.2 hmem)
    cases cs with
    | nil => exact h
    | cons c cs =>
      rw [List.flatMap_cons] at h
      rcases escapeChar_cases c with ⟨hself, -, -⟩ | ⟨k, hletter, -, -⟩ | hcode
      · rw [hself] at h
        obtain ⟨rfl, hrest⟩ := List.cons_prefix_cons.1 h
        exact List.cons_prefix_cons.2 ⟨rfl, ih hws hrest⟩
      · rw [hletter] at h
        exact absurd (List.cons_prefix_cons.1 h).1.symm hw
      · rw [hcode] at h
        exact absurd (List.cons_prefix_cons.1 h).1.symm hw

/-- A word that is not escaped, and starts with a character that no escaped one is written with,
occurs in an escaped text where it does in the text. -/
theorem infix_escape_iff {c : Char} {rest : List Char} (hword : '\\' ∉ c :: rest)
    (hplain : (c :: rest).flatMap escapeChar = c :: rest)
    (hfirst : ∀ d, escapeChar d ≠ [d] → c ∉ escapeChar d) (cs : List Char) :
    c :: rest <:+: cs.flatMap escapeChar ↔ c :: rest <:+: cs := by
  constructor
  · intro h
    induction cs with
    | nil => exact h
    | cons d ds ih =>
      by_cases hself : escapeChar d = [d]
      · rw [List.flatMap_cons, hself] at h
        rcases List.infix_cons_iff.1 h with hstart | hlater
        · refine (prefix_of_prefix_escape hword ?_).isInfix
          rwa [List.flatMap_cons, hself]
        · exact List.infix_cons (ih hlater)
      · exact List.infix_cons (ih (infix_of_append_of_notMem (hfirst d hself) h))
  · rintro ⟨before, after, rfl⟩
    rw [List.flatMap_append, List.flatMap_append, hplain]
    exact ⟨_, _, rfl⟩

end Rulewright.Text
