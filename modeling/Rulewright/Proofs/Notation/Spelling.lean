import Rulewright.Proofs.Matching.Correct
import Rulewright.Proofs.Notation.RoundTrip

/-!
# What terms that were read are like

The names of a term that was read are words, and its numbers are in range. So the term is read back
from its notation but for two accidents. A number that ends at `$` is a name, and a variable of this
name is written like the number. The name of a special head is a symbol where it stands alone, and
is written like the head then.

* `Token.IsSound`: the words in tokens; `Token.isSound_scan`: scanned tokens are sound.
* `Form.tokens_of_ofTokens?`: a form has the tokens that it was put together from.
* `Expr.IsStorable`: neither of the accidents; `Language.isKept_parse`: there is no other one.
-/

namespace Rulewright

/-! ### Words in tokens -/

namespace Token

/-- Heads and names are words, names without `$`. -/
def IsSound : Token → Prop
  | .opening head => head ≠ [] ∧ ∀ c ∈ head, isDelimiter c = false
  | .atom (.name text) => text ≠ [] ∧ ∀ c ∈ text, isDelimiter c = false ∧ c ≠ '$'
  | .closing | .atom (.metavar _) | .atom (.literal _) => True

/-- The same of a token that is still being read. -/
def Cursor.IsSound : Cursor → Prop
  | .head chars => chars ≠ [] ∧ ∀ c ∈ chars, isDelimiter c = false
  | .word chars => chars ≠ [] ∧ ∀ c ∈ chars, isDelimiter c = false ∧ c ≠ '$'
  | .between | .opened | .metavar _ => True

/-- Finished tokens are sound, and so is the one that was begun. -/
def SoundStep (r : List Token × Cursor) : Prop := (∀ t ∈ r.1, t.IsSound) ∧ r.2.IsSound

theorem soundStep_silent {cursor : Cursor} (h : cursor.IsSound) : SoundStep ([], cursor) :=
  ⟨fun _ ht => absurd ht List.not_mem_nil, h⟩

theorem soundStep_start (c : Char) : SoundStep (start c) := by
  unfold start
  split_ifs with hblank hopen hclose hdollar
  · exact soundStep_silent trivial
  · exact soundStep_silent trivial
  · refine ⟨fun t ht => ?_, trivial⟩
    rw [List.mem_singleton.1 ht]
    trivial
  · exact soundStep_silent trivial
  · refine soundStep_silent ⟨List.cons_ne_nil _ _, ?_⟩
    intro d hd
    rw [List.mem_singleton.1 hd]
    refine ⟨by simp [isDelimiter, hblank, hopen, hclose], ?_⟩
    simpa using hdollar

theorem soundStep_after {t : Token} (ht : t.IsSound) (c : Char) : SoundStep (after t c) := by
  obtain ⟨hts, hcursor⟩ := soundStep_start c
  refine ⟨fun u hu => ?_, hcursor⟩
  rcases List.mem_cons.1 hu with rfl | hu
  · exact ht
  · exact hts u hu

section Words

variable {chars : List Char}

theorem isSound_opening (h : (Cursor.head chars).IsSound) : (Token.opening chars.reverse).IsSound :=
  ⟨by simpa using h.1, fun c hc => h.2 c (List.mem_reverse.1 hc)⟩

theorem isSound_name (h : (Cursor.word chars).IsSound) :
    (Token.atom (.name chars.reverse)).IsSound :=
  ⟨by simpa using h.1, fun c hc => h.2 c (List.mem_reverse.1 hc)⟩

theorem isSound_ofWord (h : (Cursor.word chars).IsSound) : (ofWord chars.reverse).IsSound := by
  unfold ofWord
  split_ifs
  · trivial
  · exact isSound_name h

end Words

/-- One character. -/
theorem soundStep_step {cursor : Cursor} (hcursor : cursor.IsSound) {c : Char}
    {r : List Token × Cursor} (h : step cursor c = some r) : SoundStep r := by
  cases cursor with
  | between =>
    cases h
    exact soundStep_start c
  | opened =>
    simp only [step] at h
    split_ifs at h with hblank hdelimiter
    · cases h
      exact soundStep_silent trivial
    · cases h
      refine soundStep_silent ⟨List.cons_ne_nil _ _, ?_⟩
      intro d hd
      rw [List.mem_singleton.1 hd]
      simpa using hdelimiter
  | head chars =>
    simp only [step] at h
    split_ifs at h with hdelimiter
    · cases h
      exact soundStep_after (isSound_opening hcursor) c
    · cases h
      refine soundStep_silent ⟨List.cons_ne_nil _ _, ?_⟩
      intro d hd
      rcases List.mem_cons.1 hd with rfl | hd
      · simpa using hdelimiter
      · exact hcursor.2 d hd
  | word chars =>
    simp only [step] at h
    -- a word ends before a delimiter, and before a metavariable that follows it at once
    split_ifs at h with hdelimiter hdollar
    · cases h
      exact soundStep_after (isSound_ofWord hcursor) c
    · cases h
      exact soundStep_after (isSound_name hcursor) c
    · cases h
      refine soundStep_silent ⟨List.cons_ne_nil _ _, ?_⟩
      intro d hd
      rcases List.mem_cons.1 hd with rfl | hd
      · exact ⟨by simpa using hdelimiter, by simpa using hdollar⟩
      · exact hcursor.2 d hd
  | metavar digits =>
    simp only [step] at h
    split_ifs at h
    · cases h
      exact soundStep_silent trivial
    · cases h
      have hmetavar : (Token.atom (.metavar digits.reverse)).IsSound := trivial
      exact soundStep_after hmetavar c

theorem isSound_finish {cursor : Cursor} (hcursor : cursor.IsSound) {ts : List Token}
    (h : finish cursor = some ts) : ∀ t ∈ ts, t.IsSound := by
  have hone : ∀ {t : Token}, t.IsSound → ∀ u ∈ [t], u.IsSound := by
    intro t ht u hu
    rw [List.mem_singleton.1 hu]
    exact ht
  cases cursor with
  | between =>
    cases h
    exact fun t ht => by cases ht
  | opened => cases h
  | head chars =>
    cases h
    exact hone (isSound_opening hcursor)
  | word chars =>
    cases h
    exact hone (isSound_ofWord hcursor)
  | metavar digits =>
    simp only [finish] at h
    split_ifs at h
    cases h
    exact hone trivial

/-- The whole text, by one character at a time. -/
theorem isSound_scanFrom {cursor : Cursor} (hcursor : cursor.IsSound) {text : List Char}
    {ts : List Token} (h : scanFrom cursor text = some ts) : ∀ t ∈ ts, t.IsSound := by
  induction text generalizing cursor ts with
  | nil => exact isSound_finish hcursor h
  | cons c text ih =>
    rw [scanFrom] at h
    cases hstep : step cursor c with
    | none =>
      rw [hstep] at h
      cases h
    | some r =>
      obtain ⟨now, next⟩ := r
      obtain ⟨hnow, hnext⟩ := soundStep_step hcursor hstep
      rw [hstep] at h
      obtain ⟨later, hlater, rfl⟩ := Option.map_eq_some_iff.1 h
      intro t ht
      rcases List.mem_append.1 ht with ht | ht
      · exact hnow t ht
      · exact ih hnext hlater t ht

theorem isSound_scan {text : List Char} {ts : List Token} (h : scan text = some ts) :
    ∀ t ∈ ts, t.IsSound :=
  isSound_scanFrom (show Cursor.between.IsSound from trivial) h

end Token

/-! ### The tokens that a form was put together from -/

namespace Form

theorem tokensAll_append (xs ys : List Form) :
    tokensAll (xs ++ ys) = tokensAll xs ++ tokensAll ys := by
  induction xs with
  | nil => rfl
  | cons f xs ih => rw [List.cons_append, tokensAll, tokensAll, ih, List.append_assoc]

/-- The tokens of lists that are still open. -/
def openTokens : List Frame → List Token
  | [] => []
  | (head, items) :: frames => openTokens frames ++ .opening head :: tokensAll items.reverse

theorem openTokens_item (head : List Char) (items : List Form) (frames : List Frame) (f : Form) :
    openTokens ((head, f :: items) :: frames) =
      openTokens ((head, items) :: frames) ++ f.tokens := by
  simp only [openTokens, List.reverse_cons, tokensAll_append, tokensAll, List.append_nil]
  simp

theorem tokens_of_assemble {frames : List Frame} {ts : List Token} {f : Form}
    (h : assemble frames ts = some f) : f.tokens = openTokens frames ++ ts := by
  fun_induction assemble frames ts with
  | case1 => cases h
  | case2 frames head rest ih =>
    rw [ih h, openTokens, List.reverse_nil, tokensAll]
    simp
  | case3 => cases h
  | case4 head items rest hrest =>
    cases h
    rw [List.isEmpty_iff.1 hrest, tokens, openTokens, openTokens]
    rfl
  | case5 => cases h
  | case6 head items outer before frames rest ih =>
    rw [ih h, openTokens_item, tokens]
    simp [openTokens]
  | case7 a rest hrest =>
    cases h
    rw [List.isEmpty_iff.1 hrest, tokens, openTokens]
    rfl
  | case8 => cases h
  | case9 head items frames a rest ih =>
    rw [ih h, openTokens_item, tokens]
    simp

theorem tokens_of_ofTokens? {ts : List Token} {f : Form} (h : ofTokens? ts = some f) :
    f.tokens = ts :=
  tokens_of_assemble h

/-- All words of the form are sound. -/
def IsSound (f : Form) : Prop := ∀ t ∈ f.tokens, t.IsSound

theorem isSound_ofText? {text : String} {f : Form} (h : ofText? text = some f) : f.IsSound := by
  obtain ⟨ts, hscan, hts⟩ := Option.bind_eq_some_iff.1 h
  unfold IsSound
  rw [tokens_of_ofTokens? hts]
  exact Token.isSound_scan hscan

theorem mem_tokensAll {f : Form} {fs : List Form} (hf : f ∈ fs) {t : Token} (ht : t ∈ f.tokens) :
    t ∈ tokensAll fs := by
  induction fs with
  | nil => cases hf
  | cons g fs ih =>
    rw [tokensAll, List.mem_append]
    rcases List.mem_cons.1 hf with rfl | hf
    · exact .inl ht
    · exact .inr (ih hf)

theorem IsSound.item {head : List Char} {items : List Form} (h : (Form.list head items).IsSound)
    {f : Form} (hf : f ∈ items) : f.IsSound := by
  intro t ht
  apply h
  rw [tokens]
  exact List.mem_append_left _ (List.mem_cons_of_mem _ (mem_tokensAll hf ht))

theorem IsSound.head {head : List Char} {items : List Form} (h : (Form.list head items).IsSound) :
    head ≠ [] ∧ ∀ c ∈ head, Token.isDelimiter c = false := by
  refine h (.opening head) ?_
  rw [tokens]
  exact List.mem_append_left _ List.mem_cons_self

end Form

/-! ### Terms that were read -/

namespace Expr

mutual

/-- No variable is written like a number, and no symbol without operands like a special head. -/
def IsStorable (l : Language) : Expr → Prop
  | .metavar _ | .literal _ => True
  | .var name => ¬ IsNumeral name.toList
  | .app symbol operands => (operands = [] → l.name symbol ∉ specialHeads) ∧ AllStorable l operands
  | .compound inner => inner.IsStorable l
  | .optional pattern default => pattern.IsStorable l ∧ default.IsStorable l
  | .anyway _ operands => AllStorable l operands

def AllStorable (l : Language) : List Expr → Prop
  | [] => True
  | e :: rest => e.IsStorable l ∧ AllStorable l rest

end

mutual

def decidableStorable (l : Language) : (e : Expr) → Decidable (e.IsStorable l)
  | .metavar _ | .literal _ => isTrue trivial
  | .var name => inferInstanceAs (Decidable (¬ IsNumeral name.toList))
  | .app symbol operands =>
    have := decidableAllStorable l operands
    inferInstanceAs
      (Decidable ((operands = [] → l.name symbol ∉ specialHeads) ∧ AllStorable l operands))
  | .compound inner => decidableStorable l inner
  | .optional pattern default =>
    have := decidableStorable l pattern
    have := decidableStorable l default
    inferInstanceAs (Decidable (pattern.IsStorable l ∧ default.IsStorable l))
  | .anyway _ operands => decidableAllStorable l operands

def decidableAllStorable (l : Language) : (es : List Expr) → Decidable (AllStorable l es)
  | [] => isTrue trivial
  | e :: rest =>
    have := decidableStorable l e
    have := decidableAllStorable l rest
    inferInstanceAs (Decidable (e.IsStorable l ∧ AllStorable l rest))

end

instance (l : Language) (e : Expr) : Decidable (e.IsStorable l) := decidableStorable l e

/-- The names are words, and the term is read back unless there is an accident. -/
structure IsKept (l : Language) (e : Expr) : Prop where
  spelled : e.IsSpelled l
  readsBack_iff : e.ReadsBack l ↔ e.IsStorable l

theorem allKept {l : Language} {es : List Expr} (h : ∀ e ∈ es, e.IsKept l) :
    AllSpelled l es ∧ (AllReadBack l es ↔ AllStorable l es) := by
  induction es with
  | nil => exact ⟨trivial, Iff.rfl⟩
  | cons e es ih =>
    have he := h e List.mem_cons_self
    obtain ⟨hspelled, hiff⟩ := ih fun d hd => h d (List.mem_cons_of_mem e hd)
    refine ⟨⟨he.spelled, hspelled⟩, ?_⟩
    rw [AllReadBack, AllStorable, he.readsBack_iff, hiff]

end Expr

namespace Form

open Rulewright.Expr

variable {l : Language}

theorem fits_of_unsigned? {digits : List Char} {n : Nat} (h : unsigned? digits = some n) :
    fitsUInt64 n = true := by
  obtain ⟨hdigits, hn⟩ := Option.ite_none_right_eq_some.1 h
  rw [← Option.some.inj hn]
  exact (Bool.and_eq_true_iff.1 hdigits).2

theorem fits_of_signed? {text : List Char} {n : Int} (h : signed? text = some n) :
    fitsInt64 n = true := by
  obtain ⟨hfits, hn⟩ := Option.ite_none_right_eq_some.1 h
  rw [← Option.some.inj hn]
  exact hfits

theorem fits_of_literal? {text : List Char} {value : Literal} (h : literal? text = some value) :
    value.Fits := by
  unfold literal? at h
  split at h
  · obtain ⟨n, hn, rfl⟩ := Option.map_eq_some_iff.1 h
    exact fits_of_unsigned? hn
  · obtain ⟨n, hn, rfl⟩ := Option.map_eq_some_iff.1 h
    exact fits_of_signed? hn

theorem fits_of_int64? {value : Literal} (hvalue : value.Fits) {n : Int}
    (h : value.int64? = some n) : fitsInt64 n = true := by
  obtain ⟨hfits, rfl⟩ := (Literal.int64?_eq_some_iff hvalue).1 h
  exact hfits

/-- The number of a group is in range. -/
theorem lt_of_group? {number : Expr} (hnumber : number.ReadsBack l) {group : GroupId}
    (h : group? number = some group) : group < 9223372036854775808 := by
  cases number with
  | literal value =>
    simp only [group?] at h
    split at h
    · next n hn =>
      have hfits := fits_of_int64? hnumber hn
      simp only [fitsInt64, Bool.and_eq_true, decide_eq_true_eq, Int.ofNat_eq_natCast] at hfits
      have hgroup : n = group := Option.some.inj h
      have hlt : n < 9223372036854775808 := by omega
      rw [← hgroup]
      exact hlt
    · cases h
  | _ => cases h

theorem isWord_ofList {text : List Char} (hne : text ≠ [])
    (h : ∀ c ∈ text, Token.isDelimiter c = false) : IsWord (String.ofList text) := by
  refine ⟨?_, ?_⟩
  · intro hempty
    apply hne
    rw [← String.toList_ofList (l := text), hempty]
    rfl
  · rw [String.toList_ofList]
    exact h

theorem isKept_readAtom {a : Atom} (ha : (Token.atom a).IsSound) {e : Expr}
    (h : readAtom l a = .ok e) : e.IsKept l := by
  cases a with
  | metavar digits =>
    simp only [readAtom] at h
    split at h
    · next id hid =>
      cases h
      exact ⟨trivial, ⟨fun _ => trivial, fun _ => fits_of_unsigned? hid⟩⟩
    · cases h
  | literal text =>
    simp only [readAtom] at h
    split at h
    · next value hvalue =>
      cases h
      exact ⟨trivial, ⟨fun _ => trivial, fun _ => fits_of_literal? hvalue⟩⟩
    · cases h
  | name text =>
    obtain ⟨hne, hchars⟩ := ha
    have hword := isWord_ofList hne fun c hc => (hchars c hc).1
    simp only [readAtom] at h
    split at h
    · next id hid =>
      cases h
      have hname := Language.name_of_id? hid
      refine ⟨⟨by rw [hname]; exact hword, trivial⟩, ?_⟩
      simp only [ReadsBack, IsStorable, AllReadBack, AllStorable, hname, hid]
      simp
    · next hid =>
      cases h
      refine ⟨⟨hword, ?_⟩, ?_⟩
      · rw [String.toList_ofList]
        exact fun hdollar => (hchars '$' hdollar).2 rfl
      · simp only [ReadsBack, IsStorable, ← id?_eq_none_iff, hid, and_true]

theorem isKept_readList {head : List Char} (hne : head ≠ [])
    (hhead : ∀ c ∈ head, Token.isDelimiter c = false) {items : List Expr}
    (hitems : ∀ e ∈ items, e.IsKept l) {e : Expr}
    (h : readList l (String.ofList head) items = .ok e) : e.IsKept l := by
  unfold readList at h
  split_ifs at h with hcompound hoptional hanyway
  · split at h
    · next inner =>
      cases h
      have hinner := hitems inner List.mem_cons_self
      exact ⟨hinner.spelled, hinner.readsBack_iff⟩
    · cases h
  · split at h
    · next pattern default =>
      cases h
      have hp := hitems pattern (by simp)
      have hd := hitems default (by simp)
      refine ⟨⟨hp.spelled, hd.spelled⟩, ?_⟩
      rw [ReadsBack, IsStorable, hp.readsBack_iff, hd.readsBack_iff]
    · cases h
  · split at h
    · next number operand rest =>
      cases hgroup : group? number with
      | none =>
        rw [hgroup] at h
        cases h
      | some group =>
        rw [hgroup] at h
        cases h
        obtain ⟨hspelled, hiff⟩ := allKept fun e he => hitems e (List.mem_cons_of_mem number he)
        -- a number is stored, so it is in range
        have hnumber : number.ReadsBack l := by
          rw [(hitems number List.mem_cons_self).readsBack_iff]
          cases number with
          | literal value => trivial
          | _ => cases hgroup
        refine ⟨hspelled, ?_⟩
        rw [ReadsBack, IsStorable, hiff]
        exact ⟨fun hread => hread.2,
          fun hstored => ⟨⟨lt_of_group? hnumber hgroup, List.cons_ne_nil _ _⟩, hstored⟩⟩
    · cases h
  · cases hid : l.id? (String.ofList head) with
    | none =>
      rw [hid] at h
      cases h
    | some id =>
      rw [hid] at h
      cases h
      have hname := Language.name_of_id? hid
      have hspecial : String.ofList head ∉ specialHeads := by
        simp [specialHeads, hcompound, hoptional, hanyway]
      obtain ⟨hspelled, hiff⟩ := allKept hitems
      refine ⟨⟨by rw [hname]; exact isWord_ofList hne hhead, hspelled⟩, ?_⟩
      simp only [ReadsBack, IsStorable, hiff, hname, hid, hspecial]
      simp

mutual

theorem isKept_read (f : Form) (hf : f.IsSound) {e : Expr} (h : f.read l = .ok e) : e.IsKept l := by
  match f with
  | .atom a =>
    rw [read] at h
    exact isKept_readAtom (hf (.atom a) List.mem_cons_self) h
  | .list head items =>
    obtain ⟨es, hes, hlist⟩ := read_list_iff.1 h
    exact isKept_readList hf.head.1 hf.head.2 (isKept_readAll items (fun g hg => hf.item hg) hes)
      hlist

theorem isKept_readAll (fs : List Form) (hfs : ∀ f ∈ fs, f.IsSound) {es : List Expr}
    (h : readAll l fs = .ok es) : ∀ e ∈ es, e.IsKept l := by
  match fs with
  | [] =>
    cases h
    exact fun e he => by cases he
  | f :: rest =>
    obtain ⟨e, es', he, hes', rfl⟩ := readAll_cons_iff.1 h
    intro d hd
    rcases List.mem_cons.1 hd with rfl | hd
    · exact isKept_read f (hfs f List.mem_cons_self) he
    · exact isKept_readAll rest (fun g hg => hfs g (List.mem_cons_of_mem f hg)) hes' d hd

end

end Form

/-- **Terms that were read** have words for names, and are read back unless there is an accident. -/
theorem Language.isKept_parse {l : Language} {text : String} {e : Expr} (h : l.parse text = .ok e) :
    e.IsKept l := by
  unfold Language.parse at h
  split at h
  · next form hform => exact form.isKept_read (Form.isSound_ofText? hform) h
  · cases h

/-- What was read from a text is read back from its notation if and only if it is storable. -/
theorem Expr.reparse_iff {l : Language} {text : String} {e : Expr} (h : l.parse text = .ok e) :
    l.parse (e.render l) = .ok e ↔ e.IsStorable l := by
  have hkept := Language.isKept_parse h
  rw [← hkept.readsBack_iff]
  exact Expr.parse_render_iff hkept.spelled (Expr.isLayout_render hkept.spelled)

end Rulewright
