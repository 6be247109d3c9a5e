import Mathlib.Data.List.Basic
import Rulewright.Proofs.Chain.Pattern
import Rulewright.Proofs.Decimal.ReadBack
import Rulewright.Proofs.Notation.Layout

/-!
# From layouts to forms

A piece of notation that ends where a word ends is read into its own tokens, whatever comes after
it. Words, metavariables and lists are such pieces, and so the tokens of a term do not depend on its
layout. The tokens of a form, in turn, are put together to that form again.

* `Token.Lexes`: a piece is read into tokens. `lexes_word`, `lexes_metavar`, `lexes_list`: the
  pieces of notation.
* `Form.ofTokens?_tokens`: a form from its tokens.
* `Expr.form`: the form that a term is written in; `Expr.IsSpelled`: all its names are words.
* `Expr.ofText?_layout`: every layout of a term has the form of the term.
-/

namespace Rulewright

namespace Token

variable {run w : List Char}

/-! ### Where words end -/

/-- A word that stands before this text ends there. -/
def EndsWord (rest : List Char) : Prop := ∀ c ∈ rest.head?, isDelimiter c = true

theorem endsWord_nil : EndsWord [] := by
  intro c hc
  cases hc

theorem endsWord_cons {c : Char} (hc : isDelimiter c = true) (rest : List Char) :
    EndsWord (c :: rest) := by
  intro d hd
  cases hd
  exact hc

theorem EndsWord.append {inner rest : List Char} (hinner : EndsWord inner) (hrest : EndsWord rest) :
    EndsWord (inner ++ rest) := by
  cases inner with
  | nil => exact hrest
  | cons c inner => exact endsWord_cons (hinner c rfl) _

theorem isDelimiter_of_isBlank {c : Char} (h : isBlank c = true) : isDelimiter c = true := by
  simp [isDelimiter, h]

theorem endsWord_blanks (h : IsBlanks run) : EndsWord run := by
  cases run with
  | nil => exact endsWord_nil
  | cons c run => exact endsWord_cons (isDelimiter_of_isBlank (h c List.mem_cons_self)) run

theorem isDigit_of_isDelimiter {c : Char} (h : isDelimiter c = true) : c.isDigit = false := by
  simp only [isDelimiter, isBlank, Bool.or_eq_true, beq_iff_eq] at h
  rcases h with ((((rfl | rfl) | rfl) | rfl) | rfl) | rfl <;> rfl

/-! ### Tokens at their end -/

section Ends

variable {chars rest : List Char}

/-- To go on after a token is to start anew, once the token is given. -/
theorem scanFrom_after {cursor : Cursor} {t : Token} (hfinish : finish cursor = some [t])
    (hstep : ∀ c ∈ rest.head?, step cursor c = some (after t c)) :
    scanFrom cursor rest = (scanFrom .between rest).map (t :: ·) := by
  cases rest with
  | nil => exact hfinish
  | cons c rest =>
    rw [scanFrom, hstep c rfl, scanFrom, step]
    simp only [after, Option.map_map]
    rfl

theorem scanFrom_word_end (hrest : EndsWord rest) :
    scanFrom (.word chars) rest = (scanFrom .between rest).map (ofWord chars.reverse :: ·) := by
  refine scanFrom_after rfl ?_
  intro c hc
  rw [step, if_pos (hrest c hc)]

theorem scanFrom_head_end (hrest : EndsWord rest) :
    scanFrom (.head chars) rest = (scanFrom .between rest).map (.opening chars.reverse :: ·) := by
  refine scanFrom_after rfl ?_
  intro c hc
  rw [step, if_pos (hrest c hc)]

theorem scanFrom_metavar_end (hne : chars ≠ []) (hrest : EndsWord rest) :
    scanFrom (.metavar chars) rest =
      (scanFrom .between rest).map (.atom (.metavar chars.reverse) :: ·) := by
  have hempty : chars.isEmpty = false := by simpa using hne
  refine scanFrom_after (by simp [finish, hempty]) ?_
  intro c hc
  simp [step, isDigit_of_isDelimiter (hrest c hc), hempty]

end Ends

/-! ### The characters of a token -/

/-- A character that finishes no token. -/
theorem scanFrom_silent {cursor cursor' : Cursor} {c : Char}
    (h : step cursor c = some ([], cursor')) (rest : List Char) :
    scanFrom cursor (c :: rest) = scanFrom cursor' rest := by
  rw [scanFrom, h]
  exact Option.map_id_apply

/-- Characters that go on with a token, the one like the other. -/
theorem scanFrom_chars {cursor : List Char → Cursor}
    (hstep : ∀ c ∈ w, ∀ chars, step (cursor chars) c = some ([], cursor (c :: chars)))
    (chars rest : List Char) :
    scanFrom (cursor chars) (w ++ rest) = scanFrom (cursor (w.reverse ++ chars)) rest := by
  induction w generalizing chars with
  | nil => rfl
  | cons c w ih =>
    rw [List.cons_append, scanFrom_silent (hstep c List.mem_cons_self chars),
      ih fun d hd => hstep d (List.mem_cons_of_mem c hd)]
    simp

/-- Blanks lead nowhere. -/
theorem scanFrom_run {cursor : Cursor} (hstep : ∀ c ∈ run, step cursor c = some ([], cursor))
    (rest : List Char) : scanFrom cursor (run ++ rest) = scanFrom cursor rest := by
  induction run with
  | nil => rfl
  | cons c run ih =>
    rw [List.cons_append, scanFrom_silent (hstep c List.mem_cons_self),
      ih fun d hd => hstep d (List.mem_cons_of_mem c hd)]

theorem scanFrom_blanks (h : IsBlanks run) (rest : List Char) :
    scanFrom .between (run ++ rest) = scanFrom .between rest := by
  refine scanFrom_run ?_ rest
  intro c hc
  rw [step, start, if_pos (h c hc)]

theorem scanFrom_opened_blanks (h : IsBlanks run) (rest : List Char) :
    scanFrom .opened (run ++ rest) = scanFrom .opened rest := by
  refine scanFrom_run ?_ rest
  intro c hc
  rw [step, if_pos (h c hc)]

theorem scanFrom_word_append (hw : ∀ c ∈ w, isDelimiter c = false ∧ c ≠ '$')
    (chars rest : List Char) :
    scanFrom (.word chars) (w ++ rest) = scanFrom (.word (w.reverse ++ chars)) rest := by
  refine scanFrom_chars ?_ chars rest
  intro c hc chars
  obtain ⟨hdelimiter, hdollar⟩ := hw c hc
  simp [step, hdelimiter, hdollar]

theorem scanFrom_head_append (hw : ∀ c ∈ w, isDelimiter c = false) (chars rest : List Char) :
    scanFrom (.head chars) (w ++ rest) = scanFrom (.head (w.reverse ++ chars)) rest := by
  refine scanFrom_chars ?_ chars rest
  intro c hc chars
  simp [step, hw c hc]

theorem scanFrom_metavar_append {ds : List Char} (hds : ∀ c ∈ ds, c.isDigit = true)
    (chars rest : List Char) :
    scanFrom (.metavar chars) (ds ++ rest) = scanFrom (.metavar (ds.reverse ++ chars)) rest := by
  refine scanFrom_chars ?_ chars rest
  intro c hc chars
  simp [step, hds c hc]

/-- A character that starts a word. -/
theorem start_word {c : Char} (hc : isDelimiter c = false) (hdollar : c ≠ '$') :
    start c = ([], .word [c]) := by
  simp only [isDelimiter, Bool.or_eq_false_iff] at hc
  simp [start, hc.1.1, hc.1.2, hc.2, hdollar]

/-! ### Pieces of notation -/

/-- The text is read into the tokens where a word may end after it. -/
def Lexes (text : List Char) (tokens : List Token) : Prop :=
  ∀ rest, EndsWord rest →
    scanFrom .between (text ++ rest) = (scanFrom .between rest).map (tokens ++ ·)

theorem lexes_nil : Lexes [] [] := by
  intro rest _
  simp

theorem lexes_word (hne : w ≠ []) (hw : ∀ c ∈ w, isDelimiter c = false ∧ c ≠ '$') :
    Lexes w [ofWord w] := by
  intro rest hrest
  obtain ⟨c, w, rfl⟩ := List.exists_cons_of_ne_nil hne
  obtain ⟨hc, hdollar⟩ := hw c List.mem_cons_self
  have hstep : step .between c = some ([], .word [c]) := by rw [step, start_word hc hdollar]
  rw [List.cons_append, scanFrom_silent hstep,
    scanFrom_word_append (fun d hd => hw d (List.mem_cons_of_mem c hd)), scanFrom_word_end hrest]
  simp

theorem lexes_metavar {ds : List Char} (hne : ds ≠ []) (hds : ∀ c ∈ ds, c.isDigit = true) :
    Lexes ('$' :: ds) [.atom (.metavar ds)] := by
  intro rest hrest
  have hstep : step .between '$' = some ([], .metavar []) := rfl
  have hne' : ds.reverse ++ [] ≠ [] := by simpa using hne
  rw [List.cons_append, scanFrom_silent hstep, scanFrom_metavar_append hds,
    scanFrom_metavar_end hne' hrest]
  simp

/-- Operands, each after blanks, come before whatever ends a word. -/
theorem Lexes.operand {text inner : List Char} {ts tsInner : List Token} (hrun : IsBlanks run)
    (htext : Lexes text ts) (hinner : Lexes inner tsInner) (hends : EndsWord inner) :
    Lexes (run ++ text ++ inner) (ts ++ tsInner) := by
  intro rest hrest
  rw [List.append_assoc, List.append_assoc, scanFrom_blanks hrun, htext _ (hends.append hrest),
    hinner rest hrest, Option.map_map]
  congr 1
  funext ts
  simp

theorem lexes_list {run' inner : List Char} {ts : List Token} (hrun : IsBlanks run)
    (hrun' : IsBlanks run') (hne : w ≠ []) (hw : ∀ c ∈ w, isDelimiter c = false)
    (hinner : Lexes inner ts) (hends : EndsWord inner) :
    Lexes ('(' :: run ++ (w ++ (inner ++ (run' ++ [')'])))) (.opening w :: ts ++ [.closing]) := by
  intro rest _
  obtain ⟨c, w, rfl⟩ := List.exists_cons_of_ne_nil hne
  have hc := hw c List.mem_cons_self
  have hblank : isBlank c = false := by
    simp only [isDelimiter, Bool.or_eq_false_iff] at hc
    exact hc.1.1
  have hopen : step .between '(' = some ([], .opened) := rfl
  have hfirst : step .opened c = some ([], .head [c]) := by simp [step, hblank, hc]
  -- after the operands there are blanks and the parenthesis
  have htail : EndsWord (run' ++ ')' :: rest) :=
    (endsWord_blanks hrun').append (endsWord_cons rfl rest)
  have hclose : scanFrom .between (')' :: rest) = (scanFrom .between rest).map (.closing :: ·) :=
    rfl
  have htext : '(' :: run ++ (c :: w ++ (inner ++ (run' ++ [')']))) ++ rest =
      '(' :: (run ++ (c :: (w ++ (inner ++ (run' ++ ')' :: rest))))) := by simp
  rw [htext, scanFrom_silent hopen, scanFrom_opened_blanks hrun, scanFrom_silent hfirst,
    scanFrom_head_append (fun d hd => hw d (List.mem_cons_of_mem c hd)),
    scanFrom_head_end (hends.append htail), hinner _ htail, scanFrom_blanks hrun', hclose,
    Option.map_map, Option.map_map]
  congr 1
  funext ts
  simp

end Token

/-! ### Numerals are words -/

theorem Token.isDelimiter_of_isDigit {c : Char} (h : c.isDigit = true) :
    Token.isDelimiter c = false ∧ c ≠ '$' := by
  constructor
  · by_contra hc
    rw [Bool.not_eq_false] at hc
    rw [Token.isDigit_of_isDelimiter hc] at h
    cases h
  · rintro rfl
    cases h

/-- Numerals are words. -/
theorem IsNumeral.word {text : List Char} (h : IsNumeral text) :
    text ≠ [] ∧ ∀ c ∈ text, Token.isDelimiter c = false ∧ c ≠ '$' := by
  obtain ⟨sign, digits, suffix, rfl, hsign, hne, hdigits, hsuffix⟩ := h
  refine ⟨by simp [hne], ?_⟩
  intro c hc
  rw [List.mem_append, List.mem_append] at hc
  rcases hc with (hc | hc) | hc
  · rcases hsign with rfl | rfl
    · cases hc
    · rw [List.mem_singleton.1 hc]
      decide
  · exact Token.isDelimiter_of_isDigit (hdigits c hc)
  · rcases hsuffix with rfl | rfl
    · cases hc
    · rw [List.mem_singleton.1 hc]
      decide

/-! ### Forms from their tokens -/

namespace Form

mutual

theorem assemble_tokens (f : Form) (head : List Char) (items : List Form) (frames : List Frame)
    (rest : List Token) :
    assemble ((head, items) :: frames) (f.tokens ++ rest) =
      assemble ((head, f :: items) :: frames) rest := by
  match f with
  | .atom a =>
    rw [tokens, List.singleton_append, assemble]
  | .list h is =>
    rw [tokens, List.cons_append, List.cons_append, List.append_assoc, assemble,
      assemble_tokensAll is, List.singleton_append, assemble]
    simp

theorem assemble_tokensAll (fs : List Form) (head : List Char) (items : List Form)
    (frames : List Frame) (rest : List Token) :
    assemble ((head, items) :: frames) (tokensAll fs ++ rest) =
      assemble ((head, fs.reverse ++ items) :: frames) rest := by
  match fs with
  | [] =>
    rw [tokensAll]
    rfl
  | f :: fs =>
    rw [tokensAll, List.append_assoc, assemble_tokens f, assemble_tokensAll fs]
    simp

end

/-- **A form is put together from its tokens.** -/
theorem ofTokens?_tokens (f : Form) : ofTokens? f.tokens = some f := by
  cases f with
  | atom a => rfl
  | list h is =>
    rw [ofTokens?, tokens, List.cons_append, assemble, assemble_tokensAll, assemble]
    simp

end Form

/-! ### The form of a term -/

namespace Expr

mutual

/-- The form that a term is written in. A variable is written like a literal if it has the shape of
one. -/
def form (l : Language) : Expr → Form
  | .metavar id => .atom (.metavar (Nat.toDigits 10 id))
  | .var name =>
    .atom (if Token.isLiteral name.toList then .literal name.toList else .name name.toList)
  | .literal value => .atom (.literal value.text.toList)
  | .app symbol operands => .list (l.name symbol).toList (formAll l operands)
  | .compound inner => .list ['#'] [inner.form l]
  | .optional pattern default => .list ['?'] [pattern.form l, default.form l]
  | .anyway group operands =>
    .list ['~'] (.atom (.literal (Nat.toDigits 10 group)) :: formAll l operands)

def formAll (l : Language) : List Expr → List Form
  | [] => []
  | e :: rest => e.form l :: formAll l rest

end

mutual

/-- Names are words, those of variables without `$`. -/
def IsSpelled (l : Language) : Expr → Prop
  | .metavar _ | .literal _ => True
  | .var name => IsWord name ∧ '$' ∉ name.toList
  | .app symbol operands => IsWord (l.name symbol) ∧ AllSpelled l operands
  | .compound inner => inner.IsSpelled l
  | .optional pattern default => pattern.IsSpelled l ∧ default.IsSpelled l
  | .anyway _ operands => AllSpelled l operands

def AllSpelled (l : Language) : List Expr → Prop
  | [] => True
  | e :: rest => e.IsSpelled l ∧ AllSpelled l rest

end

/-! ### Numbers as words -/

/-- The digits of a literal, with its sign and its `u`. -/
theorem toList_text (value : Literal) :
    ∃ sign n suffix, value.text.toList = sign ++ Nat.toDigits 10 n ++ suffix ∧
      (sign = [] ∨ sign = ['-']) ∧ (suffix = [] ∨ suffix = ['u']) := by
  cases value with
  | int k =>
    cases k with
    | ofNat n =>
      exact ⟨[], n, [], by rw [List.nil_append, List.append_nil]; exact Decimal.toList_toString n,
        .inl rfl, .inl rfl⟩
    | negSucc n =>
      refine ⟨['-'], n + 1, [], ?_, .inr rfl, .inl rfl⟩
      have htext : (Literal.int (.negSucc n)).text = "-" ++ toString (n + 1) := rfl
      rw [htext, String.toList_append, Decimal.toList_toString, List.append_nil]
      rfl
  | uint n =>
    refine ⟨[], n, ['u'], ?_, .inl rfl, .inr rfl⟩
    rw [Literal.text, String.toList_append, Decimal.toList_toString]
    rfl

theorem isNumeral_text (value : Literal) : IsNumeral value.text.toList := by
  obtain ⟨sign, n, suffix, htext, hsign, hsuffix⟩ := toList_text value
  exact ⟨sign, _, suffix, htext, hsign, Nat.toDigits_ne_nil,
    fun c hc => Decimal.isDigit_toDigits hc, hsuffix⟩

/-! ### The notation in characters -/

section Chars

variable {l : Language}

/-- A list in notation. -/
def listChars (head inner : List Char) : List Char := '(' :: head ++ inner ++ [')']

theorem toList_render_app (symbol : SymbolId) (operands : List Expr) :
    ((Expr.app symbol operands).render l).toList =
      listChars (l.name symbol).toList (renderAll l operands).toList := by
  simp [render, listChars]

theorem toList_render_compound (inner : Expr) :
    ((Expr.compound inner).render l).toList = listChars ['#'] (renderAll l [inner]).toList := by
  simp [render, renderAll, listChars]

theorem toList_render_optional (pattern default : Expr) :
    ((Expr.optional pattern default).render l).toList =
      listChars ['?'] (renderAll l [pattern, default]).toList := by
  simp [render, renderAll, listChars]

/-- The number of a group is written like a literal. -/
theorem toList_render_anyway (group : GroupId) (operands : List Expr) :
    ((Expr.anyway group operands).render l).toList =
      listChars ['~'] (renderAll l (.literal (.int group) :: operands)).toList := by
  have htext : toString (group : Int) = toString group := rfl
  simp [render, renderAll, listChars, Literal.text, htext]

theorem toList_renderAll_cons (e : Expr) (rest : List Expr) :
    (renderAll l (e :: rest)).toList = [' '] ++ (e.render l).toList ++
      (renderAll l rest).toList := by
  simp [renderAll]

theorem toList_render_metavar (id : MetaId) :
    ((Expr.metavar id).render l).toList = '$' :: Nat.toDigits 10 id := by
  rw [render, String.toList_append, Decimal.toList_toString]
  rfl

theorem form_anyway (group : GroupId) (operands : List Expr) :
    (Expr.anyway group operands).form l =
      .list ['~'] (formAll l (.literal (.int group) :: operands)) := by
  rw [form, formAll, form, ← Decimal.toList_toString]
  rfl

end Chars

/-! ### Layouts of terms -/

open Token

/-- The text is a layout of itself, and every layout of it is read into the tokens. -/
structure Piece (text : List Char) (ts : List Token) : Prop where
  lexes : ∀ t, Relaid text t → Lexes t ts
  self : Relaid text text

/-- Operands: pieces of which each has a space before it. -/
structure Operands (text : List Char) (ts : List Token) : Prop where
  lexes : ∀ t, Relaid text t → Lexes t ts ∧ EndsWord t
  self : Relaid text text

theorem piece_word {w : List Char} (hne : w ≠ []) (hw : ∀ c ∈ w, isDelimiter c = false ∧ c ≠ '$') :
    Piece w [ofWord w] := by
  have hdelimiter : ∀ c ∈ w, isDelimiter c = false := fun c hc => (hw c hc).1
  refine ⟨?_, Relaid.word hdelimiter⟩
  intro t ht
  rw [Relaid.word_inv hdelimiter ht]
  exact lexes_word hne hw

theorem piece_metavar (id : MetaId) :
    Piece ('$' :: Nat.toDigits 10 id) [.atom (.metavar (Nat.toDigits 10 id))] := by
  have hdigits : ∀ c ∈ Nat.toDigits 10 id, c.isDigit = true :=
    fun c hc => Decimal.isDigit_toDigits hc
  have hdelimiter : ∀ c ∈ '$' :: Nat.toDigits 10 id, isDelimiter c = false := by
    intro c hc
    rcases List.mem_cons.1 hc with rfl | hc
    · rfl
    · exact (isDelimiter_of_isDigit (hdigits c hc)).1
  refine ⟨?_, Relaid.word hdelimiter⟩
  intro t ht
  rw [Relaid.word_inv hdelimiter ht]
  exact lexes_metavar Nat.toDigits_ne_nil hdigits

theorem operands_nil : Operands [] [] := by
  refine ⟨?_, .nil⟩
  rintro t ⟨⟩
  exact ⟨lexes_nil, endsWord_nil⟩

theorem Piece.cons {text rest : List Char} {ts tsRest : List Token} (htext : Piece text ts)
    (hrest : Operands rest tsRest) : Operands ([' '] ++ text ++ rest) (ts ++ tsRest) := by
  refine ⟨?_, ?_⟩
  · intro t ht
    obtain ⟨x, y, rfl, hx, hy⟩ := ht.append_inv
    obtain ⟨run, z, rfl, hne, hrun, hz⟩ := hx.space_inv
    obtain ⟨hlexes, hends⟩ := hrest.lexes y hy
    refine ⟨(htext.lexes z hz).operand hrun hlexes hends, ?_⟩
    obtain ⟨c, run, rfl⟩ := List.exists_cons_of_ne_nil hne
    exact endsWord_cons (isDelimiter_of_isBlank (hrun c List.mem_cons_self)) _
  · have hblank : IsBlanks [' '] := by
      intro c hc
      rw [List.mem_singleton.1 hc]
      rfl
    have hspace : Relaid [' '] [' '] := .space [' '] (List.cons_ne_nil ' ' []) hblank .nil
    exact (hspace.append htext.self).append hrest.self

theorem Operands.list {head inner : List Char} {ts : List Token} (hinner : Operands inner ts)
    (hne : head ≠ []) (hw : ∀ c ∈ head, isDelimiter c = false) :
    Piece (listChars head inner) (.opening head :: ts ++ [.closing]) := by
  refine ⟨?_, ?_⟩
  · intro t ht
    rw [listChars] at ht
    obtain ⟨x, y, rfl, hx, hclose⟩ := ht.append_inv
    obtain ⟨x, z, rfl, hx, hz⟩ := hx.append_inv
    obtain ⟨run, w, rfl, hrun, hw'⟩ := hx.opening_inv
    obtain ⟨run', rfl, hrun'⟩ := hclose.closing_inv
    obtain rfl := Relaid.word_inv hw hw'
    obtain ⟨hlexes, hends⟩ := hinner.lexes z hz
    have hlist := lexes_list hrun hrun' hne hw hlexes hends
    simpa using hlist
  · have hblank : IsBlanks [] := fun c hc => by cases hc
    have hopen : Relaid ('(' :: head) ('(' :: head) := .opening [] hblank (Relaid.word hw)
    have hclose : Relaid [')'] [')'] := .closing [] hblank .nil
    exact (hopen.append hinner.self).append hclose

/-- The notation of a term is a piece with the tokens of its form. -/
theorem piece_render_all (l : Language) :
    (∀ e : Expr, e.IsSpelled l → Piece (e.render l).toList (e.form l).tokens) ∧
    ∀ es : List Expr, AllSpelled l es →
      Operands (renderAll l es).toList (Form.tokensAll (formAll l es)) := by
  have hliteral : ∀ value : Literal,
      Piece ((Expr.literal value).render l).toList ((Expr.literal value).form l).tokens := by
    intro value
    have hnumeral := isNumeral_text value
    have hword := piece_word hnumeral.word.1 hnumeral.word.2
    rw [ofWord, if_pos ((isLiteral_iff _).2 hnumeral)] at hword
    rw [render, form, Form.tokens]
    exact hword
  have hcons : ∀ (e : Expr) (rest : List Expr), Piece (e.render l).toList (e.form l).tokens →
      Operands (renderAll l rest).toList (Form.tokensAll (formAll l rest)) →
      Operands (renderAll l (e :: rest)).toList (Form.tokensAll (formAll l (e :: rest))) := by
    intro e rest he hrest
    rw [toList_renderAll_cons, formAll, Form.tokensAll]
    exact he.cons hrest
  have hhead : ∀ d : Char, isDelimiter d = false → ∀ c ∈ [d], isDelimiter c = false := by
    intro d hd c hc
    rw [List.mem_singleton.1 hc]
    exact hd
  have hnil : Operands (renderAll l []).toList (Form.tokensAll (formAll l [])) := by
    rw [renderAll, formAll, Form.tokensAll]
    exact operands_nil
  apply Expr.induct
  case metavar =>
    intro id _
    rw [toList_render_metavar, form, Form.tokens]
    exact piece_metavar id
  case var =>
    -- variables
    rintro name ⟨⟨hne, hw⟩, hdollar⟩
    have hchars : ∀ c ∈ name.toList, isDelimiter c = false ∧ c ≠ '$' := by
      intro c hc
      refine ⟨hw c hc, ?_⟩
      rintro rfl
      exact hdollar hc
    rw [render, form, Form.tokens]
    exact piece_word (fun h => hne (String.toList_eq_nil_iff.1 h)) hchars
  case literal =>
    intro value _
    exact hliteral value
  case app =>
    -- applications
    rintro symbol operands ih ⟨⟨hne, hw⟩, hoperands⟩
    rw [toList_render_app, form, Form.tokens]
    exact (ih hoperands).list (fun h => hne (String.toList_eq_nil_iff.1 h)) hw
  case compound =>
    intro inner ih hinner
    rw [toList_render_compound, form, Form.tokens]
    exact (hcons inner [] (ih hinner) hnil).list (by simp) (hhead _ rfl)
  case optional =>
    rintro pattern default ihp ihd ⟨hp, hd⟩
    rw [toList_render_optional, form, Form.tokens]
    exact (hcons pattern [default] (ihp hp) (hcons default [] (ihd hd) hnil)).list (by simp)
      (hhead _ rfl)
  case anyway =>
    -- the number of the group is one more operand
    intro group operands ih hoperands
    rw [toList_render_anyway, form_anyway, Form.tokens]
    exact (hcons (.literal (.int group)) operands (hliteral _) (ih hoperands)).list (by simp)
      (hhead _ rfl)
  case nil =>
    intro _
    exact hnil
  case cons =>
    rintro e rest ihe ihrest ⟨he, hrest⟩
    exact hcons e rest (ihe he) (ihrest hrest)

theorem IsSpelled.piece {l : Language} {e : Expr} (he : e.IsSpelled l) :
    Piece (e.render l).toList (e.form l).tokens :=
  (piece_render_all l).1 e he

/-- **Every layout of a term** is a text of its form. -/
theorem ofText?_layout {l : Language} {e : Expr} (he : e.IsSpelled l) {text : String}
    (htext : IsLayout (e.render l) text) : Form.ofText? text = some (e.form l) := by
  obtain ⟨before, body, after, hbefore, hafter, hbody, htext⟩ := htext
  have hend : scanFrom .between after = some [] := by
    rw [← List.append_nil after, scanFrom_blanks hafter]
    rfl
  have hscan : scan text.toList = some (e.form l).tokens := by
    rw [scan, htext, List.append_assoc, scanFrom_blanks hbefore,
      he.piece.lexes body hbody after (endsWord_blanks hafter), hend]
    simp
  rw [Form.ofText?, hscan]
  exact Form.ofTokens?_tokens _

/-- What is written is a layout of itself. -/
theorem isLayout_render {l : Language} {e : Expr} (he : e.IsSpelled l) :
    IsLayout (e.render l) (e.render l) := by
  have hblank : IsBlanks [] := fun c hc => by cases hc
  exact ⟨[], (e.render l).toList, [], hblank, hblank, he.piece.self, by simp⟩

end Expr

end Rulewright
