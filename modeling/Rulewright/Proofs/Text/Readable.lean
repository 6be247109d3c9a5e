import Rulewright.Trail
import Rulewright.Text.Quoted
import Rulewright.Proofs.Decimal.ReadBack

/-!
# Texts that end by themselves

Numbers, names of temporaries and quoted texts can be read off the front of a longer text: where
two such texts are followed by something and the whole is equal, the texts are equal and so is
what follows. A number ends where no digit stands, a name where neither digit nor underscore does,
and a quoted text at its quote.
-/

namespace Rulewright

open Decimal

/-- The text does not start with a character of the class. -/
def Stops (p : Char → Bool) (x : List Char) : Prop := ∀ c ∈ x.head?, p c = false

theorem stops_nil (p : Char → Bool) : Stops p [] := fun c hc => by cases hc

theorem stops_cons {p : Char → Bool} {c : Char} (h : p c = false) (x : List Char) :
    Stops p (c :: x) := by
  intro d hd
  obtain rfl : c = d := by simpa using hd
  exact h

/-- A run of one class ends where the class does. -/
theorem append_inj_of_stops {p : Char → Bool} {xs ys x y : List Char} (hxs : ∀ c ∈ xs, p c = true)
    (hys : ∀ c ∈ ys, p c = true) (hx : Stops p x) (hy : Stops p y) (h : xs ++ x = ys ++ y) :
    xs = ys ∧ x = y := by
  have htake : ∀ {zs z : List Char}, (∀ c ∈ zs, p c = true) → Stops p z →
      (zs ++ z).takeWhile p = zs := by
    intro zs z hzs hz
    have hend : z.takeWhile p = [] := by
      cases z with
      | nil => rfl
      | cons c z => rw [List.takeWhile_cons, hz c rfl]; rfl
    rw [List.takeWhile_append_of_pos hzs, hend, List.append_nil]
  have hfront : xs = ys := by rw [← htake hxs hx, h, htake hys hy]
  rw [hfront] at h
  exact ⟨hfront, List.append_cancel_left h⟩

theorem toDigits_append_inj {m n : Nat} {x y : List Char} (hx : Stops Char.isDigit x)
    (hy : Stops Char.isDigit y) (h : Nat.toDigits 10 m ++ x = Nat.toDigits 10 n ++ y) :
    m = n ∧ x = y := by
  obtain ⟨h1, h2⟩ :=
    append_inj_of_stops (fun _ => isDigit_toDigits) (fun _ => isDigit_toDigits) hx hy h
  exact ⟨toDigits_inj (by decide) (by decide) h1, h2⟩

namespace Trail

/-- A digit or an underscore. -/
def isStep (c : Char) : Bool := c.isDigit || c == '_'

/-- The characters of a trail at the end of a name. -/
def chars (t : Trail) : List Char := t.flatMap fun index => '_' :: Nat.toDigits 10 index

theorem toList_text (t : Trail) : t.text.toList = t.chars := by
  rw [text, String.toList_join, List.flatMap_map, chars]
  simp

theorem toList_temporary (t : Trail) : t.temporary.toList = "@formula".toList ++ t.chars := by
  rw [temporary, String.toList_append, toList_text]
  rfl

theorem stops_chars_append (t : Trail) {x : List Char} (hx : Stops isStep x) :
    Stops Char.isDigit (t.chars ++ x) := by
  cases t with
  | nil => exact fun c hc => (Bool.or_eq_false_iff.1 (hx c hc)).1
  | cons index t => exact stops_cons (by decide) _

theorem chars_append_inj {s t : Trail} {x y : List Char} (hx : Stops isStep x) (hy : Stops isStep y)
    (h : s.chars ++ x = t.chars ++ y) : s = t ∧ x = y := by
  -- what follows a trail is not one more step
  have hstep : ∀ {index : Nat} {t : Trail} {x y : List Char}, Stops isStep x →
      x ≠ chars (index :: t) ++ y := by
    intro _ _ _ _ hx heq
    have := hx '_' (by rw [heq]; rfl)
    cases this
  induction s generalizing t with
  | nil =>
    cases t with
    | nil => exact ⟨rfl, h⟩
    | cons j t => exact absurd h (hstep hx)
  | cons i s ih =>
    cases t with
    | nil => exact absurd h.symm (hstep hy)
    | cons j t =>
      have hcons : '_' :: (Nat.toDigits 10 i ++ (chars s ++ x)) =
          '_' :: (Nat.toDigits 10 j ++ (chars t ++ y)) := by
        simpa [chars] using h
      obtain ⟨rfl, hrest⟩ :=
        toDigits_append_inj (stops_chars_append s hx) (stops_chars_append t hy)
          (List.cons.inj hcons).2
      obtain ⟨rfl, hxy⟩ := ih hrest
      exact ⟨rfl, hxy⟩

theorem temporary_append_inj {s t : Trail} {x y : List Char} (hx : Stops isStep x)
    (hy : Stops isStep y) (h : s.temporary.toList ++ x = t.temporary.toList ++ y) :
    s = t ∧ x = y := by
  rw [toList_temporary, toList_temporary, List.append_assoc, List.append_assoc] at h
  exact chars_append_inj hx hy (List.append_cancel_left h)

end Trail

namespace Text

/-- The character that a letter after a backslash stands for. -/
def controlOf (c : Char) : Char :=
  if c = '0' then '\x00'
  else if c = 't' then '\t' else if c = 'r' then '\r' else if c = 'n' then '\n' else c

/-- A character stands for itself, or follows a backslash as a letter or as a code. -/
theorem escapeChar_cases (c : Char) :
    (escapeChar c = [c] ∧ c ≠ '\\' ∧ c ≠ '\"') ∨
    (∃ k, escapeChar c = ['\\', k] ∧ k ≠ 'u' ∧ controlOf k = c) ∨ escapeChar c = escapeCode c := by
  unfold escapeChar
  split_ifs with h1 h2 h3 h4 h5 h6 h7
  · exact Or.inr (Or.inl ⟨_, rfl, by decide, by rw [h1]; rfl⟩)
  · exact Or.inr (Or.inl ⟨_, rfl, by decide, by rw [h2]; rfl⟩)
  · exact Or.inr (Or.inl ⟨_, rfl, by decide, by rw [h3]; rfl⟩)
  · exact Or.inr (Or.inl ⟨_, rfl, by decide, by rw [h4]; rfl⟩)
  · exact Or.inr (Or.inl ⟨_, rfl, by decide, by rw [h5]; rfl⟩)
  · exact Or.inr (Or.inl ⟨_, rfl, by decide, by rw [h6]; rfl⟩)
  · exact Or.inr (Or.inr rfl)
  · exact Or.inl ⟨rfl, h6, h5⟩

theorem escapeChar_head (c : Char) : ∃ k rest, escapeChar c = k :: rest ∧ k ≠ '\"' := by
  rcases escapeChar_cases c with ⟨h, -, hq⟩ | ⟨k, h, -, -⟩ | h
  · exact ⟨c, [], h, hq⟩
  · exact ⟨'\\', [k], h, by decide⟩
  · exact ⟨'\\', _, h, by decide⟩

theorem escapeCode_append_inj {c d : Char} {x y : List Char}
    (h : escapeCode c ++ x = escapeCode d ++ y) : c = d ∧ x = y := by
  have hdigits : Nat.toDigits 16 c.toNat ++ '\x7d' :: x =
      Nat.toDigits 16 d.toNat ++ '\x7d' :: y := by
    simpa [escapeCode] using h
  have hrun : ∀ n : Nat, ∀ k ∈ Nat.toDigits 16 n, (k != '\x7d') = true := fun n k hk => by
    rw [bne_iff_ne]
    rintro rfl
    exact absurd (isAlphanum_toDigits hk) (by decide)
  obtain ⟨h1, h2⟩ :=
    append_inj_of_stops (hrun _) (hrun _) (stops_cons (by decide) _) (stops_cons (by decide) _)
      hdigits
  have hnat := toDigits_inj (by decide) (by decide) h1
  exact ⟨Char.toNat_inj.1 hnat, (List.cons.inj h2).2⟩

theorem escapeChar_append_inj {c d : Char} {x y : List Char}
    (h : escapeChar c ++ x = escapeChar d ++ y) : c = d ∧ x = y := by
  rcases escapeChar_cases c with ⟨hc, hc', -⟩ | ⟨k, hc, hk, rfl⟩ | hc <;>
    rcases escapeChar_cases d with ⟨hd, hd', -⟩ | ⟨k', hd, hk', rfl⟩ | hd <;> rw [hc, hd] at h
  · simpa using h
  · simp [hc'] at h
  · simp [escapeCode, hc'] at h
  · simp [hd'.symm] at h
  · obtain ⟨rfl, hxy⟩ : k = k' ∧ x = y := by simpa using h
    exact ⟨rfl, hxy⟩
  · simp [escapeCode, hk] at h
  · simp [escapeCode, hd'.symm] at h
  · simp [escapeCode, hk'.symm] at h
  · exact escapeCode_append_inj h

theorem flatMap_escapeChar_inj {cs ds x y : List Char}
    (h : cs.flatMap escapeChar ++ '\"' :: x = ds.flatMap escapeChar ++ '\"' :: y) :
    cs = ds ∧ x = y := by
  -- the closing quote does not start a character
  have hquote : ∀ {c : Char} {rest z x : List Char},
      '\"' :: x ≠ (c :: rest).flatMap escapeChar ++ z := by
    intro c rest z x heq
    obtain ⟨k, r, hk, hne⟩ := escapeChar_head c
    rw [List.flatMap_cons, hk] at heq
    exact hne (List.cons.inj heq).1.symm
  induction cs generalizing ds with
  | nil =>
    cases ds with
    | nil => exact ⟨rfl, (List.cons.inj h).2⟩
    | cons d ds => exact absurd h hquote
  | cons c cs ih =>
    cases ds with
    | nil => exact absurd h.symm hquote
    | cons d ds =>
      rw [List.flatMap_cons, List.flatMap_cons, List.append_assoc, List.append_assoc] at h
      obtain ⟨rfl, hrest⟩ := escapeChar_append_inj h
      obtain ⟨rfl, hxy⟩ := ih hrest
      exact ⟨rfl, hxy⟩

theorem quoted_append_inj {s t : String} {x y : List Char}
    (h : (quoted s).toList ++ x = (quoted t).toList ++ y) : s = t ∧ x = y := by
  have hlist : s.toList.flatMap escapeChar ++ '\"' :: x =
      t.toList.flatMap escapeChar ++ '\"' :: y := by
    simpa [quoted] using h
  obtain ⟨h1, h2⟩ := flatMap_escapeChar_inj hlist
  exact ⟨String.toList_injective h1, h2⟩

end Text

end Rulewright
