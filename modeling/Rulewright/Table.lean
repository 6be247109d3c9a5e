/-!
# Tables and sorted sets

A table holds one value per key, in ascending order of the keys. A sorted set is a list without
repetitions in ascending order.

* `Table.get?_insert`, `Table.get?_erase`: what a lookup sees of the two changes.
* `mem_sortedSet`, `pairwise_sortedSet`: a sorted set has the elements of the list, in ascending
  order.
-/

namespace Rulewright

/-- One value per key, by ascending keys. -/
structure Table (κ α : Type) where
  entries : List (κ × α)
  deriving DecidableEq

namespace Table

variable {κ α : Type} [DecidableEq κ] [Ord κ]

def empty : Table κ α := ⟨[]⟩

instance : Inhabited (Table κ α) := ⟨empty⟩

def insertEntry (k : κ) (a : α) : List (κ × α) → List (κ × α)
  | [] => [(k, a)]
  | (k', a') :: rest =>
    if k' = k then (k, a) :: rest
    else if (compare k k').isLT then (k, a) :: (k', a') :: rest
    else (k', a') :: insertEntry k a rest

/-- Set the value of a key. -/
def insert (t : Table κ α) (k : κ) (a : α) : Table κ α :=
  ⟨insertEntry k a t.entries⟩

omit [Ord κ] in
def findEntry (k : κ) : List (κ × α) → Option α
  | [] => none
  | (k', a) :: rest => if k' = k then some a else findEntry k rest

omit [Ord κ] in
/-- The value of a key. -/
def get? (t : Table κ α) (k : κ) : Option α :=
  findEntry k t.entries

omit [Ord κ] in
def eraseEntry (k : κ) : List (κ × α) → List (κ × α)
  | [] => []
  | (k', a) :: rest => if k' = k then eraseEntry k rest else (k', a) :: eraseEntry k rest

omit [Ord κ] in
/-- Remove a key. -/
def erase (t : Table κ α) (k : κ) : Table κ α :=
  ⟨eraseEntry k t.entries⟩

omit [Ord κ] in
@[simp] theorem get?_empty (k : κ) : (empty : Table κ α).get? k = none := rfl

theorem get?_insert (t : Table κ α) (k j : κ) (a : α) :
    (t.insert k a).get? j = if k = j then some a else t.get? j := by
  obtain ⟨es⟩ := t
  simp only [insert, get?]
  induction es with
  | nil => simp [insertEntry, findEntry]
  | cons e es ih =>
    obtain ⟨k', a'⟩ := e
    simp only [insertEntry]
    by_cases hk : k' = k
    · by_cases hj : k = j <;> simp [findEntry, hk, hj]
    · by_cases hc : (compare k k').isLT = true
      · simp [hk, hc, findEntry]
      · by_cases hj : k' = j
        · subst hj; simp [hk, hc, findEntry, Ne.symm hk]
        · simp [hk, hc, findEntry, hj, ih]

omit [Ord κ] in
theorem get?_erase (t : Table κ α) (k j : κ) :
    (t.erase k).get? j = if k = j then none else t.get? j := by
  obtain ⟨es⟩ := t
  simp only [erase, get?]
  induction es with
  | nil => simp [eraseEntry, findEntry]
  | cons e es ih =>
    obtain ⟨k', a'⟩ := e
    simp only [eraseEntry]
    by_cases hk : k' = k
    · subst hk
      by_cases hj : k' = j
      · subst hj; simpa using ih
      · simp [ih, findEntry, hj]
    · by_cases hj : k' = j
      · subst hj; simp [hk, findEntry, Ne.symm hk]
      · simp [hk, findEntry, hj, ih]

end Table

section SortedSet

variable {α : Type} [DecidableEq α] [Ord α]

/-- Add an element to a sorted set. -/
def insertSorted (a : α) : List α → List α
  | [] => [a]
  | b :: rest =>
    if b = a then b :: rest
    else if (compare a b).isLT then a :: b :: rest
    else b :: insertSorted a rest

/-- The elements of a list, sorted and each once. -/
def sortedSet (l : List α) : List α :=
  l.foldr insertSorted []

theorem mem_insertSorted (a b : α) (l : List α) : b ∈ insertSorted a l ↔ b = a ∨ b ∈ l := by
  induction l with
  | nil => simp [insertSorted]
  | cons c l ih =>
    simp only [insertSorted]
    by_cases hc : c = a
    · subst hc; simp
    · by_cases hl : (compare a c).isLT = true
      · simp [hc, hl]
      · simp [hc, hl, ih]; grind

@[simp] theorem mem_sortedSet (b : α) (l : List α) : b ∈ sortedSet l ↔ b ∈ l := by
  induction l with
  | nil => simp [sortedSet]
  | cons a l ih =>
    rw [show sortedSet (a :: l) = insertSorted a (sortedSet l) from rfl, mem_insertSorted, ih]
    simp

section Ascending

variable [Std.TransOrd α] [Std.LawfulEqOrd α]

omit [DecidableEq α] [Std.LawfulEqOrd α] in
theorem ne_of_compare_lt {a b : α} (h : compare a b = .lt) : a ≠ b := by
  rintro rfl
  rw [show compare a a = .eq from Std.ReflCmp.compare_self] at h
  cases h

theorem pairwise_insertSorted (a : α) {l : List α} (h : l.Pairwise (compare · · = .lt)) :
    (insertSorted a l).Pairwise (compare · · = .lt) := by
  induction l with
  | nil => simp [insertSorted]
  | cons b l ih =>
    obtain ⟨hb, hl⟩ := List.pairwise_cons.1 h
    simp only [insertSorted]
    split
    · exact h
    · rename_i hne
      split
      · rename_i hlt
        have hab : compare a b = .lt := Ordering.isLT_iff_eq_lt.1 hlt
        refine List.pairwise_cons.2 ⟨fun c hc => ?_, h⟩
        rcases List.mem_cons.1 hc with rfl | hc
        · exact hab
        · exact Std.TransCmp.lt_trans hab (hb c hc)
      · rename_i hlt
        -- neither equal nor before it, so the new element comes after
        have hba : compare b a = .lt := by
          rw [show compare b a = (compare a b).swap from Std.OrientedCmp.eq_swap]
          cases hc : compare a b with
          | lt => exact absurd (by rw [hc]; rfl) hlt
          | eq => exact absurd (Std.LawfulEqCmp.eq_of_compare hc).symm hne
          | gt => rfl
        refine List.pairwise_cons.2 ⟨fun c hc => ?_, ih hl⟩
        rcases (mem_insertSorted a c l).1 hc with rfl | hc
        · exact hba
        · exact hb c hc

theorem pairwise_sortedSet (l : List α) : (sortedSet l).Pairwise (compare · · = .lt) := by
  induction l with
  | nil => exact .nil
  | cons a l ih => exact pairwise_insertSorted a ih

theorem nodup_sortedSet (l : List α) : (sortedSet l).Nodup :=
  (pairwise_sortedSet l).imp ne_of_compare_lt

omit [Std.LawfulEqOrd α] in
theorem sortedSet_of_pairwise {l : List α} (h : l.Pairwise (compare · · = .lt)) :
    sortedSet l = l := by
  induction l with
  | nil => rfl
  | cons a l ih =>
    obtain ⟨ha, hl⟩ := List.pairwise_cons.1 h
    rw [show sortedSet (a :: l) = insertSorted a (sortedSet l) from rfl, ih hl]
    cases l with
    | nil => rfl
    | cons b l =>
      have hab := ha b List.mem_cons_self
      simp [insertSorted, (ne_of_compare_lt hab).symm, hab]

/-- Sorting a sorted set changes nothing. -/
theorem sortedSet_sortedSet (l : List α) : sortedSet (sortedSet l) = sortedSet l :=
  sortedSet_of_pairwise (pairwise_sortedSet l)

end Ascending

end SortedSet

end Rulewright
