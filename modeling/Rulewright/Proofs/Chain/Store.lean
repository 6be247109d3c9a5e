import Rulewright.Proofs.Chain.Pattern

/-!
# Chains in a store

The operations that build a matcher change one sequence of a chain, and the head of that sequence
stays where it is. So the store owns the rest of the chain as before.

* `Owns.lift`: a change of the sequence some branches down is a change of the chain.
* `Owns.replace_mark`, `Owns.append_open`, `Owns.leave`: the three changes.
* `Owns.findPlaceholder?_mark`, `Owns.firstBranch?_eq`: the two searches.
-/

namespace Rulewright

namespace Stmt

variable {ι κ : Type}

theorem hole?_map_all (f : ι → κ) :
    (∀ s : Stmt ι, (s.map f).hole? = s.hole?.map f) ∧
      ∀ ts : List (Stmt ι), holeAll? (mapAll f ts) = (holeAll? ts).map f := by
  apply Stmt.induct
  case line =>
    intro id x comment off
    simp only [map, hole?]
    split_ifs <;> rfl
  case branch =>
    intro id guard t e es ht he hes
    simp only [map, hole?, ht, he, hes]
    cases holeAll? t <;> cases holeAll? e <;> rfl
  case nil => rfl
  case cons =>
    intro s rest hs hrest
    simp only [mapAll, holeAll?, hs, hrest]
    cases s.hole? <;> rfl

theorem isQuiet_map_all (f : ι → κ) :
    (∀ s : Stmt ι, (s.map f).isQuiet = s.isQuiet) ∧
      ∀ ts : List (Stmt ι), isQuietAll (mapAll f ts) = isQuietAll ts := by
  apply Stmt.induct
  case line => exact fun _ _ _ _ => rfl
  case branch =>
    intro id guard t e es ht he hes
    simp only [map, isQuiet, ht, he, hes]
  case nil => rfl
  case cons =>
    intro s rest hs hrest
    simp only [mapAll, isQuietAll, hs, hrest]

theorem isMeaningful_map (f : ι → κ) (s : Stmt ι) : (s.map f).isMeaningful = s.isMeaningful := by
  cases s <;> rfl

theorem isBranch_map (f : ι → κ) (s : Stmt ι) : (s.map f).isBranch = s.isBranch := by
  cases s <;> rfl

end Stmt

namespace Chain

open Stmt

variable {ι : Type} {k : Chain ι} {depth : Nat}

/-! ### Properties that do not depend on labels -/

theorem tidyLine_of_strip {ts : List (Stmt ι)} (h : TidyLine (Stmt.strip ts)) : TidyLine ts where
  ne_nil := strip_ne_nil.1 h.ne_nil
  solid := (solidAll_strip ts).1 h.solid
  no_hole := by
    have := h.no_hole
    rwa [Stmt.strip, (hole?_map_all fun _ => ()).2 ts, Option.map_eq_none_iff] at this
  first := by
    intro s hs
    rw [← isBranch_map (fun _ => ())]
    refine h.first _ ?_
    rw [Stmt.strip, mapAll_eq_map, List.find?_map]
    have : isMeaningful ∘ Stmt.map (fun _ : ι => ()) = isMeaningful := funext (isMeaningful_map _)
    rw [this, hs]; rfl
  quiet := by rw [← (isQuiet_map_all fun _ => ()).2 ts]; exact h.quiet

theorem tidy_of_strip (h : k.strip.Tidy) : k.Tidy := by
  induction k with
  | hole before mark after => exact tidyLine_of_strip h
  | under before check guard inner otherwise after ih => exact ⟨tidyLine_of_strip h.1, ih h.2⟩

theorem any_isMeaningful_strip (ts : List (Stmt ι)) :
    (Stmt.strip ts).any isMeaningful = ts.any isMeaningful := by
  rw [Stmt.strip, mapAll_eq_map, List.any_map]
  exact congrArg ts.any (funext (isMeaningful_map _))

theorem busy_of_strip (h : k.strip.Busy) : k.Busy := by
  cases k with
  | hole before mark after => exact (any_isMeaningful_strip before).symm.trans h
  | under before check guard inner otherwise after => trivial

theorem isOpen_of_strip (h : k.strip.IsOpen depth) : k.IsOpen depth := by
  induction k generalizing depth with
  | hole before mark after =>
    cases depth with
    | zero => cases mark with
      | none => cases after with
        | nil => trivial
        | cons id rest => exact h.elim
      | some mark => exact h.elim
    | succ depth => exact h.elim
  | under before check guard inner otherwise after ih =>
    cases depth with
    | zero => exact h.elim
    | succ depth => cases after with
      | nil => exact ih h
      | cons id rest => exact h.elim

theorem guard_front?_strip {α : Type} (f : Guard → Option α) (k : Chain ι) :
    (k.strip.front?.bind fun x => f x.guard) = k.front?.bind fun x => f x.guard := by
  cases k with
  | hole before mark after => rfl
  | under before check guard inner otherwise after =>
    change ((if (Stmt.strip before).any isMeaningful then none else some _).bind _) =
      (if _ then none else some _).bind _
    rw [any_isMeaningful_strip]
    split_ifs <;> rfl

theorem joinGuard?_strip (k r : Chain ι) : joinGuard? k.strip r.strip = joinGuard? k r := by
  rw [joinGuard?, guard_front?_strip, guard_front?_strip]; rfl

theorem strip_setGuard (guard : Guard) (k : Chain ι) :
    (k.setGuard guard).strip = k.strip.setGuard guard := by
  cases k <;> rfl

theorem strip_body (k : Chain ι) : k.body.strip = k.strip.body := by
  cases k <;> rfl

theorem strip_surround_noop (new : ι) (k : Chain ι) :
    (k.surround [noop new] []).strip = k.strip.surround [noop ()] [] :=
  map_surround _ _ _ k

@[simp] theorem strip_attach (joins : Bool) (new : ι) (k r : Chain ι) :
    (k.attach joins new r).strip = k.strip.attach joins () r.strip := by
  unfold attach
  rw [joinGuard?_strip]
  split
  · rw [strip_plug, strip_setGuard, strip_surround_noop, strip_body]
  · rw [strip_plug]

/-! ### The sequences of a chain -/

/-- The cells of a chain outside of the body of its outermost branch, whose head is `start`. -/
def shell (link : Link) (before : List (Stmt NodeId)) (check : NodeId) (guard : Guard)
    (start otherwise : NodeId) (after : List NodeId) : Multiset Cell :=
  cells link (some check) before +
    {(check,
      { kind := .branch ⟨guard, start, otherwise, []⟩, comment := none, commentedOut := false,
        link := linkAfter link before, next := start? (after.map placeholder) })} +
    cells (.childOf check .elseBody) none [noop otherwise] +
    cells (.after check) none (after.map placeholder)

theorem cells_under (link : Link) (before : List (Stmt NodeId)) (check : NodeId) (guard : Guard)
    (ts : List (Stmt NodeId)) (otherwise : NodeId) (after : List NodeId) :
    cells link none
      (before ++ .branch check guard ts [noop otherwise] [] :: after.map placeholder) =
      cells (.childOf check .thenBody) none ts +
        shell link before check guard (start ts) otherwise after := by
  rw [cells_append, cells_cons, bodyCells_branch, elseIfCells_nil, start?_cons, Option.some_or,
    Option.or_none, id_branch, shell]
  simp only [Stmt.node, start_cons, id_noop, List.map_nil]
  abel

theorem start_fill {k : Chain NodeId} (h : k.before ≠ []) (ts : List (Stmt NodeId)) :
    start (k.fill ts) = start k.before := by
  cases k with
  | hole before mark after => exact start_append h _
  | under before check guard inner otherwise after => exact start_append h _

theorem start_code {k : Chain NodeId} (h : k.before ≠ []) : start k.code = start k.before :=
  start_fill h _

/-- The head of the sequence `depth` branches down. -/
def target : Nat → Chain NodeId → NodeId
  | 0, k => start k.before
  | depth + 1, .under _ _ _ inner _ _ => inner.target depth
  | _ + 1, .hole before _ _ => start before

/-- There are at least `depth` branches. -/
def Reaches : Nat → Chain ι → Prop
  | 0, _ => True
  | depth + 1, .under _ _ _ inner _ _ => inner.Reaches depth
  | _ + 1, .hole _ _ _ => False

theorem target_plug {k : Chain NodeId} (hk : k.Tidy) (h : k.Reaches depth) (r : Chain NodeId) :
    (k.plug r).target depth = k.target depth := by
  induction k generalizing depth with
  | hole before mark after =>
    cases depth with
    | zero =>
      change start (r.surround before after).before = start before
      rw [before_surround, start_append hk.ne_nil]
    | succ depth => exact h.elim
  | under before check guard inner otherwise after ih =>
    cases depth with
    | zero => rfl
    | succ depth => exact ih hk.2 h

theorem target_setGuard (guard : Guard) (depth : Nat) (k : Chain NodeId) :
    (k.setGuard guard).target depth = k.target depth := by
  cases k <;> cases depth <;> rfl

/-- The first placeholder in the order of a walk. -/
def firstHole? : Chain ι → Option ι
  | .hole _ mark after => mark.or after.head?
  | .under _ _ _ inner _ after => inner.firstHole?.or after.head?

theorem holeAll?_placeholders (ids : List ι) : holeAll? (ids.map placeholder) = ids.head? := by
  cases ids <;> rfl

theorem holeAll?_code (h : k.Tidy) : holeAll? k.code = k.firstHole? := by
  induction k with
  | hole before mark after =>
    rw [code, mark?, fill, holeAll?_append, h.no_hole, holeAll?_append, holeAll?_placeholders,
      firstHole?]
    cases mark <;> rfl
  | under before check guard inner otherwise after ih =>
    rw [code, mark?, fill, holeAll?_append, h.1.no_hole, holeAll?, holeAll?_placeholders,
      firstHole?, hole?]
    rw [show holeAll? [noop otherwise] = none from rfl,
      show holeAll? ([] : List (Stmt ι)) = none from rfl]
    rw [← ih h.2, code]
    simp

theorem firstHole?_of_mark {id : ι} (h : k.mark? = some id) : k.firstHole? = some id := by
  induction k with
  | hole before mark after => rw [mark?] at h; rw [firstHole?, h]; rfl
  | under before check guard inner otherwise after ih => rw [firstHole?, ih h]; rfl

theorem firstHole?_of_isOpen (h : k.IsOpen depth) : k.firstHole? = none := by
  induction h using isOpen_induct with
  | hole before => rfl
  | under depth before check guard inner otherwise h ih => rw [firstHole?, ih]; rfl

theorem IsOpen.reaches (h : k.IsOpen depth) : k.Reaches depth := by
  induction h using isOpen_induct with
  | hole before => trivial
  | under depth before check guard inner otherwise h ih => exact ih

theorem Reaches.attach (h : k.Reaches depth) (joins : Bool) (new : ι) (r : Chain ι) :
    (k.attach joins new r).Reaches depth := by
  have plug : ∀ (k : Chain ι) (depth : Nat), k.Reaches depth → ∀ r, (k.plug r).Reaches depth := by
    intro k
    induction k with
    | hole before mark after => intro depth h r; cases depth <;> trivial
    | under before check guard inner otherwise after ih =>
      intro depth h r
      cases depth with
      | zero => trivial
      | succ depth => exact ih depth h r
  have hset : ∀ guard, (k.setGuard guard).Reaches depth :=
    fun guard => by cases k <;> cases depth <;> exact h
  unfold Chain.attach
  split
  · exact plug _ _ (hset _) _
  · exact plug _ _ h _

theorem target_attach {k : Chain NodeId} (hk : k.Tidy) (h : k.Reaches depth) (joins : Bool)
    (new : NodeId) (r : Chain NodeId) : (k.attach joins new r).target depth = k.target depth := by
  have hset : ∀ guard, (k.setGuard guard).Reaches depth :=
    fun guard => by cases k <;> cases depth <;> exact h
  unfold attach
  split
  · rw [target_plug (hk.setGuard _) (hset _), target_setGuard]
  · exact target_plug hk h r

theorem solidAll_fill (h : k.Tidy) {ts : List (Stmt ι)} (hts : SolidAll ts) :
    SolidAll (k.fill ts) := by
  have hafter : ∀ ids : List ι, SolidAll (ids.map placeholder) := by
    intro ids
    rw [solidAll_iff]
    intro s hs
    obtain ⟨id, -, rfl⟩ := List.mem_map.1 hs
    trivial
  induction k with
  | hole before mark after =>
    exact (solidAll_append _ _).2 ⟨h.solid, (solidAll_append _ _).2 ⟨hts, hafter after⟩⟩
  | under before check guard inner otherwise after ih =>
    have hne : inner.fill ts ≠ [] := by
      have := h.2.before.ne_nil
      cases inner <;> simp_all [fill, Chain.before]
    exact (solidAll_append _ _).2
      ⟨h.1.solid, ⟨hne, by simp, ih h.2, ⟨trivial, trivial⟩, trivial⟩, hafter after⟩

theorem solidAll_code (h : k.Tidy) : SolidAll k.code := by
  refine solidAll_fill h ?_
  cases k.mark? <;> simp [SolidAll, Solid, placeholder, fresh]

theorem fill_ne_nil (h : k.Tidy) (ts : List (Stmt ι)) : k.fill ts ≠ [] := by
  have := h.before.ne_nil
  cases k <;> simp_all [fill, Chain.before]

theorem code_ne_nil (h : k.Tidy) : k.code ≠ [] := fill_ne_nil h _

end Chain

namespace Code.Owns

open Stmt Chain

variable {c : Code} {m : Multiset Cell} {link : Link} {k : Chain NodeId}

/-- A sequence in the place of the mark of a chain. -/
theorem replace_mark {mark : NodeId} (hk : k.Tidy) (hm : k.mark? = some mark)
    {ts : List (Stmt NodeId)} (hts : ts ≠ [])
    (h : c.Owns (cells link none k.code + (cells .root none ts + m))) :
    (c.replace mark (start ts)).Owns (cells link none (k.fill ts) + m) := by
  rw [code, hm] at h
  induction k generalizing link m with
  | hole before mark' after => 
    rw [fill] at h ⊢
    have h1 := replace (hk.ne_nil) hts (h.of_eq rfl)
    rwa [List.append_assoc] at h1
  | under before check guard inner otherwise after ih =>
    rw [fill, cells_under] at h
    have hs := start_fill hk.2.before.ne_nil
    have h1 :=
      ih hk.2 hm (h.of_eq (w :=
        cells (.childOf check .thenBody) none (inner.fill _) +
          (cells .root none ts +
            (shell link before check guard (start (inner.fill _)) otherwise after + m))) (by abel))
    refine h1.of_eq ?_
    rw [fill, cells_under, hs, hs]
    abel

/-- A sequence at the end of the innermost one of a chain without placeholders. -/
theorem append_open {depth : Nat} (hk : k.Tidy) (ho : k.IsOpen depth) {ts : List (Stmt NodeId)}
    (hts : ts ≠ []) (h : c.Owns (cells link none k.code + (cells .root none ts + m))) :
    (c.append (k.target depth) (start ts)).Owns (cells link none (k.fill ts) + m) := by
  induction ho using isOpen_induct generalizing link m with
  | hole before =>
    have h1 :=
      append hk.ne_nil hts (h.of_eq (w := cells link none before + (cells .root none ts + m))
        (by simp [code, fill, mark?]))
    simpa [fill, target, Chain.before] using h1
  | under depth before check guard inner otherwise ho ih =>
    rw [code, fill, cells_under] at h
    have h1 :=
      ih hk.2 (h.of_eq (w :=
        cells (.childOf check .thenBody) none inner.code +
          (cells .root none ts +
            (shell link before check guard (start (inner.fill _)) otherwise [] + m)))
        (by rw [code, mark?]; abel))
    refine h1.of_eq ?_
    rw [fill, cells_under, start_fill hk.2.before.ne_nil, start_fill hk.2.before.ne_nil]
    abel

/-- A placeholder at the end of a sequence of a chain. -/
theorem leave {depth : Nat} (hk : k.Tidy) (hr : k.Reaches depth)
    (hm : k.mark?.isSome ∨ k.IsOpen depth) (h : c.Owns (cells link none k.code + m)) :
    ((c.push (.fresh .placeholder)).append (k.target depth) c.size).Owns
      (cells link none (k.leave c.size depth).code + m) := by
  induction k generalizing link m depth with
  | hole before mark after =>
    cases depth with
    | succ depth => exact hr.elim
    | zero =>
      have h1 := h.appendLine (code_ne_nil hk) .placeholder
      rw [start_code hk.before.ne_nil] at h1
      refine h1.of_eq ?_
      cases mark with
      | some mark => simp [code, fill, Chain.leave, mark?, placeholder]
      | none => cases after with
        | nil => simp [code, fill, Chain.leave, mark?, placeholder]
        -- a point with lines behind it is not open
        | cons id rest => rcases hm with hm | hm <;> first | exact hm.elim | simp [mark?] at hm
  | under before check guard inner otherwise after ih =>
    cases depth with
    | zero =>
      have h1 := h.appendLine (code_ne_nil hk) .placeholder
      rw [start_code hk.before.ne_nil] at h1
      refine h1.of_eq ?_
      simp [code, fill, Chain.leave, mark?, placeholder]
    | succ depth =>
      have hm' : inner.mark?.isSome ∨ inner.IsOpen depth := by
        refine hm.imp id fun hm => ?_
        cases after with
        | nil => exact hm
        | cons id rest => exact hm.elim
      rw [code, fill, cells_under] at h
      have h1 :=
        ih hk.2 hr hm' (h.of_eq (w :=
          cells (.childOf check .thenBody) none inner.code +
            (shell link before check guard (start (inner.fill _)) otherwise after + m))
          (by rw [code, mark?]; abel))
      refine h1.of_eq ?_
      rw [Chain.leave, code, code, mark?, fill, cells_under, start_fill hk.2.before.ne_nil,
        start_fill (hk.2.leave c.size depth).before.ne_nil]
      -- the body still starts with the same node, so the branch keeps its entry
      have : start (inner.leave c.size depth).before = start inner.before := by
        cases inner with
        | hole before' mark' after' => cases depth <;> cases mark' <;> rfl
        | under before' check' guard' inner' otherwise' after' => cases depth <;> rfl
      rw [this]
      abel

theorem findPlaceholder?_mark {mark : NodeId} (hk : k.Tidy) (hm : k.mark? = some mark)
    (h : c.Owns (cells link none k.code + m)) : c.findPlaceholder? (start k.code) = some mark := by
  rw [h.findPlaceholder?_eq (solidAll_code hk) (code_ne_nil hk), holeAll?_code hk,
    firstHole?_of_mark hm]

theorem findPlaceholder?_open {depth : Nat} (hk : k.Tidy) (ho : k.IsOpen depth)
    (h : c.Owns (cells link none k.code + m)) : c.findPlaceholder? (start k.code) = none := by
  rw [h.findPlaceholder?_eq (solidAll_code hk) (code_ne_nil hk), holeAll?_code hk,
    firstHole?_of_isOpen ho]

end Code.Owns

end Rulewright
