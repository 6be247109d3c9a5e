import Rulewright.Proofs.Fusion.Plain
import Rulewright.Proofs.Guard.Text
import Rulewright.Proofs.Matching.Entry
import Rulewright.Proofs.Scope.Pattern

/-!
# What a guard opens

If no operand of a pattern is optional, then a guard that fixes the number of operands of a node is
followed by the definitions of these operands, and by no others before the next guard. The text of
the guard tells how many there are, if operators are used with the counts they take. So guards with
one text are followed by definitions of the same temporaries.

* `Guard.opens`: the operands of the node that a guard fixes, `opens_eq_of_equals`: they are told by
  its text.
* `Stmt.opening`: the temporaries that are introduced before the last branch of a sequence.
* `Stmt.OpensAs`: how the temporaries behind each guard on the way down a tree are related to what
  the guard opens.
* `opensAs_ruleCode`: behind the guards of a rule are the temporaries that they open.
-/

namespace Rulewright

/-! ### Guards -/

/-- The trails of the first operands of a node. -/
def Trail.operands (t : Trail) (count : Nat) : List Trail := (List.range' 0 count).map t.child

/-- The number of operands that a check for an operator alone implies. -/
def Language.impliedCount (l : Language) (count : String → Nat) (name : String) : Nat :=
  if l.id? name = none ∨ l.declarationState name = some .overloaded then 0
  else
    match l.arities? name with
    | some counts => counts.headD 0
    | none => count name

theorem Language.impliedCount_of_takes {l : Language} {count : String → Nat} {name : String}
    {n : Nat} (hid : l.id? name ≠ none) (hstate : l.declarationState name ≠ some .overloaded)
    (h : Expr.takes l count name n) : l.impliedCount count name = n := by
  have htakes : Expr.takes l count name (l.impliedCount count name) := by
    rw [impliedCount, if_neg (not_or.2 ⟨hid, hstate⟩)]
    unfold Expr.takes at h ⊢
    cases hc : l.arities? name with
    | none => rfl
    | some counts =>
      rw [hc] at h
      cases counts with
      | nil => cases h
      | cons first rest => exact List.mem_cons_self
  exact Matcher.eq_of_takes hstate htakes h

variable {l : Language} {count : String → Nat}

/-- The operands of the node whose operand count the clause fixes. -/
def Clause.opens (l : Language) (count : String → Nat) : Clause → List Trail
  | .equation (.node t .count) (.number n) | .equation (.number n) (.node t .count) => t.operands n
  | .equation (.node t .operator) (.operatorName name) => t.operands (l.impliedCount count name)
  | _ => []

theorem Reading.Alike.eq_or {a b : Reading} (h : a.Alike b) :
    a = b ∨ ∃ x y, a = .double x ∧ b = .double y := by
  unfold Alike at h
  split at h
  · exact Or.inr ⟨_, _, rfl, rfl⟩
  · exact Or.inl h

theorem Clause.Alike.opens_eq {c d : Clause} (h : c.Alike d) :
    c.opens l count = d.opens l count := by
  -- a literal opens nothing, on whichever side it stands
  have hleft : ∀ x (r : Reading), (Clause.equation (.double x) r).opens l count = [] :=
    fun x r => by cases r <;> rfl
  have hright : ∀ (r : Reading) x, (Clause.equation r (.double x)).opens l count = [] := by
    intro r x
    cases r with
    | node t query => cases query <;> rfl
    | _ => rfl
  cases c with
  | flag r =>
    cases d with
    | flag r' => rfl
    | equation left right => exact h.elim
  | equation left right =>
    cases d with
    | flag r' => exact h.elim
    | equation left' right' =>
      rcases h.1.eq_or with rfl | ⟨x, y, rfl, rfl⟩
      · rcases h.2.eq_or with rfl | ⟨x, y, rfl, rfl⟩
        · rfl
        · rw [hright, hright]
      · rw [hleft, hleft]

namespace Guard

/-- The operands of the node whose operand count the guard fixes. -/
def opens (l : Language) (count : String → Nat) (g : Guard) : List Trail :=
  g.clauses.flatMap (Clause.opens l count)

/-- **Guards with one text open the same operands.** -/
theorem opens_eq_of_equals {a b : Guard} (h : a.equals b = true) :
    a.opens l count = b.opens l count := by
  have halike := clauses_alike h
  unfold opens
  generalize a.clauses = cs, b.clauses = ds at halike
  induction halike with
  | nil => rfl
  | cons hhead _ ih => rw [List.flatMap_cons, List.flatMap_cons, hhead.opens_eq, ih]

theorem opens_of_operandCountCheck? {g : Guard} {t : Trail} {n : Nat}
    (h : g.operandCountCheck? = some (t, n)) : g.opens l count = t.operands n := by
  unfold operandCountCheck? at h
  split at h
  · cases h
    exact List.append_nil _
  · cases h
    exact List.append_nil _
  · cases h

theorem opens_of_operatorPairing? {g : Guard} {first second : Trail}
    (h : g.operatorPairing? = some (first, second)) : g.opens l count = [] := by
  unfold operatorPairing? at h
  split at h
  · rfl
  · cases h

theorem opens_anyway (c : AnywayComparison) :
    (anyway c).opens l count = c.countAt.operands c.count := by
  -- an operator that is read from a parent is compared with another one, not with a name
  have hbelow : ∀ t : Trail,
      (∃ t' q, Reading.operatorBelow t = .node t' q ∧
        (q = .operator ∨ ∃ i, q = .operatorOf i)) := by
    intro t
    rcases Trail.root_or_child t with rfl | ⟨parent, index, rfl⟩
    · exact ⟨_, _, rfl, Or.inl rfl⟩
    · refine ⟨parent, .operatorOf index, ?_, Or.inr ⟨index, rfl⟩⟩
      rw [Reading.operatorBelow, Trail.split?_child]
  unfold opens clauses
  dsimp only
  split_ifs
  · obtain ⟨t', q, hq, rfl | ⟨i, rfl⟩⟩ := hbelow c.second <;> rw [hq] <;> exact List.append_nil _
  · obtain ⟨t', q, hq, rfl | ⟨i, rfl⟩⟩ := hbelow c.first <;> rw [hq] <;> exact List.append_nil _

theorem opens_structurallyEqual (pairs : List (Trail × Trail)) :
    (structurallyEqual pairs).opens l count = [] := by
  rw [opens, clauses, List.flatMap_map]
  exact List.flatMap_eq_nil_iff.2 fun _ _ => rfl

end Guard

/-! ### Sequences -/

namespace Stmt

/-- The temporary that a line introduces. -/
def introduced : Stmt Unit → List Trail
  | .line _ (.definition target _ true) _ false => [target]
  | .line _ (.declaration target) _ false => [target]
  | _ => []

def introducedAll (ts : List (Stmt Unit)) : List Trail := ts.flatMap introduced

/-- The statements before the last branch. -/
def lead (ts : List (Stmt Unit)) : List (Stmt Unit) := ((lastFork? ts).map Fork.before).getD ts

/-- The temporaries that are introduced before the last branch. -/
def opening (ts : List (Stmt Unit)) : List Trail := introducedAll (lead ts)

theorem introducedAll_append (xs ys : List (Stmt Unit)) :
    introducedAll (xs ++ ys) = introducedAll xs ++ introducedAll ys := List.flatMap_append

theorem introduced_calm (s : Stmt Unit) : s.calm.introduced = s.introduced := by
  cases s with
  | branch id guard t e es => rfl
  | line id content comment off => cases content <;> rfl

theorem introducedAll_calm (ts : List (Stmt Unit)) :
    introducedAll (calmAll ts) = introducedAll ts := by
  induction ts with
  | nil => rfl
  | cons s rest ih =>
    change s.calm.introduced ++ introducedAll (calmAll rest) = s.introduced ++ introducedAll rest
    rw [introduced_calm, ih]

theorem introducedAll_placeholders (ids : List Unit) :
    introducedAll (ids.map placeholder) = [] := by
  rw [introducedAll, List.flatMap_map]
  exact List.flatMap_eq_nil_iff.2 fun _ _ => rfl

theorem opening_of_fork {ts : List (Stmt Unit)} {f : Fork Unit} (h : lastFork? ts = some f) :
    opening ts = introducedAll f.before := by
  rw [opening, lead, h]
  rfl

theorem opening_of_leaf {ts : List (Stmt Unit)} (h : lastFork? ts = none) :
    opening ts = introducedAll ts := by
  rw [opening, lead, h]
  rfl

/-- The fork of a sequence with further lines around it. -/
theorem lastFork?_around {xs ys : List (Stmt Unit)} (ts : List (Stmt Unit))
    (hx : ∀ s ∈ xs, s.isBranch = false) (hy : ∀ s ∈ ys, s.isBranch = false) :
    lastFork? (xs ++ (ts ++ ys)) =
      (lastFork? ts).map fun f => { f with before := xs ++ f.before, after := f.after ++ ys } := by
  cases h : lastFork? ts with
  | none =>
    refine lastFork?_eq_none.2 fun s hs => ?_
    rcases List.mem_append.1 hs with hs | hs
    · exact hx s hs
    · exact (List.mem_append.1 hs).elim (lastFork?_eq_none.1 h s) (hy s)
  | some f =>
    obtain ⟨rfl, hafter⟩ := lastFork?_eq_some h
    have hcode : xs ++ (f.code ++ ys) =
        Fork.code { f with before := xs ++ f.before, after := f.after ++ ys } := by
      simp only [Fork.code, Fork.rest, List.append_assoc, List.cons_append]
    rw [hcode]
    exact lastFork?_code fun s hs => (List.mem_append.1 hs).elim (hafter s) (hy s)

theorem opening_around {xs ys : List (Stmt Unit)} (ts : List (Stmt Unit))
    (hx : ∀ s ∈ xs, s.isBranch = false) (hy : ∀ s ∈ ys, s.isBranch = false)
    (hquiet : introducedAll ys = []) :
    opening (xs ++ (ts ++ ys)) = introducedAll xs ++ opening ts := by
  cases h : lastFork? ts with
  | none =>
    have haround := lastFork?_around ts hx hy
    rw [h] at haround
    rw [opening_of_leaf haround, opening_of_leaf h, introducedAll_append, introducedAll_append,
      hquiet, List.append_nil]
  | some f =>
    have haround := lastFork?_around ts hx hy
    rw [h] at haround
    rw [opening_of_fork haround, opening_of_fork h]
    exact introducedAll_append xs f.before

/-- On the way down from last branch to last branch, what is introduced behind a guard is related to
what it opens. -/
inductive OpensAs (R : List Trail → List Trail → Prop) (l : Language) (count : String → Nat) :
    List (Stmt Unit) → Prop where
  | leaf {ts : List (Stmt Unit)} (h : lastFork? ts = none) : OpensAs R l count ts
  | fork {ts : List (Stmt Unit)} {f : Fork Unit} (h : lastFork? ts = some f)
      (opens : R (opening f.thenBody) (f.guard.opens l count))
      (thenBody : OpensAs R l count f.thenBody) (elseBody : OpensAs R l count f.elseBody) :
      OpensAs R l count ts

namespace OpensAs

variable {R : List Trail → List Trail → Prop} {ts : List (Stmt Unit)}

theorem of_fork (h : OpensAs R l count ts) {f : Fork Unit} (hf : lastFork? ts = some f) :
    R (opening f.thenBody) (f.guard.opens l count) ∧ OpensAs R l count f.thenBody ∧
    OpensAs R l count f.elseBody := by
  cases h with
  | leaf h =>
    rw [hf] at h
    cases h
  | fork h opens thenBody elseBody =>
    cases hf.symm.trans h
    exact ⟨opens, thenBody, elseBody⟩

theorem around (h : OpensAs R l count ts) {xs ys : List (Stmt Unit)}
    (hx : ∀ s ∈ xs, s.isBranch = false) (hy : ∀ s ∈ ys, s.isBranch = false) :
    OpensAs R l count (xs ++ (ts ++ ys)) := by
  cases h with
  | leaf h => exact .leaf (by rw [lastFork?_around ts hx hy, h]; rfl)
  | @fork _ f h opens thenBody elseBody =>
    have haround := lastFork?_around ts hx hy
    rw [h] at haround
    exact .fork haround opens thenBody elseBody

theorem line (s : Stmt Unit) (h : s.isBranch = false) : OpensAs R l count [s] :=
  .leaf (lastFork?_eq_none.2 (List.forall_mem_singleton.2 h))

end OpensAs

end Stmt

/-! ### Chains -/

namespace Chain

open Stmt

variable {k r : Chain Unit}

/-- The temporaries that are introduced before the first branch. -/
def opening (k : Chain Unit) : List Trail := introducedAll k.before

/-- Behind each guard are the temporaries that it opens. -/
def Exact (l : Language) (count : String → Nat) : Chain Unit → Prop
  | .hole _ _ _ => True
  | .under _ _ guard inner _ _ => inner.opening = guard.opens l count ∧ inner.Exact l count

theorem opening_surround (xs : List (Stmt Unit)) (ids : List Unit) (k : Chain Unit) :
    (k.surround xs ids).opening = introducedAll xs ++ k.opening := by
  rw [opening, before_surround, introducedAll_append, opening]

theorem exact_surround {xs : List (Stmt Unit)} {ids : List Unit} :
    (k.surround xs ids).Exact l count ↔ k.Exact l count := by
  cases k <;> exact Iff.rfl

/-- A chain that introduces nothing before its first branch is plugged in. -/
theorem Exact.plug (hk : k.Exact l count) (hr : r.Exact l count) (hopening : r.opening = []) :
    (k.plug r).Exact l count ∧ (k.plug r).opening = k.opening := by
  induction k with
  | hole before mark after =>
    refine ⟨exact_surround.2 hr, ?_⟩
    rw [Chain.plug, opening_surround, hopening, List.append_nil]
    rfl
  | under before check guard inner otherwise after ih =>
    obtain ⟨hexact, hsame⟩ := ih hk.2
    exact ⟨⟨hsame.trans hk.1, hexact⟩, rfl⟩

theorem before_leave (depth : Nat) (k : Chain Unit) : (k.leave () depth).before = k.before := by
  cases k with
  | hole before mark after => cases depth <;> cases mark <;> rfl
  | under before check guard inner otherwise after => cases depth <;> rfl

theorem opening_leave (depth : Nat) (k : Chain Unit) : (k.leave () depth).opening = k.opening := by
  rw [opening, before_leave, opening]

theorem Exact.leave (hk : k.Exact l count) (depth : Nat) : (k.leave () depth).Exact l count := by
  induction k generalizing depth with
  | hole before mark after => cases depth <;> cases mark <;> trivial
  | under before check guard inner otherwise after ih =>
    cases depth with
    | zero => exact hk
    | succ depth => exact ⟨(opening_leave depth inner).trans hk.1, ih hk.2 depth⟩

/-- A joined guard opens what the count of operands opened, and the comparison that it takes in
opened nothing. -/
theorem Exact.attach (hk : k.Exact l count) (hr : r.Exact l count) (hopening : r.opening = [])
    (joins : Bool) :
    (k.attach joins () r).Exact l count ∧ (k.attach joins () r).opening = k.opening := by
  unfold Chain.attach
  split
  · rename_i g hg
    split_ifs at hg
    obtain ⟨x, y, countAt, first, second, n, halign, hx, hy, hcount, hpair, rfl⟩ :=
      joinGuard?_eq_some hg
    obtain ⟨before, after, rfl⟩ := eq_under_of_front? hx
    obtain ⟨before', after', rfl⟩ := eq_under_of_front? hy
    have hset : (Chain.under before x.check (.anyway ⟨countAt, first, second, n, halign⟩) x.inner
        x.otherwise after).Exact l count := by
      refine ⟨hk.1.trans ?_, hk.2⟩
      rw [Guard.opens_of_operandCountCheck? hcount, Guard.opens_anyway]
    have hinner : (y.inner.surround [noop ()] []).opening = [] := by
      rw [opening_surround, hr.1, Guard.opens_of_operatorPairing? hpair]
      rfl
    exact hset.plug (exact_surround.2 hr.2) hinner
  · exact hk.plug hr hopening

end Chain

/-! ### Patterns -/

namespace Matcher

open Stmt Chain

variable {o : Options} {t : Trail}

/-- Operators are used with the counts they take, by names of the language, and no operand is
optional. -/
structure Regular (l : Language) (count : String → Nat) (p : Expr) : Prop where
  plain : p.hasOptional = false
  read : p.IsRead l
  counts : p.UsesCounts l count

/-- What is known of a node of such a pattern. -/
structure RegularNode (l : Language) (count : String → Nat) (shape : Shape) (operands : List Expr) :
    Prop where
  plain : ∀ p ∈ operands, p.hasOptional = false
  opens : ∀ t, (shape.guard l t operands.length).opens l count = t.operands operands.length

theorem allRead_iff {es : List Expr} : Expr.AllRead l es ↔ ∀ e ∈ es, e.IsRead l := by
  induction es with
  | nil => exact ⟨fun _ => List.forall_mem_nil _, fun _ => trivial⟩
  | cons e rest ih => rw [Expr.AllRead, ih, List.forall_mem_cons]

theorem allUseCounts_iff {es : List Expr} :
    Expr.AllUseCounts l count es ↔ ∀ e ∈ es, e.UsesCounts l count := by
  induction es with
  | nil => exact ⟨fun _ => List.forall_mem_nil _, fun _ => trivial⟩
  | cons e rest ih => rw [Expr.AllUseCounts, ih, List.forall_mem_cons]

theorem hereditary_regular : Hereditary (Regular l count) where
  app h e he :=
    ⟨Expr.hasOptionalAny_eq_false_iff.1 h.plain e he, allRead_iff.1 h.read.2 e he,
      allUseCounts_iff.1 h.counts.2 e he⟩
  anyway h e he :=
    ⟨Expr.hasOptionalAny_eq_false_iff.1 h.plain e he, allRead_iff.1 h.read e he,
      allUseCounts_iff.1 h.counts e he⟩
  compound h := ⟨h.plain, h.read, h.counts⟩

theorem default?_of_plain {p : Expr} (h : p.hasOptional = false) : p.default? = none := by
  refine Expr.default?_eq_none fun pattern default hp => ?_
  rw [← Expr.hasOptional_unwrap, hp] at h
  cases h

theorem describes_regular : Describes l (Regular l count) (RegularNode l count) where
  var {name} h := by
    refine ⟨List.forall_mem_nil _, fun t => ?_⟩
    have hid : l.id? name = none := h.read
    change (t.operands (l.impliedCount count name)) ++ [] = t.operands 0
    rw [Language.impliedCount, if_pos (Or.inl hid)]
    rfl
  literal _ := ⟨List.forall_mem_nil _, fun t => rfl⟩
  app {symbol operands} h := by
    have hplain := Expr.hasOptionalAny_eq_false_iff.1 h.plain
    refine ⟨hplain, fun t => ?_⟩
    have htakes : Expr.takes l count (l.name symbol) operands.length := by
      refine h.counts.1.resolve_left ?_
      rintro ⟨p, hp, hdefault⟩
      rw [default?_of_plain (hplain p hp)] at hdefault
      cases hdefault
    have hid : l.id? (l.name symbol) ≠ none := by
      rw [h.read.1]
      exact Option.some_ne_none _
    rw [Shape.guard]
    split
    · rename_i hstate
      change t.operands (l.impliedCount count (l.name symbol)) ++
        (t.operands operands.length ++ []) = _
      rw [Language.impliedCount, if_pos (Or.inr hstate), List.append_nil]
      rfl
    · rename_i hstate
      change t.operands (l.impliedCount count (l.name symbol)) ++ [] = _
      rw [Language.impliedCount_of_takes hid (fun h => hstate h) htakes, List.append_nil]
  anyway {group operands} h :=
    ⟨Expr.hasOptionalAny_eq_false_iff.1 h.plain, fun t => List.append_nil _⟩

theorem introducedAll_operandLines (t : Trail) (index n : Nat) :
    introducedAll (operandLines t index n) = (List.range' index n).map t.child := by
  induction n generalizing index with
  | zero => rfl
  | succ n ih =>
    rw [List.range'_succ, List.map_cons, ← ih (index + 1)]
    rfl

theorem exact_plainEntry (ho : o.skipRootGuard = false) {guard : Guard} {pending : Option Trail}
    {n : Nat} (hopens : guard.opens l count = t.operands n) :
    (plainEntry o t guard pending n).1.Exact l count ∧
    (plainEntry o t guard pending n).1.opening = [] := by
  have hinner : (Chain.hole (noop () :: operandLines t 0 n) none []).opening =
      guard.opens l count := by
    rw [hopens, Trail.operands, ← introducedAll_operandLines]
    rfl
  unfold plainEntry
  rw [ho, Bool.false_and, Bool.false_and]
  cases pending with
  | none => exact ⟨⟨hinner, trivial⟩, rfl⟩
  | some first => exact ⟨⟨rfl, hinner, trivial⟩, rfl⟩

/-- **Behind the guards of a chain** are the temporaries that they open. -/
theorem patternChain_exact (ho : o.skipRootGuard = false) {e : Expr} (he : Regular l count e)
    {groups groups' : Groups} {k : Chain Unit}
    (h : patternChain o l e t groups = some (some k, groups')) :
    k.Exact l count ∧ k.opening = [] := by
  refine (patternChain_induct_all (I := fun _ k => k.Exact l count ∧ k.opening = [])
    hereditary_regular describes_regular
    (fun depth hk => ⟨hk.1.leave depth, (opening_leave depth _).trans hk.2⟩) (fun hk hr => ?_)
    (fun hnode he => ?_)).1 e he t groups k groups' h
  · obtain ⟨hexact, hsame⟩ := hk.1.attach hr.1 hr.2 o.joinComparisons
    exact ⟨hexact, hsame.trans hk.2⟩
  · rw [entry_plain hnode.plain he]
    exact exact_plainEntry ho (hnode.opens _)

/-! ### Rules -/

variable {R : List Trail → List Trail → Prop}

theorem opensAs_fill (hR : ∀ xs, R xs xs) {k : Chain Unit} (hexact : k.Exact l count)
    (hplain : k.Plain) {ts : List (Stmt Unit)} (hts : OpensAs R l count (calmAll ts))
    (hopening : Stmt.opening (calmAll ts) = []) :
    OpensAs R l count (calmAll (k.fill ts)) ∧ Stmt.opening (calmAll (k.fill ts)) = k.opening := by
  have hlines : ∀ {xs : List (Stmt Unit)}, PlainLines xs → ∀ s ∈ calmAll xs, s.isBranch = false :=
    fun hx s hs => (hx.calm s hs).1
  have hafter : ∀ (ids : List Unit), ∀ s ∈ calmAll (ids.map placeholder), s.isBranch = false :=
    fun ids => hlines (plainLines_placeholders ids)
  induction k with
  | hole before mark after =>
    rw [Chain.fill, calmAll_append, calmAll_append]
    refine ⟨hts.around (hlines hplain) (hafter after), ?_⟩
    rw [opening_around _ (hlines hplain) (hafter after)
        (by rw [introducedAll_calm, introducedAll_placeholders]),
      hopening, introducedAll_calm, List.append_nil]
    rfl
  | under before check guard inner otherwise after ih =>
    obtain ⟨hinner, hsame⟩ := ih hexact.2 hplain.2
    rw [Chain.fill, calmAll_append, calmAll, calm, calmAll_noop]
    have hfork := lastFork?_code
      (f := ⟨calmAll before, check, guard, calmAll (inner.fill ts), [noop otherwise], [],
        calmAll (after.map placeholder)⟩)
      (hafter after)
    refine ⟨.fork hfork ?_ hinner (.line _ rfl), ?_⟩
    · change R (Stmt.opening (calmAll (inner.fill ts))) (guard.opens l count)
      rw [hsame, hexact.1]
      exact hR _
    · refine (opening_of_fork hfork).trans ?_
      rw [introducedAll_calm]
      rfl

theorem opensAs_underIf (hR : ∀ xs, R xs xs) (needed : Bool) {guard : Guard}
    (hguard : guard.opens l count = []) {body : List (Stmt Unit)}
    (h : OpensAs R l count (calmAll body)) (hopening : Stmt.opening (calmAll body) = []) :
    OpensAs R l count (calmAll (underIf needed guard body)) ∧
    Stmt.opening (calmAll (underIf needed guard body)) = [] := by
  cases needed with
  | false => exact ⟨h, hopening⟩
  | true =>
    have hfork :=
      lastFork?_code (f := ⟨[noop ()], (), guard, calmAll body, [noop ()], [], []⟩)
        (List.forall_mem_nil _)
    refine ⟨.fork hfork ?_ h (.line _ rfl), opening_of_fork hfork⟩
    change R (Stmt.opening (calmAll body)) (guard.opens l count)
    rw [hopening, hguard]
    exact hR _

theorem opensAs_actionBody (r : Rule) (code : String) :
    OpensAs R l count (calmAll (actionBody r code)) ∧
    Stmt.opening (calmAll (actionBody r code)) = [] := by
  unfold actionBody replaceStmt
  split_ifs <;> exact ⟨.leaf rfl, rfl⟩

/-- **Behind the guards of a rule** are the temporaries that they open, and nothing is introduced
before the first one. -/
theorem opensAs_ruleCode (hR : ∀ xs, R xs xs) (ho : o.skipRootGuard = false) {foldConstants : Bool}
    {r : Rule} {code : List (Stmt Unit)} (hr : Regular l count r.pattern)
    (h : ruleCode o l foldConstants r = some code) :
    OpensAs R l count code ∧ Stmt.opening code = [] := by
  obtain ⟨k, groups, action, hk, ha, rfl⟩ := exists_of_ruleCode h
  have haction : OpensAs R l count (calmAll action) ∧ Stmt.opening (calmAll action) = [] := by
    obtain ⟨texts, code, -, -, rfl⟩ := exists_of_actionCode ha
    obtain ⟨hbody, hquiet⟩ := @opensAs_actionBody l count R r code
    obtain ⟨hfree, hquiet⟩ :=
      opensAs_underIf hR _ (show (Guard.free _).opens l count = [] from rfl) hbody hquiet
    exact opensAs_underIf hR _ (Guard.opens_structurallyEqual _) hfree hquiet
  have hwith : OpensAs R l count (calmAll (withAction action k)) ∧
      Stmt.opening (calmAll (withAction action k)) = [] := by
    cases k with
    | none =>
      have hnoop : ∀ s ∈ [noop ()], s.isBranch = false := List.forall_mem_singleton.2 rfl
      have hopensAs := haction.1.around hnoop (List.forall_mem_nil _)
      have hopening := opening_around (calmAll action) hnoop (List.forall_mem_nil _) rfl
      rw [List.append_nil] at hopensAs hopening
      exact ⟨hopensAs, hopening.trans haction.2⟩
    | some k =>
      obtain ⟨hexact, hquiet⟩ := patternChain_exact ho hr hk
      obtain ⟨hopensAs, hopening⟩ :=
        opensAs_fill hR hexact (patternChain_plain hr.plain hk) haction.1 haction.2
      exact ⟨hopensAs, hopening.trans hquiet⟩
  have hret : ∀ s ∈ [fresh () (.ret false)], s.isBranch = false := List.forall_mem_singleton.2 rfl
  have hopening := opening_around (calmAll (withAction action k)) (List.forall_mem_nil _) hret rfl
  exact ⟨hwith.1.around (List.forall_mem_nil _) hret, hopening.trans hwith.2⟩

end Matcher

end Rulewright
