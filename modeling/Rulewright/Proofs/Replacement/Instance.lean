import Rulewright.Proofs.Matching.Capture
import Rulewright.Proofs.Replacement.Writing

/-!
# What constructions build

A construction is code. When it runs, temporaries give the terms that are bound to them, copies
being equal to what they are copied from, and each constructor gives a node with an operator that it
is declared for. What is written for a term builds the instance of the term: its metavariables and
groups stand for what is bound at their first trails.

* `RuntimeTerm`: terms as code builds them.
* `Expr.instantiate?`: the instance of a term, given what metavariables and groups stand for.
* `Construction.Builds`: the term that a construction builds.
* `Scope.write_builds`: what is written for a term builds the instance of the term, and nothing else
  if no two operators share a constructor.
* `Scope.exists_instance_iff`: there is an instance exactly if the temporaries that are used are
  bound.
* `Scope.write_once`: of the uses of a metavariable the first one is not a copy, and all others are.
-/

namespace Rulewright

/-! ### Terms and instances -/

/-- A term as code builds it. Literals are kept by their doubles. -/
inductive RuntimeTerm where
  | var (name : String)
  | value (double : Int)
  /-- Code can read the operator of a literal too, and it is `none`. -/
  | node (operator : Option String) (operands : List RuntimeTerm)
  /-- A part that patterns have and ground terms do not. -/
  | pattern (e : Expr)

/-- What the metavariables of a term stand for, and the operators of its groups. -/
structure Valuation where
  term : MetaId → Option RuntimeTerm
  operator : GroupId → Option (Option String)

namespace Expr

mutual

/-- The term without its compound wrappers. -/
def runtime (l : Language) : Expr → RuntimeTerm
  | .var name => .var name
  | .literal value => .value value.double
  | .app symbol operands => .node (some (l.name symbol)) (runtimeAll l operands)
  | .compound inner => inner.runtime l
  | e => .pattern e

def runtimeAll (l : Language) : List Expr → List RuntimeTerm
  | [] => []
  | e :: rest => e.runtime l :: runtimeAll l rest

end

mutual

/-- The instance of a term, if all its metavariables and groups stand for something. -/
def instantiate? (l : Language) (v : Valuation) : Expr → Option RuntimeTerm
  | .metavar id => v.term id
  | .var name => some (.var name)
  | .literal value => some (.value value.double)
  | .app symbol operands => (instantiateAll? l v operands).map (.node (some (l.name symbol)))
  | .compound inner => inner.instantiate? l v
  | .anyway group operands =>
    (v.operator group).bind fun operator => (instantiateAll? l v operands).map (.node operator)
  | .optional _ _ => none

def instantiateAll? (l : Language) (v : Valuation) : List Expr → Option (List RuntimeTerm)
  | [] => some []
  | e :: rest => (e.instantiate? l v).bind fun x => (instantiateAll? l v rest).map (x :: ·)

end

/-- What a run has bound for the metavariables and the groups of a pattern: the terms at their first
trails. -/
def valuation (l : Language) (pattern : Expr) (b : Bindings) : Valuation where
  term id :=
    ((pattern.metaOccurrences Trail.root).lookup id).bind fun t => (b.get? t).map (·.runtime l)
  operator group :=
    ((pattern.groupOccurrences Trail.root).lookup group).bind fun t =>
      (b.get? t).map (·.operator? l)

end Expr

/-- No two operators share a constructor. -/
def Language.IsUnambiguous (l : Language) : Prop :=
  ∀ f g constructor, l.constructor? f = some constructor → l.constructor? g = some constructor →
    f = g

namespace Construction

mutual

/-- The construction builds the term, temporaries being bound as given. -/
def Builds (l : Language) (b : Bindings) : Construction → RuntimeTerm → Prop
  | .matched trail _, x => (b.get? trail).map (·.runtime l) = some x
  | .newVariable name, x => x = .var name
  | .newValue double, x => x = .value double
  | .call constructor operands, x =>
    ∃ name xs, l.constructor? name = some constructor ∧ AllBuild l b operands xs ∧
      x = .node (some name) xs
  | .sameOperator trail operands, x =>
    ∃ e xs, b.get? trail = some e ∧ AllBuild l b operands xs ∧ x = .node (e.operator? l) xs

def AllBuild (l : Language) (b : Bindings) : List Construction → List RuntimeTerm → Prop
  | [], xs => xs = []
  | k :: rest, xs => ∃ y ys, k.Builds l b y ∧ AllBuild l b rest ys ∧ xs = y :: ys

end

mutual

/-- The temporaries that are used as terms, from left to right, and whether they are copied. -/
def uses : Construction → List (Trail × Bool)
  | .matched trail copied => [(trail, copied)]
  | .newVariable _ | .newValue _ => []
  | .call _ operands | .sameOperator _ operands => usesAll operands

def usesAll : List Construction → List (Trail × Bool)
  | [] => []
  | k :: rest => k.uses ++ usesAll rest

end

mutual

/-- The temporaries that are used, as terms or for their operators. -/
def trails : Construction → List Trail
  | .matched trail _ => [trail]
  | .newVariable _ | .newValue _ => []
  | .call _ operands => trailsAll operands
  | .sameOperator trail operands => trail :: trailsAll operands

def trailsAll : List Construction → List Trail
  | [] => []
  | k :: rest => k.trails ++ trailsAll rest

end

mutual

theorem Within.of_mem_trails {l : Language} {S : Trail → Prop} {t : Trail} :
    ∀ {k : Construction}, k.Within l S → t ∈ k.trails → S t
  | .matched _ _, h, ht => List.mem_singleton.1 ht ▸ h
  | .call _ _, h, ht => AllWithin.of_mem_trailsAll h.2 ht
  | .sameOperator _ _, h, ht =>
    (List.mem_cons.1 ht).elim (fun heq => heq ▸ h.1) (AllWithin.of_mem_trailsAll h.2)

theorem AllWithin.of_mem_trailsAll {l : Language} {S : Trail → Prop} {t : Trail} :
    ∀ {ks : List Construction}, AllWithin l S ks → t ∈ trailsAll ks → S t
  | _ :: _, h, ht =>
    (List.mem_append.1 ht).elim (Within.of_mem_trails h.1) (AllWithin.of_mem_trailsAll h.2)

end

mutual

/-- A construction that builds a term uses temporaries that are bound. -/
theorem Builds.isBound {l : Language} {b : Bindings} {t : Trail} :
    ∀ {k : Construction} {x : RuntimeTerm}, k.Builds l b x → t ∈ k.trails → b.IsBound t
  | .matched _ _, _, h, ht => by
    obtain ⟨e, he, -⟩ := Option.map_eq_some_iff.1 h
    exact ⟨e, List.mem_singleton.1 ht ▸ he⟩
  | .call _ _, _, h, ht => by
    obtain ⟨_, _, -, hxs, -⟩ := h
    exact AllBuild.isBound hxs ht
  | .sameOperator _ _, _, h, ht => by
    obtain ⟨e, _, he, hxs, -⟩ := h
    rcases List.mem_cons.1 ht with rfl | ht
    · exact ⟨e, he⟩
    · exact AllBuild.isBound hxs ht

theorem AllBuild.isBound {l : Language} {b : Bindings} {t : Trail} :
    ∀ {ks : List Construction} {xs : List RuntimeTerm}, AllBuild l b ks xs → t ∈ trailsAll ks →
      b.IsBound t
  | _ :: _, _, h, ht => by
    obtain ⟨_, _, hy, hys, -⟩ := h
    exact (List.mem_append.1 ht).elim (Builds.isBound hy) (AllBuild.isBound hys)

end

/-- Of the uses of the temporary the first one is not a copy, and all others are. -/
def UsesOnce (k : Construction) (t : Trail) : Prop :=
  ∃ before after, k.uses = before ++ (t, false) :: after ∧ (∀ u ∈ before, u.1 ≠ t) ∧
    ∀ u ∈ after, u.1 = t → u.2 = true

end Construction

/-! ### What is written for a term -/

namespace Scope

variable {s : Scope} {b : Bindings} {v : Valuation}

/-- The metavariables and groups of the scope stand for what is bound at their first trails. -/
structure Stands (s : Scope) (b : Bindings) (v : Valuation) : Prop where
  term : ∀ id t, s.metas.firstTrail? id = some t → v.term id = (b.get? t).map (·.runtime s.language)
  operator : ∀ group t, s.groups.firstTrail? group = some t →
      v.operator group = (b.get? t).map (·.operator? s.language)

theorem not_folded (hfold : s.foldConstants = false) {e : Expr} {n : Int}
    (h : s.folded? e = some n) : False := by
  rw [folded?, hfold] at h
  cases h

/-- **What is written for a term builds its instance.** -/
theorem write_builds (hfold : s.foldConstants = false) (hs : s.Stands b v) {e : Expr}
    {used used' : List MetaId} {k : Construction} (h : s.write e used = .ok k used') :
    (∀ x, e.instantiate? s.language v = some x → k.Builds s.language b x) ∧
    (s.language.IsUnambiguous →
      ∀ x, k.Builds s.language b x → e.instantiate? s.language v = some x) := by
  refine (write_induct (s := s)
    (P := fun e _ k _ =>
      (∀ x, e.instantiate? s.language v = some x → k.Builds s.language b x) ∧
      (s.language.IsUnambiguous →
        ∀ x, k.Builds s.language b x → e.instantiate? s.language v = some x))
    (Q := fun es _ ks _ =>
      (∀ xs, Expr.instantiateAll? s.language v es = some xs →
        Construction.AllBuild s.language b ks xs) ∧
      (s.language.IsUnambiguous →
        ∀ xs, Construction.AllBuild s.language b ks xs →
          Expr.instantiateAll? s.language v es = some xs))
    ?first ?again ?var ?literal ?compound ?folded ?app ?anyway ?nil ?cons).1 e used k used' h
  case first | again =>
    intro id t _ ht _
    exact ⟨fun x hx => (hs.term id t ht).symm.trans hx, fun _ x hx => (hs.term id t ht).trans hx⟩
  case var =>
    exact fun name _ => ⟨fun x hx => (Option.some.inj hx).symm, fun _ x hx => congrArg some hx.symm⟩
  case literal =>
    exact fun value _ =>
      ⟨fun x hx => (Option.some.inj hx).symm, fun _ x hx => congrArg some hx.symm⟩
  case compound => exact fun inner _ k _ h => h
  case folded => exact fun _ _ _ _ hn => (not_folded hfold hn).elim
  case app =>
    intro symbol operands constructor _ ks _ _ hc ih
    refine ⟨fun x hx => ?_, fun hl x hx => ?_⟩
    · obtain ⟨xs, hxs, rfl⟩ := Option.map_eq_some_iff.1 hx
      exact ⟨_, xs, hc, ih.1 xs hxs, rfl⟩
    · obtain ⟨name, xs, hname, hxs, rfl⟩ := hx
      -- the constructor has one operator only
      rw [Expr.instantiate?, ih.2 hl xs hxs, hl _ _ _ hc hname]
      rfl
  case anyway =>
    intro group operands t _ ks _ ht ih
    refine ⟨fun x hx => ?_, fun hl x hx => ?_⟩
    · obtain ⟨operator, hop, hx⟩ := Option.bind_eq_some_iff.1 hx
      obtain ⟨xs, hxs, rfl⟩ := Option.map_eq_some_iff.1 hx
      obtain ⟨e, he, rfl⟩ := Option.map_eq_some_iff.1 ((hs.operator group t ht).symm.trans hop)
      exact ⟨e, xs, he, ih.1 xs hxs, rfl⟩
    · obtain ⟨e, xs, he, hxs, rfl⟩ := hx
      rw [Expr.instantiate?, hs.operator group t ht, he, ih.2 hl xs hxs]
      rfl
  case nil =>
    exact fun _ =>
      ⟨fun xs hxs => (Option.some.inj hxs).symm, fun _ xs hxs => congrArg some hxs.symm⟩
  case cons =>
    intro e rest _ k _ ks _ hk hks
    refine ⟨fun xs hxs => ?_, fun hl xs hxs => ?_⟩
    · obtain ⟨y, hy, hxs⟩ := Option.bind_eq_some_iff.1 hxs
      obtain ⟨ys, hys, rfl⟩ := Option.map_eq_some_iff.1 hxs
      exact ⟨y, ys, hk.1 y hy, hks.1 ys hys, rfl⟩
    · obtain ⟨y, ys, hy, hys, rfl⟩ := hxs
      rw [Expr.instantiateAll?, hk.2 hl y hy, hks.2 hl ys hys]
      rfl

/-- **A term for which something is written has an instance** exactly if the temporaries that are
used are bound. -/
theorem exists_instance_iff (hfold : s.foldConstants = false) (hs : s.Stands b v) {e : Expr}
    {used used' : List MetaId} {k : Construction} (h : s.write e used = .ok k used') :
    (∃ x, e.instantiate? s.language v = some x) ↔ ∀ t ∈ k.trails, b.IsBound t := by
  refine ⟨fun ⟨x, hx⟩ t ht => ((write_builds hfold hs h).1 x hx).isBound ht, ?_⟩
  have hterm : ∀ id t, s.metas.firstTrail? id = some t → (∀ u ∈ [t], b.IsBound u) →
      ∃ x, v.term id = some x := by
    intro id t ht hbound
    obtain ⟨e, he⟩ := hbound t (List.mem_singleton_self t)
    exact ⟨e.runtime s.language, by rw [hs.term id t ht, he]; rfl⟩
  refine (write_induct (s := s)
    (P := fun e _ k _ => (∀ t ∈ k.trails, b.IsBound t) → ∃ x, e.instantiate? s.language v = some x)
    (Q := fun es _ ks _ => (∀ t ∈ Construction.trailsAll ks, b.IsBound t) →
      ∃ xs, Expr.instantiateAll? s.language v es = some xs)
    (fun id t _ ht _ => hterm id t ht) (fun id t _ ht _ => hterm id t ht)
    (fun name _ _ => ⟨_, rfl⟩) (fun value _ _ => ⟨_, rfl⟩) (fun _ _ _ _ h => h) ?folded ?app ?anyway
    (fun _ _ => ⟨[], rfl⟩) ?cons).1 e used k used' h
  case folded => exact fun _ _ _ _ hn => (not_folded hfold hn).elim
  case app =>
    intro symbol operands constructor _ ks _ _ _ ih hbound
    obtain ⟨xs, hxs⟩ := ih hbound
    exact ⟨_, by rw [Expr.instantiate?, hxs]; rfl⟩
  case anyway =>
    intro group operands t _ ks _ ht ih hbound
    obtain ⟨⟨e, he⟩, hbound⟩ := List.forall_mem_cons.1 hbound
    obtain ⟨xs, hxs⟩ := ih hbound
    exact ⟨_, by rw [Expr.instantiate?, hs.operator group t ht, he, hxs]; rfl⟩
  case cons =>
    intro e rest _ k _ ks _ hk hks hbound
    obtain ⟨hfirst, hrest⟩ := List.forall_mem_append.1 hbound
    obtain ⟨x, hx⟩ := hk hfirst
    obtain ⟨xs, hxs⟩ := hks hrest
    exact ⟨x :: xs, by rw [Expr.instantiateAll?, hx, hxs]; rfl⟩

/-- There is an instance if what is at the first trails is bound. -/
theorem exists_instance (hfold : s.foldConstants = false) (hs : s.Stands b v)
    (hbound : s.Lies b.IsBound) {e : Expr} {used used' : List MetaId} {k : Construction}
    (h : s.write e used = .ok k used') : ∃ x, e.instantiate? s.language v = some x :=
  (exists_instance_iff hfold hs h).2 fun _ => (write_within hbound h).of_mem_trails

end Scope

/-! ### Copies -/

namespace Scope

variable {used used' : List MetaId}

/-- Metavariables in the order of their uses, and whether they were used before. -/
def marked (used : List MetaId) : List MetaId → List (MetaId × Bool)
  | [] => []
  | id :: rest => (id, decide (id ∈ used)) :: marked (id :: used) rest

theorem marked_congr (h : ∀ id, id ∈ used ↔ id ∈ used') (ids : List MetaId) :
    marked used ids = marked used' ids := by
  induction ids generalizing used used' with
  | nil => rfl
  | cons id rest ih =>
    have hcons : ∀ x, x ∈ id :: used ↔ x ∈ id :: used' :=
      fun x => by rw [List.mem_cons, List.mem_cons, h]
    rw [marked, marked, ih hcons, decide_eq_decide.2 (h id)]

theorem marked_append {xs : List MetaId} (h : ∀ id, id ∈ used' ↔ id ∈ used ∨ id ∈ xs)
    (ys : List MetaId) : marked used (xs ++ ys) = marked used xs ++ marked used' ys := by
  induction xs generalizing used with
  | nil => exact marked_congr (fun id => by simp [h]) ys
  | cons x rest ih =>
    have hrest : ∀ id, id ∈ used' ↔ id ∈ x :: used ∨ id ∈ rest := fun id => by
      rw [h, List.mem_cons, List.mem_cons]
      tauto
    rw [List.cons_append, marked, marked, ih hrest]
    rfl

/-- The first use of a metavariable is marked as such, and no other one. -/
theorem exists_of_marked {ids : List MetaId} {id : MetaId} (hid : id ∈ ids) (hused : id ∉ used) :
    ∃ before after, marked used ids = before ++ (id, false) :: after ∧ (∀ m ∈ before, m.1 ≠ id) ∧
      ∀ m ∈ after, m.1 = id → m.2 = true := by
  -- once it is used, it is marked as used
  have hagain : ∀ (ids used : List MetaId), id ∈ used →
      ∀ m ∈ marked used ids, m.1 = id → m.2 = true := by
    intro ids
    induction ids with
    | nil => exact fun _ _ => List.forall_mem_nil _
    | cons x rest ih =>
      intro used hused
      refine List.forall_mem_cons.2 ⟨?_, ih (x :: used) (List.mem_cons_of_mem x hused)⟩
      rintro rfl
      exact decide_eq_true hused
  induction ids generalizing used with
  | nil => cases hid
  | cons x rest ih =>
    by_cases hx : x = id
    · subst hx
      exact ⟨[], marked (x :: used) rest, by rw [marked, decide_eq_false hused]; rfl,
        List.forall_mem_nil _, hagain rest _ List.mem_cons_self⟩
    · have hused' : id ∉ x :: used :=
        fun hmem => (List.mem_cons.1 hmem).elim (fun heq => hx heq.symm) hused
      obtain ⟨before, after, heq, hbefore, hafter⟩ :=
        ih ((List.mem_cons.1 hid).resolve_left fun heq => hx heq.symm) hused'
      exact ⟨(x, decide (x ∈ used)) :: before, after, by rw [marked, heq]; rfl,
        List.forall_mem_cons.2 ⟨hx, hbefore⟩, hafter⟩

variable {s : Scope}

/-- The uses are those of the metavariables, in their order, and a use is a copy if the metavariable
was used before. -/
structure Copies (s : Scope) (used ids : List MetaId) (uses : List (Trail × Bool))
    (used' : List MetaId) : Prop where
  uses : uses.map (fun u => (some u.1, u.2)) =
      (marked used ids).map fun m => (s.metas.firstTrail? m.1, m.2)
  used : ∀ id, id ∈ used' ↔ id ∈ used ∨ id ∈ ids

theorem Copies.nil (used : List MetaId) : s.Copies used [] [] used := ⟨rfl, fun id => by simp⟩

theorem Copies.append {used1 xs ys : List MetaId} {us ws : List (Trail × Bool)}
    (h : s.Copies used xs us used1) (h' : s.Copies used1 ys ws used') :
    s.Copies used (xs ++ ys) (us ++ ws) used' where
  uses := by rw [marked_append h.used, List.map_append, List.map_append, h.uses, h'.uses]
  used id := by rw [h'.used, h.used, List.mem_append, or_assoc]

theorem write_copies (hfold : s.foldConstants = false) {e : Expr} {k : Construction}
    (h : s.write e used = .ok k used') (t : Trail) :
    s.Copies used ((e.metaOccurrences t).map Prod.fst) k.uses used' := by
  refine (write_induct (s := s)
    (P := fun e used k used' =>
      ∀ t, s.Copies used ((e.metaOccurrences t).map Prod.fst) k.uses used')
    (Q := fun es used ks used' => ∀ t index,
      s.Copies used ((Expr.metaOccurrencesAll t index es).map Prod.fst)
        (Construction.usesAll ks) used')
    ?first ?again (fun _ used _ => .nil used) (fun _ used _ => .nil used) (fun _ _ _ _ h => h)
    ?folded (fun _ _ _ _ _ _ _ _ h t => h t 0) (fun _ _ _ _ _ _ _ h t => h t 0)
    (fun used _ _ => .nil used) ?cons).1 e used k used' h t
  case first =>
    intro id trail used ht hid t
    refine ⟨?_, fun x => by simp [Expr.metaOccurrences, or_comm]⟩
    simp [Expr.metaOccurrences, Construction.uses, marked, ht, hid]
  case again =>
    intro id trail used ht hid t
    refine ⟨?_, fun x => ?_⟩
    · simp [Expr.metaOccurrences, Construction.uses, marked, ht, hid]
    · simp only [Expr.metaOccurrences, List.map_cons, List.map_nil, List.mem_singleton]
      exact ⟨Or.inl, fun hx => hx.elim (fun h => h) fun heq => heq ▸ hid⟩
  case folded => exact fun _ _ _ _ hn => (not_folded hfold hn).elim
  case cons =>
    intro e rest used k used1 ks used' hk hks t index
    rw [Expr.metaOccurrencesAll, List.map_append]
    exact (hk (t.child index)).append (hks t (index + 1))

/-- **The first use of a metavariable is the term itself**, and every other one is a copy of it. -/
theorem write_once (hfold : s.foldConstants = false)
    (hmetas : ∀ id id' t, s.metas.firstTrail? id = some t → s.metas.firstTrail? id' = some t →
      id = id')
    {e : Expr} {k : Construction} (h : s.write e [] = .ok k used') {id : MetaId}
    (hid : id ∈ (e.metaOccurrences Trail.root).map Prod.fst) :
    ∃ t, s.metas.firstTrail? id = some t ∧ k.UsesOnce t := by
  obtain ⟨before, after, hmarked, hbefore, hafter⟩ :=
    exists_of_marked hid (List.not_mem_nil (a := id))
  have huses := (write_copies hfold h Trail.root).uses
  rw [hmarked, List.map_append, List.map_cons] at huses
  obtain ⟨us, rest, heq, hus, hrest⟩ := List.map_eq_append_iff.1 huses
  obtain ⟨⟨t, copied⟩, ws, rfl, hfirst, hws⟩ := List.map_eq_cons_iff.1 hrest
  obtain ⟨ht, rfl⟩ := Prod.mk.inj hfirst
  -- a use of the same temporary is one of the same metavariable
  have hsame : ∀ {ms : List (MetaId × Bool)} {vs : List (Trail × Bool)},
      vs.map (fun u => (some u.1, u.2)) = ms.map (fun m => (s.metas.firstTrail? m.1, m.2)) →
      ∀ u ∈ vs, u.1 = t → (id, u.2) ∈ ms := by
    rintro ms vs hvs ⟨_, c⟩ hu rfl
    obtain ⟨⟨id', c'⟩, hm, heq⟩ := List.mem_map.1 (hvs ▸ List.mem_map_of_mem hu)
    obtain ⟨htrail, rfl⟩ := Prod.mk.inj heq
    rwa [hmetas id id' _ ht.symm htrail]
  exact ⟨t, ht.symm, us, ws, heq, fun u hu htrail => hbefore _ (hsame hus u hu htrail) rfl,
    fun u hu htrail => hafter _ (hsame hws u hu htrail) rfl⟩

end Scope

/-! ### First trails -/

theorem Table.firstTrail?_foldl_pushTrail (os : List (Nat × Trail)) (t : Table Nat (List Trail))
    (key : Nat) :
    (os.foldl (fun t o => t.pushTrail o.1 o.2) t).firstTrail? key =
      (t.firstTrail? key).or (os.lookup key) := by
  induction os generalizing t with
  | nil => exact (Option.or_none).symm
  | cons o rest ih =>
    rw [List.foldl_cons, ih, firstTrail?_pushTrail, List.lookup_cons]
    by_cases hkey : o.1 = key
    · subst hkey
      rw [if_pos rfl, beq_self_eq_true]
      cases t.firstTrail? o.1 <;> rfl
    · rw [if_neg hkey, beq_false_of_ne (Ne.symm hkey)]

namespace Expr

theorem firstTrail?_metaTrails (p : Expr) (id : MetaId) :
    p.metaTrails.firstTrail? id = (p.metaOccurrences Trail.root).lookup id := by
  rw [metaTrails, Table.firstTrail?_foldl_pushTrail]
  rfl

theorem firstTrail?_groupTrails (p : Expr) (group : GroupId) :
    p.groupTrails.firstTrail? group = (p.groupOccurrences Trail.root).lookup group := by
  rw [groupTrails, Table.firstTrail?_foldl_pushTrail]
  rfl

/-- No two metavariables of a pattern stand at one trail. -/
theorem nodup_metaOccurrences :
    (∀ (p : Expr) (t : Trail), ((p.metaOccurrences t).map Prod.snd).Nodup) ∧
    ∀ (ps : List Expr) (t : Trail) (index : Nat),
      ((metaOccurrencesAll t index ps).map Prod.snd).Nodup := by
  apply Expr.induct
  case metavar => exact fun id t => List.nodup_singleton t
  case var => exact fun name t => List.nodup_nil
  case literal => exact fun value t => List.nodup_nil
  case app => exact fun symbol operands ih t => ih t 0
  case compound => exact fun inner ih t => ih t
  case optional => exact fun pattern default ih _ t => ih t
  case anyway => exact fun group operands ih t => ih t 0
  case nil => exact fun t index => List.nodup_nil
  case cons =>
    intro p rest hp hrest t index
    rw [metaOccurrencesAll, List.map_append]
    refine List.Nodup.append (hp _) (hrest t (index + 1)) fun u hu hu' => ?_
    obtain ⟨o, ho, rfl⟩ := List.mem_map.1 hu
    obtain ⟨o', ho', heq⟩ := List.mem_map.1 hu'
    -- one is at the trail of the first operand or below it, the other one at that of a later one or
    -- below it
    obtain ⟨j, hj, hlater⟩ := (occurrences_below.2 rest t (index + 1)).1 o' ho'
    have hfirst := (occurrences_below.1 p (t.child index)).1 o ho
    rw [heq] at hlater
    have hne : index ≠ j := by omega
    rcases hfirst with hfirst | hfirst
    · rw [hfirst] at hlater
      rcases hlater with hlater | hlater
      · exact hne (Trail.child_injective hlater)
      · exact Trail.not_below_child t index j hlater
    · obtain ⟨hbelow, hchild⟩ := hfirst.not_child_of_ne hne
      exact hlater.elim hchild hbelow

theorem mem_of_firstTrail? {p : Expr} {id : MetaId} {t : Trail}
    (h : p.metaTrails.firstTrail? id = some t) : (id, t) ∈ p.metaOccurrences Trail.root := by
  rw [firstTrail?_metaTrails] at h
  obtain ⟨xs, ys, heq, -⟩ := List.lookup_eq_some_iff.1 h
  rw [heq]
  exact List.mem_append_right _ List.mem_cons_self

/-- No two metavariables of a pattern have the same first trail. -/
theorem eq_of_firstTrail? {p : Expr} {id id' : MetaId} {t : Trail}
    (h : p.metaTrails.firstTrail? id = some t) (h' : p.metaTrails.firstTrail? id' = some t) :
    id = id' :=
  congrArg Prod.fst (List.inj_on_of_nodup_map (nodup_metaOccurrences.1 p Trail.root)
    (mem_of_firstTrail? h) (mem_of_firstTrail? h') rfl)

end Expr

end Rulewright
