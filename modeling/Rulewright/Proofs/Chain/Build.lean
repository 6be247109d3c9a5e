import Rulewright.Proofs.Chain.Store

/-!
# Building chains

The matcher that is built for a pattern is the chain of the pattern: whatever else a store holds
stays as it is, and the store owns the chain beside it.

* `Build.bind_ok` and the lemmas after it take a successful build apart.
* `join_ok`, `place_ok`: the chain of an operand gets to its place.
* `matchPattern_ok`: the matcher of a pattern.
-/

namespace Rulewright.Matcher

open Stmt Chain

/-! ### Successful builds -/

namespace Build

variable {α β : Type} {p p' : Progress}

theorem bind_ok {x : Build α} {f : α → Build β} {b : β} (h : (x >>= f) p = .ok b p') :
    ∃ a p1, x p = .ok a p1 ∧ f a p1 = .ok b p' := by
  change EStateM.bind x f p = _ at h
  unfold EStateM.bind at h
  split at h
  · exact ⟨_, _, by assumption, h⟩
  · cases h

theorem ite_bind_ok {c : Prop} [Decidable c] {x y : Build α} {f : α → Build β} {b : β}
    (h : (if c then x >>= f else y >>= f) p = .ok b p') :
    ∃ a p1, (if c then x else y) p = .ok a p1 ∧ f a p1 = .ok b p' := by
  split_ifs at h ⊢ with hc <;> exact bind_ok h

theorem pure_ok {a b : α} (h : (pure a : Build α) p = .ok b p') : b = a ∧ p' = p := by
  cases h; exact ⟨rfl, rfl⟩

theorem throw_ok {e : CompileError} {a : α} (h : (throw e : Build α) p = .ok a p') : False := by
  cases h

theorem create_ok {f : Code → NodeId × Code} {id : NodeId} (h : create f p = .ok id p') :
    id = (f p.code).1 ∧ p' = { p with code := (f p.code).2 } := by
  cases h; exact ⟨rfl, rfl⟩

theorem edit_ok {f : Code → Code} {u : Unit} (h : edit f p = .ok u p') :
    p' = { p with code := f p.code } := by
  cases h; rfl

theorem alloc_ok {kind : NodeKind} {id : NodeId} (h : alloc kind p = .ok id p') :
    id = p.code.size ∧ p' = { p with code := p.code.push (.fresh kind) } := by
  cases h; exact ⟨rfl, rfl⟩

theorem append_ok {x y : NodeId} {u : Unit} (h : append x y p = .ok u p') :
    p' = { p with code := p.code.append x y } := by
  cases h; rfl

theorem lift_ok {x : Except CompileError α} {a : α} (h : lift x p = .ok a p') :
    x = .ok a ∧ p' = p := by
  cases x with
  | error e => cases h
  | ok b => cases h; exact ⟨rfl, rfl⟩

theorem get_ok {q : Progress} (h : (get : Build Progress) p = .ok q p') : q = p ∧ p' = p := by
  cases h; exact ⟨rfl, rfl⟩

theorem modify_ok {f : Progress → Progress} {u : Unit} (h : (modify f : Build PUnit) p = .ok u p') :
    p' = f p := by
  cases h; rfl

end Build

/-! ### The searches at the start of a chain -/

section Search

variable {c : Code} {F : Multiset Cell} {k : Chain NodeId}

theorem isBlank_busy (hk : k.Tidy) (hb : k.Busy) (h : c.Owns (cells .root none k.code + F)) :
    c.isBlank (start k.code) = false := by
  rw [Code.isBlank, h.nextMeaningful?_eq (code_ne_nil hk), Option.isNone_map,
    Option.isNone_eq_false_iff, List.find?_isSome]
  cases k with
  | hole before mark after =>
    obtain ⟨s, hs, hm⟩ := List.any_eq_true.1 hb
    exact ⟨s, by simp [code, fill, hs], hm⟩
  | under before check guard inner otherwise after =>
    exact ⟨_, List.mem_append_right _ (List.mem_cons_self ..), rfl⟩

theorem isBlank_noop {id : NodeId} (h : c.Owns (cells .root none [noop id] + F)) :
    c.isBlank id = true := by
  have := h.nextMeaningful?_eq (by simp)
  rw [start_cons, id_noop] at this
  rw [Code.isBlank, this]; rfl

theorem firstBranch?_of_find? (hk : k.Tidy) (h : c.Owns (cells .root none k.code + F))
    {s : Stmt NodeId} (hs : k.code.find? isMeaningful = some s) :
    firstBranch? c (start k.code) = s.branchOf.map fun b => (s.id, b) := by
  rw [firstBranch?, h.nextMeaningful?_eq (code_ne_nil hk), hs]
  simp only [Option.map_some, Option.bind_some, h.branch?_mem (List.mem_of_find?_eq_some hs)]

theorem find?_before {s : Stmt NodeId} (hs : k.before.find? isMeaningful = some s) :
    k.code.find? isMeaningful = some s := by
  obtain ⟨rest, hrest⟩ : ∃ rest, k.code = k.before ++ rest := by cases k <;> exact ⟨_, rfl⟩
  rw [hrest, List.find?_append, hs]; rfl

theorem find?_placeholders (ids : List NodeId) :
    (ids.map placeholder).find? isMeaningful = none := by
  rw [List.find?_eq_none]
  intro s hs
  obtain ⟨id, -, rfl⟩ := List.mem_map.1 hs
  simp [placeholder, fresh, isMeaningful, Line.kind, NodeKind.isMeaningful]

/-- The first branch of a chain. -/
theorem firstBranch?_eq (hk : k.Tidy) (h : c.Owns (cells .root none k.code + F)) :
    firstBranch? c (start k.code) =
      k.front?.map fun x => (x.check, ⟨x.guard, start x.inner.code, x.otherwise, []⟩) := by
  cases hs : k.before.find? isMeaningful with
  | some s =>
    have hb : k.before.any isMeaningful = true :=
      List.any_eq_true.2 ⟨s, List.mem_of_find?_eq_some hs, List.find?_some hs⟩
    have hfront : k.front? = none := by cases k <;> simp_all [front?, Chain.before]
    rw [firstBranch?_of_find? hk h (find?_before hs), hfront]
    -- what comes first is a line, so the branch behind it is not at the front
    have := hk.before.first s hs
    cases s with
    | line id x comment off => rfl
    | branch id guard t e es => simp [isBranch] at this
  | none =>
    have hb : k.before.any isMeaningful = false := by
      rw [List.any_eq_false]; exact List.find?_eq_none.1 hs
    cases k with
    | hole before mark after =>
      have hfind : (Chain.hole before mark after).code.find? isMeaningful = none := by
        rw [code, fill, List.find?_append, show before.find? isMeaningful = none from hs,
          List.find?_append, find?_placeholders]
        cases mark <;> rfl
      rw [firstBranch?, h.nextMeaningful?_eq (code_ne_nil hk), hfind]; rfl
    | under before check guard inner otherwise after =>
      have hfind : (Chain.under before check guard inner otherwise after).code.find? isMeaningful =
          some (.branch check guard inner.code [noop otherwise] []) := by
        rw [code, fill, List.find?_append, show before.find? isMeaningful = none from hs]; rfl
      rw [firstBranch?_of_find? hk h hfind, front?, if_neg (by simpa [Chain.before] using hb)]
      rfl

end Search

/-! ### What a build leaves alone -/

/-- A build has changed the code, which owns what is given now, and nothing else of its state. -/
structure Writes (p p' : Progress) (F : Multiset Cell) : Prop where
  groups : p'.groups = p.groups
  deepest : p'.deepest = p.deepest
  owns : p'.code.Owns F

theorem Writes.trans {p p' p'' : Progress} {F G : Multiset Cell} (h : Writes p p' F)
    (h' : Writes p' p'' G) : Writes p p'' G :=
  ⟨h'.groups.trans h.groups, h'.deepest.trans h.deepest, h'.owns⟩

/-! ### Placing the chain of an operand -/

section Place

variable {p p' : Progress} {F : Multiset Cell} {k r : Chain NodeId}

/-- The two chains after an attempt to join them. -/
def joined (new : NodeId) (k r : Chain NodeId) : Chain NodeId × Chain NodeId :=
  match joinGuard? k r with
  | some guard => (k.setGuard guard, r.body.surround [noop new] [])
  | none => (k, r)

theorem code_surround_noop (new : NodeId) (k : Chain NodeId) :
    (k.surround [noop new] []).code = noop new :: k.code := by
  rw [code, mark?_surround, fill_surround, code]; simp

/-- The count gets the joined guard, and the body of the comparison is moved out of its branch. -/
theorem owns_joined {c : Code} {before before' : List (Stmt NodeId)} {after after' : List NodeId}
    {x y : Front NodeId} {guard : Guard} (hy : y.inner.Tidy)
    (h : c.Owns
      (cells .root none (Chain.under before x.check x.guard x.inner x.otherwise after).code +
        (cells .root none (Chain.under before' y.check y.guard y.inner y.otherwise after').code +
          F))) :
    (((c.setGuard x.check guard).push (.fresh .noop)).setPredecessor (start y.inner.code)
      (c.setGuard x.check guard).size).Owns
      (cells .root none (Chain.under before x.check guard x.inner x.otherwise after).code +
        (cells .root none (y.inner.surround [noop (c.setGuard x.check guard).size] []).code +
          F)) := by
  rw [code_under] at h
  have h1 := (h.setGuard guard).alloc .noop
  rw [← code_under before x.check guard x.inner x.otherwise after, code_under before', cells_append]
    at h1
  set new := (c.setGuard x.check guard).size
  set moved :=
    Stmt.branch y.check y.guard y.inner.code [noop y.otherwise] [] :: after'.map placeholder
  have h2 :=
    h1.drop (w :=
      cells (linkAfter .root before') none moved +
        (cells .root none [noop new] +
          (cells .root none (Chain.under before x.check guard x.inner x.otherwise after).code + F)))
      (cells .root ((start? moved).or none) before') (by rw [noop]; abel)
  have h3 := h2.moveBody (code_ne_nil hy)
  rw [code_surround_noop]
  exact h3.swap

theorem join_ok {rest : NodeId} (hk : k.Tidy) (hr : r.Tidy)
    (h : p.code.Owns (cells .root none k.code + (cells .root none r.code + F)))
    (hj : join (start k.code) (start r.code) p = .ok rest p') :
    ∃ new, rest = start (joined new k r).2.code ∧
      Writes p p' (cells .root none (joined new k r).1.code +
        (cells .root none (joined new k r).2.code + F)) := by
  have unchanged : joinGuard? k r = none → (pure (start r.code) : Build NodeId) p = .ok rest p' →
      ∃ new, rest = start (joined new k r).2.code ∧
        Writes p p' (cells .root none (joined new k r).1.code +
          (cells .root none (joined new k r).2.code + F)) := by
    intro hg hp
    obtain ⟨rfl, rfl⟩ := Build.pure_ok hp
    exact ⟨0, by simp only [joined, hg], rfl, rfl, by simpa only [joined, hg] using h⟩
  -- the chains are joined if the first checks a count and the second one compares operators
  unfold join at hj
  obtain ⟨q, p1, hq, h1⟩ := Build.bind_ok hj
  obtain ⟨rfl, rfl⟩ := Build.get_ok hq
  dsimp only at h1
  rw [firstBranch?_eq hk h, firstBranch?_eq hr h.swap] at h1
  cases hfk : k.front? with
  | none => exact unchanged (by simp [joinGuard?, hfk]) (by rw [hfk] at h1; exact h1)
  | some x =>
    cases hfr : r.front? with
    | none => exact unchanged (by simp [joinGuard?, hfk, hfr]) (by rw [hfk, hfr] at h1; exact h1)
    | some y =>
      simp only [hfk, hfr, Option.map_some] at h1
      cases hc : x.guard.operandCountCheck? with
      | none => exact unchanged (by simp [joinGuard?, hfk, hc]) (by simpa only [hc] using h1)
      | some count =>
        cases hp : y.guard.operatorPairing? with
        | none =>
          exact unchanged (by simp [joinGuard?, hfk, hfr, hc, hp]) (by simpa only [hc, hp] using h1)
        | some pair =>
          simp only [hc, hp] at h1
          split_ifs at h1 with haligned
          · obtain ⟨guard, p2, hl, h2⟩ := Build.bind_ok h1
            obtain ⟨hguard, rfl⟩ := Build.lift_ok hl
            obtain ⟨_, p3, he, h3⟩ := Build.bind_ok h2
            obtain rfl := Build.edit_ok he
            obtain ⟨new, p4, ha, h4⟩ := Build.bind_ok h3
            obtain ⟨rfl, rfl⟩ := Build.alloc_ok ha
            obtain ⟨_, p5, he', h5⟩ := Build.bind_ok h4
            obtain rfl := Build.edit_ok he'
            obtain ⟨rfl, rfl⟩ := Build.pure_ok h5
            have hg : joinGuard? k r = some guard := by
              simp only [joinGuard?, hfk, hfr, Option.bind_some, hc, hp, hguard, Except.toOption]
            obtain ⟨before, after, rfl⟩ := eq_under_of_front? hfk
            obtain ⟨before', after', rfl⟩ := eq_under_of_front? hfr
            refine ⟨(p2.code.setGuard x.check guard).size, ?_, rfl, rfl, ?_⟩
            · simp only [joined, hg, Chain.body, code_surround_noop, start_cons, id_noop]
            · simp only [joined, hg, Chain.body, Chain.setGuard]
              exact owns_joined hr.2 h
          · have : joinGuard? k r = none := by
              simp_all [joinGuard?, Guard.anyway?, Except.toOption]
            exact unchanged this h1

/-- The chain of an operand is put to the innermost point. -/
theorem owns_plug {c : Code} {depth : Nat} (hk : k.Tidy) (hr : r.Tidy)
    (hm : k.mark?.isSome ∨ k.IsOpen depth)
    (h : c.Owns (cells .root none k.code + (cells .root none r.code + F))) :
    (match c.findPlaceholder? (start k.code) with
      | some placeholder => c.replace placeholder (start r.code)
      | none =>
        c.append (k.target depth) (start r.code)).Owns (cells .root none (k.plug r).code + F) := by
  rw [code_plug]
  cases hmark : k.mark? with
  | some mark =>
    simp only [h.findPlaceholder?_mark hk hmark]
    exact h.replace_mark hk hmark (code_ne_nil hr)
  | none =>
    have ho := hm.resolve_left (by simp [hmark])
    simp only [h.findPlaceholder?_open hk ho]
    exact h.append_open hk ho (code_ne_nil hr)

theorem isOpen_setGuard {depth : Nat} (guard : Guard) (h : k.IsOpen depth) :
    (k.setGuard guard).IsOpen depth := by
  cases k with
  | hole before mark after => exact h
  | under before check guard' inner otherwise after =>
    cases depth with
    | zero => exact h.elim
    | succ depth => cases after <;> exact h

theorem joined_fst (new : NodeId) (hk : k.Tidy) {depth : Nat}
    (hm : k.mark?.isSome ∨ k.IsOpen depth) :
    start (joined new k r).1.code = start k.code ∧
    (joined new k r).1.target depth = k.target depth ∧ (joined new k r).1.Tidy ∧
    ((joined new k r).1.mark?.isSome ∨ (joined new k r).1.IsOpen depth) := by
  unfold joined
  split
  · rename_i guard _
    have hb : (k.setGuard guard).before = k.before := by cases k <;> rfl
    refine ⟨?_, target_setGuard guard depth k, hk.setGuard guard, ?_⟩
    · rw [start_code (hk.setGuard guard).before.ne_nil, start_code hk.before.ne_nil, hb]
    · rw [mark?_setGuard]
      exact hm.imp_right (isOpen_setGuard guard)
  · exact ⟨rfl, rfl, hk, hm⟩

theorem joined_snd_tidy (new : NodeId) (hr : r.Tidy) : (joined new k r).2.Tidy := by
  unfold joined
  split
  · exact hr.body.surround (tidyLine_noop new) []
  · exact hr

theorem plug_joined (new : NodeId) (k r : Chain NodeId) :
    (joined new k r).1.plug (joined new k r).2 = k.attach true new r := by
  cases h : joinGuard? k r <;> simp [joined, attach, h]

theorem put_ok {line target rest : NodeId} {u : Unit}
    (h : ((do
      match (← get).code.findPlaceholder? line with
      | some placeholder => edit (·.replace placeholder rest)
      | none => append target rest) : Build Unit) p = .ok u p') :
    p' = { p with
      code :=
        match p.code.findPlaceholder? line with
        | some placeholder => p.code.replace placeholder rest
        | none => p.code.append target rest } := by
  obtain ⟨q, p1, hq, h1⟩ := Build.bind_ok h
  obtain ⟨rfl, rfl⟩ := Build.get_ok hq
  cases hf : p1.code.findPlaceholder? line with
  | some placeholder => rw [hf] at h1; exact Build.edit_ok h1
  | none => rw [hf] at h1; exact Build.append_ok h1

/-- **The chain of an operand is attached** to the chain so far. -/
theorem place_ok {o : Options} {depth : Nat} {u : Unit} (hk : k.Tidy) (hr : r.Tidy) (hb : r.Busy)
    (hm : k.mark?.isSome ∨ k.IsOpen depth)
    (h : p.code.Owns (cells .root none k.code + (cells .root none r.code + F)))
    (hp : place o (start k.code) (k.target depth) (start r.code) p = .ok u p') :
    ∃ new, Writes p p' (cells .root none (k.attach o.joinComparisons new r).code + F) := by
  unfold place at hp
  obtain ⟨q, p1, hq, h1⟩ := Build.bind_ok hp
  obtain ⟨rfl, rfl⟩ := Build.get_ok hq
  rw [isBlank_busy hr hb h.swap, if_neg (by simp)] at h1
  split_ifs at h1 with hjoins
  · obtain ⟨rest, p2, hj, h2⟩ := Build.bind_ok h1
    obtain ⟨new, rfl, hwrites⟩ := join_ok hk hr h hj
    obtain ⟨hs, ht, htidy, hm'⟩ := joined_fst (r := r) new hk hm
    have h4 := owns_plug htidy (joined_snd_tidy (k := k) new hr) hm' hwrites.owns
    rw [hs, ht, plug_joined] at h4
    obtain rfl := put_ok h2
    exact ⟨new, hwrites.groups, hwrites.deepest, by rw [hjoins]; exact h4⟩
  · obtain ⟨rest, p2, hj, h2⟩ := Build.bind_ok h1
    obtain ⟨rfl, rfl⟩ := Build.pure_ok hj
    obtain rfl := put_ok h2
    refine ⟨0, rfl, rfl, ?_⟩
    rw [attach, if_neg hjoins]
    exact owns_plug hk hr hm h

end Place

/-! ### Entering a node -/

section Enter

variable {p p' : Progress} {F : Multiset Cell} {k : Chain NodeId} {depth : Nat}
  {ts short : List (Stmt NodeId)} {trail : Trail} {line target id : NodeId}

theorem isOpen_plug (hk : k.Tidy) (h : k.IsOpen depth) (ts : List (Stmt NodeId)) :
    (k.plug (.hole ts none [])).IsOpen depth ∧
    (k.plug (.hole ts none [])).target depth = k.target depth := by
  induction h using isOpen_induct with
  | hole before => exact ⟨trivial, start_append hk.ne_nil ts⟩
  | under depth before check guard inner otherwise h ih => exact ih hk.2

theorem plug_nil_of_isOpen (h : k.IsOpen depth) : k.plug (.hole [] none []) = k := by
  induction h using isOpen_induct with
  | hole before => simp [plug, surround]
  | under depth before check guard inner otherwise h ih => rw [plug, ih]

theorem plug_plug_hole (k : Chain NodeId) (xs ys : List (Stmt NodeId)) :
    (k.plug (.hole xs none [])).plug (.hole ys none []) = k.plug (.hole (xs ++ ys) none []) := by
  induction k with
  | hole before mark after => simp [plug, surround]
  | under before check guard inner otherwise after ih => rw [plug, plug, ih, plug]

/-- A statement at the end of the innermost sequence of a chain without placeholders. -/
theorem owns_extend {c : Code} (hk : k.Tidy) (ho : k.IsOpen depth) (hts : ts ≠ [])
    (h : c.Owns (cells .root none k.code + (cells .root none ts + F))) :
    (c.append (k.target depth) (start ts)).Owns
      (cells .root none (k.plug (.hole ts none [])).code + F) := by
  have h1 := h.append_open hk ho hts
  rw [code_plug]
  simpa [code, fill, mark?] using h1

theorem bindOperands_ok {index count : Nat} {u : Unit} (hk : k.Tidy) (ho : k.IsOpen depth)
    (h : p.code.Owns (cells .root none k.code + F))
    (hb : bindOperands (k.target depth) trail index count p = .ok u p') :
    ∃ ts, Stmt.strip ts = operandLines trail index count ∧
      Writes p p' (cells .root none (k.plug (.hole ts none [])).code + F) := by
  induction count generalizing k index p with
  | zero =>
    obtain ⟨-, rfl⟩ := Build.pure_ok hb
    exact ⟨[], rfl, rfl, rfl, by rwa [plug_nil_of_isOpen ho]⟩
  | succ count ih =>
    obtain ⟨id, p1, ha, h1⟩ := Build.bind_ok hb
    obtain ⟨rfl, rfl⟩ := Build.alloc_ok ha
    obtain ⟨_, p2, happ, h2⟩ := Build.bind_ok h1
    obtain rfl := Build.append_ok happ
    set definition : Line := .definition (trail.child index) (.operand trail index) true with hdef
    have hline : TidyLine [fresh p.code.size definition] :=
      tidyLine_cons (by simp [hdef]) rfl (Or.inl rfl)
    have h3 := owns_extend hk ho (by simp) (h.alloc definition).swap
    obtain ⟨ho', ht'⟩ := isOpen_plug hk ho [fresh p.code.size definition]
    rw [← ht'] at h2 h3
    obtain ⟨ts, hts, hgroups, hdeepest, h4⟩ := ih (hk.plug (r := .hole _ none []) hline) ho' h3 h2
    refine ⟨fresh p.code.size definition :: ts, ?_, hgroups, hdeepest, ?_⟩
    · rw [strip_cons, hts]; rfl
    · rwa [plug_plug_hole] at h4

/-- The store owns a chain with the given entry, and nothing else has changed. -/
def Enters (p p' : Progress) (F : Multiset Cell) (line target : NodeId) (e : Entry) : Prop :=
  ∃ k : Chain NodeId, k.strip = e.1 ∧ start k.code = line ∧ k.target e.2 = target ∧
    p'.groups = p.groups ∧ p'.deepest = p.deepest ∧ p'.code.Owns (cells .root none k.code + F)

theorem Writes.enters {e : Entry} (h : Writes p p' (cells .root none k.code + F))
    (hk : k.strip = e.1) (hline : start k.code = line) (htarget : k.target e.2 = target) :
    Enters p p' F line target e :=
  ⟨k, hk, hline, htarget, h.groups, h.deepest, h.owns⟩

theorem alloc_own {x : Line} (h : p.code.Owns F) (ha : alloc x.kind p = .ok id p') :
    Writes p p' (cells .root none [fresh id x] + F) := by
  obtain ⟨rfl, rfl⟩ := Build.alloc_ok ha
  exact ⟨rfl, rfl, h.alloc x⟩

theorem append_own {xs ys : List (Stmt NodeId)} {u : Unit} (hx : xs ≠ []) (hy : ys ≠ [])
    (h : p.code.Owns (cells .root none xs + (cells .root none ys + F)))
    (ha : append (start xs) (start ys) p = .ok u p') :
    Writes p p' (cells .root none (xs ++ ys) + F) := by
  obtain rfl := Build.append_ok ha
  exact ⟨rfl, rfl, h.append hx hy⟩

theorem createIf_own {guard : Guard} (hts : ts ≠ []) (h : p.code.Owns (cells .root none ts + F))
    (hc : create (·.createIf guard (some (start ts)) none) p = .ok id p') :
    ∃ otherwise, Writes p p' (cells .root none [.branch id guard ts [noop otherwise] []] + F) := by
  obtain ⟨c', hc', h'⟩ := h.createIf hts guard
  obtain ⟨rfl, rfl⟩ := Build.create_ok hc
  rw [hc']
  exact ⟨_, rfl, rfl, h'⟩

theorem createIf_both_own {guard : Guard} {t e : List (Stmt NodeId)} (ht : t ≠ []) (he : e ≠ [])
    (h : p.code.Owns (cells .root none t + (cells .root none e + F)))
    (hc : create (·.createIf guard (some (start t)) (some (start e))) p = .ok id p') :
    Writes p p' (cells .root none [.branch id guard t e []] + F) := by
  obtain ⟨c', hc', h'⟩ := h.createIf_both ht he guard
  obtain ⟨rfl, rfl⟩ := Build.create_ok hc
  rw [hc']
  exact ⟨rfl, rfl, h'⟩

theorem addElseIf_own {guard shortGuard : Guard} {t e : List (Stmt NodeId)} {check : NodeId}
    (hshort : short ≠ [])
    (h : p.code.Owns (cells .root none [.branch check guard t e []] + (cells .root none short + F)))
    (hc : create (·.addElseIf check shortGuard (some (start short))) p = .ok id p') :
    ∃ otherwise,
      Writes p p' (cells .root none
        [.branch check guard t e [.branch id shortGuard short [noop otherwise] []]] + F) := by
  obtain ⟨c', hc', h'⟩ := h.addElseIf hshort shortGuard
  obtain ⟨rfl, rfl⟩ := Build.create_ok hc
  rw [hc']
  exact ⟨_, rfl, rfl, h'⟩

theorem sequence_own (hts : ts ≠ []) (h : p.code.Owns (cells .root none ts + F))
    (hc : create (·.sequence [start ts]) p = .ok id p') :
    Writes p p' (cells .root none (noop id :: ts) + F) := by
  obtain ⟨c', hc', h'⟩ :=
    Code.Owns.sequence (m := F) (t := [ts]) (by simpa using hts) (by simpa using h)
  obtain ⟨rfl, rfl⟩ := Build.create_ok hc
  rw [List.map_singleton] at hc'
  rw [hc']
  exact ⟨rfl, rfl, by simpa using h'⟩

theorem extend_own {u : Unit} (hk : k.Tidy) (ho : k.IsOpen depth) (hts : ts ≠ [])
    (h : p.code.Owns (cells .root none k.code + (cells .root none ts + F)))
    (ha : append (k.target depth) (start ts) p = .ok u p') :
    Writes p p' (cells .root none (k.plug (.hole ts none [])).code + F) := by
  obtain rfl := Build.append_ok ha
  exact ⟨rfl, rfl, owns_extend hk ho hts h⟩

/-- The operands of a checked node are bound. -/
theorem enters_bind {p1 : Progress} {d count : Nat} {u : Unit} {e : Entry} (hk : k.Tidy)
    (ho : k.IsOpen d) (h : Writes p p1 (cells .root none k.code + F))
    (hb : bindOperands (k.target d) trail 0 count p1 = .ok u p')
    (he : e = (k.strip.plug (.hole (operandLines trail 0 count) none []), d)) :
    Enters p p' F (start k.before) (k.target d) e := by
  obtain ⟨ts, hts, h1⟩ := bindOperands_ok hk ho h.owns hb
  subst he
  refine (h.trans h1).enters ?_ ?_ (isOpen_plug hk ho ts).2
  · rw [strip_plug, ← hts]; rfl
  · rw [code_plug, start_fill hk.before.ne_nil]

/-- A node is checked and its operands are bound. -/
theorem matchPlain_ok {o : Options} {guard : Guard} {pending : Option Trail} {count : Nat}
    (h : p.code.Owns (cells .root none [noop line] + F))
    (hm : matchPlain o trail guard pending count line p = .ok target p') :
    Enters p p' F line target (plainEntry o trail guard pending count) := by
  unfold matchPlain at hm
  unfold plainEntry
  split_ifs at hm ⊢ with hskip
  · -- the guard is left to the caller, and a comment stands in its place
    obtain ⟨implied, p1, ha, h1⟩ := Build.bind_ok hm
    have hw1 := alloc_own (x := .custom _) h ha
    obtain ⟨_, p2, happ, h2⟩ := Build.bind_ok h1
    have hw2 := append_own (by simp) (by simp) hw1.owns.swap happ
    obtain ⟨_, p3, hpure, h3⟩ := Build.bind_ok h2
    obtain ⟨rfl, rfl⟩ := Build.pure_ok hpure
    obtain ⟨_, p4, hb, h4⟩ := Build.bind_ok h3
    obtain ⟨rfl, rfl⟩ := Build.pure_ok h4
    set k : Chain NodeId :=
      .hole [noop target, fresh implied (.custom ("// implied by dispatch: " ++ guard.text))] none
        []
    have hk : k.Tidy := tidyLine_cons (by simp) rfl
      (Or.inr (tidyLine_cons (x := .custom _) (by simp) (isCommentLine_implied guard) (Or.inl rfl)))
    exact enters_bind (k := k) (d := 0) hk trivial (hw1.trans hw2) hb rfl
  · obtain ⟨body, p1, ha, h1⟩ := Build.bind_ok hm
    have hw1 := alloc_own (x := .noop) h ha
    obtain ⟨check, p2, hc, h2⟩ := Build.bind_ok h1
    obtain ⟨otherwise, hw2⟩ := createIf_own (by simp) hw1.owns hc
    cases pending with
    | none =>
      obtain ⟨check, p3, hpure, h3⟩ := Build.bind_ok h2
      obtain ⟨rfl, rfl⟩ := Build.pure_ok hpure
      obtain ⟨_, p4, happ, h4⟩ := Build.bind_ok h3
      have hw4 := append_own (by simp) (by simp) hw2.owns.swap happ
      obtain ⟨_, p5, hpure, h5⟩ := Build.bind_ok h4
      obtain ⟨rfl, rfl⟩ := Build.pure_ok hpure
      obtain ⟨_, p6, hb, h6⟩ := Build.bind_ok h5
      obtain ⟨rfl, rfl⟩ := Build.pure_ok h6
      set k : Chain NodeId :=
        .under [noop line] check guard (.hole [noop target] none []) otherwise []
      have hk : k.Tidy := ⟨tidyLine_noop line, tidyLine_noop target⟩
      exact enters_bind (k := k) (d := 1) hk trivial ((hw1.trans hw2).trans hw4) hb rfl
    | some first =>
      -- the node is compared with an earlier one of its group first
      obtain ⟨wrapper, p3, hs, h3⟩ := Build.bind_ok h2
      have hw3 := sequence_own (by simp) hw2.owns hs
      obtain ⟨pair, p4, hc', h4⟩ := Build.bind_ok h3
      obtain ⟨otherwise', hw4⟩ := createIf_own (by simp) hw3.owns hc'
      obtain ⟨_, p5, happ, h5⟩ := Build.bind_ok h4
      have hw5 := append_own (by simp) (by simp) hw4.owns.swap happ
      obtain ⟨_, p6, hpure, h6⟩ := Build.bind_ok h5
      obtain ⟨rfl, rfl⟩ := Build.pure_ok hpure
      obtain ⟨_, p7, hb, h7⟩ := Build.bind_ok h6
      obtain ⟨rfl, rfl⟩ := Build.pure_ok h7
      set k : Chain NodeId := .under [noop line] pair (.sameOperator first trail)
        (.under [noop wrapper] check guard (.hole [noop target] none []) otherwise []) otherwise' []
      have hk : k.Tidy := ⟨tidyLine_noop line, tidyLine_noop wrapper, tidyLine_noop target⟩
      exact enters_bind (k := k) (d := 2) hk trivial
        ((((hw1.trans hw2).trans hw3).trans hw4).trans hw5) hb rfl

theorem assignBoth_own {a b : Trail × Binding} (h : p.code.Owns F)
    (ha : assignBoth a b p = .ok id p') :
    ∃ ts, ts ≠ [] ∧ start ts = id ∧ Stmt.strip ts = assignments a b ∧
      Writes p p' (cells .root none ts + F) := by
  obtain ⟨x, p1, h1, ha⟩ := Build.bind_ok ha
  have hw1 := alloc_own (x := .definition a.1 a.2 false) h h1
  obtain ⟨y, p2, h2, ha⟩ := Build.bind_ok ha
  have hw2 := alloc_own (x := .definition b.1 b.2 false) hw1.owns h2
  obtain ⟨c', hc', h3⟩ :=
    Code.Owns.sequence (m := F)
      (t := [[fresh x (.definition a.1 a.2 false)], [fresh y (.definition b.1 b.2 false)]])
      (by simp)
      (hw2.owns.swap.of_eq
        (by simp only [List.map_cons, List.map_nil, List.sum_cons, List.sum_nil]; abel))
  obtain ⟨rfl, rfl⟩ := Build.create_ok ha
  have hseq : p2.code.sequence [x, y] = (p2.code.size, c') := hc'
  rw [hseq]
  exact ⟨_, by simp, rfl, rfl, (hw1.trans hw2).groups, (hw1.trans hw2).deepest, h3⟩

theorem declareBoth_own {u : Unit} (hk : k.Tidy) (ho : k.IsOpen depth)
    (h : p.code.Owns (cells .root none k.code + F))
    (hd : declareBoth (k.target depth) trail p = .ok u p') :
    ∃ ts, TidyLine ts ∧ Stmt.strip ts = declarations trail ∧
      Writes p p' (cells .root none (k.plug (.hole ts none [])).code + F) := by
  obtain ⟨x, p1, h1, hd⟩ := Build.bind_ok hd
  have hw1 := alloc_own (x := .declaration (trail.child 0)) h h1
  obtain ⟨_, p2, h2, hd⟩ := Build.bind_ok hd
  have hw2 := extend_own hk ho (by simp) hw1.owns.swap h2
  have hx : TidyLine [fresh x (.declaration (trail.child 0))] :=
    tidyLine_cons (by simp) rfl (Or.inl rfl)
  have hk' := hk.plug (r := .hole _ none []) hx
  obtain ⟨ho', ht'⟩ := isOpen_plug hk ho [fresh x (.declaration (trail.child 0))]
  obtain ⟨y, p3, h3, hd⟩ := Build.bind_ok hd
  have hw3 := alloc_own (x := .declaration (trail.child 1)) hw2.owns h3
  rw [← ht'] at hd
  have hw4 := extend_own hk' ho' (by simp) hw3.owns.swap hd
  rw [plug_plug_hole] at hw4
  exact ⟨_, hx.append (tidyLine_cons (by simp) rfl (Or.inl rfl)), rfl,
    ((hw1.trans hw2).trans hw3).trans hw4⟩

/-- What is chosen between the forms of a node stands behind the declarations of its operands. -/
theorem enters_declared {p2 : Progress} {d : Nat} {decls : List (Stmt NodeId)}
    {choice : Stmt NodeId} {u : Unit} (hk : k.Tidy) (ho : k.IsOpen d) (htidy : TidyLine decls)
    (hdecls : Stmt.strip decls = declarations trail)
    (h : Writes p p2
      (cells .root none [choice] + (cells .root none (k.plug (.hole decls none [])).code + F)))
    (ha : append (k.target d) choice.id p2 = .ok u p') :
    Enters p p' F (start k.before) (k.target d)
      (k.strip.plug (.hole (declarations trail ++ [choice.map fun _ => ()]) none []), d) := by
  obtain ⟨ho', ht'⟩ := isOpen_plug hk ho decls
  rw [← ht'] at ha
  have hw : Writes p2 p'
      (cells .root none ((k.plug (.hole decls none [])).plug (.hole [choice] none [])).code + F) :=
    extend_own (hk.plug (r := .hole decls none []) htidy) ho' (by simp) h.owns.swap ha
  rw [plug_plug_hole] at hw
  refine (h.trans hw).enters ?_ ?_ (isOpen_plug hk ho _).2
  · rw [strip_plug, ← hdecls]
    simp [Chain.strip, Chain.map, mapAll_eq_map, Stmt.strip]
  · rw [code_plug, start_fill hk.before.ne_nil]

/-- The two forms of a root are chosen between behind the declarations. -/
theorem enters_choice {p1 : Progress} {d : Nat} {full : List (Stmt NodeId)} {e : Entry}
    (hk : k.Tidy) (ho : k.IsOpen d) (hfull : full ≠ []) (hshort : short ≠ [])
    (h : Writes p p1 (cells .root none k.code +
      (cells .root none full + (cells .root none short + F))))
    (hc : (do
      declareBoth (k.target d) trail
      let choice ←
        create (·.createIf (.operandCountIs trail 2) (some (start full)) (some (start short)))
      append (k.target d) choice
      return k.target d : Build NodeId) p1 = .ok target p')
    (he : e =
      (k.strip.plug (.hole (declarations trail ++
        [.branch () (.operandCountIs trail 2) (Stmt.strip full) (Stmt.strip short) []]) none []),
        d)) :
    Enters p p' F (start k.before) target e := by
  obtain ⟨_, p2, hd, hc⟩ := Build.bind_ok hc
  obtain ⟨decls, htidy, hdecls, hw2⟩ := declareBoth_own hk ho h.owns hd
  obtain ⟨choice, p3, hi, hc⟩ := Build.bind_ok hc
  have h3 : p2.code.Owns (cells .root none full + (cells .root none short +
      (cells .root none (k.plug (.hole decls none [])).code + F))) := hw2.owns.of_eq (by abel)
  have hw3 := createIf_both_own hfull hshort h3 hi
  obtain ⟨_, p4, happ, hc⟩ := Build.bind_ok hc
  obtain ⟨rfl, rfl⟩ := Build.pure_ok hc
  subst he
  exact enters_declared hk ho htidy hdecls ((h.trans hw2).trans hw3) happ

theorem matchOptionalRoot_ok {o : Options} {l : Language} {shape : Shape}
    {full : List (Stmt NodeId)} (hfull : full ≠ []) (hshort : short ≠ [])
    (h : p.code.Owns
      (cells .root none [noop line] + (cells .root none full + (cells .root none short + F))))
    (hm : matchOptionalRoot o l shape trail (start full) (start short) line p = .ok target p') :
    ∃ e, optionalRootEntry o l shape trail (Stmt.strip full) (Stmt.strip short) = some e ∧
      Enters p p' F line target e := by
  unfold matchOptionalRoot at hm
  cases shape with
  | symbol name =>
    dsimp only at hm
    cases ht : takesOneOrTwo l name with
    | false =>
      rw [ht] at hm
      exact (Build.throw_ok (Build.bind_ok hm).choose_spec.choose_spec.1).elim
    | true =>
      rw [ht, if_neg (by simp)] at hm
      simp only [optionalRootEntry, ht, if_true]
      -- a dispatcher may have checked the operator before, and a comment is left in place of the
      -- check
      split_ifs at hm ⊢ with hskip
      · refine ⟨_, rfl, ?_⟩
        obtain ⟨implied, p1, ha, h1⟩ := Build.bind_ok hm
        have hw1 := alloc_own (x := .custom _) h ha
        obtain ⟨_, p2, happ, h2⟩ := Build.bind_ok h1
        have hw2 := append_own (by simp) (by simp) hw1.owns.swap happ
        obtain ⟨line, p3, hpure, h3⟩ := Build.bind_ok h2
        obtain ⟨rfl, rfl⟩ := Build.pure_ok hpure
        set k : Chain NodeId :=
          .hole [noop line,
            fresh implied
              (.custom ("// implied by dispatch: " ++ (Guard.operatorIs trail name).text))] none []
        have hk : k.Tidy := tidyLine_cons (by simp) rfl
          (Or.inr (tidyLine_cons (x := .custom _) (by simp) (isCommentLine_implied _) (Or.inl rfl)))
        exact enters_choice (k := k) (d := 0) hk trivial hfull hshort (hw1.trans hw2) h3 rfl
      · refine ⟨_, rfl, ?_⟩
        obtain ⟨body, p1, ha, h1⟩ := Build.bind_ok hm
        have hw1 := alloc_own (x := .noop) h ha
        obtain ⟨check, p2, hc, h2⟩ := Build.bind_ok h1
        obtain ⟨otherwise, hw2⟩ := createIf_own (by simp) hw1.owns hc
        obtain ⟨_, p3, happ, h3⟩ := Build.bind_ok h2
        have hw3 := append_own (by simp) (by simp) hw2.owns.swap happ
        obtain ⟨body, p4, hpure, h4⟩ := Build.bind_ok h3
        obtain ⟨rfl, rfl⟩ := Build.pure_ok hpure
        set k : Chain NodeId :=
          .under [noop line] check (.operatorIs trail name) (.hole [noop body] none []) otherwise []
        have hk : k.Tidy := ⟨tidyLine_noop line, tidyLine_noop body⟩
        exact enters_choice (k := k) (d := 1) hk trivial hfull hshort ((hw1.trans hw2).trans hw3) h4
          rfl
  | _ => exact (Build.throw_ok hm).elim

/-- The three forms of a node below the root are chosen between behind the declarations. -/
theorem enters_forms {p1 : Progress} {fullGuard shortGuard : Guard}
    {full absent : List (Stmt NodeId)} (hfull : full ≠ []) (hshort : short ≠ [])
    (habsent : absent ≠ [])
    (h : Writes p p1 (cells .root none [noop line] +
      (cells .root none full + (cells .root none absent + (cells .root none short + F)))))
    (hc : (do
      declareBoth line trail
      let choice ← create (·.createIf fullGuard (some (start full)) (some (start absent)))
      let _ ← create (·.addElseIf choice shortGuard (some (start short)))
      append line choice
      return line : Build NodeId) p1 = .ok target p') :
    Enters p p' F line target (.hole (noop () :: declarations trail ++
      [.branch () fullGuard (Stmt.strip full) (Stmt.strip absent)
        [.branch () shortGuard (Stmt.strip short) [noop ()] []]]) none [], 0) := by
  set k : Chain NodeId := .hole [noop line] none []
  have hk : k.Tidy := tidyLine_noop line
  have ho : k.IsOpen 0 := trivial
  obtain ⟨_, p2, hd, hc⟩ := Build.bind_ok hc
  obtain ⟨decls, htidy, hdecls, hw2⟩ := declareBoth_own hk ho h.owns hd
  obtain ⟨choice, p3, hi, hc⟩ := Build.bind_ok hc
  have h3 : p2.code.Owns (cells .root none full +
      (cells .root none absent +
        (cells .root none short + (cells .root none (k.plug (.hole decls none [])).code + F)))) :=
    hw2.owns.of_eq (by abel)
  have hw3 := createIf_both_own hfull habsent h3 hi
  obtain ⟨elseIf, p4, hei, hc⟩ := Build.bind_ok hc
  obtain ⟨otherwise, hw4⟩ := addElseIf_own hshort hw3.owns hei
  obtain ⟨_, p5, happ, hc⟩ := Build.bind_ok hc
  obtain ⟨rfl, rfl⟩ := Build.pure_ok hc
  exact enters_declared hk ho htidy hdecls (((h.trans hw2).trans hw3).trans hw4) happ

/-- Both operands of a node with an optional operand are bound. -/
theorem matchOptional_ok {o : Options} {l : Language} {shape : Shape} {position : Nat}
    {pattern default : Expr} {pending : Option Trail}
    (h : p.code.Owns (cells .root none [noop line] + F))
    (hm : matchOptional o l shape trail position pattern default pending line p = .ok target p') :
    ∃ e, optionalEntry o l shape trail position pattern default pending = some e ∧
      Enters p p' F line target e := by
  unfold matchOptional at hm
  have hmeta : ∃ id, pattern.unwrap = .metavar id := by
    cases hu : pattern.unwrap with
    | metavar id => exact ⟨id, rfl⟩
    | _ => rw [hu] at hm; cases hm
  obtain ⟨id, hid⟩ := hmeta
  simp only [hid] at hm
  obtain ⟨code, p1, hl1, h1⟩ := Build.bind_ok hm
  obtain ⟨hcode, rfl⟩ := Build.lift_ok hl1
  obtain ⟨fullGuard, p2, hl2, h2⟩ := Build.bind_ok h1
  obtain ⟨hfullGuard, rfl⟩ := Build.lift_ok hl2
  obtain ⟨shortGuard, p3, hl3, h3⟩ := Build.bind_ok h2
  obtain ⟨hshortGuard, rfl⟩ := Build.lift_ok hl3
  obtain ⟨_, p4, ha4, h4⟩ := Build.bind_ok h3
  obtain ⟨full, hfull, rfl, hfs, hw4⟩ := assignBoth_own h ha4
  obtain ⟨_, p5, ha5, h5⟩ := Build.bind_ok h4
  obtain ⟨short, hshort, rfl, hss, hw5⟩ := assignBoth_own hw4.owns ha5
  simp only [optionalEntry, hid, hcode, hfullGuard, hshortGuard]
  split_ifs at h5 ⊢ with ht
  · rw [← hfs, ← hss]
    have h6 : p5.code.Owns
        (cells .root none [noop line] + (cells .root none full + (cells .root none short + F))) :=
      hw5.owns.of_eq (by abel)
    obtain ⟨e, he, k, hk, hs, htgt, hg, hd, hown⟩ := matchOptionalRoot_ok hfull hshort h6 h5
    exact ⟨e, he, ((hw4.trans hw5).trans ⟨hg, hd, hown⟩).enters hk hs htgt⟩
  · obtain ⟨_, p6, ha6, h6⟩ := Build.bind_ok h5
    obtain ⟨absent, habsent, rfl, has, hw6⟩ := assignBoth_own hw5.owns ha6
    refine ⟨_, rfl, ?_⟩
    rw [← hfs, ← hss, ← has]
    have hw := (hw4.trans hw5).trans hw6
    -- below the root the operand may be all there is of the node
    exact enters_forms hfull hshort habsent ⟨hw.groups, hw.deepest, hw.owns.of_eq (by abel)⟩ h6

theorem enterGroup_ok {shape : Shape} {pending : Option Trail}
    (h : shape.enterGroup trail p = .ok pending p') :
    pending = shape.pending? p.groups ∧
    p' = { p with groups := shape.joinGroup p.groups trail } := by
  cases shape <;> cases h <;> exact ⟨rfl, rfl⟩

/-- **A node is entered**: it is checked, joins its group and has its operands bound. -/
theorem enter_ok {o : Options} {l : Language} {shape : Shape} {operands : List Expr}
    {skipped : Option Nat} (h : p.code.Owns (cells .root none [noop line] + F))
    (he : enter o l shape trail operands line p = .ok (target, skipped) p') :
    ∃ e, entry o l shape trail operands p.groups = some (e, skipped) ∧
      Enters { p with groups := shape.joinGroup p.groups trail } p' F line target e := by
  unfold enter at he
  obtain ⟨pending, p1, hg, he⟩ := Build.bind_ok he
  obtain ⟨rfl, rfl⟩ := enterGroup_ok hg
  unfold entry
  cases ho : optionalOperand? operands with
  | none =>
    simp only [ho] at he
    obtain ⟨_, p2, hm, he⟩ := Build.bind_ok he
    obtain ⟨hpair, rfl⟩ := Build.pure_ok he
    cases hpair
    exact ⟨_, rfl, matchPlain_ok h hm⟩
  | some x =>
    obtain ⟨position, pattern, default⟩ := x
    simp only [ho] at he
    obtain ⟨_, p2, hm, he⟩ := Build.bind_ok he
    obtain ⟨hpair, rfl⟩ := Build.pure_ok he
    cases hpair
    obtain ⟨e, hentry, henters⟩ :=
      matchOptional_ok (p := { p with groups := shape.joinGroup p.groups trail }) h hm
    exact ⟨e, by simp [hentry], henters⟩

end Enter

/-! ### Patterns -/

section Pattern

variable {o : Options} {l : Language} {p p' : Progress} {F : Multiset Cell} {k : Chain NodeId}

/-- The store owns the code of a pattern, a single node for a metavariable. A placeholder is wanted
as long as there is none. -/
def Builds (p : Progress) (F : Multiset Cell) (head : NodeId) : Option (Chain Unit) → Prop
  | none => p.deepest = true ∧ p.code.Owns (cells .root none [noop head] + F)
  | some k =>
    p.deepest = false ∧
    ∃ k' : Chain NodeId, k'.strip = k ∧ start k'.code = head ∧
      p.code.Owns (cells .root none k'.code + F)

/-- What the loop over the operands keeps of the chain so far. -/
structure Grows (k k' : Chain NodeId) (depth : Nat) : Prop where
  head : start k'.code = start k.code
  target : k'.target depth = k.target depth
  tidy : k'.Tidy
  reaches : k'.Reaches depth
  marked : k'.mark?.isSome ∨ k'.IsOpen depth

theorem Grows.attach {depth : Nat} {r : Chain NodeId} (hk : k.Tidy) (hr : r.Tidy)
    (hm : r.mark?.isSome) (hd : k.Reaches depth) (joins : Bool) (new : NodeId) :
    Grows k (k.attach joins new r) depth where
  head := by
    have := target_attach hk (show k.Reaches 0 from trivial) joins new r
    rw [start_code (hk.attach hr joins new).before.ne_nil, start_code hk.before.ne_nil]
    exact this
  target := target_attach hk hd joins new r
  tidy := hk.attach hr joins new
  reaches := hd.attach joins new r
  marked := Or.inl (by rwa [mark?_attach])

theorem askPlaceholder_ok {u : Unit} (hk : k.Tidy) (h : p.code.Owns (cells .root none k.code + F))
    (hw : p.deepest = true ∨ k.mark?.isSome) (ha : askPlaceholder (start k.code) p = .ok u p') :
    p' = { p with deepest := true } := by
  have h1 := Build.modify_ok ha
  rw [h1]
  split_ifs with hc
  · rfl
  · rcases hw with hw | hw
    · rw [← hw]
    · obtain ⟨mark, hmark⟩ := Option.isSome_iff_exists.1 hw
      rw [h.findPlaceholder?_mark hk hmark] at hc
      cases hd : p.deepest with
      | true => rw [← hd]
      | false => simp [hd] at hc

theorem leavePlaceholder_ok {depth : Nat} {u : Unit} (hk : k.Tidy) (hr : k.Reaches depth)
    (hm : k.mark?.isSome ∨ k.IsOpen depth) (h : p.code.Owns (cells .root none k.code + F))
    (hl : leavePlaceholder (k.target depth) p = .ok u p') :
    p'.groups = p.groups ∧ p'.deepest = false ∧
    ∃ k' : Chain NodeId, k'.strip = (if p.deepest then k.strip.leave () depth else k.strip) ∧
      start k'.code = start k.code ∧ p'.code.Owns (cells .root none k'.code + F) := by
  unfold leavePlaceholder at hl
  obtain ⟨q, p1, hq, h1⟩ := Build.bind_ok hl
  obtain ⟨rfl, rfl⟩ := Build.get_ok hq
  cases hd : p1.deepest with
  | false =>
    rw [hd, if_neg (by simp)] at h1
    obtain ⟨-, rfl⟩ := Build.pure_ok h1
    exact ⟨rfl, hd, k, by simp, rfl, h⟩
  | true =>
    rw [hd, if_pos rfl] at h1
    obtain ⟨new, p2, ha, h2⟩ := Build.bind_ok h1
    obtain ⟨rfl, rfl⟩ := Build.alloc_ok ha
    obtain ⟨_, p3, happ, h3⟩ := Build.bind_ok h2
    obtain rfl := Build.append_ok happ
    obtain rfl := Build.modify_ok h3
    refine ⟨rfl, rfl, k.leave p1.code.size depth, by simp, ?_, h.leave hk hr hm⟩
    rw [start_code (hk.leave _ depth).before.ne_nil, start_code hk.before.ne_nil]
    cases k with
    | hole before mark after => cases depth <;> cases mark <;> rfl
    | under before check guard inner otherwise after => cases depth <;> rfl

/-- What is to be shown of a pattern. -/
def PatternOk (o : Options) (l : Language) (e : Expr) : Prop :=
  ∀ (trail : Trail) (p p' : Progress) (F : Multiset Cell) (head : NodeId), p.deepest = true →
    p.code.Owns F → matchPattern o l e trail p = .ok head p' →
    ∃ k, patternChain o l e trail p.groups = some (k, p'.groups) ∧ Builds p' F head k

/-- What is to be shown of the operands of a node. -/
def OperandsOk (o : Options) (l : Language) (es : List Expr) : Prop :=
  ∀ (skipped : Option Nat) (trail : Trail) (index depth : Nat) (k : Chain NodeId)
    (p p' : Progress) (F : Multiset Cell) (u : Unit),
    k.Tidy → k.Reaches depth → k.mark?.isSome ∨ k.IsOpen depth → p.deepest = true ∨ k.mark?.isSome →
    p.code.Owns (cells .root none k.code + F) →
    matchOperands o l (start k.code) (k.target depth) skipped trail index es p = .ok u p' →
    ∃ k',
      operandsChain o l skipped trail index es k.strip p.deepest p.groups =
        some (k'.strip, p'.deepest, p'.groups) ∧
      Grows k k' depth ∧ p'.code.Owns (cells .root none k'.code + F)

theorem operandsOk_nil : OperandsOk o l [] := by
  intro skipped trail index depth k p p' F u ht hr hm hw h ho
  obtain ⟨-, rfl⟩ := Build.pure_ok ho
  exact ⟨k, rfl, ⟨rfl, rfl, ht, hr, hm⟩, h⟩

theorem Grows.trans {k' k'' : Chain NodeId} {depth : Nat} (h : Grows k k' depth)
    (h' : Grows k' k'' depth) : Grows k k'' depth :=
  ⟨h'.head.trans h.head, h'.target.trans h.target, h'.tidy, h'.reaches, h'.marked⟩

theorem operandsOk_cons {e : Expr} {rest : List Expr} (he : PatternOk o l e)
    (hrest : OperandsOk o l rest) : OperandsOk o l (e :: rest) := by
  intro skipped trail index depth k p p' F u ht hr hm hw h ho
  rw [matchOperands] at ho
  rw [operandsChain]
  by_cases hs : skipped = some index
  · rw [if_neg (by simpa using hs)] at ho
    rw [if_pos hs]
    exact hrest skipped trail (index + 1) depth k p p' F u ht hr hm hw h ho
  · rw [if_pos hs] at ho
    rw [if_neg hs]
    obtain ⟨_, p1, ha, h1⟩ := Build.bind_ok ho
    obtain rfl := askPlaceholder_ok ht h hw ha
    obtain ⟨head, p2, hp, h2⟩ := Build.bind_ok h1
    obtain ⟨r, hchain, hbuilds⟩ :=
      he (trail.child index) { p with deepest := true } p2 _ head rfl h hp
    have hchain' : patternChain o l e (trail.child index) p.groups = some (r, p2.groups) := hchain
    obtain ⟨_, p3, hplace, h3⟩ := Build.bind_ok h2
    rw [hchain']
    cases r with
    | none =>
      -- a metavariable: nothing is placed
      obtain ⟨hd2, ho2⟩ := hbuilds
      have hp3 : p3 = p2 := by
        unfold place at hplace
        obtain ⟨q, p4, hq, h4⟩ := Build.bind_ok hplace
        obtain ⟨rfl, rfl⟩ := Build.get_ok hq
        rw [isBlank_noop ho2, if_pos rfl] at h4
        exact (Build.pure_ok h4).2
      subst hp3
      obtain ⟨k', hk', hg, ho'⟩ :=
        hrest skipped trail (index + 1) depth k p3 p' F u ht hr hm (Or.inl hd2) ho2.right h3
      rw [hd2] at hk'
      exact ⟨k', hk', hg, ho'⟩
    | some r =>
      obtain ⟨hd2, r', rfl, rfl, ho2⟩ := hbuilds
      have hfit := patternChain_fit hchain
      have hr' := tidy_of_strip hfit.1
      have hm' : r'.mark?.isSome := by
        have := hfit.2.2
        rwa [mark?_strip, Option.isSome_map] at this
      obtain ⟨new, hw3⟩ := place_ok ht hr' (busy_of_strip hfit.2.1) hm ho2.swap hplace
      have hgrow := Grows.attach ht hr' hm' hr o.joinComparisons new
      rw [← hgrow.head, ← hgrow.target] at h3
      obtain ⟨k', hk', hg, ho'⟩ :=
        hrest skipped trail (index + 1) depth _ p3 p' F u hgrow.tidy hgrow.reaches hgrow.marked
          (Or.inr (by rwa [mark?_attach])) hw3.owns h3
      rw [hw3.deepest, hd2, hw3.groups, strip_attach] at hk'
      exact ⟨k', hk', hgrow.trans hg, ho'⟩

/-- A node is entered behind a new first node. -/
theorem enter_new {shape : Shape} {trail : Trail} {operands : List Expr} {line target : NodeId}
    {skipped : Option Nat} {p1 p2 : Progress} (hd : p.deepest = true) (h : p.code.Owns F)
    (ha : alloc .noop p = .ok line p1)
    (he : enter o l shape trail operands line p1 = .ok (target, skipped) p2) :
    ∃ e, entry o l shape trail operands p.groups = some (e, skipped) ∧
      ∃ k : Chain NodeId, k.strip = e.1 ∧ start k.code = line ∧ k.target e.2 = target ∧
        p2.groups = shape.joinGroup p.groups trail ∧ p2.deepest = true ∧ k.Tidy ∧ k.Busy ∧
        k.IsOpen e.2 ∧ p2.code.Owns (cells .root none k.code + F) := by
  have hw := alloc_own (x := .noop) h ha
  obtain ⟨e, hentry, k, hk, hs, ht, hg, hd2, ho⟩ := enter_ok hw.owns he
  rw [hw.groups] at hentry hg
  have hfit := isEntry_entry hentry
  refine ⟨e, hentry, k, hk, hs, ht, hg, hd2.trans (hw.deepest.trans hd), ?_, ?_, ?_, ho⟩
  · exact tidy_of_strip (hk ▸ hfit.1)
  · exact busy_of_strip (hk ▸ hfit.2.1)
  · exact isOpen_of_strip (hk ▸ hfit.2.2)

/-- A node, given its operands. -/
theorem matchNode_ok {shape : Shape} {trail : Trail} {operands : List Expr} {head : NodeId}
    (hops : OperandsOk o l operands) (hd : p.deepest = true) (h : p.code.Owns F)
    (hm : matchNode o l shape trail operands p = .ok head p') :
    ∃ e skipped k wanted, entry o l shape trail operands p.groups = some (e, skipped) ∧
      operandsChain o l skipped trail 0 operands e.1 true (shape.joinGroup p.groups trail) =
        some (k, wanted, p'.groups) ∧
      Builds p' F head (some (if wanted then k.leave () e.2 else k)) := by
  obtain ⟨line, p1, ha, h1⟩ := Build.bind_ok hm
  obtain ⟨⟨target, skipped⟩, p2, he, h2⟩ := Build.bind_ok h1
  obtain ⟨e, hentry, k, hk, rfl, rfl, hg, hd2, ht, hb, ho, hown⟩ := enter_new hd h ha he
  obtain ⟨_, p3, hmo, h3⟩ := Build.bind_ok h2
  obtain ⟨k', hchain, hgrows, hown'⟩ :=
    hops skipped trail 0 e.2 k p2 p3 F _ ht ho.reaches (Or.inr ho) (Or.inl hd2) hown hmo
  obtain ⟨_, p4, hl, h4⟩ := Build.bind_ok h3
  obtain ⟨rfl, rfl⟩ := Build.pure_ok h4
  rw [← hgrows.target] at hl
  obtain ⟨hg4, hd4, k'', hk'', hs'', ho''⟩ :=
    leavePlaceholder_ok hgrows.tidy hgrows.reaches hgrows.marked hown' hl
  rw [hk, hd2, hg] at hchain
  exact ⟨e, skipped, k'.strip, p3.deepest, hentry, by rw [hchain, hg4], hd4, k'', hk'',
    hs''.trans hgrows.head, ho''⟩

theorem patternOk_all (o : Options) (l : Language) :
    (∀ e, PatternOk o l e) ∧ ∀ es, OperandsOk o l es := by
  apply pattern_induct l
  case metavar =>
    intro id trail p p' F head hd h hm
    rw [matchPattern] at hm
    have hw := alloc_own (x := .noop) h hm
    exact ⟨none, by rw [patternChain, hw.groups], hw.deepest.trans hd, hw.owns⟩
  case compound =>
    intro inner ih trail p p' F head hd h hm
    rw [matchPattern] at hm
    exact ih trail p p' F head hd h hm
  case optional =>
    intro pattern default _ _ trail p p' F head hd h hm
    rw [matchPattern] at hm
    obtain ⟨_, p1, -, h1⟩ := Build.bind_ok hm
    exact (Build.throw_ok h1).elim
  case node =>
    intro e shape operands hnode ih trail p p' F head hd h hm
    rw [hnode.matchPattern_eq] at hm
    obtain ⟨e0, skipped, k, wanted, he, hk, hb⟩ := matchNode_ok ih hd h hm
    exact ⟨_, hnode.patternChain_of_entry he hk, hb⟩
  case nil => exact operandsOk_nil
  case cons => exact fun e rest he hrest => operandsOk_cons he hrest

/-- **The matcher of a pattern is its chain.** -/
theorem matchPattern_ok {e : Expr} {trail : Trail} {head : NodeId} (hd : p.deepest = true)
    (h : p.code.Owns F) (hm : matchPattern o l e trail p = .ok head p') :
    ∃ k, patternChain o l e trail p.groups = some (k, p'.groups) ∧ Builds p' F head k :=
  (patternOk_all o l).1 e trail p p' F head hd h hm

end Pattern

end Rulewright.Matcher
