import Rulewright.Code.Edit
import Rulewright.Proofs.Forest.Growth

/-!
# Histories of code

Edits move trees about. As long as what is moved lies in another tree than the node it is attached
to, each edit turns well-formed code into well-formed code, and so does every history of edits from
the empty code on.

* `Code.top`: the start of the tree that a node is in; `Code.Apart`: two nodes are in different
  trees.
* `Code.Allows`: what one edit asks for; `Code.AllowsAll`: the same of a whole history.
* `perform_wellFormed`: one edit. `history_wellFormed`: a history.
-/

namespace Rulewright.Code

variable {c c' : Code}

/-! ### Trees -/

/-- The start of the tree that a node is in. -/
def top (c : Code) (n : NodeId) : NodeId := (c.ancestors n).getLastD n

/-- The nodes are in different trees. -/
def Apart (c : Code) (a b : NodeId) : Prop := c.top a ≠ c.top b

instance (c : Code) (a b : NodeId) : Decidable (c.Apart a b) := inferInstanceAs (Decidable (_ ≠ _))

theorem AtDepth.mem_ancestorsFrom {fuel : Nat} {n r : NodeId} {d : Nat} (hd : c.AtDepth n d)
    (hfuel : d ≤ fuel) (hclimb : c.Climbs n r) : r ∈ n :: c.ancestorsFrom fuel n := by
  induction hd generalizing fuel with
  | root hup =>
    rcases Relation.ReflTransGen.cases_head hclimb with rfl | ⟨p, hp, -⟩
    · exact List.mem_cons_self
    · rw [hup] at hp
      cases hp
  | @step n p d hup _ ih =>
    obtain ⟨fuel, rfl⟩ : ∃ m, fuel = m + 1 := ⟨fuel - 1, by omega⟩
    rcases Relation.ReflTransGen.cases_head hclimb with rfl | ⟨q, hq, hrest⟩
    · exact List.mem_cons_self
    · obtain rfl := Option.some.inj (hup.symm.trans hq)
      rw [ancestorsFrom, hup]
      exact List.mem_cons_of_mem _ (ih (by omega) hrest)

/-- The last of the ancestors has nothing above it. -/
theorem AtDepth.getLastD_ancestorsFrom {fuel : Nat} {n : NodeId} {d : Nat} (hd : c.AtDepth n d)
    (hfuel : d ≤ fuel) :
    c.Climbs n ((c.ancestorsFrom fuel n).getLastD n) ∧
    c.up? ((c.ancestorsFrom fuel n).getLastD n) = none := by
  induction hd generalizing fuel with
  | @root n hup =>
    have hnil : c.ancestorsFrom fuel n = [] := by
      cases fuel with
      | zero => rfl
      | succ fuel => rw [ancestorsFrom, hup]
    rw [hnil]
    exact ⟨.refl, hup⟩
  | @step n p d hup _ ih =>
    obtain ⟨fuel, rfl⟩ : ∃ m, fuel = m + 1 := ⟨fuel - 1, by omega⟩
    obtain ⟨hclimb, hroot⟩ := ih (Nat.le_of_succ_le_succ hfuel)
    rw [ancestorsFrom, hup, List.getLastD_cons]
    exact ⟨.head hup hclimb, hroot⟩

namespace WellFormed

theorem depth_le (h : c.WellFormed) (n : NodeId) : ∃ d, c.AtDepth n d ∧ d ≤ c.size := by
  by_cases hn : n < c.size
  · obtain ⟨d, hd⟩ := h.exists_depth n
    exact ⟨d, hd, Nat.le_of_lt (hd.lt_size h hn)⟩
  · refine ⟨0, .root ?_, Nat.zero_le _⟩
    rw [up?_eq, link_of_le (Nat.le_of_not_lt hn)]
    rfl

theorem mem_ancestors (h : c.WellFormed) {n r : NodeId} (hclimb : c.Climbs n r) :
    r ∈ n :: c.ancestors n := by
  obtain ⟨d, hd, hle⟩ := h.depth_le n
  exact hd.mem_ancestorsFrom hle hclimb

theorem climbs_top (h : c.WellFormed) (n : NodeId) :
    c.Climbs n (c.top n) ∧ c.up? (c.top n) = none := by
  obtain ⟨d, hd, hle⟩ := h.depth_le n
  exact hd.getLastD_ancestorsFrom hle

/-- Whatever is above a node is in its tree. -/
theorem top_eq (h : c.WellFormed) {n r : NodeId} (hclimb : c.Climbs n r) : c.top r = c.top n := by
  obtain ⟨hr, hrnone⟩ := h.climbs_top r
  obtain ⟨hn, hnnone⟩ := h.climbs_top n
  have key : ∀ {a b}, c.up? a = none → c.Climbs a b → a = b := by
    intro a b ha hab
    rcases Relation.ReflTransGen.cases_head hab with rfl | ⟨p, hp, -⟩
    · rfl
    · rw [ha] at hp
      cases hp
  rcases Climbs.total (hclimb.trans hr) hn with hab | hba
  · exact key hrnone hab
  · exact (key hnnone hba).symm

end WellFormed

namespace Apart

variable {a b : NodeId}

theorem symm (hapart : c.Apart a b) : c.Apart b a := Ne.symm hapart

/-- Nothing is above two nodes of different trees. -/
theorem not_climbs_both (hapart : c.Apart a b) (h : c.WellFormed) (r : NodeId) :
    ¬ (c.Climbs a r ∧ c.Climbs b r) := by
  rintro ⟨ha, hb⟩
  exact hapart ((h.top_eq ha).symm.trans (h.top_eq hb))

theorem not_climbs (hapart : c.Apart a b) (h : c.WellFormed) : ¬ c.Climbs a b :=
  fun hab => hapart.not_climbs_both h b ⟨hab, .refl⟩

end Apart

/-! ### What edits ask for -/

/-- Each item is in another tree than the sequence that it is appended to, when it is. -/
def AppendsApart (head : NodeId) (c : Code) : List NodeId → Prop
  | [] => True
  | item :: rest => c.Apart head item ∧ AppendsApart head (c.append head item) rest

/-- New nodes other than branches are given as they are, and a branch is made from two different
bodies. What is moved lies in another tree than the node it is attached to: a body that becomes an
`else if` of a node is not around or before the node. Only a node that holds nothing is made to do
nothing. -/
def Allows (c : Code) : Edit → Prop
  | .create kind => kind.branch? = none
  | .sequence items => AppendsApart c.size (c.alloc .noop).2 items
  | .createIf _ thenBody elseBody =>
    (c.bodiesFor thenBody elseBody).1 ≠ (c.bodiesFor thenBody elseBody).2.1
  | .addElseIf node _ body =>
    (c.branch? node).isSome ∧ ∀ b ∈ body, b < c.size ∧ b ∉ node :: c.ancestors node
  | .deepCopy _ => True
  | .setPredecessor node predecessor => c.Apart node predecessor
  | .setParent node parent _ => c.Apart node parent
  | .attach sequence fragment _ => c.Apart sequence fragment
  | .replace node fragment => c.Apart node fragment
  | .insertBefore node fragment => c.Apart node fragment
  | .neutralize node => c.branch? node = none
  | .setGuard _ _ | .setComment _ _ | .commentOut _ _ | .setDeclares _ _ => True

/-- Each edit of a history is allowed at its time. -/
def AllowsAll (c : Code) : List Edit → Prop
  | [] => True
  | e :: rest =>
    c.Allows e ∧
      match c.perform e with
      | .ok (_, c) => c.AllowsAll rest
      | .error _ => True

instance decidableAppendsApart (head : NodeId) (c : Code) (items : List NodeId) :
    Decidable (AppendsApart head c items) :=
  match items with
  | [] => isTrue trivial
  | item :: rest =>
    have := decidableAppendsApart head (c.append head item) rest
    inferInstanceAs (Decidable (_ ∧ _))

instance decidableAllows (c : Code) : (e : Edit) → Decidable (c.Allows e)
  | .create kind => inferInstanceAs (Decidable (kind.branch? = none))
  | .sequence items => decidableAppendsApart c.size (c.alloc .noop).2 items
  | .createIf _ thenBody elseBody =>
    inferInstanceAs
      (Decidable ((c.bodiesFor thenBody elseBody).1 ≠ (c.bodiesFor thenBody elseBody).2.1))
  | .addElseIf node _ body =>
    inferInstanceAs
      (Decidable ((c.branch? node).isSome ∧ ∀ b ∈ body, b < c.size ∧ b ∉ node :: c.ancestors node))
  | .setPredecessor node predecessor => inferInstanceAs (Decidable (c.Apart node predecessor))
  | .setParent node parent _ => inferInstanceAs (Decidable (c.Apart node parent))
  | .attach sequence fragment _ => inferInstanceAs (Decidable (c.Apart sequence fragment))
  | .replace node fragment => inferInstanceAs (Decidable (c.Apart node fragment))
  | .insertBefore node fragment => inferInstanceAs (Decidable (c.Apart node fragment))
  | .neutralize node => inferInstanceAs (Decidable (c.branch? node = none))
  | .deepCopy _ | .setGuard _ _ | .setComment _ _ | .commentOut _ _ | .setDeclares _ _ =>
    isTrue trivial

instance decidableAllowsAll (c : Code) (edits : List Edit) : Decidable (c.AllowsAll edits) :=
  match edits with
  | [] => isTrue trivial
  | e :: rest =>
    match h : c.perform e with
    | .ok (_, c') =>
      have := decidableAllowsAll c' rest
      decidable_of_iff (c.Allows e ∧ c'.AllowsAll rest) (by rw [AllowsAll, h])
    | .error _ => decidable_of_iff (c.Allows e) (by rw [AllowsAll, h, and_true])

/-! ### One edit -/

theorem require_bind {α : Type} {id : NodeId} {f : Unit → Except EditFault α} {r : α}
    (h : (c.require id >>= f) = .ok r) : id < c.size ∧ f () = .ok r := by
  unfold require at h
  split_ifs at h with hid
  · exact ⟨hid, h⟩
  · cases h

theorem size_le_append (h : c.WellFormed) (head item : NodeId) :
    c.size ≤ (c.append head item).size := by
  rw [append, attach, setPredecessor_eq (h.detach item), size_place]
  exact size_le_detach c item

/-- Items are appended one after the other. -/
theorem appendEach_wellFormed {head : NodeId} {items : List NodeId} (h : c.WellFormed)
    (hhead : head < c.size) (hapart : AppendsApart head c items)
    (hrun : appendEach head c items = .ok c') : c'.WellFormed := by
  induction items generalizing c with
  | nil =>
    cases hrun
    exact h
  | cons item rest ih =>
    rw [appendEach] at hrun
    obtain ⟨hitem, hrest⟩ := require_bind hrun
    have hwf : (c.append head item).WellFormed :=
      h.attach hhead hitem (hapart.1.not_climbs_both h) .plain
    exact ih hwf (Nat.lt_of_lt_of_le hhead (size_le_append h head item)) hapart.2 hrest

theorem requireBodies_ok {thenBody elseBody : Option NodeId} {t e : NodeId} {c₁ : Code} {α : Type}
    {f : Unit → Except EditFault α} {r : α} (hbodies : c.bodiesFor thenBody elseBody = (t, e, c₁))
    (h : (c.requireBodies thenBody elseBody >>= f) = .ok r) :
    t < c₁.size ∧ e < (c₁.detach t).size ∧ f () = .ok r := by
  have heq : c.requireBodies thenBody elseBody = (do c₁.require t; (c₁.detach t).require e) := by
    unfold bodiesFor at hbodies
    unfold requireBodies
    cases hbodies
    rfl
  rw [heq, bind_assoc] at h
  obtain ⟨ht, h⟩ := require_bind h
  obtain ⟨he, h⟩ := require_bind h
  exact ⟨ht, he, h⟩

/-- What it takes to add an `else if`. -/
theorem perform_addElseIf {node : NodeId} {guard : Guard} {body : Option NodeId}
    {made : Option NodeId} {t e : NodeId} {c₁ : Code} (hbodies : c.bodiesFor body none = (t, e, c₁))
    (hrun : c.perform (.addElseIf node guard body) = .ok (made, c')) :
    t < c₁.size ∧ e < (c₁.detach t).size ∧ ((c.createIf guard body none).2.branch? node).isSome ∧
    c' = (c.addElseIf node guard body).2 := by
  obtain ⟨ht, he, hrun⟩ := requireBodies_ok hbodies hrun
  obtain ⟨-, hrun⟩ := require_bind hrun
  generalize c.createIf guard body none = r at hrun ⊢
  generalize c.addElseIf node guard body = r' at hrun ⊢
  cases hbranch : r.2.branch? node with
  | none =>
    rw [hbranch] at hrun
    cases hrun
  | some b =>
    rw [hbranch] at hrun
    cases hrun
    exact ⟨ht, he, rfl, rfl⟩

/-- The bodies of a new `else if` of a node are two, and the node is below neither. -/
theorem WellFormed.elseIf_bodies (h : c.WellFormed) {node : NodeId} (hnode : node < c.size)
    {body : Option NodeId} (hbody : ∀ b ∈ body, b < c.size ∧ b ∉ node :: c.ancestors node)
    {t e : NodeId} {c₁ : Code} (hbodies : c.bodiesFor body none = (t, e, c₁)) :
    t ≠ e ∧ ¬ c.Climbs node t ∧ ¬ c.Climbs node e := by
  -- what was there is not below a new node
  have hnew : ∀ {y}, c.size ≤ y → ¬ c.Climbs node y := by
    intro y hy hclimb
    exact Nat.not_lt.2 hy (h.lt_size_of_climbs hclimb hnode)
  cases body with
  | none =>
    obtain ⟨rfl, rfl, -⟩ : c.size = t ∧ (c.push (.fresh .noop)).size = e ∧ _ = c₁ := by
      simpa only [bodiesFor, bodyOrNoop, alloc, Prod.mk.injEq] using hbodies
    rw [size_push]
    exact ⟨Nat.ne_of_lt (Nat.lt_succ_self _), hnew le_rfl, hnew (Nat.le_succ _)⟩
  | some b =>
    obtain ⟨hlt, hnotMem⟩ := hbody b rfl
    obtain ⟨rfl, rfl, -⟩ : b = t ∧ c.size = e ∧ _ = c₁ := by
      simpa only [bodiesFor, bodyOrNoop, alloc, Prod.mk.injEq] using hbodies
    exact ⟨Nat.ne_of_lt hlt, fun hclimb => hnotMem (h.mem_ancestors hclimb), hnew le_rfl⟩

/-- A kind is set that holds what the node held before. -/
theorem WellFormed.setKind (h : c.WellFormed) {p : NodeId} (hp : p < c.size) {kind : NodeKind}
    (hslots : ∀ slot, kind.branch?.bind (·.slot? slot) = c.slot? p slot) :
    (c.setKind p kind).WellFormed := by
  refine h.congr (link_setKind c p kind) (held_congr (next_setKind c p kind) ?_)
  intro x slot
  by_cases hx : x = p
  · rw [hx, ← hslots, slot?, branch?, kind_setKind hp, if_pos rfl]
  · apply slot?_congr
    rw [kind_setKind hp, if_neg hx]

theorem WellFormed.setGuard (h : c.WellFormed) {p : NodeId} (hp : p < c.size) (guard : Guard) :
    (c.setGuard p guard).WellFormed := by
  unfold Code.setGuard
  split
  · next b hkind =>
    refine h.setKind hp ?_
    intro slot
    rw [slot?, branch?, hkind]
    cases slot <;> rfl
  · exact h

theorem WellFormed.setDeclares (h : c.WellFormed) {p : NodeId} (hp : p < c.size) (declares : Bool) :
    (c.setDeclares p declares).WellFormed := by
  unfold Code.setDeclares
  split
  · next hkind =>
    refine h.setKind hp ?_
    intro slot
    rw [slot?, branch?, hkind]
    rfl
  · exact h

theorem WellFormed.neutralize (h : c.WellFormed) {p : NodeId} (hp : p < c.size)
    (hbranch : c.branch? p = none) : (c.neutralize p).WellFormed := by
  refine h.setKind hp ?_
  intro slot
  rw [slot?, hbranch]
  rfl

/-- Neither links nor next nodes nor kinds are touched. -/
theorem WellFormed.modify (h : c.WellFormed) (p : NodeId) {f : Node → Node}
    (hlink : ∀ n, (f n).link = n.link) (hnext : ∀ n, (f n).next = n.next)
    (hkind : ∀ n, (f n).kind = n.kind) : (c.modify p f).WellFormed :=
  h.congr (link_modify c p hlink)
    (held_congr (next_modify c p hnext) fun _ => slot?_congr (kind_modify c p hkind _))

/-- **One edit** that is allowed keeps code well-formed. -/
theorem perform_wellFormed (h : c.WellFormed) {e : Edit} (hallowed : c.Allows e)
    {made : Option NodeId} (hrun : c.perform e = .ok (made, c')) : c'.WellFormed := by
  cases e with
  | create kind =>
    cases hrun
    exact h.push (.fresh kind) rfl rfl hallowed
  | sequence items =>
    -- an empty sequence is made first, and the items are appended to it one after the other
    have hwf : (c.alloc .noop).2.WellFormed := h.push (.fresh .noop) rfl rfl rfl
    have hhead : c.size < (c.alloc .noop).2.size := by simp [alloc]
    simp only [perform] at hrun
    cases happend : appendEach c.size (c.alloc .noop).2 items with
    | error fault =>
      rw [show (c.alloc .noop).1 = c.size from rfl, happend] at hrun
      cases hrun
    | ok c₁ =>
      rw [show (c.alloc .noop).1 = c.size from rfl, happend] at hrun
      cases hrun
      exact appendEach_wellFormed hwf hhead hallowed happend
  | createIf guard thenBody elseBody =>
    rcases hbodies : c.bodiesFor thenBody elseBody with ⟨t, e, c₁⟩
    obtain ⟨ht, he, hrun⟩ := requireBodies_ok hbodies hrun
    have hne : t ≠ e := by
      have := hallowed
      rw [Allows, hbodies] at this
      exact this
    cases hrun
    exact h.createIf guard hbodies ⟨hne, ht, he⟩
  | addElseIf node guard body =>
    obtain ⟨hbranch, hbody⟩ := hallowed
    obtain ⟨b, hb⟩ := Option.isSome_iff_exists.1 hbranch
    have hnode : node < c.size := lt_size_of_branch? hb
    rcases hbodies : c.bodiesFor body none with ⟨t, e, c₁⟩
    obtain ⟨ht, he, hsome, hresult⟩ := perform_addElseIf hbodies hrun
    -- neither body holds the branch, so the branch does not come to stand below itself
    obtain ⟨hne, hthen, helse⟩ := h.elseIf_bodies hnode hbody hbodies
    rw [hresult]
    exact h.addElseIf guard hbodies ⟨hne, ht, he⟩ hnode hsome hthen helse
  | deepCopy node =>
    obtain ⟨-, hrun⟩ := require_bind hrun
    cases hrun
    exact (h.deepCopy node).wellFormed
  | setPredecessor node predecessor =>
    obtain ⟨hnode, hrun⟩ := require_bind hrun
    obtain ⟨hpred, hrun⟩ := require_bind hrun
    cases hrun
    exact h.setPredecessor hnode hpred (Apart.not_climbs (Apart.symm hallowed) h)
  | setParent node parent slot =>
    obtain ⟨hnode, hrun⟩ := require_bind hrun
    obtain ⟨-, hrun⟩ := require_bind hrun
    cases hrun
    exact h.setParent hnode slot (Apart.not_climbs (Apart.symm hallowed) h)
  | attach sequence fragment mode =>
    obtain ⟨hsequence, hrun⟩ := require_bind hrun
    obtain ⟨hfragment, hrun⟩ := require_bind hrun
    cases hrun
    exact h.attach hsequence hfragment (Apart.not_climbs_both hallowed h) mode
  | replace node fragment =>
    obtain ⟨hnode, hrun⟩ := require_bind hrun
    obtain ⟨hfragment, hrun⟩ := require_bind hrun
    cases hrun
    -- neither of the two is above the other, so no sequence is put into itself
    exact h.replace hnode hfragment (Apart.not_climbs hallowed h)
      (Apart.not_climbs (Apart.symm hallowed) h)
  | insertBefore node fragment =>
    obtain ⟨hnode, hrun⟩ := require_bind hrun
    obtain ⟨hfragment, hrun⟩ := require_bind hrun
    cases hrun
    exact (h.insertBefore hnode hfragment (Apart.not_climbs hallowed h)).wellFormed
  | neutralize node =>
    obtain ⟨hnode, hrun⟩ := require_bind hrun
    cases hrun
    exact h.neutralize hnode hallowed
  | setGuard node guard =>
    obtain ⟨hnode, hrun⟩ := require_bind hrun
    cases hrun
    exact h.setGuard hnode guard
  | setComment node comment =>
    obtain ⟨-, hrun⟩ := require_bind hrun
    cases hrun
    refine h.modify node ?_ ?_ ?_ <;> exact fun _ => rfl
  | commentOut node comment =>
    obtain ⟨-, hrun⟩ := require_bind hrun
    cases hrun
    refine h.modify node ?_ ?_ ?_ <;> exact fun _ => rfl
  | setDeclares node declares =>
    obtain ⟨hnode, hrun⟩ := require_bind hrun
    cases hrun
    exact h.setDeclares hnode declares

/-! ### Histories -/

/-- **A history** of allowed edits keeps code well-formed. -/
theorem performAll_wellFormed {edits : List Edit} (h : c.WellFormed) (hallowed : c.AllowsAll edits)
    (hrun : c.performAll edits = .ok c') : c'.WellFormed := by
  induction edits generalizing c with
  | nil =>
    cases hrun
    exact h
  | cons e rest ih =>
    rw [performAll] at hrun
    obtain ⟨hnow, hlater⟩ := hallowed
    cases hperform : c.perform e with
    | error fault =>
      rw [hperform] at hrun
      cases hrun
    | ok r =>
      obtain ⟨made, c₁⟩ := r
      rw [hperform] at hrun hlater
      exact ih (perform_wellFormed h hnow hperform) hlater hrun

/-- **All code that edits build is well-formed.** From every node of it the walk comes to its end
and meets no node twice, and the integrity check finds nothing. -/
theorem edited_wellFormed {edits : List Edit} (hallowed : Code.empty.AllowsAll edits)
    (hrun : Code.empty.performAll edits = .ok c) :
    c.WellFormed ∧
    ∀ r, r < c.size →
      c.Visits r (c.descendants r) ∧ (c.descendants r).Nodup ∧ c.checkIntegrity r = [] := by
  have h := performAll_wellFormed .empty hallowed hrun
  exact ⟨h, fun r hr => ⟨h.visits hr, h.nodup_descendants r, h.checkIntegrity r⟩⟩

/-- A history with every kind of edit. It moves a branch, its copy and what is in them. -/
def busyHistory : List Edit :=
  [.create .noop, .create (.ret true), .create (.custom "first();"), .sequence [1, 2],
    .createIf (.free "a") (some 3) (some 0), .create (.definition .root (.same .root) true),
    .addElseIf 4 (.free "b") (some 5), .deepCopy 4, .create (.custom "second();"),
    .setPredecessor 16 4, .create .placeholder, .setParent 17 4 .thenBody, .insertBefore 17 3,
    .setPredecessor 15 16, .create .noop, .replace 16 18, .attach 4 16 .plain, .create .noop,
    .attach 4 19 .beforeLast, .create (.ret false), .attach 4 20 .replaceLast, .neutralize 2,
    .setGuard 4 .irregular, .setComment 4 "both", .commentOut 17 "no more", .setDeclares 5 false]

theorem busyHistory_wellFormed :
    ∃ c, Code.empty.performAll busyHistory = .ok c ∧
      c.descendants 4 = [3, 1, 2, 17, 0, 5, 6, 7, 4, 18, 8, 9, 10, 11, 12, 13, 14, 15, 19, 20] ∧
      c.WellFormed ∧
      ∀ r, r < c.size →
        c.Visits r (c.descendants r) ∧ (c.descendants r).Nodup ∧ c.checkIntegrity r = [] := by
  have hallowed : Code.empty.AllowsAll busyHistory := by decide +kernel
  have hwalk : (Code.empty.performAll busyHistory).toOption.map (·.descendants 4) =
      some [3, 1, 2, 17, 0, 5, 6, 7, 4, 18, 8, 9, 10, 11, 12, 13, 14, 15, 19, 20] := by
    decide +kernel
  cases hrun : Code.empty.performAll busyHistory with
  | error fault =>
    rw [hrun] at hwalk
    cases hwalk
  | ok c =>
    rw [hrun] at hwalk
    exact ⟨c, rfl, Option.some.inj hwalk, edited_wellFormed hallowed hrun⟩

end Rulewright.Code
