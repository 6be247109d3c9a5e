import Rulewright.Proofs.Forest.Reads
import Rulewright.Proofs.Forest.Walk

/-!
# Moving nodes keeps code well-formed

All operations that move nodes come down to one: a tree is put at a place, and what stood there
starts a sequence of its own (`place`). A node is taken from a body by putting a new node at its
place. `replace` leaves the node that is to come last with a link that is not true in the meantime.
Nothing reads that link, so one may as well think of it as set to the start of a sequence.

* `WellFormed.place`: a tree is put at a place that is not in it.
* `WellFormed.detach`, `.setPredecessor`, `.setParent`, `.insertBefore`, `.replace`, `.attach`: the
  operations.
-/

namespace Rulewright.Code

variable {c c' : Code} {n p : NodeId} {k : Link}

/-! ### The one operation -/

/-- Put a node at a place. What stood there starts a sequence of its own. -/
def place (c : Code) (n : NodeId) (k : Link) : Code :=
  match c.held k with
  | some displaced => (c.put n k).setLink displaced .root
  | none => c.put n k

theorem size_place (c : Code) (n : NodeId) (k : Link) : (c.place n k).size = c.size := by
  unfold place
  split <;> simp [size_put]

theorem placed_place (h : c.WellFormed) (hk : c.HasPlace k) (hn : n < c.size)
    (hroot : c.link n = .root) : Placed c (c.place n k) n k := by
  have hkroot : k ≠ .root := by
    rintro rfl
    exact hk
  unfold place
  cases hd : c.held k with
  | none =>
    refine ⟨fun x => ?_, held_put hk n⟩
    rw [link_put hk hn, hd]
    simp
  | some d =>
    have hlink : c.link d = k := (h.held_iff d hkroot).2 hd
    have hdn : d ≠ n := by
      rintro rfl
      exact hkroot (hlink.symm.trans hroot)
    have hlt : d < (c.put n k).size := by
      rw [size_put]
      exact h.lt_size_of_mem hkroot hd
    refine ⟨fun x => ?_, fun j => ?_⟩
    · rw [link_setLink hlt, link_put hk hn, hd]
      by_cases hx : x = d
      · rw [if_pos hx, if_neg (fun hxn => hdn (hx.symm.trans hxn)), if_pos (congrArg some hx.symm)]
      · rw [if_neg hx, if_neg (fun he => hx (Option.some.inj he).symm)]
    · rw [held_setLink, held_put hk]

theorem HasPlace.exists_holder (hk : c.HasPlace k) : ∃ p, k.holder? = some p := by
  cases k with
  | root => cases hk
  | after p => exact ⟨p, rfl⟩
  | childOf p slot => exact ⟨p, rfl⟩

/-- **A tree is put at a place** that is not in it. -/
theorem WellFormed.place (h : c.WellFormed) (hk : c.HasPlace k) (hn : n < c.size)
    (hroot : c.link n = .root) (hfree : ∀ p, k.holder? = some p → ¬ c.Climbs p n) :
    (c.place n k).WellFormed := by
  obtain ⟨p, hp⟩ := hk.exists_holder
  exact h.placed (placed_place h hk hn hroot) hroot hp (hfree p hp)

/-- Where nothing but links and places are read, code is the same. -/
theorem WellFormed.congr (h : c.WellFormed) (hlink : ∀ x, c'.link x = c.link x)
    (hheld : ∀ j, c'.held j = c.held j) : c'.WellFormed := by
  have hup : ∀ x, c'.up? x = c.up? x := fun x => by rw [up?_eq, up?_eq, hlink]
  refine .of_held ?_ (WellFormed.grounded_of_induct ?_)
  · intro x j hj
    rw [hlink, hheld]
    exact h.held_iff x hj
  · intro P step
    refine h.induct ?_
    intro x ih
    apply step
    intro q hq
    rw [hup] at hq
    exact ih q hq

theorem climbs_congr (hlink : ∀ x, c'.link x = c.link x) {x y : NodeId} (h : c'.Climbs x y) :
    c.Climbs x y := by
  refine h.mono ?_
  intro z _ q hq
  rw [up?_eq, hlink, ← up?_eq] at hq
  exact hq

/-- A new node that is not a branch. -/
theorem WellFormed.push (h : c.WellFormed) (node : Node) (hlink : node.link = .root)
    (hnext : node.next = none) (hkind : node.kind.branch? = none) : (c.push node).WellFormed :=
  h.congr (c.link_push hlink) (held_push hnext hkind)

/-! ### Taking a node from its place -/

/-- The second code is the first one with `n` taken from its place, and perhaps a new node put
there. -/
structure Detached (c c' : Code) (n : NodeId) : Prop where
  wellFormed : c'.WellFormed
  size_le : c.size ≤ c'.size
  link_self : c'.link n = .root
  link : ∀ x, x < c.size → x ≠ n → c'.link x = c.link x
  link_new : ∀ x, c.size ≤ x → c'.link x = .root ∨ c'.link x = c.link n

namespace Detached

theorem up? (hd : Detached c c' n) {x q : NodeId} (hx : x < c.size) (hq : c'.up? x = some q) :
    c.up? x = some q := by
  have hxn : x ≠ n := by
    rintro rfl
    exact ne_root_of_up? hq hd.link_self
  rw [up?_eq, hd.link x hx hxn, ← up?_eq] at hq
  exact hq

/-- No way up is new. -/
theorem climbs (hd : Detached c c' n) (h : c.WellFormed) {x y : NodeId} (hclimb : c'.Climbs x y)
    (hx : x < c.size) : c.Climbs x y := by
  induction hclimb with
  | refl => exact .refl
  | tail _ hq ih => exact ih.tail (hd.up? (h.lt_size_of_climbs ih hx) hq)

/-- Nothing new is below the node. -/
theorem climbs_self (hd : Detached c c' n) (h : c.WellFormed) (hn : n < c.size) {x : NodeId}
    (hclimb : c'.Climbs x n) : c.Climbs x n := by
  by_cases hx : x < c.size
  · exact hd.climbs h hclimb hx
  -- a new node stands where the node stood
  rcases Relation.ReflTransGen.cases_head hclimb with rfl | ⟨q, hq, hrest⟩
  · exact .refl
  rcases hd.link_new x (Nat.le_of_not_lt hx) with hroot | hlink
  · exact absurd hroot (ne_root_of_up? hq)
  rw [up?_eq, hlink, ← up?_eq] at hq
  exact absurd (hd.climbs h hrest (h.lt_size_of_up? hq)) (h.not_climbs hq)

end Detached

theorem size_le_detach (c : Code) (n : NodeId) : c.size ≤ (c.detach n).size := by
  unfold Code.detach
  split
  · exact le_rfl
  · simp
  · next p slot _ =>
    have hsize := size_put (c.alloc .noop).2 c.size (.childOf p slot)
    rw [put] at hsize
    simp only [alloc, size_setLink] at hsize ⊢
    rw [hsize, size_push]
    exact Nat.le_succ _

theorem detach_of_root (h : c.link n = .root) : c.detach n = c := by
  rw [detach, h]

theorem detach_of_after (h : c.link n = .after p) :
    c.detach n = (c.setNext p none).setLink n .root := by
  rw [detach, h]

theorem detach_of_childOf {slot : Slot} (h : c.WellFormed) (hlink : c.link n = .childOf p slot) :
    c.detach n = (c.push (.fresh .noop)).place c.size (.childOf p slot) := by
  have hheld : (c.push (.fresh .noop)).held (.childOf p slot) = some n := by
    rw [held_push rfl rfl]
    exact (h.child_iff n p slot).1 hlink
  rw [detach, hlink, place, hheld]
  rfl

theorem WellFormed.detach (h : c.WellFormed) (n : NodeId) : Detached c (c.detach n) n := by
  cases hlink : c.link n with
  | root =>
    rw [detach_of_root hlink]
    exact ⟨h, le_rfl, hlink, fun _ _ _ => rfl, fun x hx => .inl (link_of_le hx)⟩
  | after p =>
    have hup : c.up? n = some p := by rw [up?_eq, hlink]; rfl
    have hp : p < c.size := h.lt_size_of_up? hup
    have hn : n < (c.setNext p none).size := by
      rw [size_setNext]
      exact lt_size_of_below hup
    have htaken : Taken c ((c.setNext p none).setLink n .root) n := by
      refine ⟨fun x => ?_, fun j _ => ?_⟩
      · rw [link_setLink hn, link_setNext]
      · rw [held_setLink, held_setNext hp, hlink]
    rw [detach_of_after hlink]
    refine ⟨h.taken htaken, by simp, ?_, ?_, ?_⟩
    · rw [htaken.link, if_pos rfl]
    · intro x _ hxn
      rw [htaken.link, if_neg hxn]
    · intro x hx
      left
      rw [htaken.link, link_of_le hx, ite_self]
  | childOf p slot =>
    have hup : c.up? n = some p := by rw [up?_eq, hlink]; rfl
    have hn : n < c.size := lt_size_of_below hup
    have hroots : ∀ x, (c.push (.fresh .noop)).link x = c.link x := c.link_push rfl
    have hheld : (c.push (.fresh .noop)).held (.childOf p slot) = some n := by
      rw [held_push rfl rfl]
      exact (h.child_iff n p slot).1 hlink
    have hplace : (c.push (.fresh .noop)).HasPlace (.childOf p slot) :=
      Option.isSome_iff_exists.2 ⟨n, hheld⟩
    have hwf := h.push (.fresh .noop) rfl rfl rfl
    have hroot : (c.push (.fresh .noop)).link c.size = .root := by
      rw [hroots]
      exact link_of_le le_rfl
    have hlt : c.size < (c.push (.fresh .noop)).size := by simp
    have hplaced := placed_place hwf hplace hlt hroot
    rw [detach_of_childOf h hlink]
    refine ⟨hwf.place hplace hlt hroot ?_, ?_, ?_, ?_, ?_⟩
    · rintro q ⟨rfl⟩ hclimb
      -- nothing that was there before is below the new node
      exact Nat.lt_irrefl _
        (h.lt_size_of_climbs (climbs_congr hroots hclimb) (h.lt_size_of_up? hup))
    · rw [size_place]
      exact Nat.le_of_lt hlt
    · rw [hplaced.link, if_neg (Nat.ne_of_lt hn), if_pos hheld]
    · intro x hx hxn
      rw [hplaced.link, if_neg (Nat.ne_of_lt hx), hheld,
        if_neg (fun he => hxn (Option.some.inj he).symm), hroots]
    · intro x hx
      rw [hplaced.link, hheld, hroots, link_of_le hx, ite_self]
      by_cases hxs : x = c.size
      · right
        rw [if_pos hxs, hlink]
      · left
        rw [if_neg hxs]

/-! ### Putting a node after another one, or into a body -/

theorem setPredecessor_eq (hd : Detached c (c.detach n) n) (p : NodeId) :
    c.setPredecessor n p = (c.detach n).place n (.after p) := by
  unfold setPredecessor place
  cases hnext : (c.detach n).next p with
  | none => simp [held, hnext, put]
  | some d =>
    have hdn : d ≠ n := by
      rintro rfl
      have := (hd.wellFormed.after_iff d p).2 hnext
      rw [hd.link_self] at this
      cases this
    simp only [held, hnext, put]
    exact setLink_comm hdn _ _

theorem WellFormed.setPredecessor (h : c.WellFormed) (hn : n < c.size) (hp : p < (c.detach n).size)
    (hfree : ¬ c.Climbs p n) : (c.setPredecessor n p).WellFormed := by
  have hd := h.detach n
  rw [setPredecessor_eq hd]
  refine hd.wellFormed.place hp (Nat.lt_of_lt_of_le hn hd.size_le) hd.link_self ?_
  rintro q ⟨rfl⟩ hclimb
  exact hfree (hd.climbs_self h hn hclimb)

theorem setParent_eq (hd : Detached c (c.detach n) n) {slot : Slot}
    (hslot : ((c.detach n).slot? p slot).isSome) :
    c.setParent n p slot = (c.detach n).place n (.childOf p slot) := by
  obtain ⟨d, hd'⟩ := Option.isSome_iff_exists.1 hslot
  have hdn : d ≠ n := by
    rintro rfl
    have := (hd.wellFormed.child_iff d p slot).2 hd'
    rw [hd.link_self] at this
    cases this
  simp only [setParent, place, held, hd', put, if_neg hdn]

theorem setParent_of_none {slot : Slot} (hslot : (c.detach n).slot? p slot = none) :
    c.setParent n p slot = c.detach n := by
  rw [setParent, hslot]

theorem WellFormed.setParent (h : c.WellFormed) (hn : n < c.size) (slot : Slot)
    (hfree : ¬ c.Climbs p n) : (c.setParent n p slot).WellFormed := by
  have hd := h.detach n
  cases hslot : (c.detach n).slot? p slot with
  | none =>
    rw [setParent_of_none hslot]
    exact hd.wellFormed
  | some d =>
    have hplace : ((c.detach n).slot? p slot).isSome := Option.isSome_iff_exists.2 ⟨d, hslot⟩
    rw [setParent_eq hd hplace]
    refine hd.wellFormed.place hplace (Nat.lt_of_lt_of_le hn hd.size_le) hd.link_self ?_
    rintro q ⟨rfl⟩ hclimb
    exact hfree (hd.climbs_self h hn hclimb)

/-! ### Putting a sequence before a node -/

theorem put_setLink {s : NodeId} (hs : s ≠ n) (c : Code) (k' k : Link) :
    (c.setLink s k').put n k = (c.put n k).setLink s k' := by
  cases k with
  | root => rfl
  | after p => rw [put, put, setNext_setLink, setLink_comm hs]
  | childOf p slot => exact fillSlot_setLink hs k' slot

theorem insertBefore_eq_put (c : Code) (node fragment : NodeId) :
    c.insertBefore node fragment =
      let c₁ := ((c.detach fragment).setLink node .root).put fragment (c.link node)
      c₁.put node (.after (c₁.last fragment)) := by
  unfold insertBefore put
  cases c.link node <;> rfl

/-- The fragment stands where the node stood. -/
theorem insertBefore_middle {node fragment : NodeId} (h : c.WellFormed) (hlink : c.link node = k)
    (hne : node ≠ fragment) : (c.setLink node .root).put fragment k = c.place fragment k := by
  rw [put_setLink hne, place]
  cases k with
  | root =>
    rw [put, held]
    exact setLink_self hlink
  | after p => rw [(h.held_iff node (by simp)).1 hlink]
  | childOf p slot => rw [(h.held_iff node (by simp)).1 hlink]

/-- The second code is the first one with `fragment` put before `node`. -/
structure Inserted (c c' : Code) (node fragment : NodeId) : Prop where
  wellFormed : c'.WellFormed
  size_le : c.size ≤ c'.size
  link : ∀ x, x < c.size → x ≠ node → x ≠ fragment → c'.link x = c.link x
  climbs : ∀ y, c'.Climbs fragment y → y = fragment ∨ ∃ p, c.up? node = some p ∧ c.Climbs p y

section InsertBefore

variable {node fragment : NodeId}

/-- The place of a node is a place. -/
theorem WellFormed.hasPlace (h : c.WellFormed) (hlink : c.link n ≠ .root) :
    c.HasPlace (c.link n) := by
  have hheld := (h.held_iff n hlink).1 rfl
  cases hk : c.link n with
  | root => exact absurd hk hlink
  | after p =>
    rw [hk] at hheld
    exact lt_size_of_held rfl hheld
  | childOf p slot =>
    rw [hk] at hheld
    exact Option.isSome_iff_exists.2 ⟨n, hheld⟩

/-- The first step, with a fragment that starts a sequence: it takes the place of the node. -/
theorem WellFormed.place_before (h : c.WellFormed) (hf : fragment < c.size)
    (hroot : c.link fragment = .root) (hfree : ¬ c.Climbs node fragment) :
    (c.place fragment (c.link node)).WellFormed ∧
    (∀ x, x ≠ fragment →
      (c.place fragment (c.link node)).link x = if x = node then .root else c.link x) ∧
    (c.place fragment (c.link node)).link fragment = c.link node ∧
    ∀ p, c.up? node = some p →
      ¬ c.Climbs p fragment ∧ ∀ y, (c.place fragment (c.link node)).Climbs p y → c.Climbs p y := by
  by_cases hk : c.link node = .root
  · have hself : c.place fragment (c.link node) = c := by rw [hk]; rfl
    rw [hself]
    refine ⟨h, ?_, hroot.trans hk.symm, ?_⟩
    · intro x _
      split_ifs with hx
      · rw [hx, hk]
      · rfl
    · intro p hp
      exact absurd hk (ne_root_of_up? hp)
  · have hplace := h.hasPlace hk
    have hplaced := placed_place h hplace hf hroot
    have hheld : c.held (c.link node) = some node := (h.held_iff node hk).1 rfl
    have hup : ∀ p, c.up? node = some p → ¬ c.Climbs p fragment :=
      fun p hp hclimb => hfree (.head hp hclimb)
    refine ⟨h.place hplace hf hroot ?_, ?_, ?_, ?_⟩
    · intro p hp
      rw [← up?_eq] at hp
      exact hup p hp
    · intro x hx
      rw [hplaced.link, if_neg hx, hheld]
      simp only [Option.some.injEq, eq_comm]
    · rw [hplaced.link, if_pos rfl]
    · intro p hp
      exact ⟨hup p hp, fun y hclimb => hplaced.climbs hclimb (hup p hp)⟩

theorem WellFormed.insertBefore (h : c.WellFormed) (hnode : node < c.size) (hf : fragment < c.size)
    (hfree : ¬ c.Climbs node fragment) :
    Inserted c (c.insertBefore node fragment) node fragment := by
  have hne : node ≠ fragment := by
    rintro rfl
    exact hfree .refl
  have hd := h.detach fragment
  have hlink : (c.detach fragment).link node = c.link node := hd.link node hnode hne
  have hfree₁ : ¬ (c.detach fragment).Climbs node fragment :=
    fun hclimb => hfree (hd.climbs_self h hf hclimb)
  have hf₁ := Nat.lt_of_lt_of_le hf hd.size_le
  obtain ⟨hwf, hlinks, hlinkf, hup⟩ := hd.wellFormed.place_before hf₁ hd.link_self hfree₁
  have heq := c.insertBefore_eq_put node fragment
  rw [insertBefore_middle hd.wellFormed hlink hne, ← hlink] at heq
  generalize hc₂ : (c.detach fragment).place fragment ((c.detach fragment).link node) = c₂ at *
  have hsize : c₂.size = (c.detach fragment).size := by rw [← hc₂, size_place]
  have hnode₂ : c₂.link node = .root := by rw [hlinks node hne, if_pos rfl]
  -- the fragment and what is above it are not below the node
  have habove : ¬ c₂.Climbs fragment node := by
    intro hclimb
    rcases Relation.ReflTransGen.cases_head hclimb with he | ⟨p, hp, hrest⟩
    · exact hne he.symm
    · rw [up?_eq, hlinkf, ← up?_eq] at hp
      exact hd.wellFormed.not_climbs hp ((hup p hp).2 node hrest)
  have hf₂ : fragment < c₂.size := by rw [hsize]; exact hf₁
  obtain ⟨hlast, hlastf⟩ := hwf.last_spec hf₂
  have hlastn : ¬ c₂.Climbs (c₂.last fragment) node := by
    intro hclimb
    rcases hclimb.total hlastf with hnf | hfn
    · exact hne (Climbs.eq_of_root hnf hnode₂).symm
    · exact habove hfn
  have hplace : c₂.HasPlace (.after (c₂.last fragment)) := hlastf.lt_size hf₂
  have hn₂ : node < c₂.size := by
    rw [hsize]
    exact Nat.lt_of_lt_of_le hnode hd.size_le
  have hput : c₂.put node (.after (c₂.last fragment)) =
      c₂.place node (.after (c₂.last fragment)) := by
    rw [Code.place, held, hlast]
  have hplaced := placed_place hwf hplace hn₂ hnode₂
  rw [heq]
  simp only [hput]
  refine ⟨?_, ?_, ?_, ?_⟩
  · refine hwf.place hplace hn₂ hnode₂ ?_
    rintro q ⟨rfl⟩
    exact hlastn
  · rw [size_place, hsize]
    exact hd.size_le
  · intro x hx hxn hxf
    rw [hplaced.link, if_neg hxn, held, hlast, if_neg (by simp), hlinks x hxf, if_neg hxn]
    exact hd.link x hx hxf
  · intro y hclimb
    have hclimb₂ := hplaced.climbs hclimb habove
    rcases Relation.ReflTransGen.cases_head hclimb₂ with he | ⟨p, hp, hrest⟩
    · exact .inl he.symm
    · right
      rw [up?_eq, hlinkf, ← up?_eq] at hp
      have hp' : c.up? node = some p := hd.up? hnode hp
      exact ⟨p, hp', hd.climbs h ((hup p hp).2 y hrest) (h.lt_size_of_up? hp')⟩

end InsertBefore

/-! ### Replacing a node -/

section Replace

variable {s : NodeId}

theorem chainFrom_congr (hnext : ∀ x, c'.next x = c.next x) (fuel : Nat) (id : NodeId) :
    c'.chainFrom fuel id = c.chainFrom fuel id := by
  induction fuel generalizing id with
  | zero => rfl
  | succ fuel ih =>
    rw [chainFrom, chainFrom, hnext]
    cases c.next id with
    | none => rfl
    | some k => simp only [ih]

theorem last_setLink (c : Code) (s : NodeId) (k : Link) (id : NodeId) :
    (c.setLink s k).last id = c.last id := by
  rw [last, last, chain, chain, size_setLink, chainFrom_congr (next_setLink c s k)]

theorem detach_setLink (hs : s < c.size) (hsn : s ≠ n) (k : Link) :
    (c.setLink s k).detach n = (c.detach n).setLink s k := by
  have hlink : (c.setLink s k).link n = c.link n := by rw [link_setLink hs, if_neg hsn.symm]
  unfold detach
  rw [hlink]
  cases c.link n with
  | root => rfl
  | after p => simp only [setNext_setLink, setLink_comm hsn]
  | childOf p slot =>
    simp only [alloc, size_setLink, push_setLink hs, fillSlot_setLink (Nat.ne_of_lt hs),
      setLink_comm hsn]

theorem insertBefore_setLink {node fragment : NodeId} (hs : s < c.size) (hsn : s ≠ node)
    (hsf : s ≠ fragment) (k : Link) :
    (c.setLink s k).insertBefore node fragment = (c.insertBefore node fragment).setLink s k := by
  have hlink : (c.setLink s k).link node = c.link node := by rw [link_setLink hs, if_neg hsn.symm]
  rw [insertBefore_eq_put, insertBefore_eq_put, hlink, detach_setLink hs hsf, setLink_comm hsn,
    put_setLink hsf]
  simp only [last_setLink, put_setLink hsn]

theorem setLink_setLink (c : Code) (s : NodeId) (k k' : Link) :
    (c.setLink s k).setLink s k' = c.setLink s k' := by
  apply ext_node?
  intro x
  simp only [setLink, node?_modify]
  split_ifs
  · cases c.node? x <;> rfl
  · rfl

theorem setNext_self (h : c.next p = none) : c.setNext p none = c := by
  apply ext_node?
  intro x
  rw [setNext, node?_modify]
  split_ifs with hx
  · subst hx
    cases hnode : c.node? p with
    | none => rfl
    | some node =>
      rw [next, hnode] at h
      have hnext : node.next = none := h
      rw [← hnext]
      rfl
  · rfl

variable {node fragment : NodeId}

theorem size_le_insertBefore (c : Code) (node fragment : NodeId) :
    c.size ≤ (c.insertBefore node fragment).size := by
  rw [insertBefore_eq_put]
  simp only [size_put, size_setLink]
  exact size_le_detach c fragment

/-- The link of what comes last may be thought of as the start of a sequence in the meantime. -/
theorem replace_eq (h : c.WellFormed) (hnext : c.next node = some s) (hsf : s ≠ fragment) :
    c.replace node fragment =
      let c₃ := ((c.detach s).insertBefore node fragment).detach node
      c₃.put s (.after (c₃.last fragment)) := by
  have hlink : c.link s = .after node := (h.after_iff s node).2 hnext
  have hup := h.up?_next hnext
  have hs : s < (c.setNext node none).size := by
    rw [size_setNext]
    exact lt_size_of_below hup
  have hsn : s ≠ node := by
    rintro rfl
    exact h.not_climbs hup .refl
  have hs' : s < ((c.setNext node none).insertBefore node fragment).size :=
    Nat.lt_of_lt_of_le hs (size_le_insertBefore _ _ _)
  simp only [replace, hnext]
  rw [detach_of_after hlink, insertBefore_setLink hs hsn hsf, detach_setLink hs' hsn]
  simp only [put, last_setLink, setNext_setLink, setLink_setLink]

theorem WellFormed.replace (h : c.WellFormed) (hnode : node < c.size) (hf : fragment < c.size)
    (hfree : ¬ c.Climbs node fragment) (hbelow : ¬ c.Climbs fragment node) :
    (c.replace node fragment).WellFormed := by
  cases hnext : c.next node with
  | none =>
    have hreplace : c.replace node fragment = (c.insertBefore node fragment).detach node := by
      simp only [Code.replace, hnext, setNext_self]
    rw [hreplace]
    exact ((h.insertBefore hnode hf hfree).wellFormed.detach node).wellFormed
  | some s =>
    have hup := h.up?_next hnext
    have hs : s < c.size := lt_size_of_below hup
    have hsn : s ≠ node := by
      rintro rfl
      exact h.not_climbs hup .refl
    have hsf : s ≠ fragment := by
      rintro rfl
      exact hbelow (.step hup)
    -- first what follows the node is taken away
    have hd₀ := h.detach s
    have hfree₀ : ¬ (c.detach s).Climbs node fragment :=
      fun hclimb => hfree (hd₀.climbs h hclimb hnode)
    have hi :=
      hd₀.wellFormed.insertBefore (Nat.lt_of_lt_of_le hnode hd₀.size_le)
        (Nat.lt_of_lt_of_le hf hd₀.size_le) hfree₀
    have hs₁ := Nat.lt_of_lt_of_le hs hd₀.size_le
    have hs₂ := Nat.lt_of_lt_of_le hs₁ hi.size_le
    have hd := hi.wellFormed.detach node
    have hroot : (((c.detach s).insertBefore node fragment).detach node).link s = .root := by
      rw [hd.link s hs₂ hsn, hi.link s hs₁ hsn hsf, hd₀.link_self]
    have hf₂ := Nat.lt_of_lt_of_le hf (hd₀.size_le.trans hi.size_le)
    rw [replace_eq h hnext hsf]
    generalize hc₃ : ((c.detach s).insertBefore node fragment).detach node = c₃ at *
    obtain ⟨hlast, hlastf⟩ := hd.wellFormed.last_spec (Nat.lt_of_lt_of_le hf₂ hd.size_le)
    have hput : c₃.put s (.after (c₃.last fragment)) = c₃.place s (.after (c₃.last fragment)) := by
      rw [Code.place, held, hlast]
    simp only [hput]
    refine hd.wellFormed.place ?_ (Nat.lt_of_lt_of_le hs₂ hd.size_le) hroot ?_
    · exact hlastf.lt_size (Nat.lt_of_lt_of_le hf₂ hd.size_le)
    · -- what is above the fragment was above the node, and `s` came after it
      rintro q ⟨rfl⟩ hclimb
      rcases hclimb.total hlastf with hsabove | hfabove
      · exact hsf (Climbs.eq_of_root hsabove hroot).symm
      · rcases hi.climbs s (hd.climbs hi.wellFormed hfabove hf₂) with he | ⟨p, hp, hps⟩
        · exact hsf he
        · have hp' := hd₀.up? hnode hp
          exact h.not_climbs hup (.head hp' (hd₀.climbs h hps (h.lt_size_of_up? hp')))

end Replace

/-! ### Attaching a sequence to another one -/

theorem WellFormed.attach (h : c.WellFormed) {sequence fragment : NodeId} (hs : sequence < c.size)
    (hf : fragment < c.size) (hapart : ∀ r, ¬ (c.Climbs sequence r ∧ c.Climbs fragment r))
    (mode : AppendMode) : (c.attach sequence fragment mode).WellFormed := by
  obtain ⟨-, hclimb⟩ := h.last_spec hs
  have hlast : c.last sequence < c.size := hclimb.lt_size hs
  -- whatever is above the last node is above the first one, or in between
  have habove : ¬ c.Climbs (c.last sequence) fragment := by
    intro hup
    rcases hclimb.total hup with hsf | hfs
    · exact hapart fragment ⟨hsf, .refl⟩
    · exact hapart sequence ⟨.refl, hfs⟩
  cases mode with
  | plain =>
    exact h.setPredecessor hf (Nat.lt_of_lt_of_le hlast (h.detach fragment).size_le) habove
  | replaceLast =>
    refine h.replace hlast hf habove ?_
    intro hup
    exact hapart sequence ⟨.refl, hup.trans hclimb⟩
  | beforeLast => exact (h.insertBefore hlast hf habove).wellFormed

end Rulewright.Code
