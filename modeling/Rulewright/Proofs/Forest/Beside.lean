import Rulewright.Proofs.Forest.Growth

/-!
# Work beside what is there

Code that is added to a store refers to itself only. Whoever works on new nodes, and goes from them
wherever the references lead, comes to new nodes only, so nothing that was there is changed. No
operation has to succeed for that, and what was there need not be well-formed.

* `Code.Beside`: new nodes beside the old ones, which are as they were.
* `Beside.modify`, `Beside.push`: the two ways to change code. All operations come down to them.
* `Beside.chainFrom`, `Beside.descendantsFrom`: walks from new nodes.
-/

namespace Rulewright

/-- All that the node refers to is numbered from `n` on. -/
structure Node.RefersFrom (n : Nat) (node : Node) : Prop where
  link : ∀ p ∈ node.link.holder?, n ≤ p
  next : ∀ p ∈ node.next, n ≤ p
  bodies : ∀ b ∈ node.kind.branch?, ∀ k ∈ b.bodies, n ≤ k

theorem Node.refersFrom_fresh {n : Nat} {kind : NodeKind}
    (h : ∀ b ∈ kind.branch?, ∀ k ∈ b.bodies, n ≤ k) : (Node.fresh kind).RefersFrom n :=
  ⟨fun _ hp => (by cases hp), fun _ hp => (by cases hp), h⟩

theorem Branch.mem_bodies_setSlot {b : Branch} {slot : Slot} {n k : NodeId}
    (h : k ∈ (b.setSlot slot n).bodies) : k = n ∨ k ∈ b.bodies := by
  cases slot with
  | thenBody =>
    rcases List.mem_cons.1 h with rfl | h
    · exact .inl rfl
    · exact .inr (List.mem_cons_of_mem _ h)
  | elseBody =>
    simp only [Branch.setSlot, Branch.bodies, List.mem_cons] at h ⊢
    tauto
  | elseIf index =>
    simp only [Branch.setSlot, Branch.bodies, List.mem_cons] at h ⊢
    rcases h with h | h | h
    · exact .inr (.inl h)
    · exact .inr (.inr (.inl h))
    · rcases List.mem_or_eq_of_mem_set h with h | h
      · exact .inr (.inr (.inr h))
      · exact .inl h

namespace Code

variable {c c' : Code} {n p x : NodeId}

/-- The second code has all the nodes of the first one as they are. Its other nodes refer to each
other only. -/
structure Beside (c c' : Code) : Prop where
  grown : Grown c c'
  refers : ∀ x node, c.size ≤ x → c'.node? x = some node → node.RefersFrom c.size

namespace Beside

theorem refl (c : Code) : Beside c c := by
  refine ⟨.refl c, fun x node hx hnode => ?_⟩
  exact absurd (lt_size_of_node? hnode) (Nat.not_lt.2 hx)

/-- All nodes are new to a store without nodes. -/
theorem of_empty (c : Code) : Beside Code.empty c :=
  ⟨⟨Nat.zero_le _, fun _ hx => (by cases hx)⟩, fun _ _ _ _ =>
    ⟨fun _ _ => Nat.zero_le _, fun _ _ => Nat.zero_le _, fun _ _ _ _ => Nat.zero_le _⟩⟩

/-- A new number. -/
theorem size_le (h : Beside c c') : c.size ≤ c'.size := h.grown.size_le

theorem push (h : Beside c c') {node : Node} (hnode : node.RefersFrom c.size) :
    Beside c (c'.push node) := by
  refine ⟨h.grown.push node, fun x node' hx hx' => ?_⟩
  rw [node?_push] at hx'
  split_ifs at hx'
  · cases hx'
    exact hnode
  · exact h.refers x node' hx hx'

theorem modify (h : Beside c c') (hn : c.size ≤ n) {f : Node → Node}
    (hf : ∀ node, node.RefersFrom c.size → (f node).RefersFrom c.size) :
    Beside c (c'.modify n f) := by
  refine ⟨h.grown.modify hn f, fun x node hx hx' => ?_⟩
  rw [node?_modify] at hx'
  split_ifs at hx'
  · obtain ⟨node', hnode', rfl⟩ := Option.map_eq_some_iff.1 hx'
    exact hf node' (h.refers x node' hx hnode')
  · exact h.refers x node hx hx'

/-! ### Where references lead -/

theorem link (h : Beside c c') (hx : c.size ≤ x) (hp : (c'.link x).holder? = some p) :
    c.size ≤ p := by
  rw [Code.link] at hp
  split at hp
  · next node hnode => exact (h.refers x node hx hnode).link p hp
  · cases hp

theorem next (h : Beside c c') (hx : c.size ≤ x) (hp : c'.next x = some p) : c.size ≤ p := by
  obtain ⟨node, hnode, hnext⟩ := Option.bind_eq_some_iff.1 hp
  exact (h.refers x node hx hnode).next p hnext

theorem branch? (h : Beside c c') (hx : c.size ≤ x) {b : Branch} (hb : c'.branch? x = some b)
    (hp : p ∈ b.bodies) : c.size ≤ p := by
  rw [Code.branch?, Code.kind] at hb
  split at hb
  · next node hnode => exact (h.refers x node hx hnode).bodies b hb p hp
  · cases hb

theorem bodies (h : Beside c c') (hx : c.size ≤ x) (hp : p ∈ c'.bodies x) : c.size ≤ p := by
  rw [Code.bodies] at hp
  split at hp
  · next b hb => exact h.branch? hx hb hp
  · cases hp

theorem chainFrom (h : Beside c c') {fuel : Nat} (hx : c.size ≤ x) (hp : p ∈ c'.chainFrom fuel x) :
    c.size ≤ p := by
  induction fuel generalizing x with
  | zero => cases hp
  | succ fuel ih =>
    rw [Code.chainFrom, List.mem_cons] at hp
    rcases hp with rfl | hp
    · exact hx
    · cases hnext : c'.next x with
      | none =>
        rw [hnext] at hp
        cases hp
      | some k =>
        rw [hnext] at hp
        exact ih (h.next hx hnext) hp

theorem last (h : Beside c c') (hx : c.size ≤ x) : c.size ≤ c'.last x := by
  rw [Code.last, List.getLastD_eq_getLast?]
  cases hlast : (c'.chain x).getLast? with
  | none => exact hx
  | some k => exact h.chainFrom hx (List.mem_of_getLast? hlast)

theorem nextMeaningful? (h : Beside c c') (hx : c.size ≤ x) (hp : c'.nextMeaningful? x = some p) :
    c.size ≤ p :=
  h.chainFrom hx (List.mem_of_find?_eq_some hp)

theorem descendantsFrom (h : Beside c c') {fuel : Nat} (hx : c.size ≤ x)
    (hp : p ∈ c'.descendantsFrom fuel x) : c.size ≤ p := by
  induction fuel generalizing x with
  | zero => cases hp
  | succ fuel ih =>
    rw [Code.descendantsFrom, List.mem_append, List.mem_flatMap, List.mem_cons] at hp
    rcases hp with ⟨k, hk, hp⟩ | rfl | hp
    · exact ih (h.bodies hx hk) hp
    · exact hx
    · cases hnext : c'.next x with
      | none =>
        rw [hnext] at hp
        cases hp
      | some k =>
        rw [hnext] at hp
        exact ih (h.next hx hnext) hp

theorem findPlaceholder? (h : Beside c c') (hx : c.size ≤ x) (hp : c'.findPlaceholder? x = some p) :
    c.size ≤ p := by
  rw [findPlaceholder?_eq_find?] at hp
  exact h.descendantsFrom hx (List.mem_of_find?_eq_some hp)

/-! ### Single changes -/

theorem alloc (h : Beside c c') {kind : NodeKind}
    (hkind : ∀ b ∈ kind.branch?, ∀ k ∈ b.bodies, c.size ≤ k) : Beside c (c'.alloc kind).2 :=
  h.push (Node.refersFrom_fresh hkind)

theorem setLink (h : Beside c c') (hn : c.size ≤ n) {k : Link} (hk : ∀ p ∈ k.holder?, c.size ≤ p) :
    Beside c (c'.setLink n k) :=
  h.modify hn fun _ hnode => ⟨hk, hnode.next, hnode.bodies⟩

theorem setNext (h : Beside c c') (hn : c.size ≤ n) {v : Option NodeId} (hv : ∀ p ∈ v, c.size ≤ p) :
    Beside c (c'.setNext n v) :=
  h.modify hn fun _ hnode => ⟨hnode.link, hv, hnode.bodies⟩

theorem setKind (h : Beside c c') (hn : c.size ≤ n) {kind : NodeKind}
    (hkind : ∀ b ∈ kind.branch?, ∀ k ∈ b.bodies, c.size ≤ k) : Beside c (c'.setKind n kind) :=
  h.modify hn fun _ hnode => ⟨hnode.link, hnode.next, hkind⟩

theorem neutralize (h : Beside c c') (hn : c.size ≤ n) : Beside c (c'.neutralize n) :=
  h.setKind hn fun _ hb => by cases hb

theorem commentOut (h : Beside c c') (hn : c.size ≤ n) (comment : String) :
    Beside c (c'.commentOut n comment) :=
  h.modify hn fun _ hnode => ⟨hnode.link, hnode.next, hnode.bodies⟩

theorem setGuard (h : Beside c c') (hn : c.size ≤ n) (guard : Guard) :
    Beside c (c'.setGuard n guard) := by
  unfold Code.setGuard
  split
  · next b hkind =>
    refine h.setKind hn fun b' hb' k hk => ?_
    cases hb'
    exact h.branch? hn (show c'.branch? n = some b by rw [Code.branch?, hkind]; rfl) hk
  · exact h

/-! ### Building and moving -/

theorem fillSlot (h : Beside c c') (hp : c.size ≤ p) (slot : Slot) (hn : c.size ≤ n) :
    Beside c (c'.fillSlot p slot n) := by
  unfold Code.fillSlot
  split
  · next b hkind =>
    split
    · refine (h.setKind hp fun b' hb' k hk => ?_).setLink hn fun q hq => ?_
      · cases hb'
        rcases Branch.mem_bodies_setSlot hk with rfl | hk
        · exact hn
        · exact h.branch? hp (show c'.branch? p = some b by rw [Code.branch?, hkind]; rfl) hk
      · cases hq
        exact hp
    · exact h
  · exact h

theorem detach (h : Beside c c') (hn : c.size ≤ n) : Beside c (c'.detach n) := by
  have hroot : ∀ p ∈ Link.holder? .root, c.size ≤ p := fun _ hp => by cases hp
  unfold Code.detach
  split
  · exact h
  · next p hlink =>
    have hp : c.size ≤ p := h.link hn (by rw [hlink]; rfl)
    exact (h.setNext hp fun _ hq => by cases hq).setLink hn hroot
  · next p slot hlink =>
    have hp : c.size ≤ p := h.link hn (by rw [hlink]; rfl)
    have hfiller : Beside c (c'.alloc .noop).2 := h.alloc fun _ hb => by cases hb
    exact (hfiller.fillSlot hp slot h.size_le).setLink hn hroot

theorem setPredecessor (h : Beside c c') (hn : c.size ≤ n) (hp : c.size ≤ p) :
    Beside c (c'.setPredecessor n p) := by
  have hafter : ∀ q ∈ Link.holder? (.after p), c.size ≤ q := fun q hq => by cases hq; exact hp
  have hd := h.detach hn
  have hset : Beside c ((c'.detach n).setNext p (some n)) :=
    hd.setNext hp fun q hq => by cases hq; exact hn
  unfold Code.setPredecessor
  dsimp only
  split
  · next d hnext =>
      exact (hset.setLink (hd.next hp hnext) fun _ hq => by cases hq).setLink hn hafter
  · exact hset.setLink hn hafter

theorem append (h : Beside c c') {sequence fragment : NodeId} (hs : c.size ≤ sequence)
    (hf : c.size ≤ fragment) : Beside c (c'.append sequence fragment) :=
  h.setPredecessor hf (h.last hs)

theorem behind (h : Beside c c') (hn : c.size ≤ n) (hp : c.size ≤ p) :
    Beside c ((c'.setNext p (some n)).setLink n (.after p)) :=
  (h.setNext hp fun q hq => by cases hq; exact hn).setLink hn fun q hq => by cases hq; exact hp

theorem insertBefore (h : Beside c c') {node fragment : NodeId} (hn : c.size ≤ node)
    (hf : c.size ≤ fragment) : Beside c (c'.insertBefore node fragment) := by
  have hroot : Beside c ((c'.detach fragment).setLink node .root) :=
    (h.detach hf).setLink hn fun _ hp => by cases hp
  have hend : ∀ {d}, Beside c d →
      Beside c
        ((d.setNext (d.last fragment) (some node)).setLink node (.after (d.last fragment))) :=
    fun hd => hd.behind hn (hd.last hf)
  unfold Code.insertBefore
  dsimp only
  split
  · exact hend hroot
  · next p hlink =>
    have hp : c.size ≤ p := h.link hn (by rw [hlink]; rfl)
    rw [hlink]
    exact hend (hroot.behind hf hp)
  · next p slot hlink =>
    have hp : c.size ≤ p := h.link hn (by rw [hlink]; rfl)
    exact hend (hroot.fillSlot hp slot hf)

theorem replace (h : Beside c c') {node fragment : NodeId} (hn : c.size ≤ node)
    (hf : c.size ≤ fragment) : Beside c (c'.replace node fragment) := by
  have hmoved : Beside c (((c'.setNext node none).insertBefore node fragment).detach node) :=
    ((h.setNext hn fun _ hp => by cases hp).insertBefore hn hf).detach hn
  unfold Code.replace
  dsimp only
  split
  · next s hnext => exact hmoved.behind (h.next hn hnext) (hmoved.last hf)
  · exact hmoved

theorem sequence (h : Beside c c') {items : List NodeId} (hitems : ∀ k ∈ items, c.size ≤ k) :
    Beside c (c'.sequence items).2 := by
  have hfold : ∀ (items : List NodeId) (d : Code), (∀ k ∈ items, c.size ≤ k) → Beside c d →
      Beside c (items.foldl (fun d item => d.append c'.size item) d) := by
    intro items
    induction items with
    | nil => exact fun d _ hd => hd
    | cons item rest ih =>
      intro d hitems hd
      exact ih _ (fun k hk => hitems k (List.mem_cons_of_mem item hk))
        (hd.append h.size_le (hitems item List.mem_cons_self))
  exact hfold items _ hitems (h.alloc fun _ hb => by cases hb)

theorem bodyOrNoop (h : Beside c c') {body : Option NodeId} (hbody : ∀ k ∈ body, c.size ≤ k) :
    Beside c (c'.bodyOrNoop body).2 ∧ c.size ≤ (c'.bodyOrNoop body).1 := by
  cases body with
  | none => exact ⟨h.alloc fun _ hb => (by cases hb), h.size_le⟩
  | some k => exact ⟨h, hbody k rfl⟩

theorem createIf (h : Beside c c') (guard : Guard) {thenBody elseBody : Option NodeId}
    (ht : ∀ k ∈ thenBody, c.size ≤ k) (he : ∀ k ∈ elseBody, c.size ≤ k) :
    Beside c (c'.createIf guard thenBody elseBody).2 ∧
    c.size ≤ (c'.createIf guard thenBody elseBody).1 := by
  obtain ⟨h₁, ht'⟩ := h.bodyOrNoop ht
  obtain ⟨h₂, he'⟩ := h₁.bodyOrNoop he
  have hdetached := (h₂.detach ht').detach he'
  unfold Code.createIf
  generalize c'.bodyOrNoop thenBody = r₁ at *
  obtain ⟨t, c₁⟩ := r₁
  dsimp only at *
  generalize c₁.bodyOrNoop elseBody = r₂ at *
  obtain ⟨e, c₂⟩ := r₂
  dsimp only at *
  have hid := hdetached.size_le
  refine ⟨((hdetached.alloc fun b hb k hk => ?_).setLink ht' fun q hq => ?_).setLink he' fun q hq =>
      ?_,
    hid⟩
  · cases hb
    simp only [Branch.bodies, List.mem_cons, List.not_mem_nil, or_false] at hk
    rcases hk with rfl | rfl
    · exact ht'
    · exact he'
  · cases hq
    exact hid
  · cases hq
    exact hid

theorem addElseIf (h : Beside c c') (hn : c.size ≤ n) (guard : Guard) {body : Option NodeId}
    (hbody : ∀ k ∈ body, c.size ≤ k) :
    Beside c (c'.addElseIf n guard body).2 ∧ c.size ≤ (c'.addElseIf n guard body).1 := by
  have hnone : ∀ k ∈ (none : Option NodeId), c.size ≤ k := fun _ hk => by cases hk
  obtain ⟨hif, hid⟩ := h.createIf guard hbody hnone
  unfold Code.addElseIf
  generalize c'.createIf guard body none = r at *
  obtain ⟨elseIf, c₁⟩ := r
  dsimp only at *
  split
  · next b hkind =>
    refine ⟨(hif.setKind hn fun b' hb' k hk => ?_).setLink hid fun q hq => ?_, hid⟩
    · cases hb'
      have hb : c₁.branch? n = some b := by rw [Code.branch?, hkind]; rfl
      simp only [Branch.bodies, List.mem_cons, List.mem_append, List.not_mem_nil, or_false] at hk
      -- the branch keeps the bodies that it has and gets one more
      rcases hk with rfl | rfl | hk | rfl
      · exact hif.branch? hn hb (by simp [Branch.bodies])
      · exact hif.branch? hn hb (by simp [Branch.bodies])
      · exact hif.branch? hn hb (by simp [Branch.bodies, hk])
      · exact hid
    · cases hq
      exact hn
  · exact ⟨hif, hid⟩

end Beside

end Code

end Rulewright
