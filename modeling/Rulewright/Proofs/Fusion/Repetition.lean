import Rulewright.Proofs.Fusion.Legible
import Rulewright.Proofs.Fusion.Origins

/-!
# What eliminating redundancy comments out

A definition is commented out where a node before or around it has its text. Texts tell which trails
are bound, so the trail of a definition that is commented out has been bound on every way to it.

* `Code.Redacts`: one store is another one with nodes commented out that repeat texts.
* `redacts_eliminateRedundancy`: this is what eliminating redundancy does.
* `DistinctAll`: trees whose lines can be told from definitions by their texts.
* `CoversAll`, `covers_all`: the trails of definitions that are commented out are known where they
  stand.
-/

namespace Rulewright

/-! ### Stores -/

namespace Code

/-- The text of a node before or around a node is that of the node, definitions being assignments or
not. -/
def Repeats (c : Code) (id : NodeId) : Prop :=
  ∃ above ∈ c.ancestors id, ∃ k k' : NodeKind, k.assigned = (c.kind above).assigned ∧
    k'.assigned = (c.kind id).assigned ∧ k.content = k'.content

/-- The store is another one with nodes commented out that repeat texts, and definitions may have
become assignments. -/
structure Redacts (c c' : Code) : Prop where
  size : c'.size = c.size
  link : ∀ id, c'.link id = c.link id
  kind : ∀ id, (c'.kind id).assigned = (c.kind id).assigned
  off : ∀ id, c'.isCommentedOut id = true → c.isCommentedOut id = true ∨ c.Repeats id

variable {c c' c'' : Code} {id : NodeId}

theorem Redacts.refl (c : Code) : c.Redacts c := ⟨rfl, fun _ => rfl, fun _ => rfl, fun _ => Or.inl⟩

theorem Redacts.ancestors (h : c.Redacts c') (id : NodeId) : c'.ancestors id = c.ancestors id := by
  have hfrom : ∀ n id, c'.ancestorsFrom n id = c.ancestorsFrom n id := by
    intro n
    induction n with
    | zero => exact fun _ => rfl
    | succ n ih =>
      intro id
      simp only [ancestorsFrom, up?, h.link, ih]
  rw [Code.ancestors, Code.ancestors, h.size, hfrom]

theorem Redacts.repeats (h : c.Redacts c') (hr : c'.Repeats id) : c.Repeats id := by
  obtain ⟨above, hmem, k, k', hk, hk', heq⟩ := hr
  rw [h.ancestors] at hmem
  exact ⟨above, hmem, k, k', hk.trans (h.kind above), hk'.trans (h.kind id), heq⟩

theorem Redacts.trans (h : c.Redacts c') (h' : c'.Redacts c'') : c.Redacts c'' where
  size := h'.size.trans h.size
  link id := (h'.link id).trans (h.link id)
  kind id := (h'.kind id).trans (h.kind id)
  off id hoff := (h'.off id hoff).elim (h.off id) fun hr => Or.inr (h.repeats hr)

/-- A node is changed in its place. -/
theorem redacts_modify {f : Node → Node} (hlink : ∀ n, (f n).link = n.link)
    (hkind : ∀ n, c.node? id = some n → (f n).kind.assigned = n.kind.assigned)
    (hoff : ∀ n, (f n).commentedOut = true → n.commentedOut = true ∨ c.Repeats id) :
    c.Redacts (c.modify id f) := by
  refine ⟨size_modify c id f, fun k => ?_, fun k => ?_, fun k => ?_⟩
  · rw [Code.link, Code.link, node?_modify]
    split_ifs with hk
    · cases c.node? k with
      | none => rfl
      | some n => exact hlink n
    · rfl
  · rw [Code.kind, Code.kind, node?_modify]
    split_ifs with hk
    · subst hk
      cases hn : c.node? id with
      | none => rfl
      | some n => exact hkind n hn
    · rfl
  · rw [isCommentedOut, isCommentedOut, node?_modify]
    split_ifs with hk
    · subst hk
      cases c.node? id with
      | none => exact fun h => by cases h
      | some n => exact hoff n
    · exact Or.inl

theorem redacts_setDeclares (c : Code) (id : NodeId) (declares : Bool) :
    c.Redacts (c.setDeclares id declares) := by
  unfold setDeclares
  split
  · rename_i target binding declares' hk
    refine redacts_modify (fun _ => rfl) (fun n hn => ?_) (fun _ => Or.inl)
    have hkind : n.kind = .definition target binding declares' := by rw [← hk, Code.kind, hn]
    rw [hkind]
    rfl
  · exact .refl c

theorem redacts_reviseAgainst {above : NodeId} (h : above ∈ c.ancestors id) :
    c.Redacts (reviseAgainst id c above) := by
  unfold reviseAgainst
  split_ifs with hoff heq
  · exact .refl c
  · have hrepeats : c.Repeats id :=
      ⟨above, h, c.kind above, c.kind id, rfl, rfl, by simpa [content] using heq⟩
    exact redacts_modify (fun _ => rfl) (fun _ _ => rfl) (fun _ _ => Or.inr hrepeats)
  · split
    · split_ifs
      · have hnote : c.Redacts (c.setComment id assignedNote) :=
          redacts_modify (fun _ => rfl) (fun _ _ => rfl) (fun _ => Or.inl)
        exact hnote.trans (redacts_setDeclares _ id false)
      · exact .refl c
    · exact .refl c

/-- **Eliminating redundancy** comments out what repeats texts. -/
theorem redacts_eliminateRedundancy (c : Code) (head : NodeId) :
    c.Redacts (c.eliminateRedundancy head) := by
  refine eliminateRedundancy_induct .refl .trans (fun h _ hmem => ?_) c head
  -- the nodes before and around a node stay those that they were
  rw [← h.ancestors] at hmem
  exact redacts_reviseAgainst hmem

end Code

/-! ### Trees -/

namespace Stmt

variable {ι : Type}

/-- The text of the line is not that of a definition, or else it is one that is run. -/
def IsDistinct : Stmt ι → Prop
  | .line _ (.custom text) _ _ => IsForeign text
  | .line _ (.definition _ _ _) _ off => off = false
  | _ => True

/-- Lines and guards can be told from definitions by their texts, and all definitions are run. -/
structure DistinctAll (ts : List (Stmt ι)) : Prop where
  lines : ∀ p ∈ pathsAll ts, p.2.IsDistinct
  guards : ∀ guard ∈ guardsAll ts, IsForeign guard.text

theorem distinctAll_nil : DistinctAll ([] : List (Stmt ι)) :=
  ⟨List.forall_mem_nil _, List.forall_mem_nil _⟩

theorem distinctAll_append {xs ys : List (Stmt ι)} :
    DistinctAll (xs ++ ys) ↔ DistinctAll xs ∧ DistinctAll ys := by
  constructor
  · rintro ⟨hlines, hguards⟩
    rw [pathsAll_append, List.forall_mem_append] at hlines
    rw [guardsAll_append, List.forall_mem_append] at hguards
    exact ⟨⟨hlines.1, hguards.1⟩, hlines.2, hguards.2⟩
  · rintro ⟨hx, hy⟩
    refine ⟨?_, ?_⟩
    · rw [pathsAll_append, List.forall_mem_append]
      exact ⟨hx.lines, hy.lines⟩
    · rw [guardsAll_append, List.forall_mem_append]
      exact ⟨hx.guards, hy.guards⟩

theorem distinctAll_cons {s : Stmt ι} {rest : List (Stmt ι)} :
    DistinctAll (s :: rest) ↔ DistinctAll [s] ∧ DistinctAll rest :=
  @distinctAll_append ι [s] rest

theorem distinctAll_line {id : ι} {x : Line} {comment : Option String} {off : Bool} :
    DistinctAll [.line id x comment off] ↔ (Stmt.line id x comment off).IsDistinct := by
  refine ⟨fun h => h.lines ([], _) List.mem_cons_self, fun h => ⟨?_, List.forall_mem_nil _⟩⟩
  exact List.forall_mem_singleton.2 h

theorem distinctAll_branch {id : ι} {guard : Guard} {t e es : List (Stmt ι)} :
    DistinctAll [.branch id guard t e es] ↔
    IsForeign guard.text ∧ DistinctAll t ∧ DistinctAll e ∧ DistinctAll es := by
  have hlines : (∀ p ∈ pathsAll [Stmt.branch id guard t e es], p.2.IsDistinct) ↔
      (∀ p ∈ pathsAll t, p.2.IsDistinct) ∧ (∀ p ∈ pathsAll e, p.2.IsDistinct) ∧
        ∀ p ∈ pathsAll es, p.2.IsDistinct := by
    simp only [pathsAll, paths, List.append_nil, List.forall_mem_append, List.forall_mem_map, onWay]
  have hguards : (∀ g ∈ guardsAll [Stmt.branch id guard t e es], IsForeign g.text) ↔
      IsForeign guard.text ∧ (∀ g ∈ guardsAll t, IsForeign g.text) ∧
        (∀ g ∈ guardsAll e, IsForeign g.text) ∧ ∀ g ∈ guardsAll es, IsForeign g.text := by
    simp only [guardsAll, guards, List.append_nil, List.forall_mem_cons, List.forall_mem_append]
  constructor
  · rintro ⟨h, h'⟩
    obtain ⟨ht, he, hes⟩ := hlines.1 h
    obtain ⟨hg, ht', he', hes'⟩ := hguards.1 h'
    exact ⟨hg, ⟨ht, ht'⟩, ⟨he, he'⟩, ⟨hes, hes'⟩⟩
  · rintro ⟨hg, ht, he, hes⟩
    exact ⟨hlines.2 ⟨ht.lines, he.lines, hes.lines⟩,
      hguards.2 ⟨hg, ht.guards, he.guards, hes.guards⟩⟩

/-- The trail that a line binds. -/
def targets : Stmt ι → List Trail
  | .line _ (.definition target _ _) _ _ => [target]
  | _ => []

mutual

/-- The definitions that are gone bind trails that are known where they stand, and other lines are
as they were. -/
def Covers (gone : NodeId → Bool) (known : List Trail) : Stmt NodeId → Prop
  | .line id (.definition target _ _) _ off => off = false ∧ (gone id = true → target ∈ known)
  | .line _ (.declaration _) _ _ => True
  | .line id _ _ off => gone id = off
  | .branch _ _ t e es => CoversAll gone known t ∧ CoversAll gone known e ∧ CoversEach gone known es

/-- The same of a sequence, where trails become known one after the other. -/
def CoversAll (gone : NodeId → Bool) (known : List Trail) : List (Stmt NodeId) → Prop
  | [] => True
  | s :: rest => Covers gone known s ∧ CoversAll gone (s.targets ++ known) rest

/-- The same of statements of which one is run. -/
def CoversEach (gone : NodeId → Bool) (known : List Trail) : List (Stmt NodeId) → Prop
  | [] => True
  | s :: rest => Covers gone known s ∧ CoversEach gone known rest

end

end Stmt

/-- The node before or around a node at the link. -/
def Link.up? : Link → Option NodeId
  | .root => none
  | .after p => some p
  | .childOf p _ => some p

namespace Code

open Stmt

variable {c c' : Code} {link link' : Link} {known known' : List Trail} {id : NodeId}

/-- At most `n + 1` nodes before and around a node at the link. -/
def aboveFrom (c : Code) (n : Nat) (link : Link) : List NodeId :=
  match link.up? with
  | some p => p :: c.ancestorsFrom n p
  | none => []

theorem ancestorsFrom_succ (c : Code) (n : Nat) (id : NodeId) :
    c.ancestorsFrom (n + 1) id = c.aboveFrom n (c.link id) := by
  rw [ancestorsFrom, aboveFrom, up?]
  cases c.link id <;> rfl

/-- The trail that the node binds, if it does, is known, and the node can be told from other
definitions. -/
structure Known (c : Code) (known : List Trail) (id : NodeId) : Prop where
  legible : (c.kind id).Legible
  target : ∀ target binding declares, c.kind id = .definition target binding declares →
      target ∈ known

/-- All nodes before and around a node at the link bind known trails. -/
def Knows (c : Code) (link : Link) (known : List Trail) : Prop :=
  ∀ n, ∀ above ∈ c.aboveFrom n link, c.Known known above

theorem knows_root (c : Code) (known : List Trail) : c.Knows .root known :=
  fun _ => List.forall_mem_nil _

/-- What is known after a node or in its bodies. -/
theorem Knows.below (h : c.Knows link known) (hlink : c.link id = link) (hid : c.Known known' id)
    (hsub : known ⊆ known') (hup : link'.up? = some id) : c.Knows link' known' := by
  intro n above hmem
  rw [aboveFrom, hup] at hmem
  rcases List.mem_cons.1 hmem with rfl | hmem
  · exact hid
  · cases n with
    | zero => cases hmem
    | succ n =>
      rw [ancestorsFrom_succ, hlink] at hmem
      have habove := h n above hmem
      exact ⟨habove.legible,
        fun target binding declares hk => hsub (habove.target target binding declares hk)⟩

/-- **A definition is commented out only if its trail is known.** -/
theorem Redacts.target_mem (h : c.Redacts c') (hknows : c.Knows link known)
    (hlink : c.link id = link) {target : Trail} {binding : Binding} {declares : Bool}
    (hkind : c.kind id = .definition target binding declares) (hon : c.isCommentedOut id = false)
    (hoff : c'.isCommentedOut id = true) : target ∈ known := by
  rcases h.off id hoff with hoff | ⟨above, hmem, k, k', hk, hk', heq⟩
  · rw [hon] at hoff
    cases hoff
  · have habove : c.Known known above := by
      rw [Code.ancestors] at hmem
      cases hsize : c.size with
      | zero => rw [hsize] at hmem; cases hmem
      | succ n =>
        rw [hsize, ancestorsFrom_succ, hlink] at hmem
        exact hknows n above hmem
    rw [hkind] at hk'
    obtain ⟨binding', declares', hdef⟩ := habove.legible.binds hk hk' heq
    exact habove.target target binding' declares' hdef

theorem legible_node {s : Stmt NodeId} (h : DistinctAll [s]) (link : Link) (next : Option NodeId) :
    (s.node link next).kind.Legible := by
  cases s with
  | branch id guard t e es => exact NodeKind.legible_of_isForeign (distinctAll_branch.1 h).1
  | line id x comment off =>
    have hx := distinctAll_line.1 h
    cases x with
    | declaration target => exact NodeKind.legible_declaration target
    | definition target binding declares =>
      exact NodeKind.legible_definition target binding declares
    | ret value => exact NodeKind.legible_ret value
    | custom text => exact NodeKind.legible_of_isForeign hx
    | noop => exact NodeKind.legible_of_isForeign .empty
    | placeholder => exact NodeKind.legible_of_isForeign .empty

theorem known_node {s : Stmt NodeId} {link : Link} {next : Option NodeId}
    (hn : c.node? s.id = some (s.node link next)) (h : DistinctAll [s]) (known : List Trail) :
    c.Known (s.targets ++ known) s.id := by
  have hkind : c.kind s.id = (s.node link next).kind := Owns.kind_of hn
  refine ⟨by rw [hkind]; exact legible_node h link next, fun target binding declares hdef => ?_⟩
  rw [hkind] at hdef
  cases s with
  | branch id guard t e es => cases hdef
  | line id x comment off =>
    cases x with
    | definition target' binding' declares' =>
      cases hdef
      exact List.mem_cons_self
    | _ => cases hdef

theorem covers_line (h : c.Redacts c') (hr : c.Revises c') {x : Line} {comment : Option String}
    {off : Bool} {next : Option NodeId}
    (hn : c.node? id = some ((Stmt.line id x comment off).node link next))
    (hd : DistinctAll [Stmt.line id x comment off]) (hknows : c.Knows link known) :
    Covers c'.isCommentedOut known (.line id x comment off) := by
  -- a line that binds nothing stays as it is
  have hother : x.isBinding = false → c'.isCommentedOut id = off := by
    intro hx
    obtain ⟨n, hn', hrev⟩ := hr id _ hn
    rw [Owns.isCommentedOut_of hn', hrev.other (by rw [Stmt.node, Line.kind_isBinding, hx])]
    rfl
  cases x with
  | definition target binding declares =>
    have hoff : off = false := distinctAll_line.1 hd
    refine ⟨hoff, fun hgone => ?_⟩
    exact h.target_mem hknows (Owns.link_of hn) (Owns.kind_of hn)
      ((Owns.isCommentedOut_of hn).trans hoff) hgone
  | declaration target => trivial
  | _ => exact hother rfl

/-- **The definitions that are commented out** bind trails that are known where they stand. -/
theorem covers_all (h : c.Redacts c') (hr : c.Revises c') :
    (∀ s : Stmt NodeId, ∀ link next known, c.node? s.id = some (s.node link next) →
      c.Owns s.bodyCells → DistinctAll [s] → c.Knows link known →
      Covers c'.isCommentedOut known s) ∧
    ∀ ts : List (Stmt NodeId),
      (∀ link next known, c.Owns (cells link next ts) → DistinctAll ts → c.Knows link known →
        CoversAll c'.isCommentedOut known ts) ∧
      ∀ parent index known, c.Owns (elseIfCells parent index ts) → DistinctAll ts →
        (∀ slot, c.Knows (.childOf parent slot) known) → CoversEach c'.isCommentedOut known ts := by
  apply Stmt.induct
  case line =>
    intro id x comment off link next known hn _ hd hknows
    exact covers_line h hr hn hd hknows
  case branch =>
    intro id guard t e es ht he hes link next known hn hown hd hknows
    obtain ⟨-, hdt, hde, hdes⟩ := distinctAll_branch.1 hd
    rw [bodyCells_branch] at hown
    -- a branch binds nothing itself, so its bodies start with what is known before it
    have hbelow : ∀ slot, c.Knows (.childOf id slot) known := fun slot =>
      hknows.below (Owns.link_of hn) (known_node hn hd known) (List.Subset.refl _) rfl
    exact ⟨ht.1 _ _ _ hown.left.left hdt (hbelow .thenBody),
      he.1 _ _ _ hown.left.right hde (hbelow .elseBody), hes.2 _ _ _ hown.right hdes hbelow⟩
  case nil => exact ⟨fun _ _ _ _ _ _ => trivial, fun _ _ _ _ _ _ => trivial⟩
  case cons =>
    intro s rest hs hrest
    refine ⟨fun link next known hown hd hknows => ?_, fun parent index known hown hd hknows => ?_⟩
    · obtain ⟨hds, hdrest⟩ := distinctAll_cons.1 hd
      rw [cells_cons] at hown
      have hn := hown.left.find
      have hlink : c.link s.id = link := (Owns.link_of hn).trans (by cases s <;> rfl)
      -- the rest knows what the statement binds
      have hafter : c.Knows (.after s.id) (s.targets ++ known) :=
        hknows.below hlink (known_node hn hds known) (List.subset_append_right _ _) rfl
      exact ⟨hs _ _ _ hn hown.left.right hds hknows, hrest.1 _ _ _ hown.right hdrest hafter⟩
    · obtain ⟨hds, hdrest⟩ := distinctAll_cons.1 hd
      rw [elseIfCells] at hown
      have hn := hown.left.find
      exact ⟨hs _ _ _ hn hown.left.right hds (hknows _), hrest.2 _ _ _ hown.right hdrest hknows⟩

end Code

end Rulewright
