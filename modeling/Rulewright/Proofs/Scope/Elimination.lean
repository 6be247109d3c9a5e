import Rulewright.Proofs.Forest.Reads
import Rulewright.Proofs.Fusion.Repetition
import Rulewright.Proofs.Scope.Rule

/-!
# Temporaries stay in scope

Eliminating redundancy comments out definitions and declarations that repeat one before or around
them, and turns definitions of declared temporaries into assignments. Of the nodes on one way that
introduce a temporary the first one has nothing to repeat and no declaration before it, so it stays
as it is, and the temporary is introduced afterwards where it was before.

* `NodeKind.Tells`, `Discipline.legible`: texts tell definitions and declarations from other nodes.
* `Code.Settles`: what eliminating redundancy does to kinds.
* `Code.IsScoped`: the nodes under a head that are run use temporaries in scope.
* `Owns.isScoped_eliminateRedundancy`: eliminating redundancy keeps temporaries in scope.
-/

namespace Rulewright

open Stmt Decimal

/-! ### Texts of declarations -/

namespace NodeKind

/-- The node has the text of a declaration only if it is the declaration. -/
def Tells (k : NodeKind) : Prop :=
  ∀ a : NodeKind, a.assigned = k.assigned →
    ∀ t, a.content = (declaration t).content → k = .declaration t

theorem toList_declaration (t : Trail) :
    (declaration t).content.toList = "let mut ".toList ++
      (t.temporary.toList ++ ':' :: " TermPtr;".toList) := by
  simp only [content, String.toList_append, List.append_assoc]
  rfl

theorem eq_of_assigned {a k : NodeKind} (hk : k.isBinding = false) (h : a.assigned = k.assigned) :
    a = k := by
  cases k <;> cases hk <;> cases a <;> first | exact h | cases h

theorem tells_of_head {k : NodeKind} (hk : k.isBinding = false)
    (hhead : k.content.toList.head? ≠ some 'l') : k.Tells := by
  intro a ha t heq
  rw [eq_of_assigned hk ha] at heq
  rw [heq, toList_declaration] at hhead
  exact absurd rfl hhead

theorem tells_definition (target : Trail) (β : Binding) (declares : Bool) :
    (definition target β declares).Tells := by
  intro a ha t heq
  obtain ⟨d, rfl⟩ := assigned_eq_definition ha
  obtain ⟨β', d', hdef⟩ := legible_declaration t target β d heq.symm
  cases hdef

theorem tells_declaration (target : Trail) : (declaration target).Tells := by
  intro a ha t heq
  obtain rfl : a = declaration target := by cases a <;> first | exact ha | cases ha
  have hlist := congrArg String.toList heq
  rw [toList_declaration, toList_declaration] at hlist
  rw [(Trail.temporary_append_inj (stops_cons (by decide) _) (stops_cons (by decide) _)
    (List.append_cancel_left hlist)).1]

end NodeKind

namespace NodeKind

variable {l : Language} {checks : List (List CheckName)} {reads assigns : Trail → Prop}

theorem legible_tells_of_startsApart {k : NodeKind} (hk : k.isBinding = false)
    (h : StartsApart k.content) : k.Legible ∧ k.Tells :=
  ⟨legible_of_isForeign h.isForeign, tells_of_head hk h.head_ne⟩

/-- Guards that use temporaries of trails can be told from definitions and declarations. -/
theorem legible_tells_branch {b : Branch} (h : b.guard.Within l checks reads) :
    (branch b).Legible ∧ (branch b).Tells := by
  refine legible_tells_of_startsApart rfl ?_
  cases hfree : b.guard.isFree with
  | false => exact b.guard.startsApart hfree
  | true =>
    obtain ⟨guard, t, e, es⟩ := b
    cases guard with
    | free text =>
      obtain ⟨calls, -, rfl, -⟩ := h
      cases calls with
      | nil => exact .nothing rfl
      | cons c rest =>
        obtain ⟨more, hmore⟩ := exists_intercalate_cons " && " c.text (rest.map CheckCall.text)
        have hlist : (" && ".intercalate ((c :: rest).map CheckCall.text)).toList =
            'c' ::
              ("onditions::".toList ++
                (c.check.text.toList ++
                  ("(&".toList ++ (c.subject.text.toList ++ (")".toList ++ more.toList))))) := by
          rw [List.map_cons, hmore, CheckCall.text]
          simp only [String.toList_append, List.append_assoc]
          rfl
        exact .other hlist (by decide) (by decide)
    | _ => cases hfree

theorem legible_tells_custom {text : String} (h : (custom text).Within l checks reads assigns) :
    (custom text).Legible ∧ (custom text).Tells := by
  refine legible_tells_of_startsApart rfl ?_
  rcases h with hcomment | ⟨k, rfl, -⟩
  · obtain ⟨rest, hrest⟩ := List.isPrefixOf_iff_prefix.1 hcomment
    exact .other hrest.symm (by decide) (by decide)
  · have htext : k.replaceLine.toList = Trail.root.temporary.toList ++ '.' ::
        ("replace(".toList ++ (k.text.toList ++ ");".toList)) := by
      simp only [Construction.replaceLine, String.toList_append, List.append_assoc,
        Trail.toList_temporary]
      rfl
    exact .temporary htext

/-- **Nodes that use temporaries of trails** can be told from definitions and declarations. -/
theorem Within.legible_tells {k : NodeKind} (h : k.Within l checks reads assigns) :
    k.Legible ∧ k.Tells := by
  cases k with
  | declaration target => exact ⟨legible_declaration target, tells_declaration target⟩
  | definition target β declares =>
    exact ⟨legible_definition target β declares, tells_definition target β declares⟩
  | branch b => exact legible_tells_branch h
  | custom text => exact legible_tells_custom h
  | ret value => cases value <;>
      exact legible_tells_of_startsApart rfl (.other (c := 'r') rfl (by decide) (by decide))
  | noop | placeholder => exact legible_tells_of_startsApart rfl (.nothing rfl)

end NodeKind

/-- Definitions and declarations are run, and can be told from other nodes by their texts. -/
def Discipline.legible : Discipline Unit where
  step _ _ := ()
  line _ content off :=
    (content.kind.isBinding = true → off = false) ∧ content.kind.Legible ∧ content.kind.Tells
  guard _ g := ∀ b : Branch, b.guard = g → (NodeKind.branch b).Legible ∧ (NodeKind.branch b).Tells

namespace Code

/-! ### What elimination does to kinds -/

/-- The store is another one with redundant nodes commented out and definitions of declared
temporaries turned into assignments. -/
structure Settles (c c' : Code) : Prop where
  redacts : c.Redacts c'
  kind : ∀ id, c'.kind id = c.kind id ∨
      ∃ t β, ∃ above ∈ c.ancestors id, c.kind above = .declaration t ∧
        c.kind id = .definition t β true ∧ c'.kind id = .definition t β false

variable {c c' c'' : Code} {id : NodeId}

theorem Settles.refl (c : Code) : c.Settles c := ⟨.refl c, fun _ => Or.inl rfl⟩

theorem Settles.trans (h : c.Settles c') (h' : c'.Settles c'') : c.Settles c'' := by
  refine ⟨h.redacts.trans h'.redacts, fun id => ?_⟩
  rcases h'.kind id with hsame | ⟨t, β, above, hmem, habove, hdef, hassign⟩
  · rw [hsame]
    exact h.kind id
  · rw [h.redacts.ancestors] at hmem
    -- nothing becomes a declaration or a definition of a new temporary
    refine Or.inr ⟨t, β, above, hmem, ?_, ?_, hassign⟩
    · rcases h.kind above with hk | ⟨_, _, _, _, _, _, hk⟩
      · rw [← hk, habove]
      · rw [habove] at hk
        cases hk
    · rcases h.kind id with hk | ⟨_, _, _, _, _, _, hk⟩
      · rw [← hk, hdef]
      · rw [hdef] at hk
        cases hk

theorem kind_setDeclares {target : Trail} {β : Binding} {declares : Bool}
    (h : c.kind id = .definition target β declares) (d : Bool) (k : NodeId) :
    (c.setDeclares id d).kind k = if k = id then .definition target β d else c.kind k := by
  have hset : c.setDeclares id d = c.setKind id (.definition target β d) := by rw [setDeclares, h]
  rw [hset]
  split_ifs with hk
  · subst hk
    rw [Code.kind] at h
    cases hn : c.node? k with
    | none => rw [hn] at h; cases h
    | some n => rw [setKind, Code.kind, node?_modify, if_pos rfl, hn]; rfl
  · rw [setKind, Code.kind, Code.kind, node?_modify, if_neg (Ne.symm hk)]

theorem settles_reviseAgainst {above : NodeId} (h : above ∈ c.ancestors id) :
    c.Settles (reviseAgainst id c above) := by
  refine ⟨redacts_reviseAgainst h, fun k => ?_⟩
  unfold reviseAgainst
  split_ifs
  · exact Or.inl rfl
  · exact Or.inl (kind_modify c id
      (f := fun n => { n with commentedOut := true, comment := some repeatedNote })
      (fun _ => rfl) k)
  · split
    · rename_i declared hdeclared
      split_ifs with htarget
      · obtain ⟨β, hkind⟩ : ∃ β, c.kind id = .definition declared β true := by
          unfold NodeKind.declaredTarget? at htarget
          split at htarget
          · rename_i target β hk
            cases htarget
            exact ⟨β, hk⟩
          · cases htarget
        have hnote : ∀ k, (c.setComment id assignedNote).kind k = c.kind k :=
          kind_modify c id fun _ => rfl
        rw [kind_setDeclares ((hnote id).trans hkind), hnote k]
        split_ifs with hk
        · subst hk
          exact Or.inr ⟨declared, β, above, h, hdeclared, hkind, rfl⟩
        · exact Or.inl rfl
      · exact Or.inl rfl
    · exact Or.inl rfl

theorem settles_eliminateRedundancy (c : Code) (head : NodeId) :
    c.Settles (c.eliminateRedundancy head) := by
  refine eliminateRedundancy_induct .refl .trans (fun h _ hmem => ?_) c head
  rw [← h.redacts.ancestors] at hmem
  exact settles_reviseAgainst hmem

/-! ### Nodes on one way -/

theorem Path.unique {link : Link} {xs ys : List NodeId} (h : c.Path link xs) (h' : c.Path link ys) :
    xs = ys := by
  induction h generalizing ys with
  | root =>
    cases h'
    rfl
  | after _ ih =>
    cases h' with
    | after h' => rw [ih h']
  | inside _ ih =>
    cases h' with
    | inside h' => rw [ih h']

/-- What is known of a reachable node: its ancestors are reachable, and its text tells what it
introduces. -/
structure Orderly (c : Code) (nodes : List NodeId) (id : NodeId) : Prop where
  path : c.Path (c.link id) (c.ancestors id)
  reached : ∀ a ∈ c.ancestors id, a ∈ nodes
  on : (c.kind id).isBinding = true → c.isCommentedOut id = false
  legible : (c.kind id).Legible
  tells : (c.kind id).Tells

theorem tracks_legible (c : Code) (nodes : List NodeId) :
    Tracks c nodes Discipline.legible (fun _ _ _ => True) (c.Orderly nodes) where
  here {s link next above x} howns hpath hanc hreached _ halong := by
    subst hanc
    have hkind := Owns.kind_of howns.find
    have hoff := Owns.isCommentedOut_of howns.find
    cases s with
    | branch id guard t e es =>
      obtain ⟨hlegible, htells⟩ := halong.1 ⟨guard, start t, start e, es.map Stmt.id⟩ rfl
      exact ⟨hpath, hreached, fun _ => hoff, hkind ▸ hlegible, hkind ▸ htells⟩
    | line id content comment off =>
      obtain ⟨hon, hlegible, htells⟩ := halong
      exact ⟨hpath, hreached, fun hb => hoff.trans (hon (by rwa [hkind] at hb)), hkind ▸ hlegible,
        hkind ▸ htells⟩
  after _ _ _ _ := trivial
  inside _ _ _ := trivial

namespace Orderly

variable {nodes : List NodeId} {a : NodeId} {t : Trail}

/-- The ancestors of an ancestor are those that come after it. -/
theorem ancestors_eq (h : c.Orderly nodes id) (ha : c.Orderly nodes a) {xs ys : List NodeId}
    (hsplit : c.ancestors id = xs ++ a :: ys) : c.ancestors a = ys := by
  have hpath := h.path
  rw [hsplit] at hpath
  exact ha.path.unique hpath.of_append

theorem ancestors_subset (h : c.Orderly nodes id) (ha : c.Orderly nodes a)
    (hmem : a ∈ c.ancestors id) : c.ancestors a ⊆ c.ancestors id := by
  obtain ⟨xs, ys, hsplit⟩ := List.append_of_mem hmem
  rw [h.ancestors_eq ha hsplit, hsplit]
  exact fun b hb => List.mem_append_right _ (List.mem_cons_of_mem _ hb)

theorem declares (h : c.Orderly nodes id) (hkind : c.kind id = .declaration t) : c.Declares id t :=
  ⟨h.on (by rw [hkind]; rfl), hkind⟩

theorem defines (h : c.Orderly nodes id) {β : Binding} (hkind : c.kind id = .definition t β true) :
    c.Defines id t :=
  ⟨h.on (by rw [hkind]; rfl), β, hkind⟩

end Orderly

/-- The first of the nodes on a way with a property. -/
theorem exists_last {P : NodeId → Prop} {xs : List NodeId} (h : ∃ a ∈ xs, P a) :
    ∃ before a after, xs = before ++ a :: after ∧ P a ∧ ∀ b ∈ after, ¬ P b := by
  induction xs with
  | nil =>
    obtain ⟨a, ha, -⟩ := h
    cases ha
  | cons x rest ih =>
    by_cases hrest : ∃ a ∈ rest, P a
    · obtain ⟨before, a, after, rfl, ha, hafter⟩ := ih hrest
      exact ⟨x :: before, a, after, rfl, ha, hafter⟩
    · obtain ⟨a, ha, hP⟩ := h
      rcases List.mem_cons.1 ha with rfl | ha
      · exact ⟨[], a, rest, rfl, hP, fun b hb hPb => hrest ⟨b, hb, hPb⟩⟩
      · exact absurd ⟨a, ha, hP⟩ hrest

/-! ### Scopes -/

/-- The nodes under the head that are run use temporaries that are introduced before or around them.
-/
def IsScoped (l : Language) (checks : List (List CheckName)) (c : Code) (head : NodeId) : Prop :=
  ∀ id ∈ c.descendants head, c.isCommentedOut id = false →
    (c.kind id).Within l checks (c.InScope id) (c.InScope id)

section Keep

variable {l : Language} {checks : List (List CheckName)} {nodes : List NodeId} {t : Trail}

/-- The first node on a way that introduces a temporary is kept. -/
theorem Settles.introduces (h : c.Settles c') (horder : ∀ a ∈ nodes, c.Orderly nodes a)
    (hscope : ∀ a ∈ nodes, c.isCommentedOut a = false →
      (c.kind a).Within l checks (c.InScope a) (c.InScope a))
    (hroot : t ≠ Trail.root) {a : NodeId} (ha : a ∈ nodes)
    (hfirst : ∀ b ∈ c.ancestors a, ¬ c.Introduces b t) (hintro : c.Introduces a t) :
    c'.Introduces a t := by
  have hon : c'.isCommentedOut a = true → False := by
    intro hoff
    have hwas : c.isCommentedOut a = false := hintro.elim And.left And.left
    rcases h.redacts.off a hoff with hoff | ⟨b, hb, k, k', hk, hk', heq⟩
    · rw [hwas] at hoff
      cases hoff
    · have horderly := horder b ((horder a ha).reached b hb)
      rcases hintro with ⟨-, hkind⟩ | ⟨-, β, hkind⟩
      · rw [hkind] at hk'
        obtain rfl : k' = .declaration t := by cases k' <;> first | exact hk' | cases hk'
        exact hfirst b hb (Or.inl (horderly.declares (horderly.tells k hk t heq)))
      · rw [hkind] at hk'
        obtain ⟨β', declares, hdef⟩ := horderly.legible.binds hk hk' heq
        cases declares with
        | true => exact hfirst b hb (Or.inr (horderly.defines hdef))
        | false =>
          -- an assignment has something to assign to, before the node too
          have hwithin := hscope b ((horder a ha).reached b hb) (horderly.on (by rw [hdef]; rfl))
          rw [hdef] at hwithin
          obtain hrt | ⟨d, hd, hintro⟩ := hwithin.2 rfl
          · exact hroot hrt
          · exact hfirst d ((horder a ha).ancestors_subset horderly hb hd) hintro
  have hon : c'.isCommentedOut a = false := by simpa using hon
  rcases h.kind a with hsame | ⟨t', β, b, hb, hdecl, hdef, -⟩
  · rcases hintro with ⟨-, hkind⟩ | ⟨-, β, hkind⟩
    · exact Or.inl ⟨hon, hsame.trans hkind⟩
    · exact Or.inr ⟨hon, β, hsame.trans hkind⟩
  · have ht : t' = t := by
      rcases hintro with ⟨-, hkind⟩ | ⟨-, β', hkind⟩
      · rw [hdef] at hkind
        cases hkind
      · rw [hdef] at hkind
        cases hkind
        rfl
    subst ht
    exact absurd (Or.inl ((horder b ((horder a ha).reached b hb)).declares hdecl)) (hfirst b hb)

/-- What is in scope stays in scope. -/
theorem Settles.inScope (h : c.Settles c') (horder : ∀ a ∈ nodes, c.Orderly nodes a)
    (hscope : ∀ a ∈ nodes, c.isCommentedOut a = false →
      (c.kind a).Within l checks (c.InScope a) (c.InScope a))
    (hid : id ∈ nodes) (ht : c.InScope id t) : c'.InScope id t := by
  by_cases hroot : t = Trail.root
  · exact Or.inl hroot
  · obtain ⟨before, a, after, hsplit, hintro, hafter⟩ := exists_last (ht.resolve_left hroot)
    have hmem : a ∈ c.ancestors id := by
      rw [hsplit]
      exact List.mem_append_right _ List.mem_cons_self
    have ha := (horder id hid).reached a hmem
    have hfirst : ∀ b ∈ c.ancestors a, ¬ c.Introduces b t := by
      rw [(horder id hid).ancestors_eq (horder a ha) hsplit]
      exact hafter
    refine Or.inr ⟨a, ?_, h.introduces horder hscope hroot ha hfirst hintro⟩
    rw [h.redacts.ancestors]
    exact hmem

end Keep

end Code

open Stmt in
theorem Stmt.walk_refresh_all (c : Code) :
    (∀ s : Stmt NodeId, (s.refresh c).walk = s.walk) ∧
    ∀ ts : List (Stmt NodeId), walkAll (refreshAll c ts) = walkAll ts := by
  apply Stmt.induct
  case line => exact fun _ _ _ _ => rfl
  case branch =>
    intro id guard t e es ht he hes
    rw [refresh, walk, walk, ht, he, hes]
  case nil => rfl
  case cons =>
    intro s rest hs hrest
    rw [refreshAll, walkAll, walkAll, hs, hrest]

namespace Code

variable {c : Code} {l : Language} {checks : List (List CheckName)}

/-- **Eliminating redundancy keeps temporaries in scope.** -/
theorem Owns.isScoped_eliminateRedundancy {m : Multiset Cell} {ts : List (Stmt NodeId)}
    (h : c.Owns (cells .root none ts + m)) (hs : SolidAll ts) (hne : ts ≠ [])
    (hlegible : Discipline.legible.AlongAll () (strip ts))
    (hscope : c.IsScoped l checks (start ts)) :
    (c.eliminateRedundancy (start ts)).IsScoped l checks (start ts) := by
  set c' := c.eliminateRedundancy (start ts)
  have hsettles : c.Settles c' := c.settles_eliminateRedundancy (start ts)
  have hwalk : c'.descendants (start ts) = walkAll ts := by
    have howns := (h.refreshed (start ts)).2
    have hstart : start (refreshAll c' ts) = start ts := by rw [start, start?_refreshAll, start]
    rw [← hstart,
      Owns.descendants_eq ((solid_refresh_all c').2 ts hs) (refreshAll_ne_nil hne)
        (howns.of_eq (add_zero _).symm)]
    exact (walk_refresh_all c').2 ts
  have horder := (tracks_legible c (walkAll ts)).descendants hs hne h trivial hlegible
  rw [IsScoped] at hscope
  rw [h.descendants_eq hs hne] at horder hscope
  intro id hid hon
  rw [hwalk] at hid
  have hkeep : ∀ t, c.InScope id t → c'.InScope id t :=
    fun t ht => hsettles.inScope horder hscope hid ht
  -- nothing that was commented out comes back
  have hwas : c.isCommentedOut id = false := by
    by_contra hoff
    rw [Bool.not_eq_false] at hoff
    have hbinding : (c.kind id).isBinding = false := by
      by_contra hb
      rw [Bool.not_eq_false] at hb
      rw [(horder id hid).on hb] at hoff
      cases hoff
    obtain ⟨n, hn⟩ : ∃ n, c.node? id = some n := by
      rw [isCommentedOut] at hoff
      cases hn : c.node? id with
      | none => rw [hn] at hoff; cases hoff
      | some n => exact ⟨n, rfl⟩
    obtain ⟨n', hn', hrevises⟩ := c.revises_eliminateRedundancy (start ts) id n hn
    rw [Owns.kind_of hn] at hbinding
    rw [Owns.isCommentedOut_of hn', hrevises.other hbinding, ← Owns.isCommentedOut_of hn, hoff]
      at hon
    cases hon
  have hwithin := hscope id hid hwas
  -- a definition may have become an assignment, and then its temporary is declared above it
  rcases hsettles.kind id with hsame | ⟨t, β, above, hmem, hdecl, hdef, hassign⟩
  · rw [hsame]
    exact hwithin.mono hkeep hkeep
  · rw [hassign]
    rw [hdef] at hwithin
    have hdeclares := (horder above ((horder id hid).reached above hmem)).declares hdecl
    exact ⟨hwithin.1.mono hkeep, fun _ => hkeep t (Or.inr ⟨above, hmem, Or.inl hdeclares⟩)⟩

end Code

end Rulewright
