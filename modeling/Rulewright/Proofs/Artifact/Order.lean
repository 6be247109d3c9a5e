import Mathlib.Data.Ordering.Basic
import Rulewright.Proofs.Artifact.Survey

/-!
# The order of a plan

The rules of a plan come by phase, within a phase by bucket, and within a bucket by text. Rules are
sorted by text first and then by phase and bucket, and the second sort keeps neighbours in order
that it does not tell apart.

* `pairwise_mergeSort_stable`: sorting keeps an earlier order where the new one is indifferent.
* `Plan.planned_ordered`: the order of a plan.
* `Plan.bucket_planned`: every planned rule is in the bucket of its pattern.
-/

namespace Rulewright

/-- Sorting keeps an earlier order among what the new order does not tell apart. -/
theorem pairwise_mergeSort_stable {α : Type} (le : α → α → Bool)
    (trans : ∀ a b c, le a b = true → le b c = true → le a c = true)
    (total : ∀ a b, (le a b || le b a) = true) {R : α → α → Prop} (hrefl : ∀ a, R a a) {xs : List α}
    (h : xs.Pairwise R) :
    (xs.mergeSort le).Pairwise fun a b => le a b = true ∧ (le b a = true → R a b) := by
  rw [← List.mergeSort_zipIdx, List.pairwise_map]
  have hsorted :=
    List.pairwise_mergeSort (List.zipIdxLE_trans trans) (List.zipIdxLE_total total) xs.zipIdx
  refine hsorted.imp_of_mem ?_
  rintro ⟨a, i⟩ ⟨b, j⟩ ha hb hle
  have hai : xs[i]? = some a := List.mk_mem_zipIdx_iff_getElem?.1 (List.mem_mergeSort.1 ha)
  have hbj : xs[j]? = some b := List.mk_mem_zipIdx_iff_getElem?.1 (List.mem_mergeSort.1 hb)
  simp only [List.zipIdxLE] at hle
  split_ifs at hle with hab hba
  · refine ⟨hab, fun _ => ?_⟩
    -- the places of both in the list before tell which one was first
    have hij : i ≤ j := by simpa using hle
    rcases Nat.eq_or_lt_of_le hij with rfl | hlt
    · rw [hai] at hbj
      cases hbj
      exact hrefl a
    · obtain ⟨hi, rfl⟩ := List.getElem?_eq_some_iff.1 hai
      obtain ⟨hj, rfl⟩ := List.getElem?_eq_some_iff.1 hbj
      exact List.pairwise_iff_getElem.1 h i j hi hj hlt
  · exact ⟨hab, fun h => absurd h hba⟩

/-! ### The order of buckets -/

namespace Bucket

/-- Buckets of operators come before the others. -/
def tag : Bucket → Nat
  | .operator _ _ => 0
  | .anyway _ => 1

def name : Bucket → String
  | .operator name _ => name
  | .anyway _ => ""

def arity : Bucket → Option Nat
  | .operator _ arity => arity
  | .anyway count => some count

theorem compareArity_eq (a b : Option Nat) : compareArity a b = compare a b := by
  cases a <;> cases b <;> rfl

/-- Buckets are compared field by field. -/
theorem cmp_eq :
    cmp = compareLex (compareOn tag) (compareLex (compareOn name) (compareOn arity)) := by
  funext a b
  cases a with
  | operator n x =>
    cases b with
    | operator m y =>
      have htag : compare (0 : Nat) 0 = .eq := rfl
      simp only [cmp, compareLex, compareOn, tag, name, arity, compareArity_eq, htag, Ordering.then]
    | anyway y => rfl
  | anyway x =>
    cases b with
    | operator m y => rfl
    | anyway y =>
      have htag : compare (1 : Nat) 1 = .eq := rfl
      have hname : compare "" "" = .eq := by decide
      simp only [cmp, compareLex, compareOn, tag, name, arity, htag, hname, Ordering.then]
      rfl

instance : Std.TransCmp Bucket.cmp := cmp_eq ▸ inferInstance

instance : Std.TransOrd Bucket := inferInstanceAs (Std.TransCmp Bucket.cmp)

end Bucket

instance : Std.TransCmp Candidate.cmp :=
  inferInstanceAs (Std.TransCmp (compareLex (compareOn fun c : Candidate => c.rule.phase)
    (compareOn fun c : Candidate => c.bucket)))

theorem isLE_total {α : Type} (cmp : α → α → Ordering) [Std.TransCmp cmp] (a b : α) :
    ((cmp a b).isLE || (cmp b a).isLE) = true := by
  have hswap : cmp b a = (cmp a b).swap := Std.OrientedCmp.eq_swap
  rw [hswap]
  cases cmp a b <;> rfl

/-! ### Plans -/

/-- The order of rules: phase, then bucket, then text. -/
def Candidate.Precedes (a b : Candidate) : Prop :=
  ((a.cmp b).then (compare a.text b.text)).isLE = true

namespace Plan

variable (l : Language) (rules : List Rule)

theorem pairwise_ordered :
    (ordered l rules).Pairwise fun a b => (compare a.text b.text).isLE = true :=
  List.pairwise_mergeSort (fun _ _ _ => Std.TransCmp.isLE_trans)
    (fun a b => isLE_total compare a.text b.text) _

/-- The accepted rules of a survey by phase, bucket and text. -/
theorem pairwise_sorted : (((ordered l rules).foldl (Survey.add l) .start).accepted.mergeSort
    fun a b => (a.cmp b).isLE).Pairwise Candidate.Precedes := by
  set survey := (ordered l rules).foldl (Survey.add l) .start
  -- the accepted rules are among those looked at, in that order
  have htext : survey.accepted.Pairwise fun a b => (compare a.text b.text).isLE = true := by
    have hfiltered := (pairwise_ordered l rules).filter (·.rule.isAdmitted l)
    rw [← TextedRule.map_candidate?, ← (Survey.follows_foldl l _).accepted] at hfiltered
    exact List.pairwise_map.1 hfiltered
  have hrefl : ∀ a : Candidate, (compare a.text a.text).isLE = true := fun a => by simp
  have hsorted := pairwise_mergeSort_stable (fun a b : Candidate => (a.cmp b).isLE)
    (fun _ _ _ => Std.TransCmp.isLE_trans) (isLE_total Candidate.cmp) hrefl htext
  refine hsorted.imp ?_
  rintro a b ⟨hab, hstable⟩
  have hswap : b.cmp a = (a.cmp b).swap := Std.OrientedCmp.eq_swap
  unfold Candidate.Precedes
  cases hcmp : a.cmp b with
  | lt => rfl
  | eq => exact hstable (by rw [hswap, hcmp]; rfl)
  | gt =>
    rw [hcmp] at hab
    cases hab

/-- **The order of a plan.** -/
theorem planned_ordered :
    (Plan.ofRules l rules).planned.Pairwise fun p q => p.toCandidate.Precedes q.toCandidate := by
  have hsorted := pairwise_sorted l rules
  rw [List.pairwise_iff_getElem] at hsorted ⊢
  intro i j hi hj hij
  simp only [Plan.ofRules, List.getElem_mapIdx]
  exact hsorted i j (by simpa [Plan.ofRules] using hi) (by simpa [Plan.ofRules] using hj) hij

/-- Every planned rule is one of the rules, in its bucket. -/
theorem exists_of_mem_planned {p : PlannedRule} (hp : p ∈ (Plan.ofRules l rules).planned) :
    ∃ r ∈ rules, (texted l r).candidate? l = some p.toCandidate := by
  have haccepted : ∀ c ∈ ((ordered l rules).foldl (Survey.add l) .start).accepted,
      ∃ r ∈ rules, (texted l r).candidate? l = some c := by
    rw [(Survey.follows_foldl l _).accepted]
    intro c hc
    obtain ⟨x, hx, hcandidate⟩ := List.mem_filterMap.1 hc
    obtain ⟨r, hr, rfl⟩ := List.mem_map.1 (List.mem_mergeSort.1 hx)
    exact ⟨r, hr, hcandidate⟩
  obtain ⟨i, hi, rfl⟩ := List.mem_mapIdx.1 hp
  exact haccepted _ (List.mem_mergeSort.1 (List.getElem_mem hi))

/-- **Every planned rule** is in the bucket of its pattern. -/
theorem bucket_planned :
    ∀ p ∈ (Plan.ofRules l rules).planned, Bucket.of? l p.rule.pattern = some p.bucket := by
  intro p hp
  obtain ⟨r, -, hcandidate⟩ := exists_of_mem_planned l rules hp
  exact (TextedRule.candidate?_eq_some hcandidate).2

/-- And it has its text. -/
theorem text_planned : ∀ p ∈ (Plan.ofRules l rules).planned, p.text = p.rule.text l := by
  intro p hp
  obtain ⟨r, -, hcandidate⟩ := exists_of_mem_planned l rules hp
  have htexted := (TextedRule.candidate?_eq_some hcandidate).1
  have hrule : p.rule = r := congrArg TextedRule.rule htexted
  rw [hrule]
  exact congrArg TextedRule.text htexted

/-- Rules that are given in the order of a plan stay so. -/
theorem planned_of_pairwise {rules : List Rule}
    (htext : (rules.map (texted l)).Pairwise fun a b => (compare a.text b.text).isLE = true)
    (hcmp : ((rules.map (texted l)).filterMap (·.candidate? l)).Pairwise
      fun a b => (a.cmp b).isLE = true) :
    (Plan.ofRules l rules).planned = ((rules.map (texted l)).filterMap (·.candidate? l)).mapIdx
      fun index candidate => { candidate with index } := by
  have hordered : ordered l rules = rules.map (texted l) := List.mergeSort_of_pairwise htext
  simp only [Plan.ofRules, (Survey.follows_foldl l _).accepted, hordered,
    List.mergeSort_of_pairwise hcmp]

end Plan

end Rulewright
