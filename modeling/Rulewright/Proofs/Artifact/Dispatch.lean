import Mathlib.Data.List.SplitBy
import Rulewright.Proofs.Artifact.Identifiers
import Rulewright.Proofs.Artifact.Order
import Rulewright.Proofs.Artifact.Stages
import Rulewright.Proofs.Matching.RootCheck

/-!
# Dispatch

The dispatch function of a phase calls the functions of its rules one by one, under checks of the
operator and of the number of operands. The functions may therefore be compiled without the check of
the root. What the function does is stated about its statements, which have a text of their own, and
this is the text of the generated function.

* `DispatchStmt`, `dispatchCode`: the statements of a dispatch function.
* `DispatchStmt.lines`, `DispatchStmt.functionText`: how they are written; `text_dispatch`: the
  generated function is written so.
* `runAll_dispatchCode`: the statements find the first rule that is admitted to its bucket and
  applies.
* `PlannedRule.applied?_unchecked`: a rule that is admitted to its bucket applies as it does with
  the check of the root, and one that is not does not apply with it.
* `dispatch_applies_first`: dispatch applies the first rule of the plan that applies by itself.
-/

namespace Rulewright

open Text (IsLine block isOneLine)

/-- A check of the node that dispatch is called with. -/
inductive DispatchTest where
  | operator (name : String)
  | count (n : Nat)

namespace DispatchTest

/-- The condition that makes the check. -/
def text : DispatchTest → String
  | .operator name => "m.op() == " ++ Text.quoted name
  | .count n => "m.arity() == " ++ toString n

def holds (l : Language) (e : Expr) : DispatchTest → Bool
  | .operator name => e.operator? l == some name
  | .count n => e.operands.length == n

end DispatchTest

/-- A statement of a dispatch function: the call of the function of a rule, or statements under a
check. -/
inductive DispatchStmt where
  | call (rule : PlannedRule)
  | under (test : DispatchTest) (body : List DispatchStmt)

namespace DispatchStmt

mutual

/-- The lines of a statement. A call that applied its rule ends the function, and what stands under
a check is one level deeper. -/
def lines : DispatchStmt → List String
  | .call p => ["if " ++ p.functionName ++ "(m, p) \x7b", "    return true;", "\x7d"]
  | .under test body =>
    ["if " ++ test.text ++ " \x7b"] ++ (linesAll body).map ("    " ++ ·) ++ ["\x7d"]

def linesAll : List DispatchStmt → List String
  | [] => []
  | s :: rest => s.lines ++ linesAll rest

end

/-- A dispatch function with its statements. It returns `false` where none of them returned. -/
def functionText (phase : Int) (body : List DispatchStmt) : String :=
  "pub fn " ++ dispatchName phase ++ "(m: &TermPtr, p: &Registry) -> bool \x7b\n" ++
    block ((linesAll body ++ ["false"]).map ("    " ++ ·)) ++ "\x7d\n"

mutual

/-- What the first call that applies a rule gives; a call that does not goes on with the next
statement. -/
def run {α : Type} (l : Language) (e : Expr) (call : PlannedRule → Option α) :
    DispatchStmt → Option α
  | .call p => call p
  | .under test body => if test.holds l e then runAll l e call body else none

def runAll {α : Type} (l : Language) (e : Expr) (call : PlannedRule → Option α) :
    List DispatchStmt → Option α
  | [] => none
  | s :: rest => (s.run l e call).or (runAll l e call rest)

end

mutual

/-- The calls of a statement, each with the checks it stands under. -/
def calls (tests : List DispatchTest) : DispatchStmt → List (List DispatchTest × PlannedRule)
  | .call p => [(tests, p)]
  | .under test body => callsAll (tests ++ [test]) body

def callsAll (tests : List DispatchTest) :
    List DispatchStmt → List (List DispatchTest × PlannedRule)
  | [] => []
  | s :: rest => s.calls tests ++ callsAll tests rest

end

end DispatchStmt

/-- The checks for a bucket. -/
def Bucket.tests : Bucket → List DispatchTest
  | .operator name (some count) => [.operator name, .count count]
  | .operator name none => [.operator name]
  | .anyway count => [.count count]

/-- The rules by bucket; neighbours of one bucket are together. -/
def ruleBuckets (rules : List PlannedRule) : List (Bucket × List PlannedRule) :=
  (rules.splitBy fun a b => a.bucket == b.bucket).filterMap fun group =>
    group.head?.map fun first => (first.bucket, group)

/-- The calls of a bucket. -/
def bucketCode (bucket : Bucket × List PlannedRule) : List DispatchStmt :=
  match bucket.1 with
  | .operator _ (some count) | .anyway count => [.under (.count count) (bucket.2.map .call)]
  | .operator _ none => bucket.2.map .call

/-- The calls of neighbouring buckets of one operator. -/
def operatorCode (buckets : List (Bucket × List PlannedRule)) : List DispatchStmt :=
  match buckets.head?.bind (·.1.operator?) with
  | some name => [.under (.operator name) (buckets.flatMap bucketCode)]
  | none => buckets.flatMap bucketCode

/-- The statements of the dispatch function of rules. -/
def dispatchCode (rules : List PlannedRule) : List DispatchStmt :=
  ((ruleBuckets rules).splitBy fun a b => a.1.operator? == b.1.operator?).flatMap operatorCode

/-! ### The text -/

/-- Splitting does not look at more than the relation does. -/
theorem splitBy_map {α β : Type} (f : α → β) (r : β → β → Bool) (xs : List α) :
    (xs.map f).splitBy r = (xs.splitBy fun a b => r (f a) (f b)).map (List.map f) := by
  have loop : ∀ (xs : List α) (a : α) (run : List α) (done : List (List α)),
      List.splitBy.loop r (xs.map f) (f a) (run.map f) (done.map (List.map f)) =
        (List.splitBy.loop (fun a b => r (f a) (f b)) xs a run done).map (List.map f) := by
    intro xs
    induction xs with
    | nil => intro a run done; simp [List.splitBy.loop]
    | cons x xs ih =>
      intro a run done
      simp only [List.map_cons, List.splitBy.loop]
      cases r (f a) (f x) with
      | true => exact ih x (a :: run) done
      | false => simpa using ih x [] ((a :: run).reverse :: done)
  cases xs with
  | nil => rfl
  | cons x xs => exact loop xs x [] []

theorem bucketFunctions_eq (rules : List PlannedRule) :
    bucketFunctions rules = (ruleBuckets rules).map fun b => (b.1, b.2.map (·.functionName)) := by
  simp only [bucketFunctions, ruleBuckets, List.map_filterMap, Option.map_map]
  rfl

/-- A condition tells which check it makes. -/
theorem DispatchTest.text_injective : Function.Injective DispatchTest.text := by
  intro x y h
  have hlist := congrArg String.toList h
  cases x <;> cases y <;> simp only [text, String.toList_append, Decimal.toList_toString] at hlist
  case operator.operator name name' =>
    have hquoted := List.append_cancel_left hlist
    rw [(Text.quoted_append_inj (congrArg (· ++ []) hquoted)).1]
  case count.count n n' =>
    rw [Decimal.toDigits_inj (by decide) (by decide) (List.append_cancel_left hlist)]
  -- the conditions part at their third character
  all_goals exact absurd (congrArg (·[2]?) hlist) (by simp)

namespace DispatchStmt

theorem linesAll_append (xs ys : List DispatchStmt) :
    linesAll (xs ++ ys) = linesAll xs ++ linesAll ys := by
  induction xs with
  | nil => rfl
  | cons x xs ih => rw [List.cons_append, linesAll, linesAll, ih, List.append_assoc]

theorem linesAll_flatMap {α : Type} (f : α → List DispatchStmt) (xs : List α) :
    linesAll (xs.flatMap f) = xs.flatMap fun x => linesAll (f x) := by
  induction xs with
  | nil => rfl
  | cons x xs ih => rw [List.flatMap_cons, linesAll_append, ih, List.flatMap_cons]

theorem linesAll_ne_nil {body : List DispatchStmt} (h : body ≠ []) : linesAll body ≠ [] := by
  obtain ⟨s, rest, rfl⟩ := List.exists_cons_of_ne_nil h
  cases s <;> exact List.cons_ne_nil _ _

/-- What is between `if` and the brace of a line. -/
theorem isLine_if {condition : String} (hcondition : isOneLine condition = true) (after : String)
    (hafter : isOneLine after = true) (hlast : after.toList.getLast? = some '\x7b') :
    IsLine ("if " ++ condition ++ after) ∧ "if " ++ condition ++ after ≠ "" := by
  refine ⟨.append (Text.isOneLine_append rfl hcondition) hafter hlast (by decide), fun h => ?_⟩
  have hlist := congrArg String.toList h
  simp at hlist

theorem isOneLine_test (test : DispatchTest) : isOneLine test.text = true := by
  cases test with
  | operator name => exact Text.isOneLine_append rfl (Text.isOneLine_quoted name)
  | count n => exact Text.isOneLine_append rfl (Text.isOneLine_toString n)

mutual

/-- The lines of a statement are lines, and none is empty. -/
theorem isLine_lines : ∀ s : DispatchStmt, ∀ x ∈ s.lines, IsLine x ∧ x ≠ ""
  | .call p => by
    have hopen := isLine_if (isOneLine_functionName p) "(m, p) \x7b" rfl rfl
    rw [lines, List.forall_mem_cons, List.forall_mem_cons, List.forall_mem_singleton]
    exact ⟨hopen, ⟨⟨rfl, by decide⟩, by decide⟩, ⟨⟨rfl, by decide⟩, by decide⟩⟩
  | .under test body => by
    have hopen := isLine_if (isOneLine_test test) " \x7b" rfl rfl
    rw [lines, List.forall_mem_append, List.forall_mem_append, List.forall_mem_singleton,
      List.forall_mem_singleton, List.forall_mem_map]
    refine ⟨⟨hopen, fun x hx => ?_⟩, ⟨⟨rfl, by decide⟩, by decide⟩⟩
    exact ⟨(isLine_linesAll body x hx).1.indented, fun h => by simp at h⟩

theorem isLine_linesAll : ∀ body : List DispatchStmt, ∀ x ∈ linesAll body, IsLine x ∧ x ≠ ""
  | [] => List.forall_mem_nil _
  | s :: rest => List.forall_mem_append.2 ⟨isLine_lines s, isLine_linesAll rest⟩

end

theorem block_calls (rules : List PlannedRule) :
    block (linesAll (rules.map .call)) = Section.calls (rules.map (·.functionName)) := by
  induction rules with
  | nil => rfl
  | cons p rules ih =>
    have hcall : block (lines (.call p)) =
        "if " ++ p.functionName ++ "(m, p) \x7b\n    return true;\n\x7d\n" := by
      simp only [lines, Text.block_cons, String.append_assoc]
      rfl
    rw [List.map_cons, linesAll, Text.block_append, hcall, ih]
    simp [Section.calls, String.join_cons]

/-- Statements under a check. -/
theorem block_under (test : DispatchTest) {body : List DispatchStmt} (h : body ≠ []) :
    block (linesAll [.under test body]) = Section.guarded test.text (block (linesAll body)) := by
  rw [Section.guarded, Text.indent_block (linesAll_ne_nil h) (isLine_linesAll body), linesAll,
    linesAll, List.append_nil, lines, List.append_assoc, List.singleton_append, Text.block_cons,
    Text.block_append]
  simp only [String.append_assoc]
  rfl

theorem block_bucketCode {b : Bucket × List PlannedRule} (h : b.2 ≠ []) :
    block (linesAll (bucketCode b)) = Section.bucketCalls (b.1, b.2.map (·.functionName)) := by
  have hcalls : b.2.map DispatchStmt.call ≠ [] := by simpa using h
  obtain ⟨_ | _, rules⟩ := b
  case operator name arity =>
    cases arity with
    | none => exact block_calls rules
    | some n => exact (block_under (.count n) hcalls).trans (congrArg _ (block_calls rules))
  case anyway n => exact (block_under (.count n) hcalls).trans (congrArg _ (block_calls rules))

theorem bucketCode_ne_nil {b : Bucket × List PlannedRule} (h : b.2 ≠ []) : bucketCode b ≠ [] := by
  obtain ⟨_ | _, rules⟩ := b
  case operator name arity =>
    cases arity with
    | none => simpa [bucketCode] using h
    | some n => exact List.cons_ne_nil _ _
  case anyway n => exact List.cons_ne_nil _ _

theorem block_operatorCode {bs : List (Bucket × List PlannedRule)} (hbs : bs ≠ [])
    (h : ∀ b ∈ bs, b.2 ≠ []) : block (linesAll (operatorCode bs)) =
      Section.operatorCalls (bs.map fun b => (b.1, b.2.map (·.functionName))) := by
  have hinner : block (linesAll (bs.flatMap bucketCode)) =
      String.join ((bs.map fun b => (b.1, b.2.map (·.functionName))).map Section.bucketCalls) := by
    rw [linesAll_flatMap, Text.block_flatMap, List.map_map]
    exact congrArg _ (List.map_congr_left fun b hb => block_bucketCode (h b hb))
  have hne : bs.flatMap bucketCode ≠ [] := by
    obtain ⟨b, rest, rfl⟩ := List.exists_cons_of_ne_nil hbs
    rw [List.flatMap_cons]
    exact List.append_ne_nil_of_left_ne_nil (bucketCode_ne_nil (h b List.mem_cons_self)) _
  have hhead : (bs.map fun b => (b.1, b.2.map (·.functionName))).head?.bind (·.1.operator?) =
      bs.head?.bind (·.1.operator?) := by
    cases bs <;> rfl
  rw [Section.operatorCalls, operatorCode, hhead, ← hinner]
  cases bs.head?.bind (·.1.operator?) with
  | none => rfl
  | some name => exact block_under (.operator name) hne

end DispatchStmt

open DispatchStmt

/-- A bucket has rules. -/
theorem ne_nil_of_mem_ruleBuckets {rules : List PlannedRule} {b : Bucket × List PlannedRule}
    (h : b ∈ ruleBuckets rules) : b.2 ≠ [] := by
  obtain ⟨part, hpart, hmap⟩ := List.mem_filterMap.1 h
  obtain ⟨first, -, rfl⟩ := Option.map_eq_some_iff.1 hmap
  exact List.ne_nil_of_mem_splitBy hpart

theorem mem_ruleBuckets_of_mem {rules : List PlannedRule} {bs : List (Bucket × List PlannedRule)}
    (hbs : bs ∈ (ruleBuckets rules).splitBy fun a b => a.1.operator? == b.1.operator?) :
    ∀ b ∈ bs, b ∈ ruleBuckets rules := by
  intro b hb
  rw [← List.flatten_splitBy (fun a b => a.1.operator? == b.1.operator?) (ruleBuckets rules)]
  exact List.mem_flatten.2 ⟨bs, hbs, hb⟩

/-- **The text of a dispatch function** is that of its statements. -/
theorem text_dispatch (phase : Int) (rules : List PlannedRule) :
    Section.dispatch phase (bucketFunctions rules) = functionText phase (dispatchCode rules) := by
  have hcode : String.join (((bucketFunctions rules).splitBy
      fun a b => a.1.operator? == b.1.operator?).map Section.operatorCalls) =
        block (linesAll (dispatchCode rules)) := by
    rw [bucketFunctions_eq, splitBy_map, dispatchCode, linesAll_flatMap, Text.block_flatMap,
      List.map_map]
    refine congrArg _ (List.map_congr_left fun bs hbs => ?_)
    exact (block_operatorCode (List.ne_nil_of_mem_splitBy hbs) fun b hb =>
      ne_nil_of_mem_ruleBuckets (mem_ruleBuckets_of_mem hbs b hb)).symm
  have hbody : block (linesAll (dispatchCode rules)) ++ "false\n" =
      block (linesAll (dispatchCode rules) ++ ["false"]) := by
    rw [Text.block_append]
    rfl
  have hlines : ∀ x ∈ linesAll (dispatchCode rules) ++ ["false"], IsLine x ∧ x ≠ "" :=
    List.forall_mem_append.2
      ⟨isLine_linesAll _, List.forall_mem_singleton.2 ⟨⟨rfl, by decide⟩, by decide⟩⟩
  rw [functionText, ← Text.indent_block (by simp) hlines, ← hbody, ← hcode]
  rfl

/-! ### The calls -/

/-- The members of a part agree on what neighbours in it agree on. -/
theorem eq_head_of_mem_splitBy {α β : Type} [BEq β] [LawfulBEq β] {f : α → β} {xs : List α}
    {part : List α} (h : part ∈ xs.splitBy fun a b => f a == f b) {first : α}
    (hfirst : part.head? = some first) : ∀ x ∈ part, f x = f first := by
  have hchain : List.IsChain (fun a b => f a = f b) part := by
    simpa using List.isChain_of_mem_splitBy h
  cases part with
  | nil => cases hfirst
  | cons a part =>
    obtain rfl := Option.some.inj hfirst
    have htrans : IsTrans α fun a b => f a = f b := ⟨fun _ _ _ => Eq.trans⟩
    have hpairwise := List.isChain_iff_pairwise.1 hchain
    intro x hx
    rcases List.mem_cons.1 hx with rfl | hx
    · rfl
    · exact ((List.pairwise_cons.1 hpairwise).1 x hx).symm

/-- The rules of a bucket are in it. -/
theorem bucket_of_mem_ruleBuckets {rules : List PlannedRule} {b : Bucket × List PlannedRule}
    (hb : b ∈ ruleBuckets rules) : ∀ p ∈ b.2, p.bucket = b.1 := by
  obtain ⟨part, hpart, hmap⟩ := List.mem_filterMap.1 hb
  obtain ⟨first, hfirst, rfl⟩ := Option.map_eq_some_iff.1 hmap
  exact eq_head_of_mem_splitBy hpart hfirst

/-- No rule is lost and the order is kept. -/
theorem flatMap_ruleBuckets (rules : List PlannedRule) :
    (ruleBuckets rules).flatMap (·.2) = rules := by
  have hparts : ∀ parts : List (List PlannedRule),
      (parts.filterMap fun part => part.head?.map fun first => (first.bucket, part)).flatMap (·.2) =
        parts.flatten := by
    intro parts
    induction parts with
    | nil => rfl
    | cons part parts ih =>
      cases part with
      | nil => exact ih
      | cons first part => exact congrArg (first :: part ++ ·) ih
  rw [ruleBuckets, hparts, List.flatten_splitBy]

namespace DispatchStmt

theorem callsAll_append (tests : List DispatchTest) (xs ys : List DispatchStmt) :
    callsAll tests (xs ++ ys) = callsAll tests xs ++ callsAll tests ys := by
  induction xs with
  | nil => rfl
  | cons x xs ih => rw [List.cons_append, callsAll, callsAll, ih, List.append_assoc]

/-- Parts whose calls are those of rules, with the checks of these. -/
theorem callsAll_flatMap {β : Type} {f : β → List DispatchStmt} {g : β → List PlannedRule}
    {tests : List DispatchTest} {entry : PlannedRule → List DispatchTest × PlannedRule}
    {xs : List β} (h : ∀ x ∈ xs, callsAll tests (f x) = (g x).map entry) :
    callsAll tests (xs.flatMap f) = (xs.flatMap g).map entry := by
  induction xs with
  | nil => rfl
  | cons x xs ih =>
    rw [List.flatMap_cons, List.flatMap_cons, callsAll_append, List.map_append,
      h x List.mem_cons_self, ih fun y hy => h y (List.mem_cons_of_mem _ hy)]

theorem callsAll_calls (tests : List DispatchTest) (rules : List PlannedRule) :
    callsAll tests (rules.map .call) = rules.map fun p => (tests, p) := by
  induction rules with
  | nil => rfl
  | cons p rules ih => rw [List.map_cons, callsAll, calls, ih, List.map_cons]; rfl

/-- The checks for a bucket are that of its operator, if it has one, and that of its count. -/
theorem callsAll_bucketCode {b : Bucket × List PlannedRule} (hb : ∀ p ∈ b.2, p.bucket = b.1) :
    callsAll (b.1.operator?.toList.map .operator) (bucketCode b) =
      b.2.map fun p => (p.bucket.tests, p) := by
  have hentry : (b.2.map fun p => (p.bucket.tests, p)) = b.2.map fun p => (b.1.tests, p) :=
    List.map_congr_left fun p hp => by rw [hb p hp]
  rw [hentry]
  obtain ⟨_ | _, rules⟩ := b
  case operator name arity =>
    cases arity with
    | none => exact callsAll_calls _ rules
    | some n => simp [bucketCode, callsAll, calls, callsAll_calls, Bucket.operator?, Bucket.tests]
  case anyway n =>
    simp [bucketCode, callsAll, calls, callsAll_calls, Bucket.operator?, Bucket.tests]

theorem callsAll_operatorCode {bs : List (Bucket × List PlannedRule)}
    (hrules : ∀ b ∈ bs, ∀ p ∈ b.2, p.bucket = b.1) {first : Bucket × List PlannedRule}
    (hfirst : bs.head? = some first) (hbs : ∀ b ∈ bs, b.1.operator? = first.1.operator?) :
    callsAll [] (operatorCode bs) = (bs.flatMap (·.2)).map fun p => (p.bucket.tests, p) := by
  -- the check of the operator is the same for all buckets of the group
  have hinner : callsAll (first.1.operator?.toList.map .operator) (bs.flatMap bucketCode) =
      (bs.flatMap (·.2)).map fun p => (p.bucket.tests, p) := by
    refine callsAll_flatMap fun b hb => ?_
    rw [← hbs b hb]
    exact callsAll_bucketCode (hrules b hb)
  rw [← hinner, operatorCode, hfirst, Option.bind_some]
  cases first.1.operator? with
  | none => rfl
  | some name => simp [callsAll, calls]

/-- **Every rule is called once**, under the checks for its bucket and no other ones, in the order
of the rules. -/
theorem callsAll_dispatchCode (rules : List PlannedRule) :
    callsAll [] (dispatchCode rules) = rules.map fun p => (p.bucket.tests, p) := by
  have hgroup : ∀ bs ∈ (ruleBuckets rules).splitBy fun a b => a.1.operator? == b.1.operator?,
      callsAll [] (operatorCode bs) = (bs.flatMap (·.2)).map fun p => (p.bucket.tests, p) := by
    intro bs hbs
    have hfirst := List.head?_eq_some_head (List.ne_nil_of_mem_splitBy hbs)
    exact callsAll_operatorCode
      (fun b hb => bucket_of_mem_ruleBuckets (mem_ruleBuckets_of_mem hbs b hb)) hfirst
      (eq_head_of_mem_splitBy hbs hfirst)
  have hall :=
    List.flatMap_assoc (l := (ruleBuckets rules).splitBy fun a b => a.1.operator? == b.1.operator?)
      (f := id) (g := (·.2))
  rw [List.flatMap_id, List.flatten_splitBy, flatMap_ruleBuckets] at hall
  exact (callsAll_flatMap hgroup).trans (congrArg (List.map _) hall.symm)

/-! ### What a dispatch function does -/

theorem findSome?_congr {α β : Type} {f g : α → Option β} {xs : List α}
    (h : ∀ x ∈ xs, f x = g x) : xs.findSome? f = xs.findSome? g := by
  induction xs with
  | nil => rfl
  | cons x xs ih =>
    rw [List.findSome?_cons, List.findSome?_cons, h x List.mem_cons_self,
      ih fun y hy => h y (List.mem_cons_of_mem _ hy)]

section Run

variable {α : Type} {l : Language} {e : Expr} {call : PlannedRule → Option α}

mutual

/-- Statements find what the first of their calls finds whose checks hold. -/
theorem run_eq_findSome? (tests : List DispatchTest) : ∀ s : DispatchStmt,
    (if tests.all (·.holds l e) then s.run l e call else none) =
      (s.calls tests).findSome? fun c => if c.1.all (·.holds l e) then call c.2 else none
  | .call p => by
    rw [calls, run, List.findSome?_cons]
    cases tests.all (·.holds l e) with
    | true => cases call p <;> simp
    | false => rfl
  | .under test body => by
    rw [calls, ← runAll_eq_findSome? (tests ++ [test]) body, run, List.all_append]
    cases tests.all (·.holds l e) <;> simp

theorem runAll_eq_findSome? (tests : List DispatchTest) : ∀ body : List DispatchStmt,
    (if tests.all (·.holds l e) then runAll l e call body else none) =
      (callsAll tests body).findSome? fun c => if c.1.all (·.holds l e) then call c.2 else none
  | [] => by
    rw [runAll, ite_self]
    rfl
  | s :: rest => by
    rw [callsAll, List.findSome?_append, ← run_eq_findSome? tests s,
      ← runAll_eq_findSome? tests rest, runAll]
    cases tests.all (·.holds l e) <;> rfl

end

theorem all_tests (l : Language) (e : Expr) (b : Bucket) :
    b.tests.all (·.holds l e) = b.admits l e := by
  cases b with
  | operator name arity =>
    cases arity <;> simp [Bucket.tests, Bucket.admits, DispatchTest.holds]
  | anyway count => simp [Bucket.tests, Bucket.admits, DispatchTest.holds]

/-- **Dispatch finds** the first rule that is admitted to its bucket and is applied by its function.
-/
theorem runAll_dispatchCode (rules : List PlannedRule) : runAll l e call (dispatchCode rules) =
    rules.findSome? fun p => if p.bucket.admits l e then call p else none := by
  have hrun : runAll l e call (dispatchCode rules) = _ :=
    runAll_eq_findSome? [] (dispatchCode rules)
  rw [callsAll_dispatchCode, List.findSome?_map] at hrun
  refine hrun.trans (findSome?_congr fun p _ => ?_)
  rw [Function.comp_apply, all_tests]

end Run

end DispatchStmt

/-! ### Rules under dispatch -/

/-- The rule with what it fires, if it applies to the term. -/
def PlannedRule.applied? (o : CompileOptions) (l : Language) (free : String → Bool) (e : Expr)
    (p : PlannedRule) : Option (PlannedRule × List String) :=
  (p.rule.outcome? o l free e).bind fun x => if x.changed then some (p, x.fired) else none

/-- The options that leave the check of the root to dispatch. -/
def CompileOptions.unchecked (o : CompileOptions) : CompileOptions :=
  { o with skipRootGuard := true }

variable {o : CompileOptions} {l : Language}

/-- The outcomes of the two matchers of a rule. -/
theorem outcome?_unchecked (ho : o.skipRootGuard = false) {r : Rule} {bucket : Bucket}
    (hbucket : Bucket.of? l r.pattern = some bucket) (hr : r.IsAccepted o l) (free : String → Bool)
    (e : Expr) :
    ∃ x y, r.outcome? o l free e = some x ∧ r.outcome? o.unchecked l free e = some y ∧
      (bucket.admits l e = true → y.changed = x.changed ∧ y.fired = x.fired) ∧
      (bucket.admits l e = false → x.changed = false) := by
  obtain ⟨head, c, hc⟩ := hr.compile Code.empty
  have hfold : o.foldConstants = o.unchecked.foldConstants := rfl
  obtain ⟨head', c', hc'⟩ := hr.compile_with hfold Code.empty
  refine ⟨c.run l free head e, c'.run l free head' e, ?_, ?_,
    unchecked_agrees ho hbucket hc hc' free e⟩
  · rw [Rule.outcome?, hc]
  · rw [Rule.outcome?, hc']

/-- Under the check for its bucket a rule applies without the check of the root as it does with it.
-/
theorem PlannedRule.applied?_unchecked (ho : o.skipRootGuard = false) {p : PlannedRule}
    (hbucket : Bucket.of? l p.rule.pattern = some p.bucket) (hp : p.rule.IsAccepted o l)
    (free : String → Bool) (e : Expr) :
    (if p.bucket.admits l e then p.applied? o.unchecked l free e else none) =
      p.applied? o l free e := by
  obtain ⟨x, y, hx, hy, hadmitted, hrefused⟩ := outcome?_unchecked ho hbucket hp free e
  rw [applied?, applied?, hx, hy, Option.bind_some, Option.bind_some]
  cases hadmits : p.bucket.admits l e with
  | true =>
    obtain ⟨hchanged, hfired⟩ := hadmitted hadmits
    rw [hchanged, hfired]
    rfl
  | false =>
    rw [hrefused hadmits]
    rfl

/-- Dispatch over the rules of a phase applies the first one that applies by itself. -/
theorem runAll_phase (ho : o.skipRootGuard = false) (rules : List Rule) (free : String → Bool)
    (e : Expr) {mine : List PlannedRule}
    (hmine : ∀ p ∈ mine, p ∈ (Plan.ofRules l rules).planned ∧ p.rule.compiles o l = true) :
    runAll l e (·.applied? o.unchecked l free e) (dispatchCode mine) =
      mine.findSome? (·.applied? o l free e) := by
  rw [runAll_dispatchCode]
  refine findSome?_congr fun p hp => ?_
  obtain ⟨hplanned, hcompiles⟩ := hmine p hp
  exact p.applied?_unchecked ho (Plan.bucket_planned l rules p hplanned)
    (Rule.compiles_iff.1 hcompiles) free e

/-- **Dispatch makes up for the check of the root.** On a term that passes the check for the bucket
of a rule, the two matchers of the rule do the same, and on any other term the one with the check of
the root returns `false`. So the dispatch function of a phase, which is written as its statements
are, over functions without the check, applies the first rule that applies with it, in the order of
the plan: by phase, then bucket, then text. -/
theorem dispatch_applies_first {o : CompileOptions} (ho : o.skipRootGuard = false) (l : Language)
    (free : String → Bool) (e : Expr) :
    (∀ {r : Rule} {bucket : Bucket}, Bucket.of? l r.pattern = some bucket → r.IsAccepted o l →
      ∃ checked unchecked, r.outcome? o l free e = some checked ∧
        r.outcome? o.unchecked l free e = some unchecked ∧
        (bucket.admits l e = true →
          unchecked.changed = checked.changed ∧ unchecked.fired = checked.fired) ∧
        (bucket.admits l e = false → checked.changed = false)) ∧
    Function.Injective DispatchTest.text ∧
    ∀ rules : List Rule,
      (Plan.ofRules l rules).planned.Pairwise (fun p q => p.toCandidate.Precedes q.toCandidate) ∧
      ∃ f, RuleFunctions.ofPlan o.unchecked l (Plan.ofRules l rules).planned = .ok f ∧
        f.compiled = (Plan.ofRules l rules).planned.filter (·.rule.compiles o l) ∧
        ∀ (phase : Int) (mine : List PlannedRule),
          mine = f.compiled.filter (·.rule.phase == phase) →
          Section.dispatch phase (bucketFunctions mine) = functionText phase (dispatchCode mine) ∧
            runAll l e (·.applied? o.unchecked l free e) (dispatchCode mine) =
              mine.findSome? (·.applied? o l free e) := by
  refine ⟨fun hbucket hr => outcome?_unchecked ho hbucket hr free e, DispatchTest.text_injective,
    fun rules => ⟨Plan.planned_ordered l rules, ?_⟩⟩
  have hfold : o.unchecked.foldConstants = o.foldConstants := rfl
  have hcompiles : ∀ p : PlannedRule, p.rule.compiles o.unchecked l = p.rule.compiles o l :=
    fun p => Rule.compiles_of_options hfold l p.rule
  refine ⟨_, RuleFunctions.ofPlan_eq _ l _, List.filter_congr fun p _ => hcompiles p, ?_⟩
  rintro phase mine rfl
  refine ⟨text_dispatch phase _, runAll_phase ho rules free e fun p hp => ?_⟩
  obtain ⟨hplanned, hcompiled⟩ := List.mem_filter.1 (List.mem_of_mem_filter hp)
  exact ⟨hplanned, (hcompiles p).symm.trans hcompiled⟩

/-- The rule `(~ 1 $0 (~ 1 $1 $2)) ==> (~ 1 (~ 1 $0 $1) $2)`. Its inner operator is compared with
the outer one. -/
def associated : Rule :=
  ⟨.anyway 1 [.metavar 0, .anyway 1 [.metavar 1, .metavar 2]],
    .anyway 1 [.anyway 1 [.metavar 0, .metavar 1], .metavar 2], [], .noCheck, 0, false⟩

/-- This rule with `(+ $0 0) ==> $0` and `(- (- $0)) ==> $0`: three buckets of one phase. -/
def associatedAmong : List Rule :=
  [⟨.app 0 [.metavar 0, .literal (.int 0)], .metavar 0, [], .noCheck, 0, false⟩,
    ⟨.app 1 [.app 1 [.metavar 0]], .metavar 0, [], .noCheck, 0, false⟩, associated]

/-- On `(+ x (+ y z))` the rule fires with the check of the root and without it; on `(sin x)` the
check refuses. Among the other rules it is the one that dispatch applies to `(+ x (+ y z))`. -/
theorem dispatch_associated :
    (∃ checked unchecked,
      associated.outcome? ⟨false, false, true⟩ .arithmetic (fun _ => false)
        (.app 0 [.var "x", .app 0 [.var "y", .var "z"]]) = some checked ∧
      associated.outcome? ⟨true, false, true⟩ .arithmetic (fun _ => false)
        (.app 0 [.var "x", .app 0 [.var "y", .var "z"]]) = some unchecked ∧
      checked.changed = true ∧ unchecked.changed = true ∧ unchecked.fired = checked.fired) ∧
    (∃ checked, associated.outcome? ⟨false, false, true⟩ .arithmetic (fun _ => false)
      (.app 4 [.var "x"]) = some checked ∧ checked.changed = false) ∧
    ∃ f, RuleFunctions.ofPlan ⟨true, false, true⟩ .arithmetic
        (Plan.ofRules .arithmetic associatedAmong).planned = .ok f ∧
      Section.dispatch 0 (bucketFunctions (f.compiled.filter (·.rule.phase == 0))) = block
        ["pub fn apply_rules_phase_0(m: &TermPtr, p: &Registry) -> bool \x7b",
          "    if m.op() == \"+\" \x7b",
          "        if apply_plus_0(m, p) \x7b",
          "            return true;",
          "        \x7d",
          "    \x7d",
          "    if m.op() == \"-\" \x7b",
          "        if m.arity() == 1 \x7b",
          "            if apply_minus_1(m, p) \x7b",
          "                return true;",
          "            \x7d",
          "        \x7d",
          "    \x7d",
          "    if m.arity() == 2 \x7b",
          "        if apply_anyway_2(m, p) \x7b",
          "            return true;",
          "        \x7d",
          "    \x7d",
          "    false",
          "\x7d"] ∧
      ((runAll .arithmetic (.app 0 [.var "x", .app 0 [.var "y", .var "z"]])
        (·.applied? ⟨true, false, true⟩ .arithmetic (fun _ => false)
          (.app 0 [.var "x", .app 0 [.var "y", .var "z"]]))
        (dispatchCode (f.compiled.filter (·.rule.phase == 0)))).map fun found =>
          (found.1.functionName, found.1.rule)) = some ("apply_anyway_2", associated) := by
  have haccepted : associated.IsAccepted ⟨false, false, true⟩ .arithmetic := ⟨0, by decide +kernel⟩
  have hbucket : Bucket.of? .arithmetic associated.pattern = some (.anyway 2) := by decide +kernel
  have hsum := dispatch_applies_first (o := ⟨false, false, true⟩) rfl .arithmetic (fun _ => false)
    (.app 0 [.var "x", .app 0 [.var "y", .var "z"]])
  refine ⟨?_, ?_, ?_⟩
  · obtain ⟨x, y, hx, hy, hadmitted, -⟩ := hsum.1 hbucket haccepted
    have hfires : (associated.outcome? ⟨false, false, true⟩ .arithmetic (fun _ => false)
        (.app 0 [.var "x", .app 0 [.var "y", .var "z"]])).map (·.changed) = some true := by
      decide +kernel
    rw [hx] at hfires
    obtain ⟨hchanged, hfired⟩ := hadmitted (by decide +kernel)
    exact ⟨x, y, hx, hy, Option.some.inj hfires, hchanged.trans (Option.some.inj hfires), hfired⟩
  · obtain ⟨x, -, hx, -, -, hrefused⟩ := (dispatch_applies_first (o := ⟨false, false, true⟩) rfl
      .arithmetic (fun _ => false) (.app 4 [.var "x"])).1 hbucket haccepted
    exact ⟨x, hx, hrefused (by decide +kernel)⟩
  · have hplanned : (Plan.ofRules .arithmetic associatedAmong).planned = _ :=
      Plan.planned_of_pairwise .arithmetic (by decide +kernel) (by decide +kernel)
    obtain ⟨-, f, hf, hcompiled, hphase⟩ := hsum.2.2 associatedAmong
    obtain ⟨htext, hfound⟩ := hphase 0 _ rfl
    rw [hplanned] at hcompiled
    refine ⟨f, hf, htext.trans ?_, (congrArg _ hfound).trans ?_⟩
    · rw [hcompiled]
      decide +kernel
    · rw [hcompiled]
      decide +kernel

end Rulewright
