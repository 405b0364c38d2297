import TableGateway.Proofs.Pages

/-!
# Batches as a whole

A batch of well-formed parameters gets past its checks, and its pages then account for all keys:
what is asked for, what is dealt with, what is left, and how long is waited in between.
-/
namespace TableGateway.BatchGet

variable {σ : Type}

theorem check_int {n : Nat} (hn : 1 ≤ n) {workers : Value}
    (hw : workers = .null ∨ ∃ k : Int, 0 < k ∧ workers = .int k) :
    check (.int n) workers = .ok () := by
  have hlow : Value.lessThan (.int n) (.int 1) = .ok false := by
    have hcompare : compare (n : Int) 1 ≠ .lt := by
      rw [ne_eq, Int.compare_eq_lt]
      omega
    simp [Value.int, Value.lessThan, Value.order, Value.number?, Number.order?, hcompare]
  rcases hw with rfl | ⟨k, hk, rfl⟩
  · simp [check, hlow, Value.isNull]
  · have hcompare : compare k 0 = .gt := Int.compare_eq_gt.mpr hk
    have hmost : Value.atMost (.int k) (.int 0) = .ok false := by
      simp [Value.int, Value.atMost, Value.order, Value.number?, Number.order?, hcompare]
    simp [check, hlow, hmost, Value.isNull]

theorem budget_int {n : Nat} (h : n ≤ 1024) : budget (.int n) = n := by
  have hsmall : 1024 < unbounded := by decide +kernel
  have hcompare : compare (n : Int) unbounded = .lt := by
    rw [Int.compare_eq_lt]
    omega
  simp [budget, Value.int, Value.number?, Number.countUpTo, Number.order?, hcompare, Number.ceil]

/-- The fields that a request has beside its keys. -/
def otherFields (consistent : Value) (projection : Option Clause) : Fields :=
  ("ConsistentRead", consistent) :: clauseFields projection "ProjectionExpression"

/-- A batch that gets past its checks does what its pages do, whatever its budget is. -/
theorem run_pages (sender : Sender σ) {workers : Value} {p : BatchGetParams} {keys : List Value}
    {projection : Option Clause} {table : Text} {n : Nat} (hn : 1 ≤ n)
    (hw : workers = .null ∨ ∃ k : Int, 0 < k ∧ workers = .int k)
    (hretries : p.maxRetries = .int n) (htable : p.table = .text table) (hkeys : p.keys = .list keys)
    (hproj : Projection.read p.properties = .ok projection) (w : World σ) :
    run sender workers p w =
      match pages sender p table (otherFields p.consistentRead projection) (budget (.int n) - 1)
        (chunks maxKeys keys) w with
      | (.ok outcomes, w') => (collect outcomes, w')
      | (.error e, w') => (.error e, w') := by
  have hbase : baseFields p = .ok (otherFields p.consistentRead projection) := by
    simp [baseFields, hproj, otherFields]
  rw [run, hretries, check_int hn hw, hkeys]
  cases keys with
  | nil => simp [Value.truthy, chunks, pages, collect]
  | cons key keys =>
    simp only [Value.truthy, List.isEmpty_cons, Bool.not_false, Bool.not_true, Bool.false_eq_true,
      if_false, Session.bind_apply, Session.lift_apply, hbase, Value.elements, Value.elements?,
      htable, tableKey, Value.hashable, if_true, Value.display]
    rcases pages sender p table (otherFields p.consistentRead projection) (budget (.int n) - 1)
      (chunks maxKeys (key :: keys)) w with ⟨_ | _, w'⟩ <;> rfl

theorem run_eq (sender : Sender σ) {workers : Value} {p : BatchGetParams} {keys : List Value}
    {projection : Option Clause} {table : Text} {n : Nat} (hn : 1 ≤ n) (hmost : n ≤ 1024)
    (hw : workers = .null ∨ ∃ k : Int, 0 < k ∧ workers = .int k)
    (hretries : p.maxRetries = .int n) (htable : p.table = .text table) (hkeys : p.keys = .list keys)
    (hproj : Projection.read p.properties = .ok projection) (w : World σ) :
    run sender workers p w =
      match pages sender p table (otherFields p.consistentRead projection) (n - 1)
        (chunks maxKeys keys) w with
      | (.ok outcomes, w') => (collect outcomes, w')
      | (.error e, w') => (.error e, w') := by
  rw [run_pages sender hn hw hretries htable hkeys hproj, budget_int hmost]

/-- The reply that gives each key dealt with as its own item. -/
def ownItems (table : Text) (dealt left : List Value) : Fields :=
  [("Responses", .map [(table, .list dealt)]),
    ("UnprocessedKeys", .map [(table, .map [("Keys", .list left)])])]

end TableGateway.BatchGet
