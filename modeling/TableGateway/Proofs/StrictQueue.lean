import TableGateway.Proofs.PartialMatch

/-!
# The queue of a rehearsal

Expectations are added and calls are made in any order. Each call takes the oldest expectation off the
queue before anything of it is looked at, so that no failure keeps an expectation or loses another one,
and a call that finds the queue empty leaves it so.
-/
namespace TableGateway.Rehearsal

inductive Move where
  | expect (e : Expectation)
  | call (c : Call)

def State.next (s : State) : Move → State
  | .expect e => s.expect e
  | .call c => (client.answer c s).2

def State.after (s : State) (moves : List Move) : State := moves.foldl State.next s

/-- The answers to the calls of a run, in order. -/
def State.answers (s : State) : List Move → List (Result Fields)
  | [] => []
  | .expect e :: ms => (s.expect e).answers ms
  | .call c :: ms => (client.answer c s).1 :: (client.answer c s).2.answers ms

/-- The expectations that are added in a run. -/
def added : List Move → List Expectation
  | [] => []
  | .expect e :: ms => e :: added ms
  | .call _ :: ms => added ms

/-- The calls that are made in a run. -/
def made : List Move → List Call
  | [] => []
  | .expect _ :: ms => made ms
  | .call c :: ms => c :: made ms

/-- How many expectations a run uses up where so many are pending at its start: one a call, as long as
there is one. -/
def used : (pending : Nat) → List Move → Nat
  | _, [] => 0
  | n, .expect _ :: ms => used (n + 1) ms
  | 0, .call _ :: ms => used 0 ms
  | n + 1, .call _ :: ms => used n ms + 1

def logged (c : Call) : Text × Fields := (c.method.name, c.request)

/-- Does a request stand the check? -/
def Check.Admits (request : Fields) : Check → Prop
  | .none => True
  | .fields expected => Matches expected (.map request)
  | .test fault? => fault? request = Option.none

/-- A call that an expectation is for, and that it answers with the reply. -/
structure Expectation.Meets (e : Expectation) (c : Call) (reply : Fields) : Prop where
  method : e.method = c.method.name
  admitted : e.check.Admits c.request
  unscripted : e.fault = none
  answered : e.reply.answer c.request = .ok reply

/-! One move. -/

theorem Check.fault?_eq_none (check : Check) (method : Text) (request : Fields) :
    check.fault? method request = Option.none ↔ check.Admits request := by
  cases check with
  | none => simp [Check.fault?, Check.Admits]
  | fields expected => exact mismatch?_eq_none method expected (.map request)
  | test fault? => exact Iff.rfl

theorem Expectation.answer_eq_ok {e : Expectation} {c : Call} {reply : Fields} :
    e.answer c.method.name c.request = .ok reply ↔ e.Meets c reply := by
  rw [Expectation.answer]
  by_cases hmethod : e.method = c.method.name
  · have hadmits := e.check.fault?_eq_none c.method.name c.request
    cases hcheck : e.check.fault? c.method.name c.request with
    | some f =>
      have hrefused : ¬e.check.Admits c.request := fun h => by simp [hadmits.mpr h] at hcheck
      simpa [hmethod] using fun h : e.Meets c reply => hrefused h.admitted
    | none =>
      cases hfault : e.fault with
      | some f => simpa [hmethod] using fun h : e.Meets c reply => by simp [h.unscripted] at hfault
      | none =>
        rw [if_neg (not_not_intro hmethod)]
        exact ⟨fun h => ⟨hmethod, hadmits.mp hcheck, hfault, h⟩, fun h => h.answered⟩
  · simpa [hmethod] using fun h : e.Meets c reply => hmethod h.method

theorem answer_of_pending {s : State} {e : Expectation} {rest : List Expectation}
    (h : s.queue = e :: rest) (c : Call) : client.answer c s =
      (e.answer c.method.name c.request, ⟨rest, s.calls ++ [logged c]⟩) := by
  simp [client, State.handle, h, logged]

theorem answer_of_none {s : State} (h : s.queue = []) (c : Call) : client.answer c s =
    (.error (.unexpected ("unexpected call: " ++ c.method.name)), ⟨[], s.calls ++ [logged c]⟩) := by
  simp [client, State.handle, h, logged]

theorem calls_answer (c : Call) (s : State) :
    (client.answer c s).2.calls = s.calls ++ [logged c] := by
  cases h : s.queue with
  | nil => rw [answer_of_none h]
  | cons e rest => rw [answer_of_pending h]

/-- A call takes the oldest expectation, if there is one, whatever the answer to it is. -/
theorem queue_answer (c : Call) (s : State) : (client.answer c s).2.queue = s.queue.tail := by
  cases h : s.queue with
  | nil => rw [answer_of_none h]; rfl
  | cons e rest => rw [answer_of_pending h]; rfl

/-! A whole run. -/

theorem State.after_cons (s : State) (m : Move) (ms : List Move) :
    s.after (m :: ms) = (s.next m).after ms := rfl

theorem State.after_snoc (s : State) (ms : List Move) (m : Move) :
    s.after (ms ++ [m]) = (s.after ms).next m := List.foldl_append

theorem calls_after (s : State) (ms : List Move) :
    (s.after ms).calls = s.calls ++ (made ms).map logged := by
  induction ms generalizing s with
  | nil => simp [State.after, made]
  | cons m ms ih =>
    rw [State.after_cons, ih]
    cases m with
    | expect e => rfl
    | call c => simp [State.next, calls_answer, made]

theorem queue_after (s : State) (ms : List Move) :
    (s.after ms).queue = (s.queue ++ added ms).drop (used s.queue.length ms) := by
  induction ms generalizing s with
  | nil => simp [State.after, added, used]
  | cons m ms ih =>
    rw [State.after_cons, ih]
    cases m with
    | expect e => simp [State.next, State.expect, added, used]
    | call c =>
      rw [State.next, queue_answer]
      cases s.queue with
      | nil => rfl
      | cons e rest => rfl

theorem used_le (n : Nat) (ms : List Move) : used n ms ≤ n + (added ms).length := by
  induction n, ms using used.induct with
  | case1 n => simp [used]
  | case2 n e ms ih => simp only [used, added, List.length_cons]; omega
  | case3 c ms ih => exact ih
  | case4 n c ms ih => simp only [used, added]; omega

theorem length_queue_after (s : State) (ms : List Move) :
    (s.after ms).queue.length + used s.queue.length ms = s.queue.length + (added ms).length := by
  have hle := used_le s.queue.length ms
  rw [queue_after, List.length_drop, List.length_append]
  omega

/-- In a run without a failure, the calls meet the expectations in order, and those left are pending. -/
theorem met_of_answered {s : State} {ms : List Move}
    (h : ∀ answer ∈ s.answers ms, ∃ reply, answer = .ok reply) :
    ∃ first, s.queue ++ added ms = first ++ (s.after ms).queue ∧
      List.Forall₂ (fun e c => ∃ reply, e.Meets c reply) first (made ms) := by
  induction ms generalizing s with
  | nil => exact ⟨[], by simp [State.after, added], .nil⟩
  | cons m ms ih =>
    rw [State.after_cons]
    cases m with
    | expect e =>
      obtain ⟨first, hfirst, hmet⟩ := ih (s := s.expect e) h
      exact ⟨first, by simpa [State.next, State.expect, added] using hfirst, hmet⟩
    | call c =>
      obtain ⟨⟨reply, hreply⟩, hrest⟩ := List.forall_mem_cons.mp h
      cases hqueue : s.queue with
      | nil =>
        -- A call that finds nothing pending is a failure.
        rw [answer_of_none hqueue] at hreply
        cases hreply
      | cons e rest =>
        obtain ⟨first, hfirst, hmet⟩ := ih hrest
        rw [queue_answer, hqueue] at hfirst
        rw [answer_of_pending hqueue] at hreply
        exact ⟨e :: first, congrArg (e :: ·) hfirst,
          .cons ⟨reply, Expectation.answer_eq_ok.mp hreply⟩ hmet⟩

theorem assertDone_eq_ok {s : State} : s.assertDone = .ok () ↔ s.queue = [] := by
  rw [State.assertDone, ← List.isEmpty_iff]
  cases s.queue.isEmpty <;> simp

/-- The rehearsal that has been through these moves is a queue of what is still expected. -/
structure StrictQueue (moves : List Move) : Prop where
  log : (State.empty.after moves).calls = (made moves).map logged
  consumes : ∀ c e rest, (State.empty.after moves).queue = e :: rest →
    (State.empty.after (moves ++ [.call c])).queue = rest ∧
      ∀ reply, (client.answer c (State.empty.after moves)).1 = .ok reply ↔ e.Meets c reply
  refuses : ∀ c, (State.empty.after moves).queue = [] →
    (State.empty.after (moves ++ [.call c])).queue = [] ∧
      (client.answer c (State.empty.after moves)).1 =
        .error (.unexpected ("unexpected call: " ++ c.method.name))
  pending : (State.empty.after moves).queue = (added moves).drop (used 0 moves)
  counted : (State.empty.after moves).queue.length + used 0 moves = (added moves).length
  met : (∀ answer ∈ State.empty.answers moves, ∃ reply, answer = .ok reply) →
    ∃ first, added moves = first ++ (State.empty.after moves).queue ∧
      List.Forall₂ (fun e c => ∃ reply, e.Meets c reply) first (made moves) ∧
      ((State.empty.after moves).assertDone = .ok () ↔ first = added moves)
  done : (State.empty.after moves).assertDone = .ok () ↔ used 0 moves = (added moves).length

/-- After every history of expectations and calls the queue is what was put in less what was taken out,
and each call was answered by the expectation whose turn it was. -/
theorem strict_queue (moves : List Move) : StrictQueue moves where
  log := calls_after State.empty moves
  consumes c e rest h := by
    rw [State.after_snoc, State.next, queue_answer, h]
    refine ⟨rfl, fun reply => ?_⟩
    rw [answer_of_pending h]
    exact Expectation.answer_eq_ok
  refuses c h := by
    rw [State.after_snoc, State.next, answer_of_none h]
    exact ⟨rfl, rfl⟩
  pending := queue_after State.empty moves
  counted := by simpa [State.empty] using length_queue_after State.empty moves
  met h := by
    obtain ⟨first, hfirst, hmet⟩ := met_of_answered h
    refine ⟨first, hfirst, hmet, ?_⟩
    have hadded : added moves = first ++ (State.empty.after moves).queue := hfirst
    rw [assertDone_eq_ok, hadded, List.self_eq_append_right]
  done := by
    have hcount := length_queue_after State.empty moves
    rw [assertDone_eq_ok, ← List.length_eq_zero_iff]
    simp only [State.empty, List.length_nil] at hcount ⊢
    omega

def paired : List Move :=
  [.expect ⟨"get_item", .fields (.map [("TableName", .text "t")]), .none, none⟩,
    .call ⟨.getItem, [("TableName", .text "t"), ("Key", .map [("id", .int 1)])]⟩]

theorem strict_queue_paired :
    (∀ answer ∈ State.empty.answers paired, ∃ reply, answer = .ok reply) ∧
      (∃ first, added paired = first ++ (State.empty.after paired).queue ∧
        List.Forall₂ (fun e c => ∃ reply, e.Meets c reply) first (made paired) ∧
        ((State.empty.after paired).assertDone = .ok () ↔ first = added paired)) ∧
      used 0 paired = (added paired).length := by
  have hanswered : ∀ answer ∈ State.empty.answers paired, ∃ reply, answer = .ok reply :=
    List.forall_mem_singleton.mpr ⟨[], rfl⟩
  exact ⟨hanswered, (strict_queue paired).met hanswered, (strict_queue paired).done.mp rfl⟩

/-- The call is for the second expectation and still uses up the first. -/
def crossed : List Move :=
  [.expect ⟨"put_item", .none, .none, none⟩, .expect ⟨"get_item", .none, .none, none⟩,
    .call ⟨.getItem, []⟩]

example : (State.empty.after crossed).queue = [⟨"get_item", .none, .none, none⟩] := rfl

end TableGateway.Rehearsal
