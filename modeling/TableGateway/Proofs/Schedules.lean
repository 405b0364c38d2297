import TableGateway.Proofs.Batch
import TableGateway.Proofs.Pool

/-!
# Batches under every schedule

Page after page is one of the orders in which the pages of a batch can take their steps, so where the
answers to a page depend on nothing but its own requests, every order comes to the same: each page
sends what it sends alone, and the outcome is that of the pages in their order, not in that of time.
-/
namespace TableGateway.BatchGet

variable {σ : Type}

theorem Pool.EndsWith.hasEnded {S : Pool σ} {outcomes : List (Result (List Value))}
    (h : S.EndsWith outcomes) : ∀ c ∈ S.processes, c.hasEnded = true := by
  intro c hc
  have hstage : c.stage ∈ outcomes.map Stage.ended := h ▸ List.mem_map_of_mem hc
  obtain ⟨r, -, hr⟩ := List.mem_map.mp hstage
  rw [Process.hasEnded, ← hr]

theorem Pool.exists_endsWith {S : Pool σ} (h : ∀ c ∈ S.processes, c.hasEnded = true) :
    ∃ outcomes, S.EndsWith outcomes := by
  obtain ⟨processes, w⟩ := S
  induction processes with
  | nil => exact ⟨[], rfl⟩
  | cons c processes ih =>
    obtain ⟨outcomes, hrest⟩ := ih fun d hd => h d (List.mem_cons_of_mem c hd)
    have hc := h c (by simp)
    rw [Process.hasEnded] at hc
    split at hc
    · rename_i r hr
      exact ⟨r :: outcomes, by simpa [Pool.EndsWith, hr] using hrest⟩
    · cases hc

/-- A pool that has come to its end has come to the outcomes of its pages alone. -/
theorem Pool.Runs.outcomes_eq {j : Job} {senders : Nat → Sender σ} {workers n : Nat}
    {slices : List (List Value)} {w : World σ} {answers : Nat → List Fields → Result Fields}
    {S : Pool σ} (hlocal : j.Local senders workers (Job.pool slices w) answers)
    (h : Pool.Runs j senders workers n (Job.pool slices w) S)
    {outcomes : List (Result (List Value))} (hS : S.EndsWith outcomes) :
    outcomes = (j.aloneRuns (fun i => (senders i).waits) answers slices).map Prod.fst := by
  apply List.map_injective_iff.mpr fun _ _ => Stage.ended.inj
  rw [← hS, h.ended hlocal hS.hasEnded, List.map_map, List.map_map]
  rfl

namespace Job

/-- The pages one after the other, from a place on, each with the sender of its place. -/
def turns (j : Job) (senders : Nat → Sender σ) :
    Nat → List (List Value) → Session σ (List (Result (List Value)))
  | _, [] => pure []
  | i, keys :: rest => do
    let r ← Session.outcome (j.page (senders i) j.left (.start keys))
    return r :: (← turns j senders (i + 1) rest)

/-- The items of the pages one after the other, or the fault of the first page that has one. -/
def inTurn (j : Job) (senders : Nat → Sender σ) (slices : List (List Value)) :
    Session σ (List Value) := do
  Session.lift (collect (← j.turns senders 0 slices))

/-- The job of a batch of so many attempts. -/
def ofBatch (p : BatchGetParams) (table : Text) (projection : Option Clause) (attempts : Nat) :
    Job :=
  ⟨p, table, otherFields p.consistentRead projection, attempts - 1⟩

theorem turns_same (j : Job) (sender : Sender σ) (i : Nat) (slices : List (List Value)) :
    j.turns (fun _ => sender) i slices =
      BatchGet.pages sender j.params j.table j.base j.left slices := by
  induction slices generalizing i with
  | nil => rfl
  | cons keys rest ih =>
    rw [turns, BatchGet.pages, ih]
    rfl

end Job

/-- A batch is its pages one after the other, all with the same sender. -/
theorem run_inTurn (sender : Sender σ) {maxWorkers : Value} {p : BatchGetParams}
    {keys : List Value} {projection : Option Clause} {table : Text} {n : Nat} (hn : 1 ≤ n)
    (hmost : n ≤ 1024) (hmax : maxWorkers = .null ∨ ∃ k : Int, 0 < k ∧ maxWorkers = .int k)
    (hretries : p.maxRetries = .int n) (htable : p.table = .text table) (hkeys : p.keys = .list keys)
    (hproj : Projection.read p.properties = .ok projection) (w : World σ) :
    run sender maxWorkers p w =
      (Job.ofBatch p table projection n).inTurn (fun _ => sender) (chunks maxKeys keys) w := by
  rw [run_eq sender hn hmost hmax hretries htable hkeys hproj, Job.inTurn, Job.turns_same,
    Session.bind_apply, Job.ofBatch]
  rcases pages sender p table (otherFields p.consistentRead projection) (n - 1)
    (chunks maxKeys keys) w with ⟨_ | _, w'⟩ <;> rfl

section Sequence

variable {j : Job} {senders : Nat → Sender σ} {workers : Nat}

/-- Where no other page runs, and this one does not either, every worker is free. -/
theorem Pool.running_eq_zero {processes : List Process} {i : Nat} {c : Process}
    (hidle : ∀ i' c', i' ≠ i → processes[i']? = some c' → c'.isRunning = false)
    (hc : c.isRunning = false) (w : World σ) :
    Pool.running ⟨processes.set i c, w⟩ = 0 := by
  rw [Pool.running, List.countP_eq_zero]
  intro d hd
  obtain ⟨i', hi'⟩ := List.getElem?_of_mem hd
  rw [List.getElem?_set] at hi'
  by_cases heq : i = i'
  · rw [if_pos heq] at hi'
    obtain ⟨-, rfl⟩ : i < processes.length ∧ c = d := by simpa using hi'
    simp [hc]
  · rw [if_neg heq] at hi'
    simp [hidle i' d (Ne.symm heq) hi']

theorem Job.advance_of_ended (sender : Sender σ) {c : Process} (h : c.hasEnded = true) (w : World σ) :
    j.advance sender (c, w) = (c, w) := by
  obtain ⟨stage, sent⟩ := c
  cases stage with
  | ended r => rfl
  | _ => cases h

/-- A page takes its steps while no other page runs. -/
theorem Pool.runs_iterate (j : Job) (senders : Nat → Sender σ) (hworkers : 1 ≤ workers)
    {S : Pool σ} {i : Nat} {c : Process} (hc : S.processes[i]? = some c)
    (hidle : ∀ i' c', i' ≠ i → S.processes[i']? = some c' → c'.isRunning = false) (k : Nat) :
    ∃ n, Pool.Runs j senders workers n S
      ⟨S.processes.set i ((j.advance (senders i))^[k] (c, S.world)).1,
        ((j.advance (senders i))^[k] (c, S.world)).2⟩ := by
  obtain ⟨hi, hget⟩ := List.getElem?_eq_some_iff.mp hc
  induction k with
  | zero =>
    have hsame : S.processes.set i c = S.processes := by rw [← hget, List.set_getElem_self]
    refine ⟨0, ?_⟩
    rw [Function.iterate_zero, id, hsame]
    exact .none
  | succ k ih =>
    obtain ⟨n, hruns⟩ := ih
    rw [Function.iterate_succ_apply']
    rcases hstate : (j.advance (senders i))^[k] (c, S.world) with ⟨c', w'⟩
    rw [hstate] at hruns
    by_cases hended : c'.hasEnded = true
    · refine ⟨n, ?_⟩
      rw [Job.advance_of_ended (senders i) hended]
      exact hruns
    · have there : (S.processes.set i c')[i]? = some c' := List.getElem?_set_self hi
      have hfree : c'.isQueued = true → Pool.running ⟨S.processes.set i c', w'⟩ < workers := by
        intro hqueued
        rw [Pool.running_eq_zero hidle (by simp [Process.isRunning, hqueued])]
        exact hworkers
      have hmoved := Pool.Runs.more hruns (.move there (by simpa using hended) hfree)
      rw [Pool.moved, List.set_set] at hmoved
      exact ⟨n + 1, hmoved⟩

/-- The page whose turn it is runs to its end. -/
theorem Pool.runs_page (j : Job) (senders : Nat → Sender σ) (hworkers : 1 ≤ workers)
    (keys : List Value) (rest : List (List Value)) {past : List Process}
    (hpast : ∀ c ∈ past, c.hasEnded = true) (w : World σ) :
    let page := j.page (senders past.length) j.left (.start keys) w
    ∃ n sent, Pool.Runs j senders workers n
      ⟨past ++ (keys :: rest).map fun keys => ⟨.queued keys, []⟩, w⟩
      ⟨past ++ ⟨.ended page.1, sent⟩ :: rest.map fun keys => ⟨.queued keys, []⟩, page.2⟩ := by
  intro page
  let S : Pool σ := ⟨past ++ (keys :: rest).map fun keys => ⟨.queued keys, []⟩, w⟩
  have hthere : S.processes[past.length]? = some ⟨.queued keys, []⟩ := by simp [S]
  have hidle : ∀ i c, i ≠ past.length → S.processes[i]? = some c → c.isRunning = false := by
    intro i c _ hc
    rcases List.mem_append.mp (List.mem_of_getElem? hc) with hmem | hmem
    · simp [Process.isRunning, hpast c hmem]
    · obtain ⟨keys', -, rfl⟩ := List.mem_map.mp hmem
      rfl
  obtain ⟨k, sent, hk⟩ := j.page_steps (senders past.length) j.left (.start keys) [] w
  have hsteps : (j.advance (senders past.length))^[k + 1] (⟨.queued keys, []⟩, w) =
      (⟨.ended page.1, sent⟩, page.2) := by
    rw [Function.iterate_succ_apply]
    exact hk
  obtain ⟨n, hruns⟩ := Pool.runs_iterate j senders hworkers hthere hidle (k + 1)
  rw [hsteps] at hruns
  exact ⟨n, sent, by simpa [S] using hruns⟩

/-- One page after the other is a run of the pool. -/
theorem Pool.runs_pages (j : Job) (senders : Nat → Sender σ) (hworkers : 1 ≤ workers)
    (rest : List (List Value)) (past : List Process) (hpast : ∀ c ∈ past, c.hasEnded = true)
    (w : World σ) :
    ∃ n processes outcomes w',
      j.turns senders past.length rest w = (.ok outcomes, w') ∧
      Pool.Runs j senders workers n ⟨past ++ rest.map fun keys => ⟨.queued keys, []⟩, w⟩
        ⟨past ++ processes, w'⟩ ∧
      processes.map Process.stage = outcomes.map Stage.ended := by
  induction rest generalizing past w with
  | nil => exact ⟨0, [], [], w, rfl, by simpa using .none, rfl⟩
  | cons keys rest ih =>
    obtain ⟨n, sent, hfirst⟩ := Pool.runs_page j senders hworkers keys rest hpast w
    rcases hpage : j.page (senders past.length) j.left (.start keys) w with ⟨r, w₁⟩
    rw [hpage] at hfirst
    have hended : ∀ c ∈ past ++ [⟨.ended r, sent⟩], c.hasEnded = true := by
      intro c hc
      rcases List.mem_append.mp hc with hc | hc
      · exact hpast c hc
      · obtain rfl := List.mem_singleton.mp hc
        rfl
    obtain ⟨m, processes, outcomes, w', hturns, hrest, hstages⟩ := ih _ hended w₁
    rw [List.length_append, List.length_singleton] at hturns
    rw [List.append_assoc, List.append_assoc] at hrest
    refine ⟨n + m, ⟨.ended r, sent⟩ :: processes, r :: outcomes, w', ?_, hfirst.trans hrest, ?_⟩
    · rw [Job.turns]
      simp [hpage, hturns]
    · simp [hstages]

/-- One page after the other, each page comes to the end that it comes to alone. -/
theorem turns_alone (hworkers : 1 ≤ workers) {slices : List (List Value)} {w : World σ}
    {answers : Nat → List Fields → Result Fields}
    (hlocal : j.Local senders workers (Job.pool slices w) answers) :
    (j.turns senders 0 slices w).1 =
      .ok ((j.aloneRuns (fun i => (senders i).waits) answers slices).map Prod.fst) := by
  obtain ⟨n, processes, outcomes, w', hturns, hruns, hstages⟩ :=
    Pool.runs_pages j senders hworkers slices [] (by simp) w
  rw [List.length_nil] at hturns
  rw [hturns, Pool.Runs.outcomes_eq hlocal hruns hstages]

theorem inTurn_alone (hworkers : 1 ≤ workers) {slices : List (List Value)} {w : World σ}
    {answers : Nat → List Fields → Result Fields}
    (hlocal : j.Local senders workers (Job.pool slices w) answers) :
    (j.inTurn senders slices w).1 =
      collect ((j.aloneRuns (fun i => (senders i).waits) answers slices).map Prod.fst) := by
  have hturns := turns_alone hworkers hlocal
  rcases hresult : j.turns senders 0 slices w with ⟨result, w'⟩
  rw [hresult] at hturns
  obtain rfl : result = .ok _ := hturns
  rw [Job.inTurn, Session.bind_apply, hresult]
  rfl

end Sequence

/-- The fault of a batch is that of the first page in page order which has one. -/
theorem collect_of_first {past later : List (Result (List Value))} {f : Fault}
    (hpast : ∀ r ∈ past, ∃ items, r = .ok items) : collect (past ++ .error f :: later) = .error f := by
  induction past with
  | nil => rfl
  | cons r past ih =>
    obtain ⟨items, rfl⟩ := hpast r (by simp)
    rw [List.cons_append, collect, Result.ok_bind, ih fun r hr => hpast r (by simp [hr])]
    rfl

theorem total_pool (j : Job) (slices : List (List Value)) (w : World σ) :
    j.total (Job.pool slices w).processes = slices.length * (4 * j.left + 4) := by
  induction slices with
  | nil => simp [Job.pool, Job.total]
  | cons keys slices ih =>
    rw [Job.pool] at ih ⊢
    rw [List.map_cons, Job.total, ih, Job.rank, List.length_cons, Nat.add_one_mul slices.length]
    omega

/-- What is true of a pool to which the pages of a batch come in so many steps, in whatever order they
take them, given what each page does alone and the outcome of the batch page after page. -/
structure Pool.FreeOfSchedule (j : Job) (senders : Nat → Sender σ) (workers attempts steps : Nat)
    (alone : List (Result (List Value) × List Fields)) (outcome : Result (List Value))
    (S : Pool σ) : Prop where
  bounded : steps ≤ alone.length * (4 * attempts)
  staffed : S.running ≤ workers
  goes_on : (∃ outcomes, S.EndsWith outcomes) ∨ ∃ T, Pool.Step j senders workers S T
  sends : ∀ (i : Nat) (c : Process), S.processes[i]? = some c →
    ∃ r, alone[i]? = some r ∧ c.sent <+: r.2
  ends : ∀ outcomes, S.EndsWith outcomes →
    S.processes = alone.map (fun r => ⟨.ended r.1, r.2⟩) ∧ collect outcomes = outcome
  fails : ∀ outcomes, S.EndsWith outcomes → ∀ past f later, outcomes = past ++ .error f :: later →
    (∀ r ∈ past, ∃ items, r = .ok items) → outcome = .error f

/-- Where the answers to a page depend on nothing but its own requests, no order of steps matters. -/
theorem Pool.Runs.freeOfSchedule {j : Job} {senders : Nat → Sender σ} {workers steps : Nat}
    {slices : List (List Value)} {w : World σ} {answers : Nat → List Fields → Result Fields}
    {S : Pool σ} (hworkers : 1 ≤ workers)
    (hlocal : j.Local senders workers (Job.pool slices w) answers)
    (h : Pool.Runs j senders workers steps (Job.pool slices w) S) :
    S.FreeOfSchedule j senders workers (j.left + 1) steps
      (j.aloneRuns (fun i => (senders i).waits) answers slices) (j.inTurn senders slices w).1 := by
  have hends : ∀ outcomes, S.EndsWith outcomes → collect outcomes = (j.inTurn senders slices w).1 := by
    intro outcomes houtcomes
    rw [inTurn_alone hworkers hlocal, h.outcomes_eq hlocal houtcomes]
  refine ⟨?_, ?_, ?_, fun i c hc => ?_, fun outcomes houtcomes => ?_,
    fun outcomes houtcomes past f later hfirst hpast => ?_⟩
  · have hlength := h.length_le
    have hbudget : 4 * j.left + 4 = 4 * (j.left + 1) := by omega
    rw [total_pool, hbudget] at hlength
    rw [Job.aloneRuns, List.length_mapIdx]
    omega
  · refine h.running_le ?_
    have hidle : Pool.running (Job.pool slices w) = 0 := by
      simp [Pool.running, Job.pool, Process.isRunning, Process.isQueued]
    omega
  · by_cases hended : ∀ c ∈ S.processes, c.hasEnded = true
    · exact .inl (Pool.exists_endsWith hended)
    · exact .inr (Pool.exists_step hworkers (by simpa using hended))
  · obtain ⟨keys, k, hkeys, hk⟩ := h.alone hlocal hc
    refine ⟨_, ?_, (j.alone_way _ _ keys k hk).1⟩
    simp [Job.aloneRuns, hkeys]
  · exact ⟨h.ended hlocal houtcomes.hasEnded, hends outcomes houtcomes⟩
  · rw [← hends outcomes houtcomes, hfirst]
    exact collect_of_first hpast

/-- A batch is its pages one after the other. Whatever the order in which the pages take their steps,
the run comes to an end, each page sends what it sends alone and ends as it ends alone, whether others
fail or not, and the outcome is that of the pages one after the other: the fault of the first page that
fails, if one does. -/
theorem run_free_of_schedule (senders : Nat → Sender σ) {maxWorkers : Value} {p : BatchGetParams}
    {keys : List Value} {projection : Option Clause} {table : Text} {n workers : Nat} (hn : 1 ≤ n)
    (hmost : n ≤ 1024) (hmax : maxWorkers = .null ∨ ∃ k : Int, 0 < k ∧ maxWorkers = .int k)
    (hretries : p.maxRetries = .int n) (htable : p.table = .text table) (hkeys : p.keys = .list keys)
    (hproj : Projection.read p.properties = .ok projection) (hworkers : 1 ≤ workers) (w : World σ)
    {answers : Nat → List Fields → Result Fields}
    (hlocal : (Job.ofBatch p table projection n).Local senders workers
      (Job.pool (chunks maxKeys keys) w) answers)
    {steps : Nat} {S : Pool σ} (h : Pool.Runs (Job.ofBatch p table projection n) senders workers steps
      (Job.pool (chunks maxKeys keys) w) S) :
    let j := Job.ofBatch p table projection n
    (∀ sender : Sender σ, run sender maxWorkers p w =
      j.inTurn (fun _ => sender) (chunks maxKeys keys) w) ∧
    S.FreeOfSchedule j senders workers n steps
      (j.aloneRuns (fun i => (senders i).waits) answers (chunks maxKeys keys))
      (j.inTurn senders (chunks maxKeys keys) w).1 := by
  intro j
  refine ⟨fun sender => run_inTurn sender hn hmost hmax hretries htable hkeys hproj w, ?_⟩
  have hattempts : j.left + 1 = n := Nat.sub_add_cancel hn
  have hfree := h.freeOfSchedule hworkers hlocal
  rwa [hattempts] at hfree

theorem chunks_append {α : Type} {n : Nat} (hn : 0 < n) {xs : List α} (h : xs.length = n)
    (ys : List α) : chunks n (xs ++ ys) = xs :: chunks n ys := by
  cases xs with
  | nil =>
    rw [List.length_nil] at h
    omega
  | cons x xs =>
    rw [List.length_cons] at h
    have hrest : n - 1 = xs.length := by omega
    rw [List.cons_append, chunks, hrest, List.take_left, List.drop_left]

/-- So many numbers as keys. -/
def numbers (n : Nat) : List Value := (List.range n).map fun i : Nat => Value.int i

/-- Answers to a page that is throttled after its first request and to others that are refused. -/
def late (page : Nat) (sent : List Fields) : Result Fields :=
  if page = 0 then
    if sent.length = 1 then .ok (ownItems "users" [] [.int 0]) else .error (.scripted "throttled")
  else .error (.scripted "refused")

theorem settle_late {j : Job} (htable : j.table = "users") (left : Nat) (keys : List Value) :
    j.settle (left + 1) (.start keys) (.ok (ownItems "users" [] [.int 0])) =
      .retrying left 1 ⟨2, [.int 0], []⟩ := by
  simp [Job.settle, htable, Progress.after, found, unprocessed, tablePart, ownItems, Value.entries,
    Value.elements, Value.elements?, Value.entry, Value.elementsOrNone, Value.truthy, Progress.start]

theorem throttled_late {j : Job} (htable : j.table = "users") (hleft : j.left = 2)
    (keys : List Value) {w : World (Nat → List Fields)} (hw : w.client 0 = []) :
    ((j.advance (byPage false late 0))^[8] (⟨.queued keys, []⟩, w)).1.stage =
      .ended (.error (.scripted "throttled")) := by
  have hfirst : (byPage false late 0).send (j.request (.start keys)) w =
      (.ok (ownItems "users" [] [.int 0]),
        { w with client := Function.update w.client 0 [j.request (.start keys)] }) := by
    simp [byPage, late, hw]
  have hthree := j.three_steps hfirst 2 []
  rw [settle_late htable] at hthree
  have hstart : j.advance (byPage false late 0) (⟨.queued keys, []⟩, w) =
      (⟨.ready 2 (.start keys), []⟩, w) := by
    simp [Job.advance, Job.next, Job.effect, hleft]
  rw [Function.iterate_succ_apply, hstart, Function.iterate_add_apply _ 4 3, hthree]
  simp [Job.advance, Job.next, Job.effect, Job.resume, pause, byPage, late, Job.settle]

/-- Two pages of which the later one ends before the other one has begun. -/
theorem runs_late {j : Job} (htable : j.table = "users") (hleft : j.left = 2)
    (first second : List Value) :
    ∃ (m n : Nat) (T S : Pool (Nat → List Fields)),
      Pool.Runs j (byPage false late) 2 m (Job.pool [first, second] ⟨fun _ => [], [], []⟩) T ∧
      T.processes.map Process.stage = [.queued first, .ended (.error (.scripted "refused"))] ∧
      Pool.Runs j (byPage false late) 2 n T S ∧
      S.EndsWith [.error (.scripted "throttled"), .error (.scripted "refused")] := by
  let start := Job.pool [first, second] (⟨fun _ => [], [], []⟩ : World (Nat → List Fields))
  let refused : Process :=
    ⟨.ended (.error (.scripted "refused")), [j.request (.start second)]⟩
  let T : Pool (Nat → List Fields) := ⟨[⟨.queued first, []⟩, refused],
    ⟨Function.update (fun _ => []) 1 [j.request (.start second)], [], []⟩⟩
  obtain ⟨m, hm⟩ : ∃ m, Pool.Runs j (byPage false late) 2 m start T :=
    Pool.runs_iterate j (byPage false late) (by decide : 1 ≤ 2)
      (show start.processes[1]? = some ⟨.queued second, []⟩ from rfl) (by
        intro i c hi hc
        cases i with
        | zero =>
          cases hc
          rfl
        | succ i =>
          cases i with
          | zero => cases hi rfl
          | succ i => cases hc) 4
  obtain ⟨n, hn⟩ := Pool.runs_iterate j (byPage false late) (by decide : 1 ≤ 2)
    (show T.processes[0]? = some ⟨.queued first, []⟩ from rfl) (by
      intro i c hi hc
      cases i with
      | zero => cases hi rfl
      | succ i =>
        cases i with
        | zero =>
          cases hc
          rfl
        | succ i => cases hc) 8
  have hthrottled : ((j.advance (byPage false late 0))^[8] (⟨.queued first, []⟩, T.world)).1.stage =
      .ended (.error (.scripted "throttled")) :=
    throttled_late htable hleft _ rfl
  exact ⟨m, n, T, _, hm, rfl, hn, congrArg (fun stage => [stage, refused.stage]) hthrottled⟩

theorem run_free_of_schedule_late :
    let keys := numbers 100 ++ [.int 100]
    let p : BatchGetParams := ⟨.text "users", .list keys, .bool false, .null, .int 3, .bool false⟩
    let j := Job.ofBatch p "users" none 3
    let w : World (Nat → List Fields) := ⟨fun _ => [], [], []⟩
    ∃ (m n : Nat) (T S : Pool (Nat → List Fields)),
      Pool.Runs j (byPage false late) 2 m (Job.pool (chunks maxKeys keys) w) T ∧
      T.processes.map Process.stage =
        [.queued (numbers 100), .ended (.error (.scripted "refused"))] ∧
      Pool.Runs j (byPage false late) 2 n T S ∧
      S.EndsWith [.error (.scripted "throttled"), .error (.scripted "refused")] ∧
      (∀ sender : Sender (Nat → List Fields), run sender .null p w =
        j.inTurn (fun _ => sender) (chunks maxKeys keys) w) ∧
      S.FreeOfSchedule j (byPage false late) 2 3 (m + n)
        (j.aloneRuns (fun _ => false) late (chunks maxKeys keys))
        (j.inTurn (byPage false late) (chunks maxKeys keys) w).1 := by
  intro keys p j w
  have hchunks : chunks maxKeys keys = [numbers 100, [.int 100]] := by
    rw [chunks_append (by decide) (by simp [numbers, maxKeys])]
    simp [chunks]
  obtain ⟨m, n, T, S, hm, hrefused, hn, hends⟩ :=
    runs_late (j := j) rfl rfl (numbers 100) [.int 100]
  rw [← hchunks] at hm
  exact ⟨m, n, T, S, hm, hrefused, hn, hends,
    run_free_of_schedule (byPage false late) (by decide) (by decide) (.inl rfl) rfl rfl rfl rfl
      (by decide) w (j.local_byPage false late 2 _ fun _ => rfl) (hm.trans hn)⟩

end TableGateway.BatchGet
