import TableGateway.Proofs.PageSteps

/-!
# Pages in a pool of workers

All pages of a batch share a world and take their steps in any order, no more of them at a time than
there are workers. Each page has a sender, so that a client can tell the pages apart whose requests
are the same; it is one sender for all of them where it cannot. Where the answers to a page depend on
nothing but its own requests, each page takes the steps that it takes alone: the steps of the others
leave it as it is.
-/
namespace TableGateway.BatchGet

variable {σ : Type}

namespace Process

def isQueued (c : Process) : Bool :=
  match c.stage with
  | .queued _ => true
  | _ => false

def hasEnded (c : Process) : Bool :=
  match c.stage with
  | .ended _ => true
  | _ => false

/-- Does a page have a worker? -/
def isRunning (c : Process) : Bool := !c.isQueued && !c.hasEnded

end Process

structure Pool (σ : Type) where
  processes : List Process
  world : World σ

namespace Pool

def running (S : Pool σ) : Nat := S.processes.countP Process.isRunning

/-- The pool after a step of the page at a place. -/
def moved (S : Pool σ) (j : Job) (senders : Nat → Sender σ) (i : Nat) (c : Process) : Pool σ :=
  let next := j.advance (senders i) (c, S.world)
  ⟨S.processes.set i next.1, next.2⟩

/-- A step of a page that has not ended; a page that is queued needs a worker that is free. -/
inductive Step (j : Job) (senders : Nat → Sender σ) (workers : Nat) : Pool σ → Pool σ → Prop where
  | move {S : Pool σ} {i : Nat} {c : Process} (there : S.processes[i]? = some c)
      (goesOn : c.hasEnded = false) (worker : c.isQueued = true → S.running < workers) :
      Step j senders workers S (S.moved j senders i c)

/-- So many steps from one pool to another. -/
inductive Runs (j : Job) (senders : Nat → Sender σ) (workers : Nat) : Nat → Pool σ → Pool σ → Prop where
  | none {S : Pool σ} : Runs j senders workers 0 S S
  | more {n : Nat} {S T U : Pool σ} : Runs j senders workers n S T → Step j senders workers T U →
      Runs j senders workers (n + 1) S U

/-- All pages have come to their ends, with these outcomes. -/
def EndsWith (S : Pool σ) (outcomes : List (Result (List Value))) : Prop :=
  S.processes.map Process.stage = outcomes.map Stage.ended

end Pool

namespace Job

/-- A pool in which all pages are still queued. -/
def pool (slices : List (List Value)) (w : World σ) : Pool σ :=
  ⟨slices.map fun keys => ⟨.queued keys, []⟩, w⟩

/-- Whatever the order of the steps, is the answer to each request the one that is given for its page
and the requests of that page so far? -/
def Local (j : Job) (senders : Nat → Sender σ) (workers : Nat) (start : Pool σ)
    (answers : Nat → List Fields → Result Fields) : Prop :=
  ∀ n S, Pool.Runs j senders workers n start S → ∀ i left s sent,
    S.processes[i]? = some ⟨.asked left s, sent⟩ →
      ((senders i).send (j.request s) S.world).1 = answers i sent

end Job

section Steps

variable {j : Job} {senders : Nat → Sender σ} {workers : Nat} {S T U : Pool σ}

theorem Pool.Runs.trans {m n : Nat} (h : Pool.Runs j senders workers m S T)
    (h' : Pool.Runs j senders workers n T U) : Pool.Runs j senders workers (m + n) S U := by
  induction h' with
  | none => exact h
  | more _ hstep ih => exact .more (ih h) hstep

/-- No more pages run than there are workers. -/
theorem Pool.Step.running_le (h : Pool.Step j senders workers S T) (hS : S.running ≤ workers) :
    T.running ≤ workers := by
  cases h with
  | @move i c there goesOn worker =>
    obtain ⟨hi, rfl⟩ := List.getElem?_eq_some_iff.mp there
    rw [Pool.running, Pool.moved, List.countP_set hi]
    rw [Pool.running] at hS worker
    by_cases hrun : S.processes[i].isRunning
    · have hpos : 0 < S.processes.countP Process.isRunning :=
        List.countP_pos_iff.mpr ⟨_, List.getElem_mem hi, hrun⟩
      split <;> split <;> omega
    · have hqueued : S.processes[i].isQueued = true := by
        simpa [Process.isRunning, goesOn] using hrun
      have hfree := worker hqueued
      split <;> split <;> omega

theorem Pool.Runs.running_le {n : Nat} (h : Pool.Runs j senders workers n S T)
    (hS : S.running ≤ workers) : T.running ≤ workers := by
  induction h with
  | none => exact hS
  | more _ hstep ih => exact hstep.running_le (ih hS)

/-- The steps that pages together take at most. -/
def Job.total (j : Job) : List Process → Nat
  | [] => 0
  | c :: cs => j.rank c.stage + j.total cs

theorem Job.total_set {cs : List Process} {i : Nat} {c : Process} (hc : cs[i]? = some c)
    (next : Process) :
    j.total (cs.set i next) + j.rank c.stage = j.total cs + j.rank next.stage := by
  induction cs generalizing i with
  | nil => cases hc
  | cons d cs ih =>
    cases i with
    | zero =>
      obtain rfl : d = c := by simpa using hc
      rw [List.set_cons_zero, Job.total, Job.total]
      omega
    | succ i =>
      rw [List.getElem?_cons_succ] at hc
      have hrest := ih hc
      rw [List.set_cons_succ, Job.total, Job.total]
      omega

theorem Pool.Step.total_lt (h : Pool.Step j senders workers S T) :
    j.total T.processes < j.total S.processes := by
  cases h with
  | @move i c there goesOn worker =>
    have hlower := j.rank_next (senders i).waits (fun r => ((senders i).send r S.world).1)
      (c := c) (by
        intro r hr
        simp [Process.hasEnded, hr] at goesOn)
    have hset := Job.total_set (j := j) there (j.advance (senders i) (c, S.world)).1
    simp only [Job.advance] at hset
    simp only [Pool.moved, Job.advance]
    omega

/-- No run is longer than all steps of all pages. -/
theorem Pool.Runs.length_le {n : Nat} (h : Pool.Runs j senders workers n S T) :
    n + j.total T.processes ≤ j.total S.processes := by
  induction h with
  | none => omega
  | more _ hstep ih =>
    have hlower := hstep.total_lt
    omega

/-- As long as a page has not ended some page can take a step. -/
theorem Pool.exists_step (hworkers : 1 ≤ workers) (h : ∃ c ∈ S.processes, c.hasEnded = false) :
    ∃ T, Pool.Step j senders workers S T := by
  by_cases hrun : ∃ c ∈ S.processes, c.isRunning = true
  · obtain ⟨c, hc, hrunning⟩ := hrun
    obtain ⟨i, hi⟩ := List.getElem?_of_mem hc
    obtain ⟨hqueued, hended⟩ : c.isQueued = false ∧ c.hasEnded = false := by
      simpa [Process.isRunning] using hrunning
    exact ⟨_, .move hi hended (by simp [hqueued])⟩
  · obtain ⟨c, hc, hended⟩ := h
    obtain ⟨i, hi⟩ := List.getElem?_of_mem hc
    have hidle : S.running = 0 := by
      rw [Pool.running, List.countP_eq_zero]
      exact fun c hc hrunning => hrun ⟨c, hc, hrunning⟩
    exact ⟨_, .move hi hended fun _ => by omega⟩

end Steps

/-- A client that tells the pages apart and answers each by the requests it has had so far from it. -/
def byPage (waits : Bool) (answers : Nat → List Fields → Result Fields) (i : Nat) :
    Sender (Nat → List Fields) where
  waits := waits
  send request := fun w =>
    let heard := w.client i ++ [request]
    (answers i heard, { w with client := Function.update w.client i heard })

section ByPage

variable {j : Job} {waits : Bool} {answers : Nat → List Fields → Result Fields} {workers : Nat}

theorem Job.client_effect_byPage (i : Nat) (w : World (Nat → List Fields)) (stage : Stage) :
    (j.effect (byPage waits answers i) w stage).client =
      Function.update w.client i (w.client i ++ j.underway stage) := by
  cases stage <;> simp [Job.effect, Job.underway, byPage, pause_client]

/-- Whatever the order of the steps, a client that tells the pages apart has had from each page just
the requests that are answered. -/
theorem Pool.Runs.heard {n : Nat} {S T : Pool (Nat → List Fields)}
    (h : Pool.Runs j (byPage waits answers) workers n S T)
    (hS : ∀ i c, S.processes[i]? = some c → j.Heard c (S.world.client i)) {i : Nat} {c : Process}
    (hc : T.processes[i]? = some c) : j.Heard c (T.world.client i) := by
  induction h generalizing i c with
  | none => exact hS i c hc
  | @more n S T U _ hstep ih =>
    cases hstep with
    | @move i' c' there goesOn worker =>
      rw [Pool.moved, List.getElem?_set] at hc
      simp only [Pool.moved, Job.advance, Job.client_effect_byPage] at hc ⊢
      by_cases heq : i' = i
      · subst heq
        obtain ⟨-, rfl⟩ : i' < T.processes.length ∧ _ = c := by simpa using hc
        rw [Function.update_self, ← ih hS there]
        exact j.heard_next _ _ _
      · rw [if_neg heq] at hc
        rw [Function.update_of_ne (Ne.symm heq)]
        exact ih hS hc

/-- Whatever answers a client gives to each page by the requests of that page, there is such a client. -/
theorem Job.local_byPage (j : Job) (waits : Bool) (answers : Nat → List Fields → Result Fields)
    (workers : Nat) (slices : List (List Value)) {w : World (Nat → List Fields)}
    (hfresh : ∀ i, w.client i = []) :
    j.Local (byPage waits answers) workers (Job.pool slices w) answers := by
  intro n S hruns i left s sent hasked
  have hstart : ∀ i c, (Job.pool slices w).processes[i]? = some c → j.Heard c (w.client i) := by
    intro i c hc
    rw [Job.pool, List.getElem?_map, Option.map_eq_some_iff] at hc
    obtain ⟨keys, -, rfl⟩ := hc
    rw [hfresh]
    rfl
  have hsent : sent = S.world.client i ++ [j.request s] := hruns.heard hstart hasked
  rw [hsent]
  rfl

end ByPage

section Alone

variable {j : Job} {senders : Nat → Sender σ} {workers : Nat} {slices : List (List Value)} {w : World σ}
variable {answers : Nat → List Fields → Result Fields}

theorem Job.next_alone {waits : Bool} {reply : Fields → Result Fields}
    {answer : List Fields → Result Fields} {c : Process}
    (h : ∀ left s sent, c = ⟨.asked left s, sent⟩ → reply (j.request s) = answer sent) :
    j.next waits reply c = j.alone waits answer c := by
  obtain ⟨stage, sent⟩ := c
  cases stage with
  | asked left s => simp [Job.next, Job.alone, h left s sent rfl]
  | _ => rfl

theorem Pool.Runs.length_processes {n : Nat} {S T : Pool σ}
    (h : Pool.Runs j senders workers n S T) : T.processes.length = S.processes.length := by
  induction h with
  | none => rfl
  | more _ hstep ih =>
    cases hstep with
    | move => rw [← ih, Pool.moved, List.length_set]

/-- Whatever the others do, each page is where it comes to alone after some number of steps. -/
theorem Pool.Runs.alone {n : Nat} {S : Pool σ}
    (hlocal : j.Local senders workers (Job.pool slices w) answers)
    (h : Pool.Runs j senders workers n (Job.pool slices w) S) {i : Nat} {c : Process}
    (hc : S.processes[i]? = some c) :
    ∃ keys k, slices[i]? = some keys ∧
      c = (j.alone (senders i).waits (answers i))^[k] ⟨.queued keys, []⟩ := by
  generalize hstart : Job.pool slices w = start at hlocal h
  induction h generalizing c with
  | none =>
    rw [← hstart, Job.pool, List.getElem?_map, Option.map_eq_some_iff] at hc
    obtain ⟨keys, hkeys, rfl⟩ := hc
    exact ⟨keys, 0, hkeys, rfl⟩
  | @more n _ S _ hruns hmove ih =>
    cases hmove with
    | @move i' c' there goesOn worker =>
      rw [Pool.moved, List.getElem?_set] at hc
      split at hc
      · rename_i heq
        subst heq
        obtain ⟨keys, k, hkeys, hk⟩ := ih there hstart hlocal
        have hstep : j.next (senders i').waits (fun r => ((senders i').send r S.world).1) c' =
            j.alone (senders i').waits (answers i') c' :=
          Job.next_alone fun left s sent hasked => hlocal n S hruns i' left s sent (hasked ▸ there)
        refine ⟨keys, k + 1, hkeys, ?_⟩
        rw [Function.iterate_succ_apply', ← hk, ← hstep]
        split at hc
        · exact (Option.some.inj hc).symm
        · cases hc
      · exact ih hc hstart hlocal

theorem Job.alone_ended (waits : Bool) (answer : List Fields → Result Fields)
    (r : Result (List Value)) (sent : List Fields) (k : Nat) :
    (j.alone waits answer)^[k] ⟨.ended r, sent⟩ = ⟨.ended r, sent⟩ :=
  Function.iterate_fixed rfl k

theorem Job.sent_prefix_alone (waits : Bool) (answer : List Fields → Result Fields) (k : Nat)
    (c : Process) : c.sent <+: ((j.alone waits answer)^[k] c).sent := by
  induction k with
  | zero => exact List.prefix_rfl
  | succ k ih =>
    rw [Function.iterate_succ_apply']
    exact ih.trans (j.sent_prefix_next _ _ _)

/-- On its way alone a page has sent the first of its requests, and at its end all of them. -/
theorem Job.alone_way (waits : Bool) (answer : List Fields → Result Fields) (keys : List Value)
    (k : Nat) {c : Process} (hc : c = (j.alone waits answer)^[k] ⟨.queued keys, []⟩) :
    c.sent <+: (j.aloneRun waits answer keys).2 ∧
      (c.hasEnded = true →
        c = ⟨.ended (j.aloneRun waits answer keys).1, (j.aloneRun waits answer keys).2⟩) := by
  obtain ⟨n, hn⟩ := j.alone_ends waits answer keys
  rcases Nat.le_total k n with hle | hle
  · obtain ⟨d, rfl⟩ := Nat.exists_eq_add_of_le' hle
    rw [Function.iterate_add_apply, ← hc] at hn
    refine ⟨?_, fun hended => ?_⟩
    · have hprefix := j.sent_prefix_alone waits answer d c
      rwa [hn] at hprefix
    · obtain ⟨stage, sent⟩ := c
      cases stage with
      | ended r => rw [← hn, j.alone_ended]
      | _ => cases hended
  · obtain ⟨d, rfl⟩ := Nat.exists_eq_add_of_le' hle
    rw [Function.iterate_add_apply, hn, j.alone_ended] at hc
    rw [hc]
    exact ⟨List.prefix_rfl, fun _ => rfl⟩

/-- The pages of a job, each alone: their outcomes and the requests that they send. -/
def Job.aloneRuns (j : Job) (waits : Nat → Bool) (answers : Nat → List Fields → Result Fields)
    (slices : List (List Value)) : List (Result (List Value) × List Fields) :=
  slices.mapIdx fun i keys => j.aloneRun (waits i) (answers i) keys

/-- A pool that has come to its end has come to the ends of its pages alone. -/
theorem Pool.Runs.ended {n : Nat} {S : Pool σ}
    (hlocal : j.Local senders workers (Job.pool slices w) answers)
    (h : Pool.Runs j senders workers n (Job.pool slices w) S)
    (hended : ∀ c ∈ S.processes, c.hasEnded = true) :
    S.processes = (j.aloneRuns (fun i => (senders i).waits) answers slices).map fun r => ⟨.ended r.1, r.2⟩ := by
  refine List.ext_getElem? fun i => ?_
  rw [List.getElem?_map, Job.aloneRuns, List.getElem?_mapIdx]
  cases hc : S.processes[i]? with
  | none =>
    have hlength := h.length_processes
    rw [Job.pool, List.length_map] at hlength
    rw [List.getElem?_eq_none_iff, hlength, ← List.getElem?_eq_none_iff] at hc
    rw [hc]
    rfl
  | some c =>
    obtain ⟨keys, k, hkeys, hk⟩ := h.alone hlocal hc
    rw [hkeys, ((j.alone_way _ _ _ _ hk).2 (hended c (List.mem_of_getElem? hc)))]
    rfl

end Alone

end TableGateway.BatchGet
