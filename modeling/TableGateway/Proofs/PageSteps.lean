import Mathlib.Logic.Function.Iterate
import TableGateway.Proofs.Exchange
import TableGateway.Proofs.Outcomes

/-!
# A page in steps

A page taken apart into the steps between which others may take theirs: it waits for a worker, sends
its request, is answered, settles what to do with the answer, and waits. Step by step it does what it
does in one go, and what it does next depends on nothing but itself and the answer to its request.
-/
namespace TableGateway.BatchGet

variable {σ : Type}

/-- What all pages of a batch have in common; `left` requests may follow the first one of a page. -/
structure Job where
  params : BatchGetParams
  table : Text
  base : Fields
  left : Nat

/-- Where a page stands between two steps; `left` more requests may follow the next one. -/
inductive Stage where
  | queued (keys : List Value)
  | ready (left : Nat) (s : Progress)
  | asked (left : Nat) (s : Progress)
  | answered (left : Nat) (s : Progress) (reply : Result Fields)
  | retrying (left attempt : Nat) (s : Progress)
  | ended (outcome : Result (List Value))

/-- A page with the requests that it has sent. -/
structure Process where
  stage : Stage
  sent : List Fields

namespace Job

variable (j : Job)

def request (s : Progress) : Fields := BatchGet.request j.table j.base s.pending

/-- One page of the job from where it stands, in one go. -/
def page (sender : Sender σ) (left : Nat) (s : Progress) : Session σ (List Value) :=
  BatchGet.page sender j.params j.table j.base left s

def outcomeOf (s : Progress) : Result (List Value) :=
  if j.params.throwOnUnprocessed.truthy then .error (.unprocessedKeys (.int s.pending.length))
  else .ok s.items

/-- Where a page stands after the answer to its request. -/
def settle (left : Nat) (s : Progress) (reply : Result Fields) : Stage :=
  match reply >>= fun r => s.after j.table r with
  | .error f => .ended (.error f)
  | .ok s' =>
    if s'.pending.isEmpty then .ended (.ok s'.items)
    else match left with
      | 0 => .ended (j.outcomeOf s')
      | left + 1 => .retrying left s.attempt s'

/-- What a page logs about the answer to its request. -/
def lines (left : Nat) (s : Progress) (reply : Result Fields) : List LogLine :=
  match reply >>= fun r => s.after j.table r with
  | .error _ => []
  | .ok s' =>
    if s'.pending.isEmpty then []
    else match left with
      | 0 => [⟨.warning, .batch, exhaustedLine j.table s.attempt s'.pending.length⟩]
      | _ + 1 => [⟨.debug, .batch, retryLine j.table s.attempt s'.pending.length⟩]

/-- Where a page stands after a wait; there are waits that cannot be made. -/
def resume (waits : Bool) (left attempt : Nat) (s : Progress) : Stage :=
  if waits then
    match Backoff.seconds attempt with
    | .error f => .ended (.error f)
    | .ok _ => .ready left s
  else .ready left s

/-- The next step of a page, which may be the answer to its request. -/
def next (waits : Bool) (reply : Fields → Result Fields) : Process → Process
  | ⟨.queued keys, sent⟩ => ⟨.ready j.left (.start keys), sent⟩
  | ⟨.ready left s, sent⟩ => ⟨.asked left s, sent ++ [j.request s]⟩
  | ⟨.asked left s, sent⟩ => ⟨.answered left s (reply (j.request s)), sent⟩
  | ⟨.answered left s reply, sent⟩ => ⟨j.settle left s reply, sent⟩
  | ⟨.retrying left attempt s, sent⟩ => ⟨resume waits left attempt s, sent⟩
  | ⟨.ended r, sent⟩ => ⟨.ended r, sent⟩

/-- What the next step of a page does to the world. -/
def effect (sender : Sender σ) (w : World σ) : Stage → World σ
  | .asked _ s => (sender.send (j.request s) w).2
  | .answered left s reply => { w with log := w.log ++ j.lines left s reply }
  | .retrying _ attempt _ => (pause sender attempt w).2
  | .queued _ | .ready _ _ | .ended _ => w

/-- The next step of a page in a world. -/
def advance (sender : Sender σ) (c : Process × World σ) : Process × World σ :=
  (j.next sender.waits (fun r => (sender.send r c.2).1) c.1, j.effect sender c.2 c.1.stage)

end Job

theorem resume_eq (sender : Sender σ) (left attempt : Nat) (s : Progress) (w : World σ) :
    Job.resume sender.waits left attempt s =
      match (pause sender attempt w).1 with
      | .error f => .ended (.error f)
      | .ok _ => .ready left s := by
  rw [Job.resume, pause]
  cases sender.waits with
  | false => rfl
  | true => cases Backoff.seconds attempt <;> simp

namespace Job

variable (j : Job)

/-- A page in one go settles what to do with the answer to its first request. -/
theorem page_eq {sender : Sender σ} {s : Progress} {w w₁ : World σ} {reply : Result Fields}
    (hsend : sender.send (j.request s) w = (reply, w₁)) (left : Nat) :
    j.page sender left s w =
      match j.settle left s reply with
      | .ended r => (r, { w₁ with log := w₁.log ++ j.lines left s reply })
      | .retrying left' attempt s' =>
        match pause sender attempt { w₁ with log := w₁.log ++ j.lines left s reply } with
        | (.ok _, w₃) => j.page sender left' s' w₃
        | (.error f, w₃) => (.error f, w₃)
      | _ => (.ok [], w₁) := by
  rw [request] at hsend
  rw [page, BatchGet.page]
  simp only [Session.bind_apply, settle, lines, hsend]
  cases reply with
  | error f => simp
  | ok reply =>
    cases hafter : s.after j.table reply with
    | error f => simp [hafter]
    | ok s' =>
      by_cases hempty : s'.pending.isEmpty
      · simp [hafter, hempty]
      · cases left with
        | zero =>
          by_cases hthrow : j.params.throwOnUnprocessed.truthy <;>
            simp [hafter, hempty, outcomeOf, hthrow]
        | succ left =>
          simp only [Session.lift_apply, Result.ok_bind, hafter, hempty, Bool.false_eq_true, if_false,
            Session.bind_apply, Session.log_apply]
          rcases pause sender s.attempt _ with ⟨_ | _, _⟩ <;> rfl

theorem settle_cases (left : Nat) (s : Progress) (reply : Result Fields) :
    (∃ r, j.settle left s reply = .ended r) ∨
      ∃ left' attempt s', left = left' + 1 ∧ j.settle left s reply = .retrying left' attempt s' := by
  rw [settle]
  split
  · exact .inl ⟨_, rfl⟩
  · split
    · exact .inl ⟨_, rfl⟩
    · cases left with
      | zero => exact .inl ⟨_, rfl⟩
      | succ left => exact .inr ⟨left, _, _, rfl, rfl⟩

/-- From its request to what comes of the answer a page takes three steps. -/
theorem three_steps {sender : Sender σ} {s : Progress} {w w₁ : World σ} {reply : Result Fields}
    (hsend : sender.send (j.request s) w = (reply, w₁)) (left : Nat) (sent : List Fields) :
    (j.advance sender)^[3] (⟨.ready left s, sent⟩, w) =
      (⟨j.settle left s reply, sent ++ [j.request s]⟩,
        { w₁ with log := w₁.log ++ j.lines left s reply }) := by
  simp [advance, next, effect, hsend]

/-- Step by step a page comes to where it comes to in one go. -/
theorem page_steps (sender : Sender σ) (left : Nat) (s : Progress) (sent : List Fields)
    (w : World σ) :
    ∃ k sent', (j.advance sender)^[k] (⟨.ready left s, sent⟩, w) =
      (⟨.ended (j.page sender left s w).1, sent'⟩, (j.page sender left s w).2) := by
  induction left generalizing s sent w with
  | zero =>
    rcases hsend : sender.send (j.request s) w with ⟨reply, w₁⟩
    obtain ⟨r, hr⟩ | ⟨left', _, _, hleft, -⟩ := j.settle_cases 0 s reply
    · refine ⟨3, sent ++ [j.request s], ?_⟩
      rw [j.three_steps hsend, j.page_eq hsend, hr]
    · omega
  | succ left ih =>
    rcases hsend : sender.send (j.request s) w with ⟨reply, w₁⟩
    obtain ⟨r, hr⟩ | ⟨left', attempt, s', hleft, hretry⟩ := j.settle_cases (left + 1) s reply
    · refine ⟨3, sent ++ [j.request s], ?_⟩
      rw [j.three_steps hsend, j.page_eq hsend, hr]
    · obtain rfl : left' = left := by omega
      have hthree := j.three_steps hsend (left' + 1) sent
      rw [hretry] at hthree
      have hresume := resume_eq sender left' attempt s'
        { w₁ with log := w₁.log ++ j.lines (left' + 1) s reply }
      have hpage := j.page_eq hsend (left' + 1)
      simp only [hretry] at hpage
      rcases hpause : pause sender attempt { w₁ with log := w₁.log ++ j.lines (left' + 1) s reply }
        with ⟨waited, w₃⟩
      have hfour : (j.advance sender)^[4] (⟨.ready (left' + 1) s, sent⟩, w) =
          (⟨resume sender.waits left' attempt s', sent ++ [j.request s]⟩, w₃) := by
        rw [Function.iterate_succ_apply', hthree, advance, effect, hpause, next]
      rw [hpause] at hresume hpage
      cases waited with
      | error f =>
        refine ⟨4, sent ++ [j.request s], ?_⟩
        rw [hfour, hresume, hpage]
      | ok u =>
        obtain ⟨k, sent', hk⟩ := ih s' (sent ++ [j.request s]) w₃
        refine ⟨k + 4, sent', ?_⟩
        rw [Function.iterate_add_apply, hfour, hresume, hpage]
        exact hk

/-- A page alone with a client that answers by the requests which it has had so far. -/
def alone (waits : Bool) (answer : List Fields → Result Fields) (c : Process) : Process :=
  j.next waits (fun _ => answer c.sent) c

end Job

/-- A sender that answers by the requests which it has had so far. -/
def only (waits : Bool) (answer : List Fields → Result Fields) : Sender (List Fields) where
  waits := waits
  send request := fun w =>
    (answer (w.client ++ [request]), { w with client := w.client ++ [request] })

theorem pause_client (sender : Sender σ) (attempt : Nat) (w : World σ) :
    (pause sender attempt w).2.client = w.client := by
  rw [pause]
  cases sender.waits with
  | false => rfl
  | true => cases Backoff.seconds attempt <;> simp

namespace Job

variable (j : Job)

/-- Requests that a page has sent and that are not answered yet. -/
def underway : Stage → List Fields
  | .asked _ s => [j.request s]
  | _ => []

/-- Has the client had just the requests of a page that are answered? -/
def Heard (c : Process) (heard : List Fields) : Prop := c.sent = heard ++ j.underway c.stage

theorem underway_settle (left : Nat) (s : Progress) (reply : Result Fields) :
    j.underway (j.settle left s reply) = [] := by
  obtain ⟨r, hr⟩ | ⟨_, _, _, -, hr⟩ := j.settle_cases left s reply <;> rw [hr] <;> rfl

theorem resume_cases (waits : Bool) (left attempt : Nat) (s : Progress) :
    (∃ f, resume waits left attempt s = .ended (.error f)) ∨
      resume waits left attempt s = .ready left s := by
  rw [resume]
  cases waits with
  | false => exact .inr rfl
  | true => cases Backoff.seconds attempt <;> simp

theorem underway_resume (waits : Bool) (left attempt : Nat) (s : Progress) :
    j.underway (resume waits left attempt s) = [] := by
  obtain ⟨f, hf⟩ | hready := resume_cases waits left attempt s
  · rw [hf]
    rfl
  · rw [hready]
    rfl

/-- What a page has sent before a step, the client has had after it. -/
theorem heard_next (waits : Bool) (reply : Fields → Result Fields) (c : Process) :
    j.Heard (j.next waits reply c) c.sent := by
  obtain ⟨stage, sent⟩ := c
  cases stage with
  | answered left s reply => simp [Heard, next, underway_settle]
  | retrying left attempt s => simp [Heard, next, underway_resume]
  | _ => simp [Heard, next, underway]

theorem client_effect_only (waits : Bool) (answer : List Fields → Result Fields)
    (w : World (List Fields)) (stage : Stage) :
    (j.effect (only waits answer) w stage).client = w.client ++ j.underway stage := by
  cases stage <;> simp [effect, underway, only, pause_client]

/-- With a sender of its own a page takes the steps that it takes alone. -/
theorem advance_only (waits : Bool) (answer : List Fields → Result Fields)
    {c : Process × World (List Fields)} (h : j.Heard c.1 c.2.client) :
    (j.advance (only waits answer) c).1 = j.alone waits answer c.1 ∧
      j.Heard (j.advance (only waits answer) c).1 (j.advance (only waits answer) c).2.client := by
  obtain ⟨⟨stage, sent⟩, w⟩ := c
  refine ⟨?_, ?_⟩
  · cases stage with
    | asked left s =>
      obtain rfl : sent = w.client ++ [j.request s] := h
      rfl
    | _ => rfl
  · rw [advance, client_effect_only, ← h]
    exact j.heard_next _ _ _

theorem advance_only_iterate (waits : Bool) (answer : List Fields → Result Fields) (k : Nat)
    {c : Process × World (List Fields)} (h : j.Heard c.1 c.2.client) :
    ((j.advance (only waits answer))^[k] c).1 = (j.alone waits answer)^[k] c.1 ∧
      j.Heard ((j.advance (only waits answer))^[k] c).1
        ((j.advance (only waits answer))^[k] c).2.client := by
  induction k with
  | zero => exact ⟨rfl, h⟩
  | succ k ih =>
    obtain ⟨hstep, hheard⟩ := j.advance_only waits answer ih.2
    rw [Function.iterate_succ_apply', Function.iterate_succ_apply', ← ih.1]
    exact ⟨hstep, hheard⟩

/-- The outcome of a page alone and the requests that it sends. -/
def aloneRun (waits : Bool) (answer : List Fields → Result Fields) (keys : List Value) :
    Result (List Value) × List Fields :=
  let run := j.page (only waits answer) j.left (.start keys) ⟨[], [], []⟩
  (run.1, run.2.client)

/-- Alone, a page comes to its end. -/
theorem alone_ends (waits : Bool) (answer : List Fields → Result Fields) (keys : List Value) :
    ∃ k, (j.alone waits answer)^[k] ⟨.queued keys, []⟩ =
      ⟨.ended (j.aloneRun waits answer keys).1, (j.aloneRun waits answer keys).2⟩ := by
  obtain ⟨k, sent, hk⟩ :=
    j.page_steps (only waits answer) j.left (.start keys) [] ⟨[], [], []⟩
  have hnone : j.Heard ⟨.ready j.left (.start keys), []⟩ [] := rfl
  obtain ⟨hsteps, hheard⟩ := j.advance_only_iterate waits answer k
    (c := (⟨.ready j.left (.start keys), []⟩, ⟨[], [], []⟩)) hnone
  rw [hk] at hsteps hheard
  have hsent : sent = (j.aloneRun waits answer keys).2 := by
    simpa [Heard, underway, aloneRun] using hheard
  refine ⟨k + 1, ?_⟩
  rw [Function.iterate_succ_apply]
  exact hsteps.symm.trans (congrArg (Process.mk _) hsent)

theorem sent_prefix_next (waits : Bool) (reply : Fields → Result Fields) (c : Process) :
    c.sent <+: (j.next waits reply c).sent :=
  ⟨_, (j.heard_next waits reply c).symm⟩

/-- The number of steps that a page takes at most until it ends. -/
def rank : Stage → Nat
  | .queued _ => 4 * j.left + 4
  | .ready left _ => 4 * left + 3
  | .asked left _ => 4 * left + 2
  | .answered left _ _ => 4 * left + 1
  | .retrying left _ _ => 4 * left + 4
  | .ended _ => 0

theorem rank_next (waits : Bool) (reply : Fields → Result Fields) {c : Process}
    (h : ∀ r, c.stage ≠ .ended r) : j.rank (j.next waits reply c).stage < j.rank c.stage := by
  obtain ⟨stage, sent⟩ := c
  cases stage with
  | queued keys => simp [next, rank]
  | ready left s => simp [next, rank]
  | asked left s => simp [next, rank]
  | answered left s reply =>
    obtain ⟨r, hr⟩ | ⟨left', attempt, s', rfl, hr⟩ := j.settle_cases left s reply
    · simp [next, rank, hr]
    · simp only [next, rank, hr]
      omega
  | retrying left attempt s =>
    obtain ⟨f, hf⟩ | hready := resume_cases waits left attempt s
    · simp [next, rank, hf]
    · simp [next, rank, hready]
  | ended r => exact absurd rfl (h r)

end Job

end TableGateway.BatchGet
