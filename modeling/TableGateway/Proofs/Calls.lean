import TableGateway.Proofs.Exchange
import TableGateway.Proofs.Outcomes
import TableGateway.Session.Provider

/-!
# Calls of a client

An executor hands its client a call in the form that the client wants, and takes the answer for what
it means in that form. A client can keep a record of the calls that it has been asked; the record has no
part in its answers.
-/
namespace TableGateway

variable {σ : Type}

/-- A client with every call that it has been asked, in their order. -/
def Client.recorded (client : Client σ) : Client (σ × List Call) where
  answer call s :=
    let (reply, s') := client.answer call s.1
    (reply, (s', s.2 ++ [call]))

theorem logCall_apply (x : Executor σ) (c : Call) (w : World σ) :
    ∃ log, x.logCall c w = (.ok (), { w with log := log }) := by
  by_cases h : x.logCalls.truthy = true
  · exact ⟨_, by rw [Executor.logCall, if_pos h, Session.log_apply]⟩
  · exact ⟨w.log, by rw [Executor.logCall, if_neg h, Session.pure_apply]⟩

namespace Executor

/-- The request as the client is handed it, if it has such a form. -/
def wire (x : Executor σ) (request : Fields) : Result Fields :=
  match x.target with
  | .resource => .ok request
  | .client => Marshalling.request request

/-- What an answer of the client means. -/
def taken (x : Executor σ) (reply : Fields) : Result Fields :=
  match x.target with
  | .resource => .ok reply
  | .client => Marshalling.answer reply

/-- The executor with a client that keeps a record of its calls. -/
def recorded (x : Executor σ) : Executor (σ × List Call) := { x with client := x.client.recorded }

@[simp] theorem recorded_wire (x : Executor σ) : x.recorded.wire = x.wire := rfl

@[simp] theorem recorded_taken (x : Executor σ) : x.recorded.taken = x.taken := rfl

theorem call_of_wire_error {x : Executor σ} {request : Fields} {f : Fault}
    (h : x.wire request = .error f) (method : Method) (w : World σ) :
    ∃ log, x.call method request w = (.error f, { w with log := log }) := by
  obtain ⟨log, hlog⟩ := logCall_apply x ⟨method, request⟩ w
  refine ⟨log, ?_⟩
  rw [call, Session.bind_apply, hlog, send]
  rw [wire] at h
  cases htarget : x.target with
  | resource => simp [htarget] at h
  | client =>
    rw [htarget] at h
    simp [h]

theorem call_of_wire_ok {x : Executor σ} {request sent : Fields} (h : x.wire request = .ok sent)
    (method : Method) (w : World σ) :
    ∃ log, x.call method request w =
      ((x.client.answer ⟨method, sent⟩ w.client).1 >>= x.taken,
        ⟨(x.client.answer ⟨method, sent⟩ w.client).2, w.waits, log⟩) := by
  obtain ⟨log, hlog⟩ := logCall_apply x ⟨method, request⟩ w
  refine ⟨log, ?_⟩
  rw [call, Session.bind_apply, hlog, send]
  rw [wire] at h
  cases htarget : x.target with
  | resource =>
    rw [htarget] at h
    obtain rfl := Except.ok.inj h
    have htaken : x.taken = Except.ok := by
      funext reply
      rw [taken, htarget]
    rw [htaken, Result.bind_ok]
    rfl
  | client =>
    rw [htarget] at h
    have htaken : x.taken = Marshalling.answer := by
      funext reply
      rw [taken, htarget]
    simp only [Session.bind_apply, Session.lift_apply, h, Session.ask_apply, htaken]
    cases (x.client.answer ⟨method, sent⟩ w.client).1 <;> rfl

/-- A call stands in the record in the form in which the client was handed it. -/
theorem recorded_call (x : Executor σ) (method : Method) (request : Fields)
    (w : World (σ × List Call)) :
    (x.recorded.call method request w).2.client.2 =
      w.client.2 ++ (x.wire request).toOption.toList.map (Call.mk method) := by
  cases h : x.wire request with
  | error f =>
    obtain ⟨log, hcall⟩ := call_of_wire_error (x := x.recorded) h method w
    rw [hcall]
    simp [Except.toOption]
  | ok sent =>
    obtain ⟨log, hcall⟩ := call_of_wire_ok (x := x.recorded) h method w
    rw [hcall]
    simp [Except.toOption, recorded, Client.recorded]

end Executor

/-- The provider with a client that keeps a record of its calls. -/
def Provider.recorded (d : Provider σ) : Provider (σ × List Call) :=
  { d with executor := d.executor.recorded }

end TableGateway
