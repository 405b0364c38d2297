import TableGateway.Proofs.Calls
import TableGateway.Proofs.Schedules
import TableGateway.Proofs.Targets

/-!
# Schedules of both targets

Whatever the order of their steps, the pages of a batch take the same ones with either target: they come
to the same places, send the same requests and leave the same world behind. Only an answer that a page
has not settled yet may have rows of keys with the low-level target which it has not with the other.
-/
namespace TableGateway

open Marshalling

variable {σ : Type}

namespace BatchGet

/-- A stage with all rows of keys in the answer that it holds, if any. -/
def Stage.filled : Stage → Stage
  | .answered left s reply => .answered left s (Marshalling.filled <$> reply)
  | stage => stage

/-- Are the keys normal that are still to be asked for, or the values of the answer to be settled? -/
def Stage.Normal : Stage → Prop
  | .queued keys => ∀ k ∈ keys, k.NormalMap
  | .ready _ s | .asked _ s | .retrying _ _ s => s.Normal
  | .answered _ _ reply => ∀ r, reply = .ok r → NormalReply r
  | .ended _ => True

def Process.filled (c : Process) : Process := ⟨c.stage.filled, c.sent⟩

@[simp] theorem Stage.filled_answered (left : Nat) (s : Progress) (reply : Result Fields) :
    (Stage.answered left s reply).filled = .answered left s (Marshalling.filled <$> reply) := rfl

@[simp] theorem Process.isQueued_filled (c : Process) : c.filled.isQueued = c.isQueued := by
  obtain ⟨stage, sent⟩ := c
  cases stage <;> rfl

@[simp] theorem Process.hasEnded_filled (c : Process) : c.filled.hasEnded = c.hasEnded := by
  obtain ⟨stage, sent⟩ := c
  cases stage <;> rfl

@[simp] theorem Process.isRunning_filled (c : Process) : c.filled.isRunning = c.isRunning := by
  simp [Process.isRunning]

namespace Job

variable (j : Job)

theorem after_reply_filled (s : Progress) (reply : Result Fields) :
    (Marshalling.filled <$> reply >>= fun r => s.after j.table r) =
      reply >>= fun r => s.after j.table r := by
  cases reply with
  | error f => rfl
  | ok r => exact after_filled j.table r s

/-- A page settles on a filled answer as on the answer itself. -/
theorem settle_filled (left : Nat) (s : Progress) (reply : Result Fields) :
    j.settle left s (Marshalling.filled <$> reply) = j.settle left s reply := by
  rw [settle, after_reply_filled, settle]

theorem lines_filled (left : Nat) (s : Progress) (reply : Result Fields) :
    j.lines left s (Marshalling.filled <$> reply) = j.lines left s reply := by
  rw [lines, after_reply_filled, lines]

/-- What a page settles holds no answer. -/
theorem filled_settle (left : Nat) (s : Progress) (reply : Result Fields) :
    (j.settle left s reply).filled = j.settle left s reply := by
  obtain ⟨r, hr⟩ | ⟨left', attempt, s', -, hr⟩ := j.settle_cases left s reply <;> rw [hr] <;> rfl

theorem settle_normal (left : Nat) (s : Progress) {reply : Result Fields}
    (h : ∀ r, reply = .ok r → NormalReply r) : (j.settle left s reply).Normal := by
  rw [settle]
  split
  · trivial
  · rename_i s' hafter
    obtain ⟨r, hr, hafter⟩ := Result.bind_eq_ok.mp hafter
    split
    · trivial
    · cases left with
      | zero => trivial
      | succ left => exact (h r hr).after hafter

theorem filled_resume (waits : Bool) (left attempt : Nat) (s : Progress) :
    (resume waits left attempt s).filled = resume waits left attempt s := by
  obtain ⟨f, hf⟩ | hready := resume_cases waits left attempt s
  · rw [hf]
    rfl
  · rw [hready]
    rfl

/-- A page goes on with keys that are in normal form. -/
theorem resume_normal (waits : Bool) (left attempt : Nat) {s : Progress} (h : s.Normal) :
    (resume waits left attempt s).Normal := by
  obtain ⟨f, hf⟩ | hready := resume_cases waits left attempt s
  · rw [hf]
    trivial
  · rw [hready]
    exact h

end Job

def Pool.filled (S : Pool σ) : Pool σ := ⟨S.processes.map Process.filled, S.world⟩

/-- Are the keys of all pages in normal form? -/
def Pool.Normal (S : Pool σ) : Prop := ∀ c ∈ S.processes, c.stage.Normal

theorem Pool.running_filled (S : Pool σ) : S.filled.running = S.running := by
  rw [Pool.running, Pool.filled, List.countP_map, Pool.running]
  exact List.countP_congr fun c _ => by simp

section Targets

variable {client : Client σ} (hclient : client.AnswersNormally) (logCalls : Value) (waits : Bool)
  (maxWorkers : Value) {j : Job} (hbase : Entries.has j.base keysField = false)

include hclient hbase

/-- A step of a page is the same with either target, and leaves it with normal values. -/
theorem Job.advance_filled {c : Process} (hc : c.stage.Normal) (w : World σ) :
    let next := j.advance (Provider.native client logCalls waits maxWorkers).sender (c, w)
    j.advance (Provider.lowLevel client logCalls waits maxWorkers).sender (c.filled, w) =
        (next.1.filled, next.2) ∧ next.1.stage.Normal := by
  obtain ⟨stage, sent⟩ := c
  cases stage with
  | queued keys => exact ⟨rfl, hc⟩
  | ready left s => exact ⟨rfl, hc⟩
  | asked left s =>
    rcases Executor.call_cases hclient logCalls .batchGetItem
      (BatchGet.normal_request hbase j.table hc) w with
      ⟨fault, w', hnative, hlow⟩ | ⟨reply, w', hreply, hnative, hlow⟩
    · simp [Job.advance, Job.next, Job.effect, Process.filled, Stage.filled, Provider.sender,
        Provider.native, Provider.lowLevel, Job.request, hnative, hlow, Stage.Normal]
    · simp [Job.advance, Job.next, Job.effect, Process.filled, Stage.filled, Provider.sender,
        Provider.native, Provider.lowLevel, Job.request, hnative, hlow, Stage.Normal, hreply]
  | answered left s reply =>
    refine ⟨?_, j.settle_normal left s hc⟩
    simp only [Job.advance, Job.next, Job.effect, Process.filled, Stage.filled_answered,
      j.settle_filled, j.lines_filled, j.filled_settle]
  | retrying left attempt s =>
    refine ⟨?_, Job.resume_normal _ left attempt hc⟩
    have hresume := Job.filled_resume waits left attempt s
    rw [Job.advance, Job.advance, Job.next, Process.filled]
    exact Prod.ext (congrArg (Process.mk · sent) hresume.symm) rfl
  | ended r => exact ⟨rfl, trivial⟩

variable {workers steps : Nat} {S T : Pool σ}

/-- One step of a page is the same step in both shapes, and leaves the pool in normal form. -/
theorem Pool.moved_filled (hS : S.Normal) {i : Nat} {c : Process} (hc : S.processes[i]? = some c) :
    let T := S.moved j (fun _ => (Provider.native client logCalls waits maxWorkers).sender) i c
    S.filled.moved j (fun _ => (Provider.lowLevel client logCalls waits maxWorkers).sender) i
      c.filled = T.filled ∧ T.Normal := by
  obtain ⟨hstep, hnormal⟩ := Job.advance_filled hclient logCalls waits maxWorkers hbase
    (hS c (List.mem_of_getElem? hc)) S.world
  refine ⟨?_, fun d hd => ?_⟩
  · have hlow : j.advance (Provider.lowLevel client logCalls waits maxWorkers).sender
        (c.filled, S.filled.world) = _ := hstep
    rw [Pool.moved, hlow, Pool.moved, Pool.filled, Pool.filled, List.map_set]
  · rcases List.mem_or_eq_of_mem_set hd with hd | rfl
    · exact hS d hd
    · exact hnormal

/-- Step by step the pool of the low-level target follows that of the other. -/
theorem Pool.Step.filled (hS : S.Normal)
    (h : Pool.Step j (fun _ => (Provider.native client logCalls waits maxWorkers).sender) workers
      S T) :
    Pool.Step j (fun _ => (Provider.lowLevel client logCalls waits maxWorkers).sender) workers
      S.filled T.filled ∧ T.Normal := by
  cases h with
  | @move i c there goesOn worker =>
    obtain ⟨hmoved, hnormal⟩ :=
      Pool.moved_filled hclient logCalls waits maxWorkers hbase hS there
    refine ⟨?_, hnormal⟩
    rw [← hmoved]
    refine .move ?_ ?_ fun hqueued => ?_
    · rw [Pool.filled, List.getElem?_map, there, Option.map_some]
    · rw [Process.hasEnded_filled, goesOn]
    · rw [Pool.running_filled]
      exact worker (by rwa [Process.isQueued_filled] at hqueued)

/-- Each run with native values is one in attribute values, step by step. -/
theorem Pool.Runs.filled (hS : S.Normal)
    (h : Pool.Runs j (fun _ => (Provider.native client logCalls waits maxWorkers).sender) workers
      steps S T) :
    Pool.Runs j (fun _ => (Provider.lowLevel client logCalls waits maxWorkers).sender) workers steps
      S.filled T.filled ∧ T.Normal := by
  induction h with
  | none => exact ⟨.none, hS⟩
  | more _ hstep ih =>
    obtain ⟨hruns, hT⟩ := ih hS
    obtain ⟨hmoved, hU⟩ := Pool.Step.filled hclient logCalls waits maxWorkers hbase hT hstep
    exact ⟨hruns.more hmoved, hU⟩

end Targets

end BatchGet

theorem Client.AnswersNormally.recorded {client : Client σ} (h : client.AnswersNormally) :
    client.recorded.AnswersNormally := fun call s => h call s.1

namespace Provider

end Provider

end TableGateway
