import TableGateway.Session.BatchGet

/-!
# Exchanges of a batch

A sender can keep a record of its exchanges: each request with the answer to it and the waits made
before. The record is an addition to the state of the client and has no part in what a batch does.
-/
namespace TableGateway

namespace Session

variable {σ : Type}

@[simp] theorem ask_apply (client : Client σ) (call : Call) (w : World σ) :
    ask client call w =
      ((client.answer call w.client).1, { w with client := (client.answer call w.client).2 }) := rfl

@[simp] theorem log_apply (level : Level) (source : Source) (message : Text) (w : World σ) :
    log level source message w = (.ok (), { w with log := w.log ++ [⟨level, source, message⟩] }) :=
  rfl

@[simp] theorem wait_apply (seconds : Binary64) (w : World σ) :
    wait seconds w = (.ok (), { w with waits := w.waits ++ [seconds] }) := rfl

@[simp] theorem outcome_apply {α : Type} (x : Session σ α) (w : World σ) :
    outcome x w = (.ok (x w).1, (x w).2) := rfl

end Session

namespace BatchGet

variable {σ α β : Type}

/-- A request, its answer and the waits before it. -/
structure Exchange where
  request : Fields
  answer : Result Fields
  waited : List Binary64

/-- The world without the record. -/
def unrecorded (w : World (σ × List Exchange)) : World σ := ⟨w.client.1, w.waits, w.log⟩

/-- The world with a record in which nothing stands yet. -/
def withRecord (w : World σ) : World (σ × List Exchange) := ⟨(w.client, []), w.waits, w.log⟩

/-- A sender that keeps what goes through it beside its client. -/
def Sender.recorded (sender : Sender σ) : Sender (σ × List Exchange) where
  waits := sender.waits
  send request := fun w =>
    let (answer, w') := sender.send request (unrecorded w)
    (answer, ⟨(w'.client, w.client.2 ++ [⟨request, answer, w.waits⟩]), w'.waits, w'.log⟩)

/-- Does a session with a record do what the other one does? -/
def Agrees (x : Session (σ × List Exchange) α) (y : Session σ α) : Prop :=
  ∀ w, y (unrecorded w) = ((x w).1, unrecorded (x w).2)

/-- Recording a chain is recording its steps. -/
theorem agrees_bind {x : Session (σ × List Exchange) α} {y : Session σ α}
    {f : α → Session (σ × List Exchange) β} {g : α → Session σ β} (h : Agrees x y)
    (hf : ∀ a, Agrees (f a) (g a)) : Agrees (x >>= f) (y >>= g) := by
  intro w
  rw [Session.bind_apply, Session.bind_apply, h w]
  rcases x w with ⟨r, w'⟩
  cases r with
  | ok a => exact hf a w'
  | error e => rfl

theorem agrees_pure (a : α) : Agrees (σ := σ) (pure a) (pure a) := fun _ => rfl

theorem agrees_lift (r : Result α) : Agrees (σ := σ) (Session.lift r) (Session.lift r) :=
  fun _ => rfl

theorem agrees_fail (f : Fault) : Agrees (σ := σ) (Session.fail f : Session _ α) (Session.fail f) :=
  fun _ => rfl

theorem agrees_log (level : Level) (source : Source) (message : Text) :
    Agrees (σ := σ) (Session.log level source message) (Session.log level source message) :=
  fun _ => rfl

theorem agrees_outcome {x : Session (σ × List Exchange) α} {y : Session σ α} (h : Agrees x y) :
    Agrees (Session.outcome x) (Session.outcome y) := by
  intro w
  simp [h w]

theorem agrees_send (sender : Sender σ) (request : Fields) :
    Agrees (sender.recorded.send request) (sender.send request) := fun _ => rfl

theorem agrees_pause (sender : Sender σ) (attempt : Nat) :
    Agrees (pause sender.recorded attempt) (pause sender attempt) := by
  intro w
  cases hw : sender.waits with
  | false => simp [pause, Sender.recorded, hw]
  | true =>
    cases hs : Backoff.seconds attempt <;> simp [pause, Sender.recorded, hw, hs, unrecorded]

/-- A page goes on recorded as it does alone. -/
theorem agrees_page (sender : Sender σ) (p : BatchGetParams) (table : Text) (base : Fields)
    (left : Nat) (s : Progress) :
    Agrees (page sender.recorded p table base left s) (page sender p table base left s) := by
  induction left generalizing s with
  | zero =>
    rw [page, page]
    refine agrees_bind (agrees_send _ _) fun reply => agrees_bind (agrees_lift _) fun s' => ?_
    split
    · exact agrees_pure _
    · refine agrees_bind (agrees_log _ _ _) fun _ => ?_
      split
      · exact agrees_fail _
      · exact agrees_pure _
  | succ left ih =>
    rw [page, page]
    refine agrees_bind (agrees_send _ _) fun reply => agrees_bind (agrees_lift _) fun s' => ?_
    split
    · exact agrees_pure _
    · exact agrees_bind (agrees_log _ _ _) fun _ => agrees_bind (agrees_pause _ _) fun _ => ih s'

/-- So do all pages of a batch. -/
theorem agrees_pages (sender : Sender σ) (p : BatchGetParams) (table : Text) (base : Fields)
    (left : Nat) (slices : List (List Value)) :
    Agrees (pages sender.recorded p table base left slices)
      (pages sender p table base left slices) := by
  induction slices with
  | nil => exact agrees_pure _
  | cons keys rest ih =>
    rw [pages, pages]
    exact agrees_bind (agrees_outcome (agrees_page _ _ _ _ _ _)) fun r =>
      agrees_bind ih fun rs => agrees_pure _

/-- A batch goes on in the same way whether its exchanges are recorded or not. -/
theorem agrees_run (sender : Sender σ) (maxWorkers : Value) (p : BatchGetParams) :
    Agrees (run sender.recorded maxWorkers p) (run sender maxWorkers p) := by
  rw [run, run]
  refine agrees_bind (agrees_lift _) fun _ => ?_
  split
  · exact agrees_pure _
  · refine agrees_bind (agrees_lift _) fun base => agrees_bind (agrees_lift _) fun keys =>
      agrees_bind (agrees_lift _) fun table =>
        agrees_bind (agrees_pages _ _ _ _ _ _) fun outcomes => ?_
    exact agrees_lift _

end BatchGet

end TableGateway
