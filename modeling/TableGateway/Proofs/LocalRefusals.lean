import TableGateway.Proofs.Calls
import TableGateway.Proofs.Unrefused
import TableGateway.Session.Invocation

/-!
# Refusals come before calls

An operation checks what its caller asks for, and only then calls its client. After the first call
nothing is refused any more: what can go wrong there are answers and how they are read. So an operation
that ends in a refusal has left the client alone. A transaction makes one call, or none.
-/
namespace TableGateway

variable {σ α β : Type}

/-- A client whose faults are no refusals of the gateway. -/
def Client.NeverRefuses (client : Client σ) : Prop := ∀ call s, Unrefused (client.answer call s).1

theorem Client.NeverRefuses.recorded {client : Client σ} (h : client.NeverRefuses) :
    client.recorded.NeverRefuses := fun call s => h call s.1

namespace Session

/-- Does a session leave the client alone? -/
def Local (x : Session σ α) : Prop := ∀ w, (x w).2.client = w.client

/-- Does a session end in no refusal? -/
def Unrefused (x : Session σ α) : Prop := ∀ w, TableGateway.Unrefused (x w).1

/-- Does a session that ends in a refusal leave the client alone? -/
def RefusesFirst (x : Session σ α) : Prop :=
  ∀ w f, (x w).1 = .error f → f.isRefusal = true → (x w).2.client = w.client

namespace Unrefused

theorem bind_of_ok {x : Session σ α} {g : α → Session σ β} (h : x.Unrefused)
    (hg : ∀ w a, (x w).1 = .ok a → (g a).Unrefused) : (x >>= g).Unrefused := by
  intro w
  rw [bind_apply]
  have hx := h w
  have hok := hg w
  rcases hrun : x w with ⟨r, w'⟩
  rw [hrun] at hx hok
  cases r with
  | ok a => exact hok a rfl w'
  | error f => exact .error (hx f rfl)

theorem bind {x : Session σ α} {g : α → Session σ β} (h : x.Unrefused) (hg : ∀ a, (g a).Unrefused) :
    (x >>= g).Unrefused := h.bind_of_ok fun _ a _ => hg a

theorem pure (a : α) : (Pure.pure a : Session σ α).Unrefused := fun _ => .ok a

theorem lift {r : Result α} (h : TableGateway.Unrefused r) : (Session.lift r : Session σ α).Unrefused :=
  fun _ => h

theorem fail {f : Fault} (h : f.isRefusal = false) : (Session.fail f : Session σ α).Unrefused :=
  fun _ => .error h

theorem log (level : Level) (source : Source) (message : Text) :
    (Session.log level source message : Session σ Unit).Unrefused := fun _ => .ok ()

theorem wait (seconds : Binary64) : (Session.wait seconds : Session σ Unit).Unrefused := fun _ => .ok ()

theorem outcome (x : Session σ α) : x.outcome.Unrefused := fun _ => .ok _

theorem ite {c : Prop} [Decidable c] {x y : Session σ α} (hx : x.Unrefused) (hy : y.Unrefused) :
    (if c then x else y).Unrefused := by
  split
  · exact hx
  · exact hy

/-- A call is refused by nobody: not by the marshalling, not by the client, not by the reading of
the answer. -/
theorem call {x : Executor σ} (h : x.client.NeverRefuses) (method : Method) (request : Fields) :
    (x.call method request).Unrefused := by
  intro w
  cases hwire : x.wire request with
  | error f =>
    obtain ⟨log, hcall⟩ := Executor.call_of_wire_error hwire method w
    rw [hcall]
    refine .error ?_
    cases htarget : x.target with
    | resource => simp [Executor.wire, htarget] at hwire
    | client =>
      rw [Executor.wire, htarget] at hwire
      exact Marshalling.unrefused_request request f hwire
  | ok sent =>
    obtain ⟨log, hcall⟩ := Executor.call_of_wire_ok hwire method w
    rw [hcall]
    refine (h _ _).bind fun reply => ?_
    rw [Executor.taken]
    split
    · exact .ok reply
    · exact Marshalling.unrefused_answer reply

end Unrefused

namespace RefusesFirst

/-- A session that refuses nothing has nothing to refuse too late. -/
theorem of_unrefused {x : Session σ α} (h : x.Unrefused) : x.RefusesFirst := fun w f hf hrefusal => by
  rw [h w f hf] at hrefusal
  cases hrefusal

theorem of_local {x : Session σ α} (h : x.Local) : x.RefusesFirst := fun w _ _ _ => h w

/-- What is done without the client may come before any session that refuses first. -/
theorem local_bind {x : Session σ α} {g : α → Session σ β} (h : x.Local)
    (hg : ∀ a, (g a).RefusesFirst) : (x >>= g).RefusesFirst := by
  intro w f
  rw [bind_apply]
  have hx := h w
  rcases hrun : x w with ⟨r, w'⟩
  rw [hrun] at hx
  cases r with
  | ok a =>
    intro hf hrefusal
    exact (hg a w' f hf hrefusal).trans hx
  | error f => exact fun _ _ => hx

theorem lift_bind {r : Result α} {g : α → Session σ β} (hg : ∀ a, (g a).RefusesFirst) :
    (Session.lift r >>= g).RefusesFirst := local_bind (fun _ => rfl) hg

theorem lift (r : Result α) : (Session.lift r : Session σ α).RefusesFirst := of_local fun _ => rfl

theorem pure (a : α) : (Pure.pure a : Session σ α).RefusesFirst := of_local fun _ => rfl

theorem map {x : Session σ α} (h : x.RefusesFirst) (g : α → β) : (g <$> x).RefusesFirst := by
  intro w f
  have hx := h w
  change ((x >>= fun a => Pure.pure (g a)) w).1 = _ → _ → ((x >>= fun a => Pure.pure (g a)) w).2.client = _
  rw [bind_apply]
  rcases hrun : x w with ⟨r, w'⟩
  rw [hrun] at hx
  cases r with
  | ok a => exact fun hf => nomatch hf
  | error f' =>
    intro hf
    obtain rfl := Except.error.inj hf
    exact hx f' rfl

end RefusesFirst

/-- What a session with the client leaves it as, when nothing is done with it afterwards. -/
theorem client_bind {x : Session σ α} {g : α → Session σ β} (hg : ∀ a, (g a).Local) (w : World σ) :
    ((x >>= g) w).2.client = (x w).2.client := by
  rw [bind_apply]
  rcases x w with ⟨r, w'⟩
  cases r with
  | ok a => exact hg a w'
  | error f => rfl

theorem lift_ok_bind (a : α) (g : α → Session σ β) : (Session.lift (.ok a) >>= g) = g a := rfl

end Session

open Session

namespace BatchGet

variable {sender : Sender σ}

theorem unrefused_pause (sender : Sender σ) (attempt : Nat) : (pause sender attempt).Unrefused :=
  .ite ((Session.Unrefused.lift (Backoff.unrefused_seconds _)).bind fun s => .wait s) (.pure ())

/-- A page fails with the faults of its client, never with a refusal, however often it is tried
again. -/
theorem unrefused_page (hsend : ∀ request, (sender.send request).Unrefused) (p : BatchGetParams)
    (table : Text) (base : Fields) (left : Nat) (s : Progress) :
    (page sender p table base left s).Unrefused := by
  induction left generalizing s with
  | zero =>
    rw [page]
    refine (hsend _).bind fun reply => (Session.Unrefused.lift (unrefused_after table reply s)).bind fun s' => ?_
    refine .ite (.pure _) ((Session.Unrefused.log _ _ _).bind fun _ => ?_)
    exact .ite (.fail rfl) (.pure _)
  | succ left ih =>
    rw [page]
    refine (hsend _).bind fun reply => (Session.Unrefused.lift (unrefused_after table reply s)).bind fun s' => ?_
    refine .ite (.pure _) ((Session.Unrefused.log _ _ _).bind fun _ => ?_)
    exact (unrefused_pause sender s.attempt).bind fun _ => ih s'

/-- Pages have outcomes, of which none is a refusal. -/
theorem unrefused_pages (hsend : ∀ request, (sender.send request).Unrefused) (p : BatchGetParams)
    (table : Text) (base : Fields) (left : Nat) (slices : List (List Value)) (w : World σ) :
    ∃ rs, (pages sender p table base left slices w).1 = .ok rs ∧
      ∀ r ∈ rs, TableGateway.Unrefused r := by
  induction slices generalizing w with
  | nil => exact ⟨[], rfl, by simp⟩
  | cons keys rest ih =>
    let first := page sender p table base left (.start keys)
    obtain ⟨rs, hrs, hall⟩ := ih (first w).2
    refine ⟨(first w).1 :: rs, ?_, fun r hr => ?_⟩
    · rw [pages, bind_apply, outcome_apply]
      change ((pages sender p table base left rest >>= fun rs => Pure.pure ((first w).1 :: rs))
        (first w).2).1 = _
      rw [bind_apply]
      rcases hrun : pages sender p table base left rest (first w).2 with ⟨r, w'⟩
      rw [hrun] at hrs
      obtain rfl : r = .ok rs := hrs
      rfl
    · rcases List.mem_cons.mp hr with rfl | hr
      · exact unrefused_page hsend p table base left _ w
      · exact hall r hr

/-- A batch reads all that its caller gives before the first page is sent. -/
theorem refusesFirst_run (hsend : ∀ request, (sender.send request).Unrefused) (maxWorkers : Value)
    (p : BatchGetParams) : (run sender maxWorkers p).RefusesFirst := by
  refine RefusesFirst.lift_bind fun _ => ?_
  split
  · exact .pure _
  · refine .lift_bind fun base => .lift_bind fun keys => .lift_bind fun table => .of_unrefused ?_
    refine Session.Unrefused.bind_of_ok (fun w => ?_) fun w outcomes houtcomes => ?_
    · obtain ⟨rs, hrs, -⟩ := unrefused_pages hsend p table base (budget p.maxRetries - 1)
        (chunks maxKeys keys) w
      rw [hrs]
      exact .ok rs
    · obtain ⟨rs, hrs, hall⟩ := unrefused_pages hsend p table base (budget p.maxRetries - 1)
        (chunks maxKeys keys) w
      obtain rfl := Except.ok.inj (hrs.symm.trans houtcomes)
      exact .lift (unrefused_collect hall)

end BatchGet

namespace Provider

theorem local_logReasons (d : Provider σ) (f : Fault) : (d.logReasons f).Local := by
  rw [logReasons.eq_def]
  split
  · split <;> exact fun _ => rfl
  · exact fun _ => rfl

theorem unrefused_logReasons (d : Provider σ) (f : Fault) : (d.logReasons f).Unrefused := by
  rw [logReasons.eq_def]
  split
  · exact .ite (.log _ _ _) (.pure ())
  · exact .pure ()

variable {d : Provider σ} (h : d.executor.client.NeverRefuses)

include h

theorem refusesFirst_get (p : GetParams) : (d.get p).RefusesFirst :=
  .lift_bind fun _ => .of_unrefused ((Session.Unrefused.call h _ _).bind fun _ => .pure _)

theorem refusesFirst_create (p : CreateParams) : (d.create p).RefusesFirst :=
  .lift_bind fun _ => .of_unrefused ((Session.Unrefused.call h _ _).bind fun _ =>
    (Session.Unrefused.lift (Value.unrefused_toMap _)).bind fun _ => .pure _)

theorem refusesFirst_delete (p : DeleteParams) : (d.delete p).RefusesFirst :=
  .lift_bind fun _ => .of_unrefused ((Session.Unrefused.call h _ _).bind fun _ => .pure _)

theorem refusesFirst_update (p : UpdateParams) : (d.update p).RefusesFirst :=
  .lift_bind fun _ => .of_unrefused ((Session.Unrefused.call h _ _).bind fun _ => .pure _)

theorem refusesFirst_list (table options : Value) : (d.list table options).RefusesFirst :=
  .lift_bind fun _ => .of_unrefused ((Session.Unrefused.call h _ _).bind fun _ =>
    (Session.Unrefused.lift (unrefused_itemsOf _)).bind fun _ =>
      (Session.Unrefused.lift (Token.unrefused_encode _)).bind fun _ => .pure _)

/-- Once the request stands, no page of a list is refused. -/
theorem unrefused_listFrom (rounds : Nat) (request : Fields) (items : List Value) :
    (d.listFrom rounds request items).Unrefused := by
  induction rounds generalizing request items with
  | zero => exact .fail rfl
  | succ rounds ih =>
    exact (Session.Unrefused.call h _ _).bind fun _ => (Session.Unrefused.lift (unrefused_itemsOf _)).bind fun _ =>
      .ite (ih _ _) (.pure _)

theorem refusesFirst_listAll (rounds : Nat) (table options : Value) :
    (d.listAll rounds table options).RefusesFirst :=
  .lift_bind fun _ => .of_unrefused (unrefused_listFrom h _ _ _)

/-- Once the request stands, no page of a query is refused. -/
theorem unrefused_queryFrom (limit fullRetrieval : Value) (rounds : Nat) (request : Fields)
    (items : List Value) : (d.queryFrom limit fullRetrieval rounds request items).Unrefused := by
  induction rounds generalizing request items with
  | zero => exact .fail rfl
  | succ rounds ih =>
    exact (Session.Unrefused.lift (unrefused_limited _ _ _)).bind fun _ => (Session.Unrefused.call h _ _).bind fun _ =>
      (Session.Unrefused.lift (unrefused_itemsOf _)).bind fun _ => .ite (ih _ _) (.pure _)

theorem refusesFirst_query (rounds : Nat) (p : QueryParams) : (d.query rounds p).RefusesFirst :=
  .lift_bind fun _ => .lift_bind fun _ => .of_unrefused
    ((unrefused_queryFrom h _ _ _ _ _).bind fun _ =>
      (Session.Unrefused.lift (Token.unrefused_encode _)).bind fun _ => .pure _)

theorem refusesFirst_batchGet (p : BatchGetParams) : (d.batchGet p).RefusesFirst :=
  BatchGet.refusesFirst_run (fun _ => Session.Unrefused.call h _ _) _ p

/-- A transaction is built as a whole before it is sent. -/
theorem refusesFirst_transact (actions : Value) : (d.transact actions).RefusesFirst := by
  refine .lift_bind fun items => ?_
  split
  · exact .of_unrefused ((Session.Unrefused.log _ _ _).bind fun _ => .pure _)
  · have hcall := Session.Unrefused.call h .transactWriteItems [("TransactItems", .list items)]
    refine .of_unrefused (.bind_of_ok (.outcome _) fun w r hr => ?_)
    obtain rfl : (d.executor.call .transactWriteItems [("TransactItems", .list items)] w).1 = r :=
      Except.ok.inj hr
    split
    · exact .pure _
    · rename_i f hf
      exact (unrefused_logReasons d f).bind fun _ => .fail (hcall w f hf)

/-- The case of each operation. -/
theorem refusesFirst_perform (rounds : Nat) (o : Invocation.Operation) (a : Fields) :
    (Invocation.perform d rounds o a).RefusesFirst := by
  cases o with
  | get => exact (refusesFirst_get h _).map _
  | create => exact (refusesFirst_create h _).map _
  | delete => exact (refusesFirst_delete h _).map _
  | update => exact (refusesFirst_update h _).map _
  | list => exact (refusesFirst_list h _ _).map _
  | listAll => exact (refusesFirst_listAll h _ _ _).map _
  | query => exact (refusesFirst_query h _ _).map _
  | batchGet => exact (refusesFirst_batchGet h _).map _
  | transaction => exact (refusesFirst_transact h _).map _
  | transactionParams | createSet => exact (RefusesFirst.lift _).map _

theorem refusesFirst_call (rounds : Nat) (name : Text) (args : List Value) (named : Fields) :
    (Invocation.call d rounds name args named).RefusesFirst := by
  rw [Invocation.call]
  split
  · exact .of_local fun _ => rfl
  · exact .lift_bind fun _ => refusesFirst_perform h _ _ _

end Provider

namespace Transaction

/-- Is there an action in a row that is not missing? -/
def Given (actions : Value) : Prop :=
  ∃ vs, actions.elements = .ok vs ∧ ∃ v ∈ vs, v.isNull = false

/-- A transaction is empty where all its actions are missing. -/
theorem build_ne_nil_iff {shape : SetShape} {actions : Value} {items : List Value}
    (h : build shape actions = .ok items) : items ≠ [] ↔ Given actions := by
  obtain ⟨vs, hvs, h⟩ := Result.bind_eq_ok.mp h
  have hgiven : Given actions ↔ (vs.filter fun v => !v.isNull) ≠ [] := by
    simp [Given, hvs]
  rw [hgiven]
  rw [Transaction.items] at h
  split at h
  · cases h
  · generalize vs.filter (fun v => !v.isNull) = given at h
    cases given with
    | nil =>
      obtain rfl : [] = items := by simpa using h
      simp
    | cons v given =>
      rw [List.mapM_cons] at h
      obtain ⟨_, -, h⟩ := Result.bind_eq_ok.mp h
      obtain ⟨_, -, h⟩ := Result.bind_eq_ok.mp h
      obtain rfl := Except.ok.inj h
      simp

end Transaction

namespace Provider

/-- The request of a transaction with such actions. -/
def transactRequest (items : List Value) : Fields := [("TransactItems", .list items)]

/-- Has a transaction an action, is it built, and does it have a form for the client? -/
def Sends (d : Provider σ) (actions : Value) (sent : Fields) : Prop :=
  Transaction.Given actions ∧ ∃ items, Transaction.build .set actions = .ok items ∧
    d.executor.wire (transactRequest items) = .ok sent

theorem recorded_transact_of_build {d : Provider σ} {actions : Value} {items : List Value}
    (h : Transaction.build .set actions = .ok items) (hne : items ≠ [])
    (w : World (σ × List Call)) :
    (d.recorded.transact actions w).2.client =
      (d.recorded.executor.call .transactWriteItems (transactRequest items) w).2.client := by
  have hempty : ¬ items.isEmpty = true := by simpa using hne
  rw [transact, h, lift_ok_bind, if_neg hempty]
  refine client_bind (fun r => ?_) w
  cases r with
  | ok reply => exact fun _ => rfl
  | error f => exact fun w => client_bind (fun _ _ => rfl) w |>.trans (local_logReasons _ f w)

theorem recorded_transact_of_empty {d : Provider σ} {actions : Value}
    (h : Transaction.build .set actions = .ok []) (w : World (σ × List Call)) :
    (d.recorded.transact actions w).2.client = w.client := by
  rw [transact, h, lift_ok_bind]
  rfl

theorem recorded_transact_of_error {d : Provider σ} {actions : Value} {f : Fault}
    (h : Transaction.build .set actions = .error f) (w : World (σ × List Call)) :
    (d.recorded.transact actions w).2.client = w.client := by
  rw [transact, h]
  rfl

/-- A transaction that has something to send makes that one call, and no other transaction makes one. -/
theorem recorded_transact (d : Provider σ) (actions : Value) (w : World (σ × List Call)) :
    (∀ sent, d.Sends actions sent → (d.recorded.transact actions w).2.client.2 =
      w.client.2 ++ [⟨.transactWriteItems, sent⟩]) ∧
    ((¬ ∃ sent, d.Sends actions sent) →
      (d.recorded.transact actions w).2.client.2 = w.client.2) := by
  constructor
  · rintro sent ⟨hgiven, items, hitems, hsent⟩
    have hne := (Transaction.build_ne_nil_iff hitems).mpr hgiven
    rw [recorded_transact_of_build hitems hne]
    exact (Executor.recorded_call d.executor _ _ w).trans (by rw [hsent]; rfl)
  · intro hnone
    cases hitems : Transaction.build .set actions with
    | error f => rw [recorded_transact_of_error hitems]
    | ok items =>
      by_cases hne : items = []
      · subst hne
        rw [recorded_transact_of_empty hitems]
      · rw [recorded_transact_of_build hitems hne]
        refine (Executor.recorded_call d.executor _ _ w).trans ?_
        cases hsent : d.executor.wire (transactRequest items) with
        | error f => simp [Except.toOption]
        | ok sent =>
          exact absurd ⟨sent, (Transaction.build_ne_nil_iff hitems).mp hne, items, hitems, hsent⟩ hnone

/-- An operation that ends in a refusal has made no call, whatever its arguments are, with either target
and with every client that refuses nothing itself. A transaction makes one call if it has an action, is
built and has a form for the client, and none else. -/
theorem refused_without_call (d : Provider σ) :
    (d.executor.client.NeverRefuses →
      ∀ (rounds : Nat) (name : Text) (args : List Value) (named : Fields)
        (w : World (σ × List Call)) (f : Fault),
        (Invocation.call d.recorded rounds name args named w).1 = .error f → f.isRefusal = true →
        (Invocation.call d.recorded rounds name args named w).2.client.2 = w.client.2) ∧
    ∀ (actions : Value) (w : World (σ × List Call)),
      (∀ sent, d.Sends actions sent → (d.recorded.transact actions w).2.client.2 =
        w.client.2 ++ [⟨.transactWriteItems, sent⟩]) ∧
      ((¬ ∃ sent, d.Sends actions sent) →
        (d.recorded.transact actions w).2.client.2 = w.client.2) := by
  refine ⟨fun h rounds name args named w f hf hrefusal => ?_, recorded_transact d⟩
  have hrecorded : d.recorded.executor.client.NeverRefuses := h.recorded
  rw [refusesFirst_call hrecorded rounds name args named w f hf hrefusal]

/-- A client that answers every call with nothing. -/
def silent : Client Unit := ⟨fun _ s => (.ok [], s)⟩

theorem silent_neverRefuses : silent.NeverRefuses := fun _ _ => .ok []

/-- A provider with the low-level target. -/
def silently : Provider Unit := ⟨⟨silent, .client, .null⟩, false, .null⟩

def untouched : World (Unit × List Call) := ⟨((), []), [], []⟩

/-- A missing action and one that deletes. -/
def erasing : Value := .list [.null, .record .delete [.text "t", .map [("id", .text "1")], .null]]

theorem refused_without_call_silently :
    (Invocation.call silently.recorded 1 "query" [.text "t", .record .partitionKey [.text "id", .text "a"]]
        [("limit", .int 0)] untouched).1 = .error (.refused .limitNotPositive) ∧
      (Invocation.call silently.recorded 1 "query" [.text "t", .record .partitionKey [.text "id", .text "a"]]
        [("limit", .int 0)] untouched).2.client.2 = [] ∧
      ∃ sent, silently.Sends erasing sent ∧
        (silently.recorded.transact erasing untouched).2.client.2 = [⟨.transactWriteItems, sent⟩] := by
  obtain ⟨hrefused, htransact⟩ := refused_without_call silently
  have hfault : (Invocation.call silently.recorded 1 "query"
      [.text "t", .record .partitionKey [.text "id", .text "a"]] [("limit", .int 0)] untouched).1 =
        .error (.refused .limitNotPositive) := by rfl
  have hgiven : Transaction.Given erasing :=
    ⟨_, rfl, _, List.mem_cons_of_mem _ List.mem_cons_self, rfl⟩
  obtain ⟨sent, hsent⟩ : ∃ sent, silently.Sends erasing sent := ⟨_, hgiven, _, rfl, rfl⟩
  exact ⟨hfault, hrefused silent_neverRefuses _ _ _ _ _ _ hfault rfl, sent, hsent,
    (htransact erasing untouched).1 sent hsent⟩

/-- The one action of a transaction: an item with a double in it. -/
def doubled : Value :=
  .list [.record .create [.text "t", .map [("id", .number (.float (.ofRatio false 3 2)))], .null]]

theorem doubled_makes_no_call :
    Transaction.Given doubled ∧ (∃ items, Transaction.build .set doubled = .ok items) ∧
      ¬ ∀ (d : Provider Unit) (actions : Value) (w : World (Unit × List Call)),
        Transaction.Given actions → (∃ items, Transaction.build .set actions = .ok items) →
        ∃ call, (d.recorded.transact actions w).2.client.2 = w.client.2 ++ [call] := by
  have hgiven : Transaction.Given doubled := ⟨_, rfl, _, List.mem_cons_self, rfl⟩
  have hbuilt : ∃ items, Transaction.build .set doubled = .ok items := ⟨_, rfl⟩
  refine ⟨hgiven, hbuilt, fun h => ?_⟩
  obtain ⟨call, hcall⟩ := h silently doubled untouched hgiven hbuilt
  have hnone : (silently.recorded.transact doubled untouched).2.client.2 = [] := by rfl
  rw [hnone] at hcall
  cases hcall

end Provider

end TableGateway
