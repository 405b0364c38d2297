import TableGateway.Proofs.Batch
import TableGateway.Proofs.Delays

/-!
# Budgets of any size

A client that always answers well lets a page end in one of four ways: nothing is left, the budget is
spent (with or without a fault for it), or a wait is asked for that is no double. The last of these is
met after the 1024th request, by pages whose budget is larger.
-/
namespace TableGateway.BatchGet

variable {σ : Type}

/-- A reply with the items and the unprocessed keys of a table in rows, as far as it has them. -/
structure WellFormed (table : Text) (reply : Fields) : Prop where
  responses : ∃ parts, Tables reply "Responses" parts ∧
    (Entries.get? parts table = none ∨ ∃ items, Entries.get? parts table = some (.list items))
  unprocessed : ∃ parts, Tables reply "UnprocessedKeys" parts ∧
    (Entries.get? parts table = none ∨
      ∃ part, Entries.get? parts table = some (.map part) ∧
        (Entries.get? part "Keys" = none ∨ Entries.get? part "Keys" = some .null ∨
          ∃ keys, Entries.get? part "Keys" = some (.list keys)))

def AnswersWell (client : Client σ) (table : Text) : Prop :=
  ∀ fields s, ∃ reply s', client.answer ⟨.batchGetItem, fields⟩ s = (.ok reply, s') ∧
    WellFormed table reply

theorem WellFormed.exists_found {table : Text} {reply : Fields} (h : WellFormed table reply) :
    ∃ items, found table reply = .ok items := by
  obtain ⟨parts, hparts, hnone | ⟨items, hitems⟩⟩ := h.responses
  · exact ⟨[], by simp [found, tablePart_of_tables hparts, hnone]⟩
  · exact ⟨items, by
      simp [found, tablePart_of_tables hparts, hitems, Value.elements, Value.elements?]⟩

theorem WellFormed.exists_unprocessed {table : Text} {reply : Fields} (h : WellFormed table reply) :
    ∃ keys, BatchGet.unprocessed table reply = .ok keys := by
  obtain ⟨parts, hparts, hnone | ⟨part, hpart, hkeys⟩⟩ := h.unprocessed
  · exact ⟨[], by simp [BatchGet.unprocessed, tablePart_of_tables hparts, hnone]⟩
  · have hread : BatchGet.unprocessed table reply = (Value.entry part "Keys").elementsOrNone := by
      simp [BatchGet.unprocessed, tablePart_of_tables hparts, hpart, Value.entries]
    rw [hread, Value.entry]
    rcases hkeys with hkeys | hkeys | ⟨keys, hkeys⟩ <;> rw [hkeys]
    · exact ⟨[], rfl⟩
    · exact ⟨[], rfl⟩
    · exact ⟨keys, Value.elementsOrNone_list keys⟩

/-- The keys that an answer leaves. -/
def Exchange.left (table : Text) (e : Exchange) : List Value :=
  (e.answer >>= unprocessed table).toOption.getD []

/-- The keys that are left after the last of some exchanges. -/
def leftAfter (table : Text) (es : List Exchange) : List Value :=
  (es.getLast?.map (Exchange.left table)).getD []

/-- A page of a batch: its exchanges and the waits between them. -/
structure PageLog where
  exchanges : List Exchange
  waits : List Binary64

/-- The keys that a page leaves. -/
def PageLog.left (table : Text) (page : PageLog) : List Value := leftAfter table page.exchanges

/-- Does a client give the answer of an exchange? -/
def Exchange.Genuine (client : Client σ) (e : Exchange) : Prop :=
  ∃ s, (client.answer ⟨.batchGetItem, e.request⟩ s).1 = e.answer

/-- How a page ends that has such a budget, from the number of requests that it made and the keys left
after the last of them. -/
inductive Ends (budget : Nat) (throw : Bool) (made : Nat) (left : List Value) :
    Result (List Value) → Prop where
  | complete (items : List Value) (h : left = []) : Ends budget throw made left (.ok items)
  | spent (items : List Value) (h : left ≠ []) (hmade : made = budget) (hbudget : budget ≤ 1024)
      (ht : throw = false) : Ends budget throw made left (.ok items)
  | timedOut (h : left ≠ []) (hmade : made = budget) (hbudget : budget ≤ 1024) (ht : throw = true) :
      Ends budget throw made left (.error (.unprocessedKeys (.int left.length)))
  | overflown (h : left ≠ []) (hmade : made = 1024) (hbudget : 1024 < budget) :
      Ends budget throw made left (.error .outOfRange)

/-- What a page finds out with one request to a client that answers well. -/
structure Asked (client : Client σ) (table : Text) (base : Fields) (s : Progress)
    (w : World (σ × List Exchange)) (e : Exchange) (s' : Progress) (w' : World (σ × List Exchange)) :
    Prop where
  send : (asking client true).recorded.send (request table base s.pending) w = (e.answer, w')
  after : ∃ reply, e.answer = .ok reply ∧ s.after table reply = .ok s'
  attempt : s'.attempt = s.attempt + 1
  asks : e.request = request table base s.pending
  left : e.left table = s'.pending
  genuine : e.Genuine client
  recorded : w'.client.2 = w.client.2 ++ [e]
  waited : w'.waits = w.waits

theorem exists_asked {client : Client σ} {table : Text} (hc : AnswersWell client table)
    (base : Fields) (s : Progress) (w : World (σ × List Exchange)) :
    ∃ e s' w', Asked client table base s w e s' w' := by
  obtain ⟨reply, σ', hanswer, hreply⟩ := hc (request table base s.pending) w.client.1
  obtain ⟨items, hitems⟩ := hreply.exists_found
  obtain ⟨keys, hkeys⟩ := hreply.exists_unprocessed
  let e : Exchange := ⟨request table base s.pending, .ok reply, w.waits⟩
  refine ⟨e, ⟨s.attempt + 1, keys, s.items ++ items⟩, ⟨(σ', w.client.2 ++ [e]), w.waits, w.log⟩, ?_⟩
  exact
    { send := by simp [asking, Sender.recorded, unrecorded, hanswer, e]
      after := ⟨reply, rfl, by simp [Progress.after, hitems, hkeys]⟩
      attempt := rfl
      asks := rfl
      left := by simp [Exchange.left, e, hkeys, Except.toOption]
      genuine := ⟨w.client.1, by rw [hanswer]⟩
      recorded := rfl
      waited := rfl }

/-- There is no wait after the 1024th request. -/
theorem pause_overflows (sender : Sender σ) (h : sender.waits = true) (w : World σ) :
    pause sender 1024 w = (.error .outOfRange, w) := by
  have hseconds : Backoff.seconds (1024 : Int) = .error .outOfRange := by
    rw [Backoff.seconds, if_pos (.inl (by decide))]
  simp [pause, h, hseconds]

/-- A page from where it stands to its end: its exchanges and the waits between them. -/
structure PageEnds (client : Client σ) (table : Text) (base : Fields) (p : BatchGetParams)
    (left : Nat) (s : Progress) (w : World (σ × List Exchange)) (es : List Exchange)
    (w' : World (σ × List Exchange)) (result : Result (List Value)) : Prop where
  run : page (asking client true).recorded p table base left s w = (result, w')
  first : es.head?.map Exchange.request = some (request table base s.pending)
  genuine : ∀ e ∈ es, e.Genuine client
  requests : w'.client.2 = w.client.2 ++ es
  waited : w'.waits = w.waits ++ pauses true s.attempt (es.length - 1)
  ends : Ends (s.attempt + left) p.throwOnUnprocessed.truthy (s.attempt - 1 + es.length)
    (leftAfter table es) result

variable {client : Client σ} {table : Text} {base : Fields} {p : BatchGetParams} {left : Nat}
  {s s₁ : Progress} {w w₁ w' : World (σ × List Exchange)} {e : Exchange}
  {result : Result (List Value)}

/-- A page that ends after the request that it is about to make. -/
theorem Asked.pageEnds_last (h : Asked client table base s w e s₁ w₁) (hs : 1 ≤ s.attempt)
    (hrun : page (asking client true).recorded p table base left s w = (result, w'))
    (hclient : w'.client = w₁.client) (hwaits : w'.waits = w₁.waits)
    (hends : Ends (s.attempt + left) p.throwOnUnprocessed.truthy s.attempt s₁.pending result) :
    PageEnds client table base p left s w [e] w' result where
  run := hrun
  first := by simp [h.asks]
  genuine := by simpa using h.genuine
  requests := by rw [hclient, h.recorded]
  waited := by simp [hwaits, h.waited, pauses]
  ends := by
    have hmade : s.attempt - 1 + [e].length = s.attempt := by
      simp only [List.length_singleton]
      omega
    have hleft : leftAfter table [e] = s₁.pending := by simp [leftAfter, h.left]
    rwa [hmade, hleft]

/-- A page is complete after the first request that leaves nothing. -/
theorem Asked.pageEnds_complete (h : Asked client table base s w e s₁ w₁) (hs : 1 ≤ s.attempt)
    (hleft : s₁.pending = []) : PageEnds client table base p left s w [e] w₁ (.ok s₁.items) := by
  obtain ⟨reply, hreply, hafter⟩ := h.after
  have hsend := h.send
  apply h.pageEnds_last hs ?_ rfl rfl (.complete _ hleft)
  rw [page]
  simp [hsend, hreply, hafter, hleft]

/-- A page that waits and asks again after the request that it is about to make. -/
theorem Asked.pageEnds_further (h : Asked client table base s w e s₁ w₁) (hs : 1 ≤ s.attempt)
    {es : List Exchange} {w₂ : World (σ × List Exchange)}
    (hrun : page (asking client true).recorded p table base (left + 1) s w =
      page (asking client true).recorded p table base left s₁ w₂)
    (hclient : w₂.client = w₁.client) (hwaits : w₂.waits = w₁.waits ++ pauses true s.attempt 1)
    (hrest : PageEnds client table base p left s₁ w₂ es w' result) :
    PageEnds client table base p (left + 1) s w (e :: es) w' result := by
  obtain ⟨e', es, rfl⟩ : ∃ e' es', es = e' :: es' := by
    cases es with
    | nil => simpa using hrest.first
    | cons e' es => exact ⟨e', es, rfl⟩
  exact
    { run := hrun.trans hrest.run
      first := by simp [h.asks]
      genuine := by
        intro d hd
        rcases List.mem_cons.mp hd with rfl | hd
        · exact h.genuine
        · exact hrest.genuine d hd
      requests := by rw [hrest.requests, hclient, h.recorded, List.append_assoc]; rfl
      waited := by
        rw [hrest.waited, hwaits, h.waited, h.attempt, List.append_assoc]
        exact congrArg (w.waits ++ ·) (pauses_succ true s.attempt es.length).symm
      ends := by
        have hbudget : s₁.attempt + left = s.attempt + (left + 1) := by
          rw [h.attempt]
          omega
        have hmade : s₁.attempt - 1 + (e' :: es).length = s.attempt - 1 + (e :: e' :: es).length := by
          rw [h.attempt]
          simp only [List.length_cons]
          omega
        have hleft : leftAfter table (e :: e' :: es) = leftAfter table (e' :: es) := by
          rw [leftAfter, List.getLast?_cons_cons]
          rfl
        rw [hleft, ← hbudget, ← hmade]
        exact hrest.ends }

/-- Every page comes to such an end. The induction is on the requests that may follow the next one; a
page with more of them than there are waits stops where the waits do. -/
theorem exists_pageEnds (hc : AnswersWell client table) (base : Fields) (p : BatchGetParams)
    (left : Nat) (s : Progress) (w : World (σ × List Exchange)) (hs : 1 ≤ s.attempt)
    (hmost : s.attempt ≤ 1024) :
    ∃ es w' result, PageEnds client table base p left s w es w' result := by
  induction left generalizing s w with
  | zero =>
    obtain ⟨e, s₁, w₁, h⟩ := exists_asked hc base s w
    obtain ⟨reply, hreply, hafter⟩ := h.after
    have hsend := h.send
    by_cases hleft : s₁.pending = []
    · exact ⟨[e], w₁, .ok s₁.items, h.pageEnds_complete hs hleft⟩
    · let w₂ : World (σ × List Exchange) := { w₁ with log := w₁.log ++
        [⟨.warning, .batch, exhaustedLine table s.attempt s₁.pending.length⟩] }
      by_cases ht : p.throwOnUnprocessed.truthy = true
      · refine ⟨[e], w₂, _, h.pageEnds_last hs ?_ rfl rfl (.timedOut hleft rfl hmost ht)⟩
        rw [page]
        simp [hsend, hreply, hafter, hleft, ht, w₂]
      · refine ⟨[e], w₂, .ok s₁.items, h.pageEnds_last hs ?_ rfl rfl
          (.spent _ hleft rfl hmost (by simpa using ht))⟩
        rw [page]
        simp [hsend, hreply, hafter, hleft, ht, w₂]
  | succ left ih =>
    obtain ⟨e, s₁, w₁, h⟩ := exists_asked hc base s w
    obtain ⟨reply, hreply, hafter⟩ := h.after
    have hsend := h.send
    by_cases hleft : s₁.pending = []
    · exact ⟨[e], w₁, .ok s₁.items, h.pageEnds_complete hs hleft⟩
    · let w₂ : World (σ × List Exchange) := { w₁ with log := w₁.log ++
        [⟨.debug, .batch, retryLine table s.attempt s₁.pending.length⟩] }
      have hstep : page (asking client true).recorded p table base (left + 1) s w =
          (pause (asking client true).recorded s.attempt >>= fun _ =>
            page (asking client true).recorded p table base left s₁) w₂ := by
        rw [page]
        simp [hsend, hreply, hafter, hleft, w₂]
      by_cases hlast : s.attempt = 1024
      · refine ⟨[e], w₂, .error .outOfRange, h.pageEnds_last hs ?_ rfl rfl
          (.overflown hleft hlast (by omega))⟩
        rw [hstep, Session.bind_apply, hlast, pause_overflows _ rfl]
      · let w₃ : World (σ × List Exchange) :=
          { w₂ with waits := w₂.waits ++ pauses true s.attempt 1 }
        have hnext : s₁.attempt = s.attempt + 1 := h.attempt
        obtain ⟨es, w', result, hrest⟩ := ih s₁ w₃ (by omega) (by omega)
        have hrun : page (asking client true).recorded p table base (left + 1) s w =
            page (asking client true).recorded p table base left s₁ w₃ := by
          rw [hstep, Session.bind_apply, pause_apply _ (by omega)]
          rfl
        exact ⟨e :: es, w', result, h.pageEnds_further hs hrun rfl rfl hrest⟩

/-- What the pages of a batch do, each with its own slice of the keys: the exchanges, the waits between
them, and the outcomes. -/
structure PagesEnd (client : Client σ) (table : Text) (base : Fields) (budget : Nat) (throw : Bool)
    (slices : List (List Value)) (before after : World (σ × List Exchange)) (pages : List PageLog)
    (outcomes : List (Result (List Value))) : Prop where
  first : List.Forall₂ (fun slice page =>
    page.exchanges.head?.map Exchange.request = some (request table base slice)) slices pages
  genuine : ∀ page ∈ pages, ∀ e ∈ page.exchanges, e.Genuine client
  requests : after.client.2 = before.client.2 ++ pages.flatMap PageLog.exchanges
  waited : after.waits = before.waits ++ pages.flatMap PageLog.waits
  between : ∀ page ∈ pages, page.waits = pauses true 1 (page.exchanges.length - 1)
  ends : List.Forall₂ (fun page => Ends budget throw page.exchanges.length (page.left table)) pages
    outcomes

theorem exists_pagesEnd (hc : AnswersWell client table) (base : Fields) (p : BatchGetParams)
    (left : Nat) (slices : List (List Value)) (w : World (σ × List Exchange)) :
    ∃ run outcomes w',
      pages (asking client true).recorded p table base left slices w = (.ok outcomes, w') ∧
      PagesEnd client table base (left + 1) p.throwOnUnprocessed.truthy slices w w' run outcomes := by
  induction slices generalizing w with
  | nil => exact ⟨[], [], w, rfl, ⟨.nil, by simp, by simp, by simp, by simp, .nil⟩⟩
  | cons keys rest ih =>
    obtain ⟨es, w₁, result, hpage⟩ :=
      exists_pageEnds hc base p left (.start keys) w (by simp [Progress.start])
        (by simp [Progress.start])
    obtain ⟨run, outcomes, w', hpages, hrest⟩ := ih w₁
    let first : PageLog := ⟨es, pauses true 1 (es.length - 1)⟩
    refine ⟨first :: run, result :: outcomes, w', ?_, ?_⟩
    · rw [pages]
      simp [hpage.run, hpages]
    · have hends := hpage.ends
      have hbudget : (Progress.start keys).attempt + left = left + 1 := Nat.add_comm 1 left
      have hmade : (Progress.start keys).attempt - 1 + es.length = es.length := Nat.zero_add _
      rw [hbudget, hmade] at hends
      exact
        { first := .cons hpage.first hrest.first
          genuine := by simpa [first] using ⟨hpage.genuine, hrest.genuine⟩
          requests := by simp [hrest.requests, hpage.requests, first]
          waited := by simp [hrest.waited, hpage.waited, first, Progress.start]
          between := by simpa [first] using hrest.between
          ends := .cons hends hrest.ends }

/-- The outcome of a batch is that of all pages together or the fault of one. -/
theorem collect_cases (rs : List (Result (List Value))) :
    ((∃ items, collect rs = .ok items) ∧ ∀ r ∈ rs, ∃ items, r = .ok items) ∨
      ∃ f, collect rs = .error f ∧ .error f ∈ rs := by
  induction rs with
  | nil => exact .inl ⟨⟨[], rfl⟩, by simp⟩
  | cons r rs ih =>
    cases r with
    | error f => exact .inr ⟨f, rfl, by simp⟩
    | ok items =>
      rcases ih with ⟨⟨rest, hrest⟩, hall⟩ | ⟨f, hf, hmem⟩
      · refine .inl ⟨⟨items ++ rest, by rw [collect, Result.ok_bind, hrest]; rfl⟩, ?_⟩
        intro r hr
        rcases List.mem_cons.mp hr with rfl | hr
        · exact ⟨items, rfl⟩
        · exact hall r hr
      · exact .inr ⟨f, by rw [collect, Result.ok_bind, hf]; rfl, by simp [hmem]⟩

/-- Does a batch end with items, or with the fault of leftover keys where that is asked for? -/
def EndsAsDocumented (throw : Bool) (r : Result (List Value)) : Prop :=
  (∃ items, r = .ok items) ∨
    throw = true ∧ ∃ count : Nat, r = .error (.unprocessedKeys (.int count))

theorem Ends.documented {budget made : Nat} {throw : Bool} {keys : List Value}
    (h : Ends budget throw made keys result) (hbudget : budget ≤ 1024) :
    EndsAsDocumented throw result := by
  cases h with
  | complete items _ => exact .inl ⟨items, rfl⟩
  | spent items _ _ _ _ => exact .inl ⟨items, rfl⟩
  | timedOut _ _ _ ht => exact .inr ⟨ht, keys.length, rfl⟩
  | overflown _ _ hover => omega

/-- A page with more requests to make than there are waits comes to a wait that is none, if it still has
keys left, or has got through all its keys. -/
theorem Ends.complete_or_overflown {budget made : Nat} {throw : Bool} {keys : List Value}
    (h : Ends budget throw made keys result) (hbudget : 1024 < budget) :
    (∃ items, result = .ok items) ∧ keys = [] ∨
      result = .error .outOfRange ∧ made = 1024 ∧ keys ≠ [] := by
  cases h with
  | complete items hleft => exact .inl ⟨⟨items, rfl⟩, hleft⟩
  | spent _ _ _ hle _ => omega
  | timedOut _ _ hle _ => omega
  | overflown hleft hmade _ => exact .inr ⟨rfl, hmade, hleft⟩

/-- A page of the batch is asked to wait once more than there are waits. -/
def Overflows (budget : Nat) (table : Text) (pages : List PageLog) : Prop :=
  1024 < budget ∧ ∃ page ∈ pages, page.exchanges.length = 1024 ∧ page.left table ≠ []

section Outcome

variable {budget : Nat} {throw : Bool} {pages : List PageLog}
  {outcomes : List (Result (List Value))}

theorem collect_documented
    (h : List.Forall₂ (fun page => Ends budget throw page.exchanges.length (page.left table)) pages
      outcomes) (hpages : ¬ Overflows budget table pages) :
    EndsAsDocumented throw (collect outcomes) := by
  rcases collect_cases outcomes with ⟨⟨items, hitems⟩, -⟩ | ⟨f, hf, hmem⟩
  · exact .inl ⟨items, hitems⟩
  · obtain ⟨page, hpage, hends⟩ := Result.exists_left_of_forall₂ h hmem
    rw [hf]
    by_cases hbudget : budget ≤ 1024
    · exact hends.documented hbudget
    · have hlarge : 1024 < budget := by omega
      rcases hends.complete_or_overflown hlarge with ⟨⟨items, hitems⟩, -⟩ | ⟨-, hmade, hleft⟩
      · simp at hitems
      · exact absurd ⟨hlarge, page, hpage, hmade, hleft⟩ hpages

theorem collect_overflows
    (h : List.Forall₂ (fun page => Ends budget throw page.exchanges.length (page.left table)) pages
      outcomes) (hpages : Overflows budget table pages) : collect outcomes = .error .outOfRange := by
  obtain ⟨hbudget, page, hpage, -, hleft⟩ := hpages
  obtain ⟨r, hr, hends⟩ := Result.exists_left_of_forall₂ h.flip hpage
  rcases collect_cases outcomes with ⟨-, hall⟩ | ⟨f, hf, hmem⟩
  · obtain ⟨items, rfl⟩ := hall r hr
    rcases hends.complete_or_overflown hbudget with ⟨-, hnone⟩ | ⟨hfault, -⟩
    · exact absurd hnone hleft
    · simp at hfault
  · obtain ⟨other, -, hother⟩ := Result.exists_left_of_forall₂ h hmem
    rcases hother.complete_or_overflown hbudget with ⟨⟨items, hitems⟩, -⟩ | ⟨hfault, -⟩
    · simp at hitems
    · rw [hf, hfault]

end Outcome

@[simp] theorem length_pauses (attempt count : Nat) : (pauses true attempt count).length = count := by
  simp [pauses]

theorem pauses_growing (attempt count : Nat) :
    (pauses true attempt count).Pairwise fun a b => (Number.float a).atMost (.float b) := by
  rw [pauses, if_pos rfl, List.pairwise_map]
  apply List.pairwise_lt_range.imp
  intro i j hij
  exact Backoff.delay_atMost_delay (by omega)

theorem pauses_capped (attempt count : Nat) :
    ∀ d ∈ pauses true attempt count, (Number.float d).atMost (.int 1) := by
  intro d hd
  rw [pauses, if_pos rfl] at hd
  obtain ⟨i, -, rfl⟩ := List.mem_map.mp hd
  exact Backoff.delay_atMost_one _

theorem lt_budget_int {n : Nat} : 1024 < budget (.int n) ↔ 1024 < n := by
  by_cases hn : n ≤ 1024
  · rw [budget_int hn]
  · have hlarge : 1024 < unbounded := by decide +kernel
    have hbudget : budget (.int n) = n ∨ budget (.int n) = unbounded := by
      by_cases hcompare : compare (n : Int) unbounded = .lt
      · apply Or.inl
        simp [budget, Value.int, Value.number?, Number.countUpTo, Number.order?, hcompare, Number.ceil]
      · apply Or.inr
        simp [budget, Value.int, Value.number?, Number.countUpTo, Number.order?, hcompare]
    omega

/-- What the pages of a batch ask for, and how long they wait in between. -/
structure Retried (client : Client σ) (table : Text) (base : Fields) (slices : List (List Value))
    (before : World σ) (after : World (σ × List Exchange)) (pages : List PageLog) : Prop where
  first : List.Forall₂ (fun slice page =>
    page.exchanges.head?.map Exchange.request = some (request table base slice)) slices pages
  genuine : ∀ page ∈ pages, ∀ e ∈ page.exchanges, e.Genuine client
  requests : after.client.2 = pages.flatMap PageLog.exchanges
  waited : after.waits = before.waits ++ pages.flatMap PageLog.waits
  between : ∀ page ∈ pages, page.waits.length + 1 = page.exchanges.length
  growing : ∀ page ∈ pages, page.waits.Pairwise fun a b => (Number.float a).atMost (.float b)
  capped : ∀ page ∈ pages, ∀ d ∈ page.waits, (Number.float d).atMost (.int 1)

theorem PagesEnd.retried {budget : Nat} {throw : Bool} {slices : List (List Value)} {w : World σ}
    {after : World (σ × List Exchange)} {pages : List PageLog}
    {outcomes : List (Result (List Value))}
    (h : PagesEnd client table base budget throw slices (withRecord w) after pages outcomes) :
    Retried client table base slices w after pages where
  first := h.first
  genuine := h.genuine
  requests := by simpa [withRecord] using h.requests
  waited := h.waited
  between := by
    intro page hpage
    obtain ⟨slice, -, hfirst⟩ := Result.exists_left_of_forall₂ h.first hpage
    have hnonempty : page.exchanges ≠ [] := by
      intro hnil
      simp [hnil] at hfirst
    have hlength := List.length_pos_of_ne_nil hnonempty
    rw [h.between page hpage, length_pauses]
    omega
  growing := fun page hpage => by
    rw [h.between page hpage]
    exact pauses_growing _ _
  capped := fun page hpage => by
    rw [h.between page hpage]
    exact pauses_capped _ _

/-- A batch of any budget comes to its end, page by page. -/
theorem exists_run_ends (client : Client σ) (workers consistent throw : Value)
    (hw : workers = .null ∨ ∃ k : Int, 0 < k ∧ workers = .int k) (table : Text)
    (hc : AnswersWell client table) (keys : List Value) (names : Option (List Text)) (n : Nat)
    (hn : 1 ≤ n) (w : World σ) :
    let p : BatchGetParams :=
      ⟨.text table, .list keys, consistent, Projection.ofNames names, .int n, throw⟩
    ∃ projection pages outcomes w',
      Projection.read p.properties = .ok projection ∧
      run (asking client true) workers p w = (collect outcomes, unrecorded w') ∧
      run (asking client true).recorded workers p (withRecord w) = (collect outcomes, w') ∧
      PagesEnd client table (otherFields consistent projection) (budget (.int n)) throw.truthy
        (chunks maxKeys keys) (withRecord w) w' pages outcomes := by
  intro p
  obtain ⟨projection, hproj⟩ := Projection.read_ofNames names
  obtain ⟨pages, outcomes, w', hpages, hends⟩ :=
    exists_pagesEnd hc (otherFields consistent projection) p (budget (.int n) - 1)
      (chunks maxKeys keys) (withRecord w)
  have hrun : run (asking client true).recorded workers p (withRecord w) =
      (collect outcomes, w') := by
    rw [run_pages _ hn hw rfl rfl rfl hproj, hpages]
  have hplain : run (asking client true) workers p w = (collect outcomes, unrecorded w') := by
    have h := agrees_run (asking client true) workers p (withRecord w)
    rwa [hrun] at h
  have hbudget : budget (.int n) - 1 + 1 = budget (.int n) := by
    by_cases hmost : n ≤ 1024
    · rw [budget_int hmost]
      omega
    · have hlarge := lt_budget_int.mpr (show 1024 < n by omega)
      omega
  rw [hbudget] at hends
  exact ⟨projection, pages, outcomes, w', hproj, hplain, hrun, hends⟩

/-- Whatever the budget of a batch is, its waits grow up to a second, and a batch whose client answers
well ends as documented: unless a budget of more than 1024 requests leaves a page with keys to ask for
after 1024 of them, which ends the whole batch with a fault. -/
theorem run_ends_as_documented (client : Client σ) (workers consistent throw : Value)
    (hw : workers = .null ∨ ∃ k : Int, 0 < k ∧ workers = .int k) (table : Text)
    (hc : AnswersWell client table) (keys : List Value) (names : Option (List Text)) (n : Nat)
    (hn : 1 ≤ n) (w : World σ) :
    let p : BatchGetParams :=
      ⟨.text table, .list keys, consistent, Projection.ofNames names, .int n, throw⟩
    ∃ projection pages result w',
      Projection.read p.properties = .ok projection ∧
      run (asking client true) workers p w = (result, unrecorded w') ∧
      run (asking client true).recorded workers p (withRecord w) = (result, w') ∧
      Retried client table (otherFields consistent projection) (chunks maxKeys keys) w w' pages ∧
      (¬ Overflows n table pages → EndsAsDocumented throw.truthy result) ∧
      (Overflows n table pages → result = .error .outOfRange) := by
  intro p
  obtain ⟨projection, pages, outcomes, w', hproj, hplain, hrun, hends⟩ :=
    exists_run_ends client workers consistent throw hw table hc keys names n hn w
  have hoverflows : Overflows n table pages ↔ Overflows (budget (.int n)) table pages := by
    rw [Overflows, Overflows, lt_budget_int]
  refine ⟨projection, pages, collect outcomes, w', hproj, hplain, hrun, hends.retried, ?_, ?_⟩
  · intro h
    exact collect_documented hends.ends (mt hoverflows.mpr h)
  · intro h
    exact collect_overflows hends.ends (hoverflows.mp h)

/-- A client that never deals with some of the keys. -/
def stubborn (table : Text) (keys : List Value) : Client Unit :=
  ⟨fun _ s => (.ok (ownItems table [] keys), s)⟩

theorem stubborn_answersWell (table : Text) (keys : List Value) :
    AnswersWell (stubborn table keys) table := by
  intro fields s
  refine ⟨ownItems table [] keys, s, rfl, ?_, ?_⟩
  · exact ⟨[(table, .list [])], .inl rfl, .inr ⟨[], by simp⟩⟩
  · exact ⟨[(table, .map [("Keys", .list keys)])], .inl (by simp [ownItems]),
      .inr ⟨[("Keys", .list keys)], by simp, .inr (.inr ⟨keys, by simp⟩)⟩⟩

theorem run_ends_as_documented_stubborn :
    let p : BatchGetParams :=
      ⟨.text "items", .list [.text "a", .text "b"], .bool false, Projection.ofNames none, .int 2000,
        .bool true⟩
    ∃ projection pages result w',
      Projection.read p.properties = .ok projection ∧
      run (asking (stubborn "items" [.text "b"]) true) (.int 4) p ⟨(), [], []⟩ =
        (result, unrecorded w') ∧
      run (asking (stubborn "items" [.text "b"]) true).recorded (.int 4) p
        (withRecord ⟨(), [], []⟩) = (result, w') ∧
      Retried (stubborn "items" [.text "b"]) "items" (otherFields (.bool false) projection)
        (chunks maxKeys [.text "a", .text "b"]) ⟨(), [], []⟩ w' pages ∧
      (¬ Overflows 2000 "items" pages → EndsAsDocumented true result) ∧
      (Overflows 2000 "items" pages → result = .error .outOfRange) :=
  run_ends_as_documented (stubborn "items" [.text "b"]) (.int 4) (.bool false) (.bool true)
    (.inr ⟨4, by decide, rfl⟩) "items" (stubborn_answersWell "items" [.text "b"])
    [.text "a", .text "b"] none 2000 (by decide) ⟨(), [], []⟩

theorem left_of_stubborn {table : Text} {keys : List Value} {e : Exchange}
    (h : e.Genuine (stubborn table keys)) : e.left table = keys := by
  obtain ⟨s, hanswer⟩ := h
  have hkeys : BatchGet.unprocessed table (ownItems table [] keys) = .ok keys := by
    simp [BatchGet.unprocessed, tablePart, ownItems, Value.entries, Value.entry,
      Value.elementsOrNone_list]
  rw [Exchange.left, ← hanswer]
  simp [stubborn, hkeys, Except.toOption]

/-- A page with keys that are never dealt with does not get beyond the last wait. -/
theorem Ends.overflown_of_stubborn {keys slice : List Value} {budget : Nat} {throw : Bool}
    (hkeys : keys ≠ []) (hbudget : 1024 < budget) {page : PageLog}
    (hfirst : page.exchanges.head?.map Exchange.request = some (request table base slice))
    (hgenuine : ∀ e ∈ page.exchanges, e.Genuine (stubborn table keys))
    (h : Ends budget throw page.exchanges.length (page.left table) result) :
    result = .error .outOfRange := by
  obtain ⟨e, hlast⟩ : ∃ e, page.exchanges.getLast? = some e := by
    cases hpage : page.exchanges with
    | nil => simp [hpage] at hfirst
    | cons e es => exact ⟨_, List.getLast?_eq_some_getLast (by simp)⟩
  have hleft : page.left table = keys := by
    rw [PageLog.left, leftAfter, hlast]
    exact left_of_stubborn (hgenuine e (List.mem_of_getLast? hlast))
  rcases h.complete_or_overflown hbudget with ⟨-, hnone⟩ | ⟨hfault, -⟩
  · exact absurd (hleft.symm.trans hnone) hkeys
  · exact hfault

/-- One key that is never dealt with, and a budget of 1025 requests. -/
theorem not_run_ends_as_documented :
    ¬ EndsAsDocumented false
      (run (asking (stubborn "items" [.text "a"]) true) .null
        ⟨.text "items", .list [.text "a"], .bool false, Projection.ofNames none, .int 1025,
          .bool false⟩ ⟨(), [], []⟩).1 := by
  obtain ⟨projection, pages, outcomes, w', -, hplain, -, hends⟩ :=
    exists_run_ends (stubborn "items" [.text "a"]) .null (.bool false) (.bool false) (.inl rfl)
      "items" (stubborn_answersWell "items" [.text "a"]) [.text "a"] none 1025 (by decide)
      ⟨(), [], []⟩
  have hfault : ∀ r ∈ outcomes, r = .error .outOfRange := by
    intro r hr
    obtain ⟨page, hpage, hpageEnds⟩ := Result.exists_left_of_forall₂ hends.ends hr
    obtain ⟨slice, -, hfirst⟩ := Result.exists_left_of_forall₂ hends.first hpage
    exact hpageEnds.overflown_of_stubborn (by simp) (lt_budget_int.mpr (by decide)) hfirst
      (hends.genuine page hpage)
  intro hrun
  have hdocumented : EndsAsDocumented false (collect outcomes) :=
    Eq.mp (congrArg (fun run => EndsAsDocumented false run.1) hplain) hrun
  rcases collect_cases outcomes with ⟨-, hall⟩ | ⟨f, hf, hmem⟩
  · cases houtcomes : outcomes with
    | nil =>
      have hpages := hends.ends.length_eq
      have hslices := hends.first.length_eq
      rw [hpages, houtcomes] at hslices
      simp [chunks] at hslices
    | cons r rest =>
      obtain ⟨items, hitems⟩ := hall r (by simp [houtcomes])
      have hr := hfault r (by simp [houtcomes])
      simp [hitems] at hr
  · rw [hf, hfault _ hmem] at hdocumented
    simp [EndsAsDocumented] at hdocumented

end TableGateway.BatchGet
