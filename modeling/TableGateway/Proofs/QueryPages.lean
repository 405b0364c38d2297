import TableGateway.Proofs.Cursor
import TableGateway.Proofs.RequestFields

/-!
# Queries page by page

A query over a cursor examines a run of the rows that are left and gives those of them that pass,
with a token if it may not have been the last run. Queries that go on from token to token give every
row that passes once, in order.
-/
namespace TableGateway

open TableGateway.Entries

variable {σ : Type}

theorem asks_put {base request : Fields} (h : Asks base request) {field : Text}
    (hf : field = "ExclusiveStartKey" ∨ field = "Limit") (v : Value) :
    Asks base (put request field v) := by
  intro name hstart hlimit
  have hne : field ≠ name := by
    rintro rfl
    rcases hf with hf | hf
    · exact hstart hf
    · exact hlimit hf
  rw [get?_put, if_neg hne, h name hstart hlimit]

theorem asks_append {base : Fields} (v : Value) :
    Asks base (base ++ ([("ExclusiveStartKey", v)] : Fields)) := by
  intro name hstart _
  rw [get?_append, get?_cons, if_neg (Ne.symm hstart), get?_nil, Option.or_none]

namespace Provider

theorem passing_append (xs ys : List Row) : passing (xs ++ ys) = passing xs ++ passing ys := by
  simp [passing]

theorem length_passing_le (rows : List Row) : (passing rows).length ≤ rows.length := by
  rw [passing, List.length_map]
  exact List.length_filter_le _ _

/-- What is left of a limit, and at least one. -/
def wanted (n count : Nat) : Nat := max (n - count) 1

theorem left_int (n count : Nat) : (Number.int n).left count = .ok (.int (wanted n count)) := by
  have horder : ∀ m : Int, (Number.int m).order? (.int 1) = some (compare m 1) := fun _ => rfl
  rw [Number.left, Number.minus]
  simp only [Except.map_ok, Number.atLeastOne, horder, Option.some.injEq, Int.compare_eq_lt,
    Except.ok.injEq, wanted]
  split
  · simp only [Number.int.injEq]
    omega
  · simp only [Number.int.injEq]
    omega

theorem limited_int (n count : Nat) (request : Fields) :
    limited (.int n) count request = .ok (put request "Limit" (.int (wanted n count))) := by
  simp [limited, Value.int, Value.number?, left_int]

theorem queryEnds_int (n : Nat) (full : Value) (count : Nat) :
    queryEnds (.int n) full count = decide (n ≤ count) := by
  have horder : (Number.int n).order? (.int count) = some (compare (n : Int) count) := rfl
  simp only [queryEnds, Value.int, Value.isNull, Bool.false_eq_true, if_false, reached,
    Value.number?, horder, Option.any_some]
  rw [decide_eq_decide, ne_eq, Int.compare_eq_gt]
  omega

/-- How a query is to be made: with a limit, without one to the end, or without one in one request. -/
inductive Mode where
  | limit (n : Nat)
  | full
  | single

/-- Are a limit and the wish for all items those of a mode? -/
def Mode.Fits (mode : Mode) (most fullRetrieval : Value) : Prop :=
  match mode with
  | .limit n => 1 ≤ n ∧ most = .int n
  | .full => most = .null ∧ fullRetrieval.truthy = true
  | .single => most = .null ∧ fullRetrieval.truthy = false

/-- What a query ends with that had some items before the rows that were left: the items of those
that it examined as well, and the last key if it may not have been the last run. -/
structure QueryRun (mode : Mode) (left : List Row) (before : List Value)
    (outcome : List Value × Value) (examined rest : List Row) : Prop where
  split : left = examined ++ rest
  items : outcome.1 = before ++ passing examined
  key : (outcome.2 = .null ∧ rest = []) ∨
    (mode ≠ .full ∧ ∃ r, examined.getLast? = some r ∧ outcome.2 = .map r.key)
  within : ∀ n, mode = .limit n → before.length < n → outcome.1.length ≤ n

theorem itemsOf_eq {left : List Row} {request reply : Fields} {examined rest : List Row}
    (h : CursorReply left request reply examined rest) : itemsOf reply = .ok (passing examined) := by
  rcases h.items with hi | ⟨hi, he⟩
  · simp [itemsOf, hi, Value.elements, Value.elements?]
  · simp [itemsOf, hi, he, Value.elements, Value.elements?]

/-- One request of a query: its limit is what is still wanted. -/
theorem query_request {call : Fields → Session σ Fields} {base : Fields} {rows : List Row}
    (hc : IsCursor call base rows) {mode : Mode} {most full : Value} (hm : mode.Fits most full)
    {request : Fields} (hasks : Asks base request) (count : Nat) (w : World σ) :
    ∃ request' reply w' examined rest, limited most count request = .ok request' ∧
      Asks base request' ∧ call request' w = (.ok reply, w') ∧
      CursorReply (remaining rows (get? request "ExclusiveStartKey")) request' reply examined rest ∧
      ∀ n, mode = .limit n → examined.length ≤ wanted n count := by
  cases mode with
  | limit n =>
    obtain ⟨-, rfl⟩ := hm
    have hasks' := asks_put hasks (.inr rfl) (.int (wanted n count))
    obtain ⟨reply, w', examined, rest, hcall, hreply⟩ := hc _ w hasks'
    have hstart : get? (put request "Limit" (.int (wanted n count))) "ExclusiveStartKey" =
        get? request "ExclusiveStartKey" := by
      rw [get?_put, if_neg (by simp)]
    rw [hstart] at hreply
    refine ⟨_, reply, w', examined, rest, limited_int n count request, hasks', hcall, hreply, ?_⟩
    intro m hm
    obtain rfl := Mode.limit.inj hm
    exact hreply.within (wanted n count) (Nat.le_max_right _ _) (by rw [get?_put, if_pos rfl])
  | full | single =>
    obtain ⟨rfl, -⟩ := hm
    obtain ⟨reply, w', examined, rest, hcall, hreply⟩ := hc _ w hasks
    exact ⟨request, reply, w', examined, rest, rfl, hasks, hcall, hreply, by simp⟩

/-- The loop of a query, on the rows that are left. The induction is on the requests that it may
still make; each that reports a last key has examined a row, so there are more of them than rows. -/
theorem queryFrom_run {d : Provider σ} {base : Fields} {rows : List Row}
    (hc : IsCursor (d.executor.call .query) base rows) (hk : ∀ r ∈ rows, r.Keyed)
    (hd : DistinctKeys rows) {mode : Mode} {most full : Value} (hm : mode.Fits most full)
    (rounds : Nat) (request : Fields) (items : List Value) (w : World σ) (before left : List Row)
    (hrows : rows = before ++ left) (hasks : Asks base request)
    (hleft : remaining rows (get? request "ExclusiveStartKey") = left)
    (hrounds : left.length < rounds) :
    ∃ outcome w' examined rest, queryFrom d most full rounds request items w = (.ok outcome, w') ∧
      QueryRun mode left items outcome examined rest := by
  induction rounds generalizing request items w before left with
  | zero => omega
  | succ rounds ih =>
    obtain ⟨request', reply, w₁, examined, rest, hlimited, hasks', hcall, hreply, hwanted⟩ :=
      query_request hc hm hasks items.length w
    rw [hleft] at hreply
    have hitems := itemsOf_eq hreply
    have hwithin : ∀ n, mode = .limit n → items.length < n →
        (items ++ passing examined).length ≤ n := by
      intro n hmode hlt
      have hexamined := hwanted n hmode
      have hpassing := length_passing_le examined
      simp only [List.length_append, wanted] at hexamined ⊢
      omega
    rw [queryFrom]
    simp only [Session.bind_apply, Session.lift_apply, hlimited, hcall, hitems]
    rcases hreply.lastKey with ⟨hkey, hrest⟩ | ⟨r, hlast, hkey⟩
    · refine ⟨(items ++ passing examined, .null), w₁, examined, rest, ?_,
        ⟨hreply.split, rfl, .inl ⟨rfl, hrest⟩, hwithin⟩⟩
      simp [hkey, Value.truthy]
    · have hr : r ∈ rows := by
        rw [hrows, hreply.split]
        simp [List.mem_of_getLast? hlast]
      have htruthy : (Value.map r.key).truthy = true := by
        simpa [Value.truthy] using (hk r hr).nonempty
      cases hends : queryEnds most full (items ++ passing examined).length with
      | true =>
        have hmode : mode ≠ .full := by
          rintro rfl
          obtain ⟨rfl, hfull⟩ := hm
          simp [queryEnds, Value.isNull, hfull] at hends
        refine ⟨(items ++ passing examined, .map r.key), w₁, examined, rest, ?_,
          ⟨hreply.split, rfl, .inr ⟨hmode, r, hlast, rfl⟩, hwithin⟩⟩
        simp [hkey]
      | false =>
        have hrest : remaining rows (some (.map r.key)) = rest :=
          remaining_last hk hd (hreply.split ▸ hrows) hlast
        have hnonempty : 0 < examined.length := by
          rw [List.length_pos_iff]
          rintro rfl
          simp at hlast
        have hshorter : rest.length < rounds := by
          rw [hreply.split, List.length_append] at hrounds
          omega
        obtain ⟨outcome, w', examined₁, rest₁, hrun, houtcome⟩ :=
          ih (continued request' (.map r.key)) (items ++ passing examined) w₁ (before ++ examined) rest
            (by rw [List.append_assoc, ← hreply.split, hrows]) (asks_put hasks' (.inl rfl) _)
            (by rw [continued, get?_put, if_pos rfl, hrest]) hshorter
        refine ⟨outcome, w', examined ++ examined₁, rest₁, ?_, ⟨?_, ?_, ?_, ?_⟩⟩
        · simp only [hkey, htruthy, Bool.not_false, Bool.and_self, if_true, hrun]
        · rw [hreply.split, houtcome.split, List.append_assoc]
        · rw [houtcome.items, passing_append, List.append_assoc]
        · rcases houtcome.key with hend | ⟨hmode, r', hlast', hkey'⟩
          · exact .inl hend
          · refine .inr ⟨hmode, r', ?_, hkey'⟩
            rw [List.getLast?_append, hlast']
            rfl
        · intro n hmode hlt
          refine houtcome.within n hmode ?_
          cases mode with
          | limit m =>
            obtain rfl := Mode.limit.inj hmode
            obtain ⟨-, rfl⟩ := hm
            rw [queryEnds_int] at hends
            simpa using hends
          | full | single => simp at hmode

/-- Does a token go on with the rows that are left? -/
def GoesOn (rows : List Row) (token : Value) (left : List Row) : Prop :=
  (token = .null ∧ left = rows) ∨ ∃ t key, token = .text t ∧ t ≠ "" ∧
    Token.decode (.text t) = .ok key ∧ remaining rows (some (.map key)) = left

/-- What a query gives of the rows that are left. -/
structure QueryPage (rows : List Row) (mode : Mode) (left : List Row) (page : Page)
    (examined rest : List Row) : Prop where
  split : left = examined ++ rest
  items : page.items = passing examined
  token : (page.token = none ∧ rest = []) ∨ (mode ≠ .full ∧ examined ≠ [] ∧
    ∃ t, page.token = some t ∧ GoesOn rows (.text t) rest)
  within : ∀ n, mode = .limit n → page.items.length ≤ n

theorem request_of_goesOn {p : QueryParams} {base : Fields}
    (hreq : ({ p with token := .null } : QueryParams).request = .ok base) {rows left : List Row}
    (hon : GoesOn rows p.token left) :
    ∃ request, p.request = .ok request ∧ Asks base request ∧
      remaining rows (get? request "ExclusiveStartKey") = left := by
  obtain ⟨⟨key, bindings, filter, hbase⟩, htoken⟩ := QueryParams.request_inv hreq
  have hnone : get? base "ExclusiveStartKey" = none := by
    rw [hbase]
    exact QueryParams.get?_fieldsOf p key bindings filter (.inl rfl)
  have hp : p.request = (startField p.token).map (base ++ ·) := htoken p.token
  rcases hon with ⟨hnull, rfl⟩ | ⟨t, key, ht, hne, hdecode, hleft⟩
  · refine ⟨base, ?_, fun _ _ _ => rfl, by rw [hnone]; rfl⟩
    rw [hp, hnull]
    simp [startField, Value.truthy, Except.map]
  · refine ⟨base ++ ([("ExclusiveStartKey", .map key)] : Fields), ?_, asks_append _, ?_⟩
    · rw [hp, ht]
      simp [startField, Value.truthy, hne, hdecode, Except.map]
    · rw [get?_append, hnone, get?_cons, if_pos rfl, Option.none_or, hleft]

theorem query_run {d : Provider σ} {p : QueryParams} {base : Fields} {rows : List Row}
    (hc : IsCursor (d.executor.call .query) base rows) (hk : ∀ r ∈ rows, r.Keyed)
    (hd : DistinctKeys rows) {mode : Mode} (hu : mode ≠ .full → ∀ r ∈ rows, r.Unbroken)
    (hm : mode.Fits p.limit p.fullRetrieval) (hcheck : p.check = .ok ())
    (hreq : ({ p with token := .null } : QueryParams).request = .ok base)
    (before left : List Row) (hrows : rows = before ++ left) (hon : GoesOn rows p.token left)
    {rounds : Nat} (hrounds : left.length < rounds) (w : World σ) :
    ∃ page w' examined rest, d.query rounds p w = (.ok page, w') ∧
      QueryPage rows mode left page examined rest := by
  obtain ⟨request, hrequest, hasks, hleft⟩ := request_of_goesOn hreq hon
  obtain ⟨⟨items, key⟩, w', examined, rest, hrun, houtcome⟩ :=
    queryFrom_run hc hk hd hm rounds request [] w before left hrows hasks hleft hrounds
  have hitems : items = passing examined := houtcome.items
  have hwithin : ∀ n, mode = .limit n → items.length ≤ n := by
    intro n hmode
    refine houtcome.within n hmode ?_
    subst hmode
    exact hm.1
  rcases houtcome.key with ⟨hkey, hrest⟩ | ⟨hmode, r, hlast, hkey⟩
  · obtain rfl : key = .null := hkey
    refine ⟨⟨items, none⟩, w', examined, rest, ?_,
      ⟨houtcome.split, hitems, .inl ⟨rfl, hrest⟩, hwithin⟩⟩
    simp [query, hcheck, hrequest, hrun, Token.encode, Value.truthy]
  · obtain rfl : key = .map r.key := hkey
    have hr : r ∈ rows := by
      rw [hrows, houtcome.split]
      simp [List.mem_of_getLast? hlast]
    have hrest : remaining rows (some (.map r.key)) = rest :=
      remaining_last hk hd (houtcome.split ▸ hrows) hlast
    obtain ⟨token, hencode, hne, hdecode⟩ := Token.exists_token ((hk r hr).isKey (hu hmode r hr))
    refine ⟨⟨items, some token⟩, w', examined, rest, ?_, ⟨houtcome.split, hitems, .inr ⟨hmode, ?_,
      token, rfl, .inr ⟨token, _, rfl, hne, hdecode, ?_⟩⟩, hwithin⟩⟩
    · simp [query, hcheck, hrequest, hrun, hencode]
    · rintro rfl
      simp at hlast
    · rw [remaining_handedBack (hk r hr), hrest]

/-- The pages of a query: each goes on with the token of the one before it, as long as there is one. -/
def queryPages (d : Provider σ) (rounds : Nat) : (calls : Nat) → QueryParams → Session σ (List Page)
  | 0, _ => Session.fail .cutShort
  | calls + 1, p => do
    let page ← d.query rounds p
    match page.token with
    | none => return [page]
    | some token => return page :: (← queryPages d rounds calls { p with token := .text token })

/-- All pages from a token on. The induction is on the queries that may still be made; each that
gives a token has examined a row. -/
theorem queryPages_run {d : Provider σ} {base : Fields} {rows : List Row}
    (hc : IsCursor (d.executor.call .query) base rows) (hk : ∀ r ∈ rows, r.Keyed)
    (hd : DistinctKeys rows) {mode : Mode} (hu : mode ≠ .full → ∀ r ∈ rows, r.Unbroken)
    {rounds : Nat} (hrounds : rows.length < rounds) (calls : Nat) (p : QueryParams)
    (hm : mode.Fits p.limit p.fullRetrieval) (hcheck : p.check = .ok ())
    (hreq : ({ p with token := .null } : QueryParams).request = .ok base)
    (before left : List Row) (hrows : rows = before ++ left) (hon : GoesOn rows p.token left)
    (hcalls : left.length < calls) (w : World σ) :
    ∃ pages w', d.queryPages rounds calls p w = (.ok pages, w') ∧
      pages.flatMap Page.items = passing left ∧
      ∀ n, mode = .limit n → ∀ page ∈ pages, page.items.length ≤ n := by
  induction calls generalizing p before left w with
  | zero => omega
  | succ calls ih =>
    have hleft : left.length < rounds := by
      rw [hrows, List.length_append] at hrounds
      omega
    obtain ⟨page, w₁, examined, rest, hquery, hpage⟩ :=
      query_run hc hk hd hu hm hcheck hreq before left hrows hon hleft w
    rw [queryPages]
    rcases hpage.token with ⟨htoken, hrest⟩ | ⟨-, hexamined, t, htoken, hon'⟩
    · refine ⟨[page], w₁, ?_, ?_, ?_⟩
      · simp only [Session.bind_apply, hquery, htoken, Session.pure_apply]
      · simp [hpage.items, hpage.split, hrest]
      · intro n hmode page' hpage'
        obtain rfl := List.mem_singleton.mp hpage'
        exact hpage.within n hmode
    · -- A page that gives a token has examined a row, so that what is left gets shorter.
      have hshorter : rest.length < calls := by
        have hpos := List.length_pos_iff.mpr hexamined
        rw [hpage.split, List.length_append] at hcalls
        omega
      obtain ⟨pages, w', hpages, hitems, hwithin⟩ :=
        ih { p with token := .text t } hm hcheck hreq (before ++ examined) rest
          (by rw [List.append_assoc, ← hpage.split, hrows]) hon' hshorter w₁
      refine ⟨page :: pages, w', ?_, ?_, ?_⟩
      · simp only [Session.bind_apply, hquery, htoken, hpages, Session.pure_apply]
      · rw [List.flatMap_cons, hpage.items, hitems, hpage.split, passing_append]
      · intro n hmode page' hpage'
        rcases List.mem_cons.mp hpage' with rfl | hpage'
        · exact hpage.within n hmode
        · exact hwithin n hmode page' hpage'

theorem check_eq {p : QueryParams} (horder : p.order = .text "ASC" ∨ p.order = .text "DESC")
    (hlimit : p.limit = .null ∨ ∃ n : Nat, 1 ≤ n ∧ p.limit = .int n) : p.check = .ok () := by
  have hcheck : checkLimit p.limit = .ok () := by
    rcases hlimit with hlimit | ⟨n, hn, hlimit⟩
    · rw [hlimit]
      rfl
    · have hcompare : compare (n : Int) 0 = .gt := Int.compare_eq_gt.mpr (by omega)
      have hmost : Value.atMost (.int n) (.int 0) = .ok false := by
        simp [Value.int, Value.atMost, Value.order, Value.number?, Number.order?, hcompare]
      simp [hlimit, checkLimit, Value.isNull, Value.int] at hmost ⊢
      simp [hmost]
  rcases horder with horder | horder <;> rw [QueryParams.check, horder] <;> exact hcheck

theorem exists_mode {p : QueryParams}
    (hlimit : p.limit = .null ∨ ∃ n : Nat, 1 ≤ n ∧ p.limit = .int n) :
    ∃ mode : Mode, mode.Fits p.limit p.fullRetrieval := by
  rcases hlimit with hlimit | ⟨n, hn, hlimit⟩
  · cases hfull : p.fullRetrieval.truthy with
    | true => exact ⟨.full, hlimit, hfull⟩
    | false => exact ⟨.single, hlimit, hfull⟩
  · exact ⟨.limit n, hn, hlimit⟩

/-- Neither one query for everything nor queries from token to token lose a row or give one twice,
whatever the cursor examines at a time, and no page has more items than its limit. Lone halves in the
keys of the rows are no matter where no token is made. -/
theorem query_gives_each_row_once (d : Provider σ) (p : QueryParams) (base : Fields) (rows : List Row)
    (horder : p.order = .text "ASC" ∨ p.order = .text "DESC")
    (hlimit : p.limit = .null ∨ ∃ n : Nat, 1 ≤ n ∧ p.limit = .int n) (htoken : p.token = .null)
    (hreq : p.request = .ok base) (hc : IsCursor (d.executor.call .query) base rows)
    (hk : ∀ r ∈ rows, r.Keyed) (hd : DistinctKeys rows) (rounds calls : Nat)
    (hrounds : rows.length < rounds) (hcalls : rows.length < calls) (w : World σ) :
    (p.limit = .null → p.fullRetrieval.truthy = true →
      ∃ w', d.query rounds p w = (.ok ⟨passing rows, none⟩, w')) ∧
    ((∀ r ∈ rows, r.Unbroken) →
      ∃ pages w', d.queryPages rounds calls p w = (.ok pages, w') ∧
        pages.flatMap Page.items = passing rows ∧
        ∀ n : Nat, p.limit = .int n → ∀ page ∈ pages, page.items.length ≤ n) := by
  have hcheck := check_eq horder hlimit
  have hbase : ({ p with token := .null } : QueryParams).request = .ok base := by
    rw [← htoken]
    exact hreq
  have hon : GoesOn rows p.token rows := .inl ⟨htoken, rfl⟩
  constructor
  · intro hnull hfull
    have hm : Mode.full.Fits p.limit p.fullRetrieval := ⟨hnull, hfull⟩
    obtain ⟨⟨items, token⟩, w', examined, rest, hquery, hpage⟩ :=
      query_run hc hk hd (absurd rfl) hm hcheck hbase [] rows rfl hon hrounds w
    rcases hpage.token with ⟨htoken', hrest⟩ | ⟨hmode, -⟩
    · obtain rfl : token = none := htoken'
      have hsplit := hpage.split
      rw [hrest, List.append_nil] at hsplit
      obtain rfl : items = passing rows := by
        rw [hsplit]
        exact hpage.items
      exact ⟨w', hquery⟩
    · exact absurd rfl hmode
  · intro hu
    obtain ⟨mode, hm⟩ := exists_mode hlimit
    obtain ⟨pages, w', hpages, hitems, hwithin⟩ :=
      queryPages_run hc hk hd (fun _ => hu) hrounds calls p hm hcheck hbase [] rows rfl hon hcalls w
    refine ⟨pages, w', hpages, hitems, fun n hn => ?_⟩
    refine hwithin n ?_
    cases mode with
    | limit m =>
      have heq : Value.int m = .int n := hm.2.symm.trans hn
      simp only [Value.int, Value.number.injEq, Number.int.injEq, Int.natCast_inj] at heq
      rw [heq]
    | full | single =>
      rw [hm.1] at hn
      simp [Value.int] at hn

/-- The reply of a cursor that examines one row and always names its key. -/
def oneRow : List Row → Fields
  | [] => [("Items", .list [])]
  | r :: _ => [("Items", .list (passing [r])), ("LastEvaluatedKey", .map r.key)]

/-- A client that examines the rows one by one. -/
def oneByOne (rows : List Row) : Client Unit :=
  ⟨fun call s => (.ok (oneRow (remaining rows (get? call.request "ExclusiveStartKey"))), s)⟩

theorem isCursor_oneByOne (base : Fields) (rows : List Row) :
    IsCursor (Executor.call ⟨oneByOne rows, .resource, .null⟩ .query) base rows := by
  refine isCursor_of_client (fun request s _ => ?_) .null
  cases hleft : remaining rows (get? request "ExclusiveStartKey") with
  | nil =>
    refine ⟨oneRow [], s, [], [], by simp [oneByOne, hleft],
      ⟨rfl, by simp, by simp, .inl rfl, .inl ⟨rfl, rfl⟩⟩⟩
  | cons r rest =>
    refine ⟨oneRow (r :: rest), s, [r], rest, by simp [oneByOne, hleft],
      ⟨rfl, by simp, ?_, .inl rfl, ?_⟩⟩
    · intro n hn _
      simpa using hn
    · exact .inr ⟨r, rfl, rfl⟩

def sampleRows : List Row :=
  [⟨[("id", .text "a"), ("at", .int 1)], .text "first", true⟩,
    ⟨[("id", .text "a"), ("at", .number (.decimal (.finite false 15 (-1))))], .text "second",
      false⟩,
    ⟨[("id", .text "b"), ("at", .int 1)], .text "third", true⟩]

def sampleQuery : QueryParams where
  table := .text "events"
  partitionKey := .record .partitionKey [.text "id", .text "a"]
  rangeKey := .null
  index := .null
  order := .text "ASC"
  token := .null
  limit := .int 2
  fullRetrieval := .bool true
  filters := .null

theorem sampleRows_keyed : ∀ r ∈ sampleRows, r.Keyed := by
  intro r hr
  simp only [sampleRows, List.mem_cons, List.not_mem_nil, or_false] at hr
  rcases hr with rfl | rfl | rfl <;>
    refine ⟨by simp, by simp [keys], ?_, ?_⟩ <;> intro e he <;>
    simp only [List.mem_cons, List.not_mem_nil, or_false] at he <;>
    rcases he with rfl | rfl <;> first | trivial | exact ⟨_, rfl⟩

theorem sampleRows_unbroken : ∀ r ∈ sampleRows, r.Unbroken := by
  simp [sampleRows, Row.Unbroken, Value.Unbroken, Value.UnbrokenEntries, Value.int]

theorem sampleRows_distinct : DistinctKeys sampleRows := by
  rw [DistinctKeys]
  decide +kernel

def sampleProvider : Provider Unit := ⟨⟨oneByOne sampleRows, .resource, .null⟩, false, .null⟩

theorem query_gives_each_row_once_oneByOne :
    (∃ w', sampleProvider.query 4 { sampleQuery with limit := .null } ⟨(), [], []⟩ =
      (.ok ⟨[.text "first", .text "third"], none⟩, w')) ∧
    ∃ pages w', sampleProvider.queryPages 4 4 sampleQuery ⟨(), [], []⟩ = (.ok pages, w') ∧
      pages.flatMap Page.items = [.text "first", .text "third"] ∧
      ∀ n : Nat, sampleQuery.limit = .int n → ∀ page ∈ pages, page.items.length ≤ n := by
  obtain ⟨base, hreq⟩ : ∃ base, sampleQuery.request = .ok base := ⟨_, rfl⟩
  have hcursor : IsCursor (sampleProvider.executor.call .query) base sampleRows :=
    isCursor_oneByOne base sampleRows
  refine ⟨?_, ?_⟩
  · exact (query_gives_each_row_once sampleProvider { sampleQuery with limit := .null } base sampleRows
      (.inl rfl) (.inl rfl) rfl hreq hcursor sampleRows_keyed sampleRows_distinct 4 4 (by decide)
      (by decide) ⟨(), [], []⟩).1 rfl rfl
  · exact (query_gives_each_row_once sampleProvider sampleQuery base sampleRows (.inl rfl)
      (.inr ⟨2, by decide, rfl⟩) rfl hreq hcursor sampleRows_keyed sampleRows_distinct 4 4 (by decide)
      (by decide) ⟨(), [], []⟩).2 sampleRows_unbroken

/-- The key of the first of these rows has half of a pair in its text. -/
def brokenRows : List Row :=
  [⟨[("id", .text (.broken "" 0 ""))], .text "first", true⟩,
    ⟨[("id", .text "b")], .text "second", true⟩]

/-- A query for one row gives no token for such a key. -/
theorem not_query_gives_each_row_once :
    ¬∀ (d : Provider Unit) (p : QueryParams) (base : Fields) (rows : List Row),
      p.order = .text "ASC" → p.limit = .int 1 → p.token = .null → p.request = .ok base →
      IsCursor (d.executor.call .query) base rows → (∀ r ∈ rows, r.Keyed) → DistinctKeys rows →
      ∀ rounds calls : Nat, rows.length < rounds → rows.length < calls → ∀ w : World Unit,
        ∃ pages w', d.queryPages rounds calls p w = (.ok pages, w') := by
  intro h
  have hkeyed : ∀ r ∈ brokenRows, r.Keyed := by
    intro r hr
    simp only [brokenRows, List.mem_cons, List.not_mem_nil, or_false] at hr
    rcases hr with rfl | rfl <;>
      exact ⟨by simp, by simp [keys], by simp [Row.IsKeyValue], by simpa using ⟨_, rfl⟩⟩
  have hdistinct : DistinctKeys brokenRows := by
    rw [DistinctKeys]
    decide +kernel
  let d : Provider Unit := ⟨⟨oneByOne brokenRows, .resource, .null⟩, false, .null⟩
  obtain ⟨base, hreq⟩ : ∃ base, ({ sampleQuery with limit := .int 1 }).request = .ok base := ⟨_, rfl⟩
  obtain ⟨pages, w', hpages⟩ := h d { sampleQuery with limit := .int 1 } base brokenRows rfl rfl rfl
    hreq (isCursor_oneByOne base brokenRows) hkeyed hdistinct 3 3 (by decide) (by decide)
    ⟨(), [], []⟩
  have hfails : (d.queryPages 3 3 { sampleQuery with limit := .int 1 } ⟨(), [], []⟩).1.isOk = false := by
    decide +kernel
  rw [hpages] at hfails
  cases hfails

end Provider

end TableGateway
