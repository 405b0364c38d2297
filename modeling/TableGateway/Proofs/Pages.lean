import Mathlib.Data.List.Forall2
import TableGateway.Proofs.Exchange
import TableGateway.Proofs.Projection

/-!
# No key of a batch is lost

A client shares out the keys of each request: some it deals with, the others it leaves. What a page
of a batch then does is a row of rounds, each asking for what the one before it left, with a wait
between two of them. All rounds of all pages together deal with every key once or leave it at the
end.
-/
namespace TableGateway

namespace Backoff

/-- The wait after the n-th request, as far as there is one. -/
def delay (n : Nat) : Binary64 := (seconds n).toOption.getD longest

theorem seconds_eq {n : Nat} (h : n < 1024) : seconds n = .ok (delay n) := by
  have hwhole : 0 < wholeLimit := by decide +kernel
  have hn : ¬(powerLimit ≤ (n : Int) ∨ (n : Int) ≤ -wholeLimit) := by
    simp only [powerLimit]
    omega
  rw [delay, seconds, if_neg hn]
  rfl

end Backoff

namespace BatchGet

variable {σ : Type}

/-- A request of a page: the keys asked for, the reply, the keys dealt with, each with the item that
it has if it has one, and the keys left. -/
structure Round where
  asked : List Value
  reply : Fields
  dealt : List (Value × Option Value)
  left : List Value

namespace Round

def processed (r : Round) : List Value := r.dealt.map Prod.fst

def items (r : Round) : List Value := r.dealt.filterMap Prod.snd

end Round

/-- The parts of a field of a reply by table, none where the field is missing. -/
def Tables (reply : Fields) (field : Text) (parts : Fields) : Prop :=
  Entries.get? reply field = some (.map parts) ∨ (Entries.get? reply field = none ∧ parts = [])

/-- A reply that shares out the keys of a request for one table. -/
structure Shares (table : Text) (r : Round) : Prop where
  keys : (r.processed ++ r.left).Perm r.asked
  responses : ∃ parts, Tables r.reply "Responses" parts ∧
    (Entries.get? parts table = some (.list r.items) ∨
      (Entries.get? parts table = none ∧ r.items = []))
  unprocessed : ∃ parts, Tables r.reply "UnprocessedKeys" parts ∧
    ((∃ part, Entries.get? parts table = some (.map part) ∧
        Entries.get? part "Keys" = some (.list r.left)) ∨
      (Entries.get? parts table = none ∧ r.left = []))

/-- The sender that asks a client. -/
def asking (client : Client σ) (waits : Bool) : Sender σ :=
  ⟨fun fields => Session.ask client ⟨.batchGetItem, fields⟩, waits⟩

theorem tablePart_of_tables {reply : Fields} {field : Text} {parts : Fields}
    (h : Tables reply field parts) (table : Text) :
    tablePart reply field table = .ok (Entries.get? parts table) := by
  rcases h with h | ⟨h, rfl⟩ <;> simp [tablePart, h, Value.entries]

/-- Each round asks for what the one before it left, the first one for the given keys. -/
def Follows : List Value → List Round → Prop
  | _, [] => True
  | asked, r :: rs => r.asked = asked ∧ Follows r.left rs

/-- The keys that the last round leaves. -/
def leftOver : List Round → List Value
  | [] => []
  | [r] => r.left
  | _ :: r :: rs => leftOver (r :: rs)

/-- The waits between requests, the first of them the one after the given attempt. -/
def pauses (waits : Bool) (attempt count : Nat) : List Binary64 :=
  if waits then (List.range count).map fun i => Backoff.delay (attempt + i) else []

/-- The record of a page: before each request all waits of the page so far have been made. -/
def exchanges (table : Text) (base : Fields) (waits : Bool) (attempt : Nat)
    (waited : List Binary64) (rounds : List Round) : List Exchange :=
  rounds.mapIdx fun k r =>
    ⟨request table base r.asked, .ok r.reply, waited ++ pauses waits attempt k⟩

/-- What a page can do that may make so many requests. -/
structure PageRun (table : Text) (budget : Nat) (asked : List Value) (rounds : List Round) :
    Prop where
  nonempty : rounds ≠ []
  follows : Follows asked rounds
  shares : ∀ r ∈ rounds, Shares table r
  atMost : rounds.length ≤ budget
  fewer : rounds.length < budget → leftOver rounds = []

theorem pauses_succ (waits : Bool) (attempt count : Nat) :
    pauses waits attempt (count + 1) =
      pauses waits attempt 1 ++ pauses waits (attempt + 1) count := by
  cases waits with
  | false => rfl
  | true =>
    simp only [pauses, if_true, List.range_succ_eq_map, List.map_cons, List.map_map]
    simp [Function.comp_def, Nat.add_assoc, Nat.add_comm 1]

theorem pause_apply (sender : Sender σ) {attempt : Nat} (h : attempt < 1024) (w : World σ) :
    pause sender attempt w =
      (.ok (), { w with waits := w.waits ++ pauses sender.waits attempt 1 }) := by
  cases hw : sender.waits <;> simp [pause, pauses, hw, Backoff.seconds_eq h]

theorem PageRun.single {table : Text} {budget : Nat} {r : Round} (h : Shares table r)
    (hb : budget = 1 ∨ (0 < budget ∧ r.left = [])) : PageRun table budget r.asked [r] where
  nonempty := by simp
  follows := ⟨rfl, trivial⟩
  shares := by simpa using h
  atMost := by simp only [List.length_singleton]; omega
  fewer := by
    intro hlt
    simp only [List.length_singleton] at hlt
    rcases hb with hb | hb
    · omega
    · exact hb.2

theorem PageRun.cons {table : Text} {budget : Nat} {r : Round} {rounds : List Round}
    (h : Shares table r) (hr : PageRun table budget r.left rounds) :
    PageRun table (budget + 1) r.asked (r :: rounds) where
  nonempty := by simp
  follows := ⟨rfl, hr.follows⟩
  shares := by simpa using ⟨h, hr.shares⟩
  atMost := Nat.succ_le_succ hr.atMost
  fewer := by
    intro hlt
    have hlast := hr.fewer (Nat.lt_of_succ_lt_succ hlt)
    cases rounds with
    | nil => exact absurd rfl hr.nonempty
    | cons r' rs => exact hlast

/-- The record of a batch: its pages in turn, each beginning with the waits made before it. -/
def record (table : Text) (base : Fields) (waits : Bool) :
    (waited : List Binary64) → List (List Round) → List Exchange
  | _, [] => []
  | waited, rounds :: pages =>
    exchanges table base waits 1 waited rounds ++
      record table base waits (waited ++ pauses waits 1 (rounds.length - 1)) pages

theorem chunks_flatten {α : Type} (n : Nat) (xs : List α) : (chunks n xs).flatten = xs := by
  induction xs using chunks.induct n with
  | case1 => simp [chunks]
  | case2 x xs ih => simp [chunks, ih]

end BatchGet

end TableGateway
