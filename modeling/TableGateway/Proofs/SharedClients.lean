import Mathlib.Data.List.Forall2
import TableGateway.Proofs.Outcomes
import TableGateway.Session.ClientCache

/-!
# One client for each target and region

Clients and executors are asked for in any order, each time with a session of its own, which opens a
client or fails to. What the cache does with the next one that asks is told by the clients created so
far: the first of them for the target and region is handed out, and a session is needed only where
there is none. A failure leaves no trace.
-/
namespace TableGateway

theorem Target.read_of_unknown {v : Value} (hresource : v ≠ .text "resource")
    (hclient : v ≠ .text "client") : Target.read v = refuse (.unknownTarget v) := by
  rw [Target.read] <;> assumption

/-- Is the client for the target and for a region that is the same? -/
def Creation.isFor (t : Target) (region : Value) (made : Creation) : Bool :=
  made.target = t && made.region == region

namespace ClientCache

/-- What a cache is asked for, with the session that would open a client. -/
inductive Ask where
  | client (request : ClientRequest) (opened : Creation → Result Unit)
  | executor (request : ExecutorRequest) (opened : Creation → Result Unit)

/-- What an ask is answered with. -/
inductive Handed where
  | client (number : Nat)
  | executor (x : SharedExecutor)

namespace Ask

def request : Ask → ClientRequest
  | client r _ => r
  | executor r _ => r.toClientRequest

def opened : Ask → Creation → Result Unit
  | client _ opened | executor _ opened => opened

/-- The client that would be created. -/
def creation (a : Ask) (t : Target) : Creation := ⟨t, a.request.region, a.request.config⟩

/-- What is handed out with a client of the target. -/
def handed (t : Target) (number : Nat) : Ask → Handed
  | client .. => .client number
  | executor r _ => .executor ⟨number, t, r.logCalls⟩

end Ask

/-- One ask: the answer, and the cache afterwards. -/
def serve (c : ClientCache) : Ask → Result Handed × ClientCache
  | .client r opened =>
    let (found, c') := c.client opened r.target r.region r.config
    (.client <$> found, c')
  | .executor r opened =>
    let (made, c') := c.executor opened r
    (.executor <$> made, c')

/-- The cache after a row of asks. -/
def after (c : ClientCache) (asks : List Ask) : ClientCache :=
  asks.foldl (fun c a => (c.serve a).2) c

/-- The answers to a row of asks, in order. -/
def answers (c : ClientCache) : List Ask → List (Result Handed)
  | [] => []
  | a :: asks => (c.serve a).1 :: (c.serve a).2.answers asks

/-- The number is that of the first client created for the target and the region. A region that is not
even the same as itself has no client but the one just created for it. -/
structure FirstFor (created : List Creation) (t : Target) (region : Value) (n : Nat) : Prop where
  own : ∃ made, created[n]? = some made ∧ made.target = t ∧
    (made.region = region ∨ made.region == region)
  first : ∀ made ∈ created.take n, made.isFor t region = false

/-- Whatever answers the ask comes with the first client for its target and region. -/
def Ask.Met (created : List Creation) (a : Ask) (answer : Result Handed) : Prop :=
  ∀ h, answer = .ok h → ∃ t n, Target.read a.request.target = .ok t ∧ h = a.handed t n ∧
    FirstFor created t a.request.region n

/-! One ask. -/

section Serve

variable {c : ClientCache} {a : Ask} {t : Target}

theorem serve_of_unsupported {f : Fault} (ht : Target.read a.request.target = .error f) :
    c.serve a = (.error f, c) := by
  cases a <;> simp_all [serve, executor, client, Ask.request]

theorem serve_of_unhashable (ht : Target.read a.request.target = .ok t)
    (hregion : a.request.region.hashable = false) : c.serve a = (.error .wrongType, c) := by
  cases a <;> simp_all [serve, executor, client, Ask.request]

/-- A client that is there is handed out, and the cache stays as it is. -/
theorem serve_of_known {n : Nat} (ht : Target.read a.request.target = .ok t)
    (hregion : a.request.region.hashable) (hknown : c.find? t a.request.region = some n) :
    c.serve a = (.ok (a.handed t n), c) := by
  cases a <;> simp_all [serve, executor, client, Ask.request, Ask.handed]

theorem serve_of_failed {f : Fault} (ht : Target.read a.request.target = .ok t)
    (hregion : a.request.region.hashable) (hnone : c.find? t a.request.region = none)
    (hopened : a.opened (a.creation t) = .error f) : c.serve a = (.error f, c) := by
  cases a <;> simp_all [serve, executor, client, Ask.request, Ask.opened, Ask.creation]

/-- A client that was opened is kept and handed out. -/
theorem serve_of_opened (ht : Target.read a.request.target = .ok t)
    (hregion : a.request.region.hashable) (hnone : c.find? t a.request.region = none)
    (hopened : a.opened (a.creation t) = .ok ()) :
    c.serve a = (.ok (a.handed t c.created.length), (c.add (a.creation t)).2) := by
  cases a <;>
    simp_all [serve, executor, client, add, Ask.request, Ask.opened, Ask.creation, Ask.handed]

/-- An ask fails and changes nothing, is given a client that there is, or has one created. -/
theorem serve_cases (c : ClientCache) (a : Ask) :
    (∃ f, c.serve a = (.error f, c)) ∨
    ∃ t, Target.read a.request.target = .ok t ∧
      ((∃ n, c.find? t a.request.region = some n ∧ c.serve a = (.ok (a.handed t n), c)) ∨
        (c.find? t a.request.region = none ∧
          c.serve a = (.ok (a.handed t c.created.length), (c.add (a.creation t)).2))) := by
  cases ht : Target.read a.request.target with
  | error f => exact .inl ⟨f, serve_of_unsupported ht⟩
  | ok t =>
    cases hregion : a.request.region.hashable with
    | false => exact .inl ⟨_, serve_of_unhashable ht hregion⟩
    | true =>
      cases hfind : c.find? t a.request.region with
      | some n => exact .inr ⟨t, rfl, .inl ⟨n, hfind, serve_of_known ht hregion hfind⟩⟩
      | none =>
        cases hopened : a.opened (a.creation t) with
        | error f => exact .inl ⟨f, serve_of_failed ht hregion hfind hopened⟩
        | ok _ => exact .inr ⟨t, rfl, .inr ⟨hfind, serve_of_opened ht hregion hfind hopened⟩⟩

/-- A failure leaves the cache as it was, whatever it came from. -/
theorem cache_of_error {f : Fault} (hserved : (c.serve a).1 = .error f) : (c.serve a).2 = c := by
  obtain ⟨g, h⟩ | ⟨t, -, ⟨n, -, h⟩ | ⟨-, h⟩⟩ := serve_cases c a
  · rw [h]
  · simp [h] at hserved
  · simp [h] at hserved

end Serve

/-! The cache knows each client that was created, and nothing else. -/

/-- A look-up finds the first client created for a target and a region, and there is no second. -/
structure Accurate (c : ClientCache) : Prop where
  find?_eq : ∀ t region, c.find? t region = c.created.findIdx? (·.isFor t region)
  once : c.created.Pairwise fun a b => a.isFor b.target b.region = false

theorem accurate_empty : Accurate empty := ⟨fun _ _ => rfl, .nil⟩

/-- A client that is added answers the look-ups that found none. -/
theorem find?_add (c : ClientCache) (new : Creation) (t : Target) (region : Value) :
    (c.add new).2.find? t region =
      (c.find? t region).or (if new.isFor t region then some c.created.length else none) := by
  rw [ClientCache.add, find?, List.find?_append, Option.map_or]
  congr 1
  cases h : new.isFor t region <;> simp_all [Creation.isFor]

theorem Accurate.add {c : ClientCache} (h : Accurate c) {new : Creation}
    (hnew : c.find? new.target new.region = none) : Accurate (c.add new).2 where
  find?_eq t region := by
    rw [find?_add, h.find?_eq, ClientCache.add, List.findIdx?_append]
    cases hmade : new.isFor t region <;> simp [hmade]
  once := by
    rw [h.find?_eq, List.findIdx?_eq_none_iff] at hnew
    refine List.pairwise_append.mpr ⟨h.once, List.pairwise_singleton _ _, ?_⟩
    intro made hmade last hlast
    obtain rfl := List.mem_singleton.mp hlast
    exact hnew made hmade

/-- One ask keeps the cache accurate, whatever it ends in. -/
theorem Accurate.serve {c : ClientCache} (h : Accurate c) (a : Ask) : Accurate (c.serve a).2 := by
  obtain ⟨f, hfails⟩ | ⟨t, -, ⟨n, -, hknown⟩ | ⟨hnone, hcreates⟩⟩ := serve_cases c a
  · rwa [hfails]
  · rwa [hknown]
  · rw [hcreates]
    exact h.add hnone

theorem Accurate.find?_eq_none {c : ClientCache} (h : Accurate c) {t : Target} {region : Value} :
    c.find? t region = none ↔ ∀ made ∈ c.created, made.isFor t region = false := by
  rw [h.find?_eq, List.findIdx?_eq_none_iff]

theorem Accurate.firstFor {c : ClientCache} (h : Accurate c) {t : Target} {region : Value} {n : Nat}
    (hfind : c.find? t region = some n) : FirstFor c.created t region n := by
  rw [h.find?_eq] at hfind
  obtain ⟨hlt, hmade, hbefore⟩ := List.findIdx?_eq_some_iff_getElem.mp hfind
  rw [Creation.isFor, Bool.and_eq_true, decide_eq_true_iff] at hmade
  refine ⟨⟨_, List.getElem?_eq_getElem hlt, hmade.1, .inr hmade.2⟩, fun made hearlier => ?_⟩
  obtain ⟨i, hi, rfl⟩ := List.mem_take_iff_getElem.mp hearlier
  exact Bool.eq_false_iff.mpr (hbefore i (by omega))

theorem FirstFor.grown {created more : List Creation} {t : Target} {region : Value} {n : Nat}
    (h : FirstFor created t region n) (hmore : created <+: more) : FirstFor more t region n := by
  obtain ⟨rest, rfl⟩ := hmore
  obtain ⟨made, hmade, hown⟩ := h.own
  have hlt : n < created.length := (List.getElem?_eq_some_iff.mp hmade).1
  refine ⟨⟨made, ?_, hown⟩, ?_⟩
  · rw [List.getElem?_append_left hlt, hmade]
  · rw [List.take_append_of_le_length (Nat.le_of_lt hlt)]
    exact h.first

theorem Ask.Met.grown {created more : List Creation} {a : Ask} {answer : Result Handed}
    (h : a.Met created answer) (hmore : created <+: more) : a.Met more answer := by
  intro handed hanswer
  obtain ⟨t, n, ht, hhanded, hfirst⟩ := h handed hanswer
  exact ⟨t, n, ht, hhanded, hfirst.grown hmore⟩

/-- Clients that were created stay, in their order. -/
theorem created_serve (c : ClientCache) (a : Ask) : c.created <+: (c.serve a).2.created := by
  obtain ⟨f, h⟩ | ⟨t, -, ⟨n, -, h⟩ | ⟨-, h⟩⟩ := serve_cases c a
  · exact ⟨[], by simp [h]⟩
  · exact ⟨[], by simp [h]⟩
  · exact ⟨[a.creation t], by simp [h, ClientCache.add]⟩

theorem Accurate.met {c : ClientCache} (hc : Accurate c) (a : Ask) :
    a.Met (c.serve a).2.created (c.serve a).1 := by
  intro h hserved
  obtain ⟨f, hfails⟩ | ⟨t, ht, ⟨n, hfind, hknown⟩ | ⟨hnone, hcreates⟩⟩ := serve_cases c a
  · simp [hfails] at hserved
  · obtain rfl : a.handed t n = h := by simpa [hknown] using hserved
    rw [hknown]
    exact ⟨t, n, ht, rfl, hc.firstFor hfind⟩
  · obtain rfl : a.handed t c.created.length = h := by simpa [hcreates] using hserved
    rw [hcreates]
    -- The new client is for the region that was asked for, be that the same as itself or not.
    refine ⟨t, _, ht, rfl, ⟨a.creation t, by simp [ClientCache.add], rfl, .inl rfl⟩, ?_⟩
    simpa [ClientCache.add] using hc.find?_eq_none.mp hnone

/-! A whole run. -/

theorem after_append (c : ClientCache) (asks more : List Ask) :
    c.after (asks ++ more) = (c.after asks).after more := List.foldl_append

/-- By induction on the asks, each of which keeps it so. -/
theorem Accurate.after {c : ClientCache} (h : Accurate c) (asks : List Ask) :
    Accurate (c.after asks) := by
  induction asks generalizing c with
  | nil => exact h
  | cons a asks ih => exact ih (h.serve a)

theorem created_after (c : ClientCache) (asks : List Ask) :
    c.created <+: (c.after asks).created := by
  induction asks generalizing c with
  | nil => exact List.prefix_refl _
  | cons a asks ih => exact (created_serve c a).trans (ih _)

theorem Accurate.met_run {c : ClientCache} (hc : Accurate c) (asks : List Ask) :
    List.Forall₂ (Ask.Met (c.after asks).created) asks (c.answers asks) := by
  induction asks generalizing c with
  | nil => exact .nil
  | cons a asks ih =>
    -- What the first ask was given is still the first of its kind when the later ones have been met.
    exact .cons ((hc.met a).grown (created_after _ asks)) (ih (hc.serve a))

/-- A cache that has been through these asks has one client for each target and region. -/
structure OneClientEach (asks : List Ask) : Prop where
  once : (empty.after asks).created.Pairwise fun a b => a.isFor b.target b.region = false
  met : List.Forall₂ (Ask.Met (empty.after asks).created) asks (empty.answers asks)
  kept : ∀ more, (empty.after asks).created <+: (empty.after (asks ++ more)).created
  shares : ∀ a t, Target.read a.request.target = .ok t → a.request.region.hashable →
    (∃ made ∈ (empty.after asks).created, made.isFor t a.request.region) →
    ∃ n, FirstFor (empty.after asks).created t a.request.region n ∧
      (empty.after asks).serve a = (.ok (a.handed t n), empty.after asks)
  creates : ∀ a t, Target.read a.request.target = .ok t → a.request.region.hashable →
    (∀ made ∈ (empty.after asks).created, made.isFor t a.request.region = false) →
    (a.opened (a.creation t) = .ok () →
      ((empty.after asks).serve a).1 = .ok (a.handed t (empty.after asks).created.length) ∧
        ((empty.after asks).serve a).2.created = (empty.after asks).created ++ [a.creation t]) ∧
      ∀ f, a.opened (a.creation t) = .error f →
        (empty.after asks).serve a = (.error f, empty.after asks)
  unsupported : ∀ a, a.request.target ≠ .text "resource" → a.request.target ≠ .text "client" →
    (empty.after asks).serve a =
      (.error (.refused (.unknownTarget a.request.target)), empty.after asks)
  traceless : ∀ a f, ((empty.after asks).serve a).1 = .error f →
    ((empty.after asks).serve a).2 = empty.after asks

/-- Over every row of asks there is one client for each target and region, and all that ask for these
are handed it. -/
theorem one_client_each (asks : List Ask) : OneClientEach asks := by
  have haccurate : Accurate (empty.after asks) := accurate_empty.after asks
  constructor
  case once => exact haccurate.once
  case met => exact accurate_empty.met_run asks
  case kept =>
    intro more
    rw [after_append]
    exact created_after _ more
  case shares =>
    rintro a t ht hregion ⟨made, hmade, hfor⟩
    cases hfind : (empty.after asks).find? t a.request.region with
    | some n => exact ⟨n, haccurate.firstFor hfind, serve_of_known ht hregion hfind⟩
    | none => simp [haccurate.find?_eq_none.mp hfind made hmade] at hfor
  case creates =>
    intro a t ht hregion hnone
    rw [← haccurate.find?_eq_none] at hnone
    refine ⟨fun hopened => ?_, fun f hopened => serve_of_failed ht hregion hnone hopened⟩
    rw [serve_of_opened ht hregion hnone hopened]
    exact ⟨rfl, rfl⟩
  case unsupported =>
    exact fun a hresource hclient =>
      serve_of_unsupported (Target.read_of_unknown hresource hclient)
  case traceless => exact fun a f hserved => cache_of_error hserved

def closed : Creation → Result Unit := fun _ => .error (.general "no credentials")

/-- An ask that cannot be met, one whose session fails, and one that has a client created. -/
def flaky : List Ask :=
  [.client { target := .text "v2" } closed, .client { region := .text "eu" } closed,
    .executor { region := .text "eu", logCalls := .bool true } fun _ => .ok ()]

def late : Ask := .client { region := .text "eu", config := some .default } closed

theorem one_client_each_flaky :
    (empty.after flaky).created = [⟨.resource, .text "eu", none⟩] ∧
      ∃ n, FirstFor (empty.after flaky).created .resource (.text "eu") n ∧
        (empty.after flaky).serve late = (.ok (.client n), empty.after flaky) := by
  have hcreated : (empty.after flaky).created = [⟨.resource, .text "eu", none⟩] := rfl
  exact ⟨hcreated, (one_client_each flaky).shares late .resource rfl rfl
    ⟨⟨.resource, .text "eu", none⟩, by rw [hcreated]; exact List.mem_singleton_self _, rfl⟩⟩

/-- The client that could not be opened at first is created for the executor. -/
example : empty.answers flaky =
    [.error (.refused (.unknownTarget (.text "v2"))), .error (.general "no credentials"),
      .ok (.executor ⟨0, .resource, .bool true⟩)] := rfl

end ClientCache

end TableGateway
