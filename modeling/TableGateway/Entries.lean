import TableGateway.Text.Basic

/-!
# Ordered maps

A map is a list of pairs in which a key stands at most once, in the order in which the keys first
came. Nothing here sorts and nothing assumes that keys are distinct: a look-up takes the first pair.
-/
namespace TableGateway

abbrev Entries (α : Type) := List (Text × α)

namespace Entries

variable {α β : Type}

/-- The value of the first pair with a key. -/
def get? : Entries α → Text → Option α
  | [], _ => none
  | (k, v) :: es, key => if k = key then some v else get? es key

def has (es : Entries α) (key : Text) : Bool := (get? es key).isSome

def keys (es : Entries α) : List Text := es.map Prod.fst

/-- A key that is there keeps its place and takes the new value; a new key goes to the end. -/
def put : Entries α → Text → α → Entries α
  | [], key, v => [(key, v)]
  | (k, w) :: es, key, v => if k = key then (k, v) :: es else (k, w) :: put es key v

/-- All pairs of the second map put into the first, in order. -/
def overlay (es fs : Entries α) : Entries α := fs.foldl (fun m e => put m e.1 e.2) es

/-- A list of pairs as a map: the last value of a key wins, in the place of its first. -/
def ofPairs (es : List (Text × α)) : Entries α := overlay [] es

def erase (es : Entries α) (key : Text) : Entries α := es.filter fun e => e.1 ≠ key

def mapValues (f : α → β) (es : Entries α) : Entries β := es.map fun e => (e.1, f e.2)

@[simp] theorem get?_nil (key : Text) : get? ([] : Entries α) key = none := rfl

@[simp] theorem get?_cons (k key : Text) (v : α) (es : Entries α) :
    get? ((k, v) :: es) key = if k = key then some v else get? es key := rfl

/-- What was put under a key is found there, and nothing else is changed. -/
theorem get?_put (es : Entries α) (k key : Text) (v : α) :
    get? (put es k v) key = if k = key then some v else get? es key := by
  induction es with
  | nil => simp [put]
  | cons e es ih =>
    obtain ⟨k', w⟩ := e
    by_cases h : k' = k
    · subst h; by_cases h' : k' = key <;> simp [put, h']
    · by_cases h' : k' = key
      · subst h'; simp [put, h, Ne.symm h]
      · simp [put, h, h', ih]

end Entries

end TableGateway
