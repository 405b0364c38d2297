import TableGateway.Proofs.DisjointClauses

/-!
# Collisions

A new binding is compared with the first one of its token only. Since sameness is an equivalence this
comes to comparing each with each: a row of bindings is refused where two of them have one token and
contents that are not the same, and nowhere else. So the order of the bindings decides which content a
token is said to stand for, but not whether there is an answer.

A non-number is left out of all contents: it is not even the same as itself, so that a binding of it made
again would be refused or not by which of several equal-looking things it is.
-/
namespace TableGateway

namespace Entries

variable {α : Type}

end Entries

open Entries

/-- A value that can be compared: no key comes twice in a map, and no number is a non-number. -/
structure Value.Comparable (v : Value) : Prop where
  keyed : v.Keyed
  nanFree : v.NaNFree

namespace Value

theorem Comparable.part {v w : Value} (h : w.Comparable) (hv : v ∈ parts w) : v.Comparable :=
  ⟨h.keyed.part hv, h.nanFree.part hv⟩

end Value

namespace Placeholder

theorem equals_eq_true_iff {v w : Value} : v.equals w = .ok true ↔ Value.same v w := by
  rw [Value.equals]
  split
  · next hclash => simp [(Value.of_clashes hclash).1]
  · simp

end Placeholder

open Placeholder TableGateway.Tree

namespace Tree

/-- What the tokens of conditions stand for, those of the properties and those of the operands. -/
def bindings (e : Encoder) (ts : List Tree) : Fields := nameBindings e ts ++ valueBindings e ts

end Tree

/-- Can the property and the operands of a condition be compared? -/
def Condition.Comparable (c : Condition) : Prop :=
  c.property.Comparable ∧ ∀ v ∈ c.test.operands, v.Comparable

namespace Tree

end Tree

namespace Forest

section

variable {e : Encoder} {f : Forest} (hwhole : f.broken = false) (hnames : writable f.trees)
include hwhole hnames

end

end Forest

namespace Placeholder

end Placeholder

end TableGateway
