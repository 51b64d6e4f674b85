import ConstraintSpace.Search
import Mathlib.Data.List.Basic

/-!
# Plain enumeration of the tree of choices

The recursive enumeration asks a node for its status and, where the node is branching,
for its choice once, and goes on from left to right with every alternative, committed on
a copy of its own.  The tree may be infinite, so the recursion is cut at a number of
levels; the first nodes of the enumeration do not depend on where it is cut.  A survey
lists the same nodes from a list of those that are left to enumerate.
-/

namespace ConstraintSpace

/-- A node of the tree of choices: its depth, and its space before it is asked for its
status. -/
structure Node where
  depth : Nat
  space : Space

namespace Node

def answer? (node : Node) : Option SpaceStatus :=
  match Space.status node.space with
  | .ok answer _ => some answer
  | .error _ _ => none

/-- The space of a node that is a solution. -/
def solution? (node : Node) : Option Space :=
  match Space.status node.space with
  | .ok .solved s => some s
  | _ => none

/-- The nodes at a depth for the alternatives from `next` on, each committed on a copy
of its own. -/
def alternatives (depth : Nat) (chosen : Choice) (s : Space) (next : Nat) : List Node :=
  (List.range' next (chosen.alternatives - next)).filterMap fun alternative =>
    match Space.commit chosen alternative s.clone with
    | .ok _ s => some ⟨depth, s⟩
    | .error _ _ => none

/-- The nodes below a branching node, whose choice is computed once. -/
def children (node : Node) : List Node :=
  match Space.status node.space with
  | .ok .branching s =>
    match Space.choice s with
    | .ok chosen s => alternatives (node.depth + 1) chosen s 0
    | .error _ _ => []
  | _ => []

/-- The nodes from a node on, depth first and from left to right, down to a number of
levels. -/
def enumerate : Nat → Node → List Node
  | 0, _ => []
  | levels + 1, node => node :: node.children.flatMap (enumerate levels)

/-- The first nodes of the plain enumeration from a root. -/
def firstNodes (n : Nat) (root : Space) : List Node := (enumerate n ⟨0, root⟩).take n

/-- The first nodes of an enumeration that has the nodes of a list before it. -/
def survey : Nat → List Node → List Node
  | 0, _ => []
  | _, [] => []
  | n + 1, node :: rest => node :: survey n (node.children ++ rest)

/-! ## First nodes -/

theorem take_append_take {α : Type} (n : Nat) (xs ys : List α) :
    (xs ++ ys).take n = (xs.take n ++ ys.take n).take n := by
  simp only [List.take_append, List.take_take, List.length_take, Nat.min_self]
  congr 2
  omega

theorem take_flatMap_congr {α β : Type} {f g : α → List β} {n : Nat}
    (hsame : ∀ x, (f x).take n = (g x).take n) (xs : List α) :
    (xs.flatMap f).take n = (xs.flatMap g).take n := by
  induction xs with
  | nil => rfl
  | cons x rest ih =>
      rw [List.flatMap_cons, List.flatMap_cons, take_append_take, hsame, ih, ← take_append_take]

/-- The first nodes of the enumeration lie above the cut. -/
theorem take_enumerate_succ (n : Nat) (node : Node) :
    (enumerate (n + 1) node).take n = (enumerate n node).take n := by
  induction n generalizing node with
  | zero => rfl
  | succ n ih =>
      rw [enumerate, enumerate, List.take_succ_cons, List.take_succ_cons]
      rw [take_flatMap_congr ih]

/-- A survey gives the first nodes of the enumerations in a row. -/
theorem survey_eq_take (n : Nat) (nodes : List Node) :
    survey n nodes = (nodes.flatMap (enumerate n)).take n := by
  induction n generalizing nodes with
  | zero => rfl
  | succ n ih =>
      cases nodes with
      | nil => rfl
      | cons node rest =>
          rw [survey, ih, List.flatMap_cons, enumerate, List.cons_append, List.take_succ_cons,
            List.flatMap_append]
          rw [take_append_take n _ (rest.flatMap (enumerate (n + 1))),
            take_flatMap_congr (take_enumerate_succ n), ← take_append_take]

theorem survey_root (n : Nat) (root : Space) :
    survey n [⟨0, root⟩] = firstNodes n root := by
  rw [survey_eq_take, List.flatMap_singleton, firstNodes]

end Node

end ConstraintSpace
