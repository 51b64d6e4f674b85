/-!
# Shared data

Actors of a space may refer to data that several of them, or several copies of
the space, have in common.  A handle names the instance it refers to; two
handles of one instance have one number.  A copy of a space either shares the
instances of that space or gets instances of its own, one for each instance it
meets.
-/

namespace ConstraintSpace

structure Shared (α : Type) where
  id : Nat
  content : α
deriving DecidableEq, Repr

/-- The text of a handle of a list of integers: its content. -/
def Shared.text (handle : Shared (List Int)) : String :=
  "SharedData([" ++ ", ".intercalate (handle.content.map toString) ++ "])"

inductive CopyMode where
  | sharing
  | independent
deriving DecidableEq, Repr

/-- The progress of one copy: the next number that no instance has, and the
instances met so far, each with its copy. -/
structure CopyContext where
  mode : CopyMode
  next : Nat
  copies : List (Nat × Nat)
deriving DecidableEq, Repr

namespace CopyContext

def begin (mode : CopyMode) (next : Nat) : CopyContext := { mode, next, copies := [] }

/-- The handle that the copy has in place of a handle of the copied space. -/
def copyShared {α : Type} (context : CopyContext) (handle : Shared α) :
    Shared α × CopyContext :=
  match context.mode with
  | .sharing => (handle, context)
  | .independent =>
    match context.copies.lookup handle.id with
    | some id => ({ handle with id }, context)
    | none =>
      ({ handle with id := context.next },
        { context with
          next := context.next + 1
          copies := (handle.id, context.next) :: context.copies })

def copyAll {α : Type} (context : CopyContext) :
    List (Shared α) → List (Shared α) × CopyContext
  | [] => ([], context)
  | handle :: rest =>
    let (handle, context) := context.copyShared handle
    let (rest, context) := context.copyAll rest
    (handle :: rest, context)

end CopyContext

end ConstraintSpace
