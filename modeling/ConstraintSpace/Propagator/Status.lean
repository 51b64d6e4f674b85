import ConstraintSpace.Fault

/-!
# How a run of a propagator ends

A run that ends well says whether the propagator is at its own fixpoint, may
narrow further, or is entailed by the domains and no longer needed.
-/

namespace ConstraintSpace

inductive Status where
  | fix
  | noFixpoint
  | subsumed
deriving DecidableEq, Repr

inductive Verdict where
  | ended (status : Status)
  | failed (reason : Inconsistency)
  | breached (breach : Breach)
deriving DecidableEq, Repr

def Verdict.ofName? : String → Option Verdict
  | "Fix" => some (.ended .fix)
  | "NoFixpoint" => some (.ended .noFixpoint)
  | "Subsumed" => some (.ended .subsumed)
  | "Conflict" => some (.failed .conflict)
  | "EmptyDomain" => some (.failed .emptyDomain)
  | _ => none

def Misstep.verdict : Misstep → Verdict
  | .emptied => .failed .emptyDomain
  | .breached breach => .breached breach

end ConstraintSpace
