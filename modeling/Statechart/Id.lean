/-
  Statechart.Id — identifiers.

  An identifier says what it names, so two things never share one: elements of a machine
  by the load that built it and their place in it, steps and snapshots by the run they
  belong to and a count.
-/

namespace Statechart

inductive Id where
  | machine (load : Nat)
  | state (load : Nat) (name : String)
  | transition (load : Nat) (source : String) (index : Nat)
  /-- The final pseudo-state of a transition. -/
  | final (load : Nat) (source : String) (index : Nat)
  | guard (load : Nat) (source : String) (index : Nat)
  | assignment (load : Nat) (source : String) (index place : Nat)
  | step (run count : Nat)
  | snapshot (run count : Nat)
  /-- The variables shown in a snapshot. -/
  | registry (run count : Nat)
  deriving DecidableEq, Repr

end Statechart
