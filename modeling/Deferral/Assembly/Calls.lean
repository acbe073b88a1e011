import Deferral.Assembly.Build

/-!
# Sequences of calls

An assembly is asked to take an event, to start on another source or to give its tree away. A call is taken or answered
with a fault; or it crashes, and then the sequence ends with it.
-/

namespace Deferral.Assembly

/-- What can be asked of an assembly. -/
inductive Call where
  | event (e : Event)
  | startUnit (path : Path)
  | take

/-- What is left after a call, and why the call was not taken if it was not. -/
def call (a : Assembly) : Call → Assembly × Option Halt
  | .event e => a.handle e
  | .startUnit path => (a.startUnit path, none)
  | .take => (a.take.2, none)

inductive Crash where
  /-- A scope counted on more staged nodes than were left when it closed. -/
  | outOfRange (base staged : Nat)
  /-- There was no room for so many operands. -/
  | outOfMemory (count : Nat)
  deriving DecidableEq, Repr

/-- The operands that an event takes all at once. Room is made for them before the first is looked for. -/
def demand : Call → Nat
  | .event e => if e.kind = .postfixCall ∨ e.kind = .initializerList then (count? e.literal).getD 0 else 0
  | _ => 0

/-- Answers a call, where there is room for `room` operands at once. After a fault no room is needed. -/
def serve (room : Nat) (a : Assembly) (c : Call) : Except Crash (Assembly × Option Fault) :=
  if a.failure?.isNone ∧ room < demand c then .error (.outOfMemory (demand c))
  else
    match a.call c with
    | (a, none) => .ok (a, none)
    | (a, some (.fault f)) => .ok (a, some f)
    | (_, some (.outOfRange base staged)) => .error (.outOfRange base staged)

/-- Answers calls one after the other. -/
def serveAll (room : Nat) (a : Assembly) : List Call → Except Crash (Assembly × List (Option Fault))
  | [] => .ok (a, [])
  | c :: calls =>
    match a.serve room c with
    | .error crash => .error crash
    | .ok (a, answer) => (serveAll room a calls).map fun (a, answers) => (a, answer :: answers)

end Deferral.Assembly
